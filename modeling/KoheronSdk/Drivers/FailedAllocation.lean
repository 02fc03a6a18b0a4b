import KoheronSdk.Drivers.Starting

/-!
# What a failed allocation leaves behind

`alloc_driver` returns nothing, so a constructor does not see that what it has asked for
could not be allocated.  It goes on, and its driver is marked like any other.

The code wants more: `alloc` returns an error, and `exit_all` is raised so that the server goes
down.  Until it does, the driver whose constructor asked for itself over some way is marked
at both levels, a reference to it has been made from an empty pointer, and its operations
are executed for whoever asks.

An allocation fails exactly when it closes a cycle of constructors, and this
does not depend on the other threads: a request that reaches a cycle runs into it, unless the
cycle has already failed for another request.  So in a run to the end either no request
reaches a cycle and nothing fails, or one does, and some driver is marked that should not
be.

* `Poisoned`: what a failed allocation ought to do to the drivers that were pending.
* `not_poisoned_of_finished`: a driver that was pending is marked in the end.
* `poisoned_iff`: it does so if and only if no request reaches a cycle, where nothing fails.
-/

namespace KoheronSdk

open Effects Dependency Relation

variable {ι : Type} {drivers : List Driver}

/-- No driver whose constructor was pending when an allocation failed is marked or has an
operation executed, and no constructor has gone on with a driver that is not there. -/
structure Poisoned
    (c : Config ι (ManagerAction drivers) (ManagerAnswer drivers) (ManagerWorld ι drivers) Unit) :
    Prop where
  marks : ∀ f ∈ c.world.manager.failures, ∀ d, f.2 d = true →
    c.world.manager.isStarted d = false ∧ c.world.manager.containerIsStarted d = false
  calls : ∀ f ∈ c.world.manager.failures, ∀ d, f.2 d = true →
    ∀ t ∈ c.world.journal, ∀ operation, t.2.2 ≠ .call (d + firstDriverId) operation
  references : ∀ r ∈ c.world.manager.references, r.2.1 = true

section

variable [DecidableEq ι] {arch : Arch} {deps : DriverIndex drivers → List (DriverIndex drivers)}
  {fuel : ℕ} {requests : ι → List (Request drivers)}
  {c : Config ι (ManagerAction drivers) (ManagerAnswer drivers) (ManagerWorld ι drivers) Unit}

theorem poisoned_of_failures (hfuel : drivers.length < fuel)
    (h : (managerSystem drivers none).Reachable (requestThreads arch deps fuel requests) c)
    (hf : c.world.manager.failures = []) : Poisoned c where
  marks f hmem := by
    rw [hf] at hmem
    cases hmem
  calls f hmem := by
    rw [hf] at hmem
    cases hmem
  references r hr := by
    have hboth := (holds_of_reachable hfuel h).inv.references hf r hr
    rw [hboth]

/-- **A driver that was pending when an allocation failed is marked in the end.** -/
theorem not_poisoned_of_finished (hfuel : drivers.length < fuel)
    (h : (managerSystem drivers none).Reachable (requestThreads arch deps fuel requests) c)
    (hfinished : c.Finished) (hcycle : RequestsCycle deps requests) : ¬ Poisoned c := by
  intro hpoisoned
  have hcoherent := (coherent_of_finished hfuel h hfinished).1
  obtain ⟨f, hf⟩ := List.exists_mem_of_ne_nil _ (failures_of_requestsCycle hfuel h hfinished hcycle)
  obtain ⟨d, hd⟩ := hcoherent.pending f hf
  rcases hcoherent.poisoned f hf d hd with hstarted | hstack
  · rw [(hpoisoned.marks f hf d hd).1] at hstarted
    cases hstarted
  · exact absurd hstack List.not_mem_nil

theorem exists_not_poisoned [Fintype ι] (arch : Arch) (hfuel : drivers.length < fuel)
    (hcycle : RequestsCycle deps requests) :
    ∃ c, (managerSystem drivers none).Reachable (requestThreads arch deps fuel requests) c ∧
      ¬ Poisoned c := by
  obtain ⟨c, hreach, hfinished⟩ := exists_finished hfuel requests
  exact ⟨c, hreach, not_poisoned_of_finished hfuel hreach hfinished hcycle⟩

/-- **When a failed allocation poisons its dependents**: never, but that none fails as long as
no request reaches a cycle. -/
theorem poisoned_iff [Fintype ι] (arch : Arch)
    (deps : DriverIndex drivers → List (DriverIndex drivers))
    (requests : ι → List (Request drivers)) (more : ℕ) :
    (∀ c, (managerSystem drivers none).Reachable
        (requestThreads arch deps (drivers.length + 1 + more) requests) c → Poisoned c) ↔
      ¬ RequestsCycle deps requests := by
  have hfuel : drivers.length < drivers.length + 1 + more := by omega
  constructor
  · intro hall hcycle
    obtain ⟨c, hreach, hnot⟩ := exists_not_poisoned arch hfuel hcycle
    exact hnot (hall c hreach)
  · intro hcycle c hreach
    refine poisoned_of_failures hfuel hreach ?_
    by_contra hf
    exact hcycle (requestsCycle_of_failures hfuel hreach hf)

/-- A driver that asks for itself is requested by one thread, and is marked afterwards. -/
theorem not_poisoned_self :
    ¬ ∀ c, (managerSystem probeDrivers (none : Option Unit)).Reachable
      (requestThreads .lp64 (fun d => [d]) 2 fun _ => [.get ⟨0, Nat.one_pos⟩]) c → Poisoned c := by
  intro hall
  have hfuel : probeDrivers.length < 2 := Nat.one_lt_two
  have hcycle : RequestsCycle (fun d : DriverIndex probeDrivers => [d])
      fun _ : Unit => [.get ⟨0, Nat.one_pos⟩] := by
    refine ⟨⟨0, Nat.one_pos⟩, ⟨(), _, List.mem_singleton_self _, _, rfl, .refl⟩, ?_⟩
    exact TransGen.single (List.mem_singleton_self _)
  obtain ⟨c, hreach, hnot⟩ := exists_not_poisoned .lp64 hfuel hcycle
  exact hnot (hall c hreach)

end

end KoheronSdk
