import KoheronSdk.Drivers.Starting

/-!
# Dispatching commands

What `DriverManager::execute` does for a command whose driver id is below `device_num`,
whatever the state that the other threads have brought the driver manager to.

The id 0 is let through by the assertion and gives 0, which is no error; the id 1 is the server's
own and is not dispatched to the list of drivers.  For all others the driver
is started first if it is not marked, and then the entry of `device_list` is dereferenced.
Between the test and the access other threads go on.  An entry is never taken away
again, so what the thread has seen started stays started, and this is all that it needs to
know about the others.

A failed allocation does not keep the constructors that were pending from going on, so the
entry is there even then; what has become of the driver is the matter of
`Drivers/FailedAllocation`.

* `DispatchesSafely`: no access out of bounds, no empty entry of `device_list` dereferenced,
  nothing started or called but what the command names.
* `dispatch_safely`: this holds in every run.
* `execute_noDriver`: the id 0 is no error.
-/

namespace KoheronSdk

open Effects Relation

variable {ι : Type} {drivers : List Driver}

/-- What the threads have done for their requests, and do not do. -/
structure DispatchesSafely (deps : DriverIndex drivers → List (DriverIndex drivers))
    (requests : ι → List (Request drivers))
    (c : Config ι (ManagerAction drivers) (ManagerAnswer drivers) (ManagerWorld ι drivers) Unit) :
    Prop where
  noFault : ∀ i e k, c.progs i = .act e k → ∀ f, e ≠ .fault f
  starts : ∀ t ∈ c.world.journal, ∀ d, t.2.2 = .enter d →
    ∃ r ∈ requests t.1, t.2.1 = some r ∧ r.Names deps d
  calls : ∀ t ∈ c.world.journal, ∀ driver operation, t.2.2 = .call driver operation →
    ∃ s cmd h, Request.execute s cmd h ∈ requests t.1 ∧ t.2.1 = some (.execute s cmd h) ∧
      driver = cmd.driver ∧ operation = cmd.operation ∧
      ∃ op, findOperation drivers driver operation = some op
  unknown : ∀ t ∈ c.world.journal, ∀ s cmd h, t.2.1 = some (.execute s cmd h) →
    findOperation drivers cmd.driver cmd.operation = none →
    (∃ d, t.2.2 = .enter d ∨ t.2.2 = .fail d) ∨
      t.2.2 = .finish (if cmd.driver = 0 then 0 else -1)
  reserved : ∀ t ∈ c.world.journal, ∀ s cmd h, t.2.1 = some (.execute s cmd h) →
    cmd.driver < firstDriverId → ∀ d, t.2.2 ≠ .enter d ∧ t.2.2 ≠ .fail d

/-- A command for an operation that does not exist starts a driver at most, and gives an
error, unless it is for `NoDriver`. -/
theorem permits_unknown {deps : DriverIndex drivers → List (DriverIndex drivers)} {s : Session}
    {cmd : Command} {h : cmd.driver < deviceNum drivers} {deed : Deed drivers}
    (hpermits : (Request.execute s cmd h).Permits deps deed)
    (hunknown : findOperation drivers cmd.driver cmd.operation = none) :
    (∃ d, deed = .enter d ∨ deed = .fail d) ∨
      deed = .finish (if cmd.driver = 0 then 0 else -1) := by
  cases deed with
  | enter d => exact Or.inl ⟨d, Or.inl rfl⟩
  | fail d => exact Or.inl ⟨d, Or.inr rfl⟩
  | call driver operation =>
    obtain ⟨rfl, rfl, op, hop⟩ := hpermits
    rw [hunknown] at hop
    cases hop
  | touch =>
    obtain ⟨op, hop⟩ := hpermits
    rw [hunknown] at hop
    cases hop
  | finish n =>
    refine Or.inr (congrArg Deed.finish ?_)
    by_cases hzero : cmd.driver = 0
    · rw [if_pos hzero]
      exact hpermits.1 hzero
    · rw [if_neg hzero]
      exact hpermits.2 hzero hunknown

/-- A command for `NoDriver` or `Server` names no driver that can be started. -/
theorem not_names_reserved {deps : DriverIndex drivers → List (DriverIndex drivers)} {s : Session}
    {cmd : Command} {h : cmd.driver < deviceNum drivers} (hsmall : cmd.driver < firstDriverId)
    (d : DriverIndex drivers) : ¬ (Request.execute s cmd h).Names deps d := by
  rintro ⟨x, hx, -⟩
  rw [Request.driver?, dif_neg (by omega)] at hx
  cases hx

/-- **Dispatch is safe** for every command whose driver id is below `device_num`. -/
theorem dispatch_safely [DecidableEq ι] (arch : Arch)
    (deps : DriverIndex drivers → List (DriverIndex drivers))
    (requests : ι → List (Request drivers)) (more : ℕ)
    {c : Config ι (ManagerAction drivers) (ManagerAnswer drivers) (ManagerWorld ι drivers) Unit}
    (hreach : (managerSystem drivers none).Reachable
      (requestThreads arch deps (drivers.length + 1 + more) requests) c) :
    DispatchesSafely deps requests c := by
  have hfuel : drivers.length < drivers.length + 1 + more := by omega
  have hholds := holds_of_reachable hfuel hreach
  have hserving := serving_of_reachable hreach
  have hjournal : ∀ t ∈ c.world.journal, ∃ r ∈ requests t.1, t.2.1 = some r ∧
      r.Permits deps t.2.2 := by
    intro t ht
    obtain ⟨r, hr, hrequest, hpermits⟩ := hholds.inv.journal t ht
    exact ⟨r, hholds.inv.begun t.1 r hr, hrequest, hpermits⟩
  constructor
  · rintro i e k hprog f rfl
    exact (guard_of_holds hholds hprog ⟨Or.inr hserving, trivial⟩).ready
  · intro t ht d hdeed
    obtain ⟨r, hr, hrequest, hpermits⟩ := hjournal t ht
    rw [hdeed] at hpermits
    exact ⟨r, hr, hrequest, by cases r <;> exact hpermits⟩
  · intro t ht driver operation hdeed
    obtain ⟨r, hr, hrequest, hpermits⟩ := hjournal t ht
    rw [hdeed] at hpermits
    cases r with
    | get d => exact hpermits.elim
    | execute s cmd h => exact ⟨s, cmd, h, hr, hrequest, hpermits⟩
  · intro t ht s cmd h hrequest hunknown
    obtain ⟨r, -, hrequest', hpermits⟩ := hjournal t ht
    obtain rfl := Option.some.inj (hrequest'.symm.trans hrequest)
    exact permits_unknown hpermits hunknown
  · intro t ht s cmd h hrequest hsmall d
    obtain ⟨r, -, hrequest', hpermits⟩ := hjournal t ht
    obtain rfl := Option.some.inj (hrequest'.symm.trans hrequest)
    refine ⟨fun hdeed => ?_, fun hdeed => ?_⟩
    · rw [hdeed] at hpermits
      exact not_names_reserved hsmall d hpermits
    · rw [hdeed] at hpermits
      exact not_names_reserved hsmall d hpermits.1

/-- Two threads with a command each, for a driver that asks for itself and for `NoDriver`, run
to their end. -/
theorem dispatch_safely_probe :
    let s : Session := ⟨.tcp, 0, ⟨fun _ => 0, 0, 0, 0, 0, false⟩, false⟩
    let cmd := Command.uninitialized fun _ => 0
    let requests : Bool → List (Request probeDrivers) := fun b =>
      if b then [.execute s { cmd with driver := 2, operation := 1 } (by decide)]
      else [.execute s { cmd with driver := 0 } (by decide)]
    ∃ c, (managerSystem probeDrivers none).Reachable
      (requestThreads .lp64 (fun d => [d]) (probeDrivers.length + 1 + 0) requests) c ∧
      c.Finished ∧ DispatchesSafely (fun d => [d]) requests c := by
  intro s cmd requests
  have hfuel : probeDrivers.length < probeDrivers.length + 1 + 0 := by decide
  obtain ⟨c, hreach, hfinished⟩ := exists_finished hfuel requests
  exact ⟨c, hreach, hfinished, dispatch_safely .lp64 (fun d => [d]) requests 0 hreach⟩

/-- A command for `NoDriver`, which has no operation, gives 0 and no error. -/
theorem execute_noDriver :
    ¬ ∀ (s : Session) (cmd : Command),
      findOperation probeDrivers cmd.driver cmd.operation = none →
      (DriverManager.execute .lp64 probeDrivers s cmd).Gives fun p => p.1 < 0 := by
  intro hall
  let ws : WebSocket := ⟨fun _ => 0, 0, 0, 0, 0, false⟩
  let cmd : Command := { Command.uninitialized (fun _ => 0) with driver := 0 }
  have hgives : (0 : ℤ) < 0 := hall ⟨.tcp, 0, ws, false⟩ cmd rfl
  exact absurd hgives (by decide)

end KoheronSdk
