import KoheronSdk.Drivers.Threads

/-!
# Starting drivers on request

Any number of threads, each with any list of requests, in any order of their steps.

The threads share one recursive mutex and nothing else that they wait for, and a thread that holds
it never waits.  So as long as one of them has not come to its end, some step is possible, and as
each program is finite the threads do come to their end.

What is started depends on the requests only.  As long as no request reaches a cycle, a driver
is constructed only if some thread requests it or a driver that needs it, in a run to the
end every such driver is there, and none has gone on before what it has asked for was.
With a cycle there is no order in which this could be, and the allocation fails; the threads
come to their end all the same, and no constructor is entered twice.

* `requestThreads`: the server while its session threads run.
* `exists_step`: no thread waits for ever for the mutex.
* `failures_of_requestsCycle`: a request that reaches a cycle fails.
* `allocation_dependencyCorrect`: what is started, how often, and what before what.
-/

namespace KoheronSdk

open Effects Dependency Relation

variable {ι : Type} {drivers : List Driver}

/-- The threads with their requests, when nothing has been started. -/
def requestThreads (arch : Arch) (deps : DriverIndex drivers → List (DriverIndex drivers))
    (fuel : ℕ) (requests : ι → List (Request drivers)) :
    Config ι (ManagerAction drivers) (ManagerAnswer drivers) (ManagerWorld ι drivers) Unit where
  progs i := runRequests arch deps fuel (requests i)
  world := .initial ι drivers true

/-- Some thread requests `d`, or a driver that needs it. -/
def Requested (deps : DriverIndex drivers → List (DriverIndex drivers))
    (requests : ι → List (Request drivers)) (d : DriverIndex drivers) : Prop :=
  ∃ i, ∃ r ∈ requests i, r.Names deps d

/-- Some thread requests a driver that needs itself, or needs such a driver. -/
def RequestsCycle (deps : DriverIndex drivers → List (DriverIndex drivers))
    (requests : ι → List (Request drivers)) : Prop :=
  ∃ d, Requested deps requests d ∧ OnCycle (Needs deps) d

section

variable [DecidableEq ι] {arch : Arch} {deps : DriverIndex drivers → List (DriverIndex drivers)}
  {fuel : ℕ} {requests : ι → List (Request drivers)}
  {c : Config ι (ManagerAction drivers) (ManagerAnswer drivers) (ManagerWorld ι drivers) Unit}

/-- How a thread ends: it has been asked for what it was to be asked for, and has seen that
started. -/
def ManagerView.Done (rs : List (Request drivers)) (v : ManagerView drivers) : Prop :=
  v.held = none ∧ v.requested = rs ∧ ∀ r ∈ rs, ∀ d, r.driver? = some d → d ∈ v.known

/-- The outline of the threads with their requests. -/
noncomputable abbrev requestOutline
    (deps : DriverIndex drivers → List (DriverIndex drivers))
    (requests : ι → List (Request drivers)) :
    Outline (managerSystem drivers (none : Option ι)) (ManagerView drivers) Unit Unit :=
  managerOutline deps none (fun i => ⟨(· ∈ requests i), False⟩)
    fun i => ManagerView.Done (requests i)

omit [DecidableEq ι] in
theorem ManagerWorld.inv_initial (main : Option ι) (allowed : ι → Allowed drivers)
    (serving : Bool) : (ManagerWorld.initial ι drivers serving).Inv deps main allowed where
  coherent _ := coherent_initial
  known _ _ h := h.elim
  made _ h := Bool.noConfusion h
  entered_nodup := List.nodup_nil
  references _ _ h := absurd h List.not_mem_nil
  journal _ h := absurd h List.not_mem_nil
  entered _ h := absurd h List.not_mem_nil
  failures _ h := absurd h List.not_mem_nil
  exitAll h := absurd rfl h
  quiet _ _ _ := rfl
  begun _ _ h := absurd h List.not_mem_nil
  stopped h := Bool.noConfusion h

theorem holds_requestThreads (hfuel : drivers.length < fuel) :
    (requestOutline deps requests).Holds (requestThreads arch deps fuel requests) := by
  refine ⟨ManagerWorld.inv_initial _ _ _, fun i => ?_⟩
  refine (alone deps _).wp_mono ?_ (wp_runRequests hfuel (fun r hr => hr) rfl)
  rintro _ ⟨v, rfl, hheld, hrequested, -, -, hknown⟩
  exact ⟨v, rfl, hheld, hrequested, hknown⟩

/-- Every configuration that can be reached keeps the outline. -/
theorem holds_of_reachable (hfuel : drivers.length < fuel)
    (h : (managerSystem drivers none).Reachable (requestThreads arch deps fuel requests) c) :
    (requestOutline deps requests).Holds c :=
  (requestOutline deps requests).sound (holds_requestThreads hfuel) h

theorem serving_of_reachable
    (h : (managerSystem drivers none).Reachable (requestThreads arch deps fuel requests) c) :
    c.world.serving = true := by
  refine System.Reachable.invariant (managerSystem drivers none)
    (P := fun c => c.world.serving = true)
    ?_ rfl h
  rintro c _ hserving ⟨-, -, -⟩
  rename_i e _ _
  cases e with
  | startWorkers => rfl
  | _ => exact hserving

/-- The threads can always be run to their end. -/
theorem exists_finished [Fintype ι] (hfuel : drivers.length < fuel)
    (requests : ι → List (Request drivers)) :
    ∃ c, (managerSystem drivers none).Reachable (requestThreads arch deps fuel requests) c ∧
      c.Finished := by
  obtain ⟨c, hreach, hterminal⟩ :=
    (managerSystem drivers none).exists_terminal (requestThreads arch deps fuel requests)
  refine ⟨c, hreach, ?_⟩
  rcases finished_or_exists_step (holds_of_reachable hfuel hreach) (fun _ _ hdone => hdone.1)
    (serving_of_reachable hreach) with hfinished | ⟨c', hstep⟩
  · exact hfinished
  · exact absurd hstep (hterminal c')

/-- At the end every request has been served and nobody has the mutex. -/
theorem coherent_of_finished (hfuel : drivers.length < fuel)
    (h : (managerSystem drivers none).Reachable (requestThreads arch deps fuel requests) c)
    (hfinished : c.Finished) :
    Coherent deps [] c.world.manager ∧
      ∀ i, ∀ r ∈ requests i, ∀ d, r.driver? = some d → c.world.manager.isStarted d = true := by
  have hholds := holds_of_reachable hfuel h
  have howner := owner_eq_none_of_finished hholds (fun _ _ hdone => hdone.1) hfinished
  refine ⟨hholds.inv.coherent howner, fun i r hr d hd => ?_⟩
  obtain ⟨a, ha⟩ := hfinished i
  obtain ⟨v, hv, -, -, hknown⟩ := hholds.post_of_pure ha
  have hview : c.world.view none i = v := (Result.ret.inj hv).2
  refine hholds.inv.known i d ?_
  change d ∈ (c.world.view none i).known
  rw [hview]
  exact hknown r hr d hd

/-- What has failed has failed for a request that reaches a cycle. -/
theorem requestsCycle_of_failures (hfuel : drivers.length < fuel)
    (h : (managerSystem drivers none).Reachable (requestThreads arch deps fuel requests) c)
    (hf : c.world.manager.failures ≠ []) : RequestsCycle deps requests := by
  have hinv := (holds_of_reachable hfuel h).inv
  obtain ⟨i, r, hr, d, hd, e, hreach, hcycle⟩ := hinv.exists_of_failures hf
  exact ⟨e, ⟨i, r, hinv.begun i r hr, d, hd, hreach⟩, hcycle⟩

/-- What is started has all that it needs started, if nothing has failed. -/
theorem Coherent.isStarted_of_reaches {stack : List (DriverIndex drivers)}
    {m : ManagerState drivers} (h : Coherent deps stack m) (hf : m.failures = [])
    {d e : DriverIndex drivers} (hd : m.isStarted d = true)
    (hreach : ReflTransGen (Needs deps) d e) : m.isStarted e = true := by
  induction hreach with
  | refl => exact hd
  | tail _ hneeds ih => exact h.closed hf _ ih _ hneeds

/-- **A request that reaches a cycle fails**, in every run to the end. -/
theorem failures_of_requestsCycle (hfuel : drivers.length < fuel)
    (h : (managerSystem drivers none).Reachable (requestThreads arch deps fuel requests) c)
    (hfinished : c.Finished) (hcycle : RequestsCycle deps requests) :
    c.world.manager.failures ≠ [] := by
  intro hf
  obtain ⟨hcoherent, hstarted⟩ := coherent_of_finished hfuel h hfinished
  obtain ⟨e, ⟨i, r, hr, d, hd, hreach⟩, hcycle⟩ := hcycle
  have hd' := hstarted i r hr d hd
  exact (hcoherent.grounded hf d hd').not_reachesCycle ⟨e, hreach, hcycle⟩

/-- What holds when no request reaches a cycle: nothing else is constructed, no constructor
goes on before what it has asked for is there, the marks agree outside of an allocation, and
at the end everything that was requested has been constructed. -/
structure DependencyCorrect (deps : DriverIndex drivers → List (DriverIndex drivers))
    (requests : ι → List (Request drivers))
    (c : Config ι (ManagerAction drivers) (ManagerAnswer drivers) (ManagerWorld ι drivers) Unit) :
    Prop where
  requested : ∀ d ∈ c.world.manager.entered, Requested deps requests d
  references : ∀ r ∈ c.world.manager.references, r.2 = (true, true)
  marks : c.world.owner = none → (∀ d, c.world.manager.isStarting d = false) ∧
    c.world.manager.containerIsStarted = c.world.manager.isStarted
  constructed : c.Finished → ∀ d, Requested deps requests d →
    d ∈ c.world.manager.entered ∧ c.world.manager.driverTuple d = true ∧
      c.world.manager.isStarted d = true

theorem dependencyCorrect_of_reachable (hfuel : drivers.length < fuel)
    (h : (managerSystem drivers none).Reachable (requestThreads arch deps fuel requests) c)
    (hcycle : ¬ RequestsCycle deps requests) : DependencyCorrect deps requests c := by
  have hinv := (holds_of_reachable hfuel h).inv
  have hf : c.world.manager.failures = [] := by
    by_contra hf
    exact hcycle (requestsCycle_of_failures hfuel h hf)
  refine ⟨fun d hd => ?_, hinv.references hf, fun howner => ?_, fun hfinished d hd => ?_⟩
  · obtain ⟨t, ht, hdeed⟩ := hinv.entered d hd
    obtain ⟨r, hr, -, hpermits⟩ := hinv.journal t ht
    rw [hdeed] at hpermits
    have hnames : r.Names deps d := by cases r <;> exact hpermits
    exact ⟨t.1, r, hinv.begun _ r hr, hnames⟩
  · have hcoherent := hinv.coherent howner
    refine ⟨fun d => ?_, hcoherent.container⟩
    by_contra hstarting
    exact List.not_mem_nil ((hcoherent.starting d).mp (Bool.not_eq_false _ ▸ hstarting))
  · obtain ⟨hcoherent, hstarted⟩ := coherent_of_finished hfuel h hfinished
    obtain ⟨i, r, hr, x, hx, hreach⟩ := hd
    have hd' := hcoherent.isStarted_of_reaches hf (hstarted i r hr x hx) hreach
    exact ⟨(hcoherent.mem_entered d).mpr (Or.inl hd'), (hinv.made d hd').1, hd'⟩

/-- **Driver allocation is dependency-correct.**  The threads come to an end whatever the
order of their steps, without a fault and with the fuel that they have, and no constructor is
entered twice; what else holds depends on whether a request reaches a cycle. -/
theorem allocation_dependencyCorrect [Fintype ι] (arch : Arch)
    (deps : DriverIndex drivers → List (DriverIndex drivers))
    (requests : ι → List (Request drivers)) (more : ℕ) :
    WellFounded (fun c' c : Config ι (ManagerAction drivers) (ManagerAnswer drivers)
      (ManagerWorld ι drivers) Unit => (managerSystem drivers none).Step c c') ∧
    ∀ c, (managerSystem drivers none).Reachable
        (requestThreads arch deps (drivers.length + 1 + more) requests) c →
      (c.Finished ∨ ∃ c', (managerSystem drivers none).Step c c') ∧
      (∀ i e k, c.progs i = .act e k → e ≠ .outOfFuel ∧ ∀ f, e ≠ .fault f) ∧
      c.world.manager.entered.Nodup ∧
      (¬ RequestsCycle deps requests → DependencyCorrect deps requests c) ∧
      (RequestsCycle deps requests → c.Finished → c.world.exitAll = true) := by
  have hfuel : drivers.length < drivers.length + 1 + more := by omega
  refine ⟨System.wellFounded_step _, fun c h => ?_⟩
  have hholds := holds_of_reachable hfuel h
  have hserving := serving_of_reachable h
  refine ⟨finished_or_exists_step hholds (fun _ _ hdone => hdone.1) hserving, ?_,
    hholds.inv.entered_nodup, dependencyCorrect_of_reachable hfuel h, fun hcycle hfinished => ?_⟩
  · intro i e k hprog
    refine ⟨?_, fun f => ?_⟩
    · rintro rfl
      exact (guard_of_holds hholds hprog ⟨Or.inr hserving, trivial⟩).ready
    · rintro rfl
      exact (guard_of_holds hholds hprog ⟨Or.inr hserving, trivial⟩).ready
  · exact hholds.inv.exitAll (failures_of_requestsCycle hfuel h hfinished hcycle)

end

end KoheronSdk
