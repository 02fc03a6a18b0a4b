import KoheronSdk.Server.Footprint
import KoheronSdk.Server.Serving
import KoheronSdk.Drivers.Coherence

/-!
# A thread in the driver manager

What one thread sees of the driver manager: its state while the thread holds the mutex, and
otherwise only the drivers that it has seen started.  `alone deps allowed` is the meaning of
the actions from there.  It stops a thread that does what it must not do, so that a thread
whose runs all end does none of it.

## From one thread to many

The programs of the manager are recursive, and several of them run at the same time.  Both
together would be hard to follow, so they are taken apart.  Here one thread is run by itself
against its view, with rules for the weakest precondition of a program; `Drivers/Threads` shows
that the view is a true picture of what the thread sees among the others.

The view forgets the state when the mutex is released for the last time, as any thread may
have it next.  What is left are the drivers that were seen started, since no mark is ever
cleared.  When the mutex is taken again, the state is any coherent one in which these are
still marked.

## The recursion

`Allocates` says of an allocator what it does with room for so many constructors more.  The
statement for `n + 1` needs the one for `n` only, through the constructor's body, which asks
for one driver after the other.  When the room is out, all drivers are pending, and one more
would be pending twice.

* `Request.Permits`: what may be done for a request.
* `wp_managerAllocDriver`: `alloc_driver` with the mutex held, whatever is pending.
* `wp_managerAllocDriver_free`: the same from outside.
* `wp_runRequests`: a thread with all of its requests.
-/

namespace KoheronSdk

open Effects Dependency Relation

variable {drivers : List Driver}

/-! ## What is permitted -/

/-- The request is for `d`, or for a driver that needs it. -/
def Request.Names (deps : DriverIndex drivers → List (DriverIndex drivers)) (r : Request drivers)
    (d : DriverIndex drivers) : Prop := ∃ x, r.driver? = some x ∧ ReflTransGen (Needs deps) x d

/-- What a thread does for a request; it touches its session or the arguments of an operation
when it reads, stores or writes. -/
inductive Deed (drivers : List Driver) where
  | enter (d : DriverIndex drivers)
  | fail (d : DriverIndex drivers)
  | call (driver operation : ℕ)
  | touch
  | finish (n : ℤ)

/-- What may be done for a request. -/
def Request.Permits (deps : DriverIndex drivers → List (DriverIndex drivers)) :
    Request drivers → Deed drivers → Prop
  | r, .enter d => r.Names deps d
  | r, .fail d => r.Names deps d ∧ OnCycle (Needs deps) d
  | .get _, .call _ _ => False
  | .execute _ cmd _, .call driver operation =>
    driver = cmd.driver ∧ operation = cmd.operation ∧
      ∃ op, findOperation drivers driver operation = some op
  | .get _, .touch => False
  | .execute _ cmd _, .touch => ∃ op, findOperation drivers cmd.driver cmd.operation = some op
  | .get _, .finish _ => False
  | .execute _ cmd _, .finish n =>
    (cmd.driver = 0 → n = 0) ∧
      (cmd.driver ≠ 0 → findOperation drivers cmd.driver cmd.operation = none → n = -1)

/-- The deed that an action is. -/
def ManagerAction.deed? : ManagerAction drivers → Option (Deed drivers)
  | .enter d => some (.enter d)
  | .fail d => some (.fail d)
  | .finish n => some (.finish n)
  | .session (.call driver operation _) => some (.call driver operation)
  | .session (.read _) | .session (.store _ _ _ _) | .session (.write _ _) => some .touch
  | _ => none

/-- The action is for a thread that holds the mutex. -/
def ManagerAction.guarded : ManagerAction drivers → Bool
  | .setIsStarted _ | .containerIsStarted _ | .setContainerIsStarted _ | .isStarting _
  | .setIsStarting _ _ | .enter _ | .refer _ _ | .setDriverTuple _ | .setDeviceList _
  | .fail _ => true
  | _ => false

/-- What has to hold of the state before an action: no constructor is entered twice, none
goes on without what it has asked for as long as nothing has failed, and a driver is marked
when it is there. -/
def ManagerAction.Checked : ManagerAction drivers → ManagerState drivers → Prop
  | .enter d, m => d ∉ m.entered
  | .refer _ dep, m => m.failures = [] → m.driverTuple dep = true ∧ m.isStarted dep = true
  | .setIsStarted d, m => m.driverTuple d = true ∧ m.deviceList d = true
  | _, _ => True

/-- The state after an action of the thread that holds the mutex. -/
def ManagerState.act (m : ManagerState drivers) : ManagerAction drivers → ManagerState drivers
  | .setIsStarted d => { m with isStarted := Function.update m.isStarted d true }
  | .setContainerIsStarted d =>
    { m with containerIsStarted := Function.update m.containerIsStarted d true }
  | .setIsStarting d b => { m with isStarting := Function.update m.isStarting d b }
  | .enter d => { m with entered := m.entered ++ [d] }
  | .refer _ dep => m.refer dep
  | .setDriverTuple d => { m with driverTuple := Function.update m.driverTuple d true }
  | .setDeviceList d => { m with deviceList := Function.update m.deviceList d true }
  | .fail d => m.fail d
  | _ => m

/-! ## The view of a thread -/

/-- What a thread may do: begin these requests, and take the shutdown branch. -/
structure Allowed (drivers : List Driver) where
  request : Request drivers → Prop
  shutdown : Prop

/-- What a thread has been asked for, the state that it holds and how often it has locked
the mutex, the drivers that it has seen started, and whether it runs by itself. -/
structure ManagerView (drivers : List Driver) where
  requested : List (Request drivers)
  held : Option (ℕ × ManagerState drivers)
  known : Set (DriverIndex drivers)
  quiet : Bool

namespace ManagerView

variable (deps : DriverIndex drivers → List (DriverIndex drivers)) (v : ManagerView drivers)

/-- What the thread does is permitted by the request that it serves. -/
def Permits (deed : Deed drivers) : Prop :=
  ∃ r, v.requested.getLast? = some r ∧ r.Permits deps deed

/-- No request of the thread reaches a cycle. -/
def Sound : Prop :=
  ∀ r ∈ v.requested, ∀ d, r.driver? = some d → ¬ ReachesCycle (Needs deps) d

/-- What else has to hold before an action. -/
def Ready (allowed : Allowed drivers) : ManagerAction drivers → Prop
  | .unlock => ∃ k m, v.held = some (k + 1, m) ∧ (k = 0 → Coherent deps [] m)
  | .dereference d => d ∈ v.known
  | .begin r => v.held = none ∧ allowed.request r
  | .shutdown => allowed.shutdown
  | .fault _ | .outOfFuel => False
  | .storeExitAll _ => v.quiet = true ∧ v.Sound deps
  | _ => True

/-- What has to hold before an action. -/
structure Guard (allowed : Allowed drivers) (e : ManagerAction drivers) : Prop where
  guarded : e.guarded = true → v.held ≠ none
  checked : ∀ k m, v.held = some (k, m) → e.Checked m
  permitted : ∀ deed, e.deed? = some deed → v.Permits deps deed
  ready : v.Ready deps allowed e

/-- What a thread can be answered. -/
def ok : (e : ManagerAction drivers) → ManagerView drivers → ManagerAnswer drivers e → Prop
  | .lock, v, (m : ManagerState drivers) =>
    match v.held with
    | none => Coherent deps [] m ∧ ∀ d ∈ v.known, m.isStarted d = true
    | some (_, m') => m = m'
  | .isStarted d, v, (b : Bool) => ∀ k m, v.held = some (k, m) → b = m.isStarted d
  | .containerIsStarted d, v, (b : Bool) =>
    ∀ k m, v.held = some (k, m) → b = m.containerIsStarted d
  | .isStarting d, v, (b : Bool) => ∀ k m, v.held = some (k, m) → b = m.isStarting d
  | .device d, v, (type : Option ℕ) => d ∈ v.known → type = some (d + firstDriverId)
  | _, _, _ => True

/-- The view when the mutex has been released once, with the state `m`. -/
def released (k : ℕ) (m : ManagerState drivers) : ManagerView drivers :=
  match k with
  | 0 => { v with held := none, known := v.known ∪ {d | m.isStarted d = true} }
  | k + 1 => { v with held := some (k + 1, m) }

/-- The view after an action. -/
def next : (e : ManagerAction drivers) → ManagerView drivers → ManagerAnswer drivers e →
    ManagerView drivers
  | .lock, v, (m : ManagerState drivers) =>
    match v.held with
    | none => { v with held := some (1, m) }
    | some (k, _) => { v with held := some (k + 1, m) }
  | .unlock, v, _ =>
    match v.held with
    | some (k + 1, m) => v.released k m
    | _ => v
  | .isStarted d, v, (b : Bool) =>
    match v.held with
    | none => if b then { v with known := insert d v.known } else v
    | some _ => v
  | .begin r, v, _ => { v with requested := v.requested ++ [r] }
  | .startWorkers, v, _ => { v with quiet := false }
  | e, v, _ => { v with held := v.held.map fun p => (p.1, p.2.act e) }

end ManagerView

open Classical in
/-- The meaning of the actions in the view of one thread, which may do what is `allowed`. -/
noncomputable def alone (deps : DriverIndex drivers → List (DriverIndex drivers))
    (allowed : Allowed drivers) :
    Handler (ManagerAction drivers) (ManagerAnswer drivers) (ManagerView drivers) Unit where
  stop e v := if v.Guard deps allowed e then none else some ()
  ok := ManagerView.ok deps
  next := ManagerView.next

section Rules

variable {deps : DriverIndex drivers → List (DriverIndex drivers)}
  {allowed : Allowed drivers} {v : ManagerView drivers}

theorem stop_alone {e : ManagerAction drivers} (h : v.Guard deps allowed e) :
    (alone deps allowed).stop e v = none := if_pos h

theorem ManagerView.with_map_held (hheld : v.held = none)
    (f : ℕ × ManagerState drivers → ℕ × ManagerState drivers) :
    ({ v with held := v.held.map f } : ManagerView drivers) = v := by
  rw [hheld, Option.map_none, ← hheld]

theorem guard_of_stop {e : ManagerAction drivers} (h : (alone deps allowed).stop e v = none) :
    v.Guard deps allowed e := by
  by_contra hguard
  have hstop : (alone deps allowed).stop e v = some () := if_neg hguard
  rw [hstop] at h
  cases h

/-- The view of a thread that holds the mutex, with another state. -/
def ManagerView.holding (v : ManagerView drivers) (k : ℕ) (m : ManagerState drivers) :
    ManagerView drivers := { v with held := some (k, m) }

@[simp] theorem ManagerView.held_holding (k : ℕ) (m : ManagerState drivers) :
    (v.holding k m).held = some (k, m) := rfl

@[simp] theorem ManagerView.requested_holding (k : ℕ) (m : ManagerState drivers) :
    (v.holding k m).requested = v.requested := rfl

@[simp] theorem ManagerView.holding_holding (k l : ℕ) (m m' : ManagerState drivers) :
    (v.holding k m).holding l m' = v.holding l m' := rfl

/-- An action on the state of a thread that holds the mutex. -/
theorem wp_act {e : ManagerAction drivers} {k : ℕ} {m : ManagerState drivers}
    (hguard : (v.holding k m).Guard deps allowed e)
    (hnext : ∀ x, ManagerView.next e (v.holding k m) x = v.holding k (m.act e))
    {post : Result Unit (ManagerView drivers) Unit → Prop}
    (hpost : post (.ret () (v.holding k (m.act e)))) :
    (alone deps allowed).wp (manager e) post (v.holding k m) := by
  rw [manager, (alone deps allowed).wp_act_none (stop_alone hguard)]
  intro x _
  change post (.ret () (ManagerView.next e (v.holding k m) x))
  rwa [hnext]

/-- An action on the state that is no deed. -/
theorem guard_of_holding {e : ManagerAction drivers} {k : ℕ} {m : ManagerState drivers}
    (hdeed : e.deed? = none) (he : e.guarded = true) (hchecked : e.Checked m := by trivial) :
    (v.holding k m).Guard deps allowed e where
  guarded _ := Option.some_ne_none _
  checked := by
    rintro _ _ ⟨⟩
    exact hchecked
  permitted deed h := by
    rw [hdeed] at h
    cases h
  ready := by cases e <;> trivial

/-- An action that is neither a deed nor concerns the state. -/
theorem guard_of_idle {e : ManagerAction drivers} (hdeed : e.deed? = none)
    (he : e.guarded = false) (hchecked : ∀ m, e.Checked m) (hready : v.Ready deps allowed e) :
    v.Guard deps allowed e where
  guarded h := absurd (he.symm.trans h) Bool.false_ne_true
  checked _ m _ := hchecked m
  permitted deed h := by
    rw [hdeed] at h
    cases h
  ready := hready

/-- The mutex is locked once more. -/
theorem wp_lock_holding {k : ℕ} {m : ManagerState drivers}
    {post : Result Unit (ManagerView drivers) Unit → Prop}
    (hpost : post (.ret () (v.holding (k + 1) m))) :
    (alone deps allowed).wp (manager .lock) post (v.holding k m) := by
  have hguard : (v.holding k m).Guard deps allowed .lock :=
    guard_of_idle rfl rfl (fun _ => trivial) trivial
  rw [manager, (alone deps allowed).wp_act_none (stop_alone hguard)]
  rintro x hx
  obtain rfl : x = m := hx
  exact hpost

/-- The mutex is still held when it has been released. -/
theorem wp_unlock_holding {k : ℕ} {m : ManagerState drivers}
    {post : Result Unit (ManagerView drivers) Unit → Prop}
    (hcoherent : k = 0 → Coherent deps [] m) (hpost : post (.ret () (v.released k m))) :
    (alone deps allowed).wp (manager .unlock) post (v.holding (k + 1) m) := by
  have hguard : (v.holding (k + 1) m).Guard deps allowed .unlock :=
    guard_of_idle rfl rfl (fun _ => trivial) ⟨k, m, rfl, hcoherent⟩
  rw [manager, (alone deps allowed).wp_act_none (stop_alone hguard)]
  intro x _
  cases k <;> exact hpost

/-- A thread that holds the mutex reads the marks as they are. -/
theorem wp_managerIsStarted_holding {k : ℕ} {m : ManagerState drivers} {d : DriverIndex drivers}
    {post : Result Unit (ManagerView drivers) Bool → Prop}
    (hpost : post (.ret (m.isStarted d) (v.holding k m))) :
    (alone deps allowed).wp (managerIsStarted d) post (v.holding k m) := by
  have hguard : (v.holding k m).Guard deps allowed (.isStarted d) :=
    guard_of_idle rfl rfl (fun _ => trivial) trivial
  refine ((alone deps allowed).wp_act_none (stop_alone hguard)).mpr fun x hx => ?_
  obtain rfl : x = m.isStarted d := hx k m rfl
  exact hpost

theorem wp_containerIsStarted {k : ℕ} {m : ManagerState drivers} {d : DriverIndex drivers}
    {post : Result Unit (ManagerView drivers) Bool → Prop}
    (hpost : post (.ret (m.containerIsStarted d) (v.holding k m))) :
    (alone deps allowed).wp (containerIsStarted d) post (v.holding k m) := by
  have hguard : (v.holding k m).Guard deps allowed (.containerIsStarted d) :=
    guard_of_holding rfl rfl
  refine ((alone deps allowed).wp_act_none (stop_alone hguard)).mpr fun x hx => ?_
  obtain rfl : x = m.containerIsStarted d := hx k m rfl
  exact hpost

theorem wp_isStarting {k : ℕ} {m : ManagerState drivers} {d : DriverIndex drivers}
    {post : Result Unit (ManagerView drivers) Bool → Prop}
    (hpost : post (.ret (m.isStarting d) (v.holding k m))) :
    (alone deps allowed).wp (isStarting d) post (v.holding k m) := by
  have hguard : (v.holding k m).Guard deps allowed (.isStarting d) :=
    guard_of_holding rfl rfl
  refine ((alone deps allowed).wp_act_none (stop_alone hguard)).mpr fun x hx => ?_
  obtain rfl : x = m.isStarting d := hx k m rfl
  exact hpost

/-- A deed that is permitted. -/
theorem guard_of_deed {e : ManagerAction drivers} {k : ℕ} {m : ManagerState drivers}
    {deed : Deed drivers} (hdeed : e.deed? = some deed) (he : e.guarded = true)
    (hpermits : v.Permits deps deed) (hchecked : e.Checked m := by trivial) :
    (v.holding k m).Guard deps allowed e where
  guarded _ := Option.some_ne_none _
  checked := by
    rintro _ _ ⟨⟩
    exact hchecked
  permitted deed' h := by
    rw [hdeed] at h
    cases h
    exact hpermits
  ready := by cases e <;> trivial

end Rules

/-! ## Allocating with the mutex held -/

/-- The request that the thread serves is for `d`, or for a driver that needs it. -/
def ManagerView.Names (deps : DriverIndex drivers → List (DriverIndex drivers))
    (v : ManagerView drivers) (d : DriverIndex drivers) : Prop :=
  ∃ r, v.requested.getLast? = some r ∧ r.Names deps d

/-- What has become of the state `m` when `d` has been asked for. -/
structure Allocated (deps : DriverIndex drivers → List (DriverIndex drivers))
    (stack : List (DriverIndex drivers)) (m : ManagerState drivers) (d : DriverIndex drivers)
    (m' : ManagerState drivers) : Prop where
  coherent : Coherent deps stack m'
  grows : ∀ e, m.isStarted e = true → m'.isStarted e = true
  failures : m'.failures = [] → m.failures = []
  started : m'.isStarted d = true ∨ d ∈ stack
  sound : m'.failures = [] → m'.isStarted d = true

section Allocation

variable {deps : DriverIndex drivers → List (DriverIndex drivers)}
  {allowed : Allowed drivers}

/-- `alloc` allocates what it is asked for, when there is room for so many constructors more
that none needs more. -/
def Allocates (deps : DriverIndex drivers → List (DriverIndex drivers))
    (allowed : Allowed drivers)
    (alloc : DriverIndex drivers → ManagerProgram drivers Unit) (room : ℕ) : Prop :=
  ∀ (d : DriverIndex drivers) (stack : List (DriverIndex drivers)) (v : ManagerView drivers)
    (k : ℕ) (m : ManagerState drivers), Coherent deps stack m →
    List.IsChain (fun x y => Needs deps y x) (d :: stack) →
    drivers.length < room + stack.length → v.Names deps d →
    (alone deps allowed).wp (alloc d)
      (fun r => ∃ m', r = .ret () (v.holding (k + 1) m') ∧ Allocated deps stack m d m')
      (v.holding (k + 1) m)

theorem wp_managerGet {alloc : DriverIndex drivers → ManagerProgram drivers Unit} {room : ℕ}
    (h : Allocates deps allowed alloc room) : Allocates deps allowed (managerGet alloc) room := by
  intro d stack v k m hm hchain hroom hnames
  refine (alone deps allowed).wp_bind_intro (wp_managerIsStarted_holding ?_)
  rw [Handler.andThen_ret]
  cases hd : m.isStarted d with
  | true => exact ⟨m, rfl, hm, fun _ he => he, fun hf => hf, Or.inl hd, fun _ => hd⟩
  | false => exact h d stack v k m hm hchain hroom hnames

/-- What a constructor has got when it has asked for the drivers in `asked`. -/
structure Asked (deps : DriverIndex drivers → List (DriverIndex drivers))
    (stack : List (DriverIndex drivers)) (m : ManagerState drivers)
    (asked : List (DriverIndex drivers)) (m' : ManagerState drivers) : Prop where
  coherent : Coherent deps stack m'
  grows : ∀ e, m.isStarted e = true → m'.isStarted e = true
  failures : m'.failures = [] → m.failures = []
  sound : m'.failures = [] → ∀ e ∈ asked, m'.isStarted e = true

/-- **A constructor asks for one driver after the other.** -/
theorem wp_constructorBody {get : DriverIndex drivers → ManagerProgram drivers Unit} {room : ℕ}
    (h : Allocates deps allowed get room) {d : DriverIndex drivers}
    {stack : List (DriverIndex drivers)} {v : ManagerView drivers} {k : ℕ}
    (hchain : List.IsChain (fun x y => Needs deps y x) (d :: stack))
    (hroom : drivers.length < room + (d :: stack).length) (hnames : v.Names deps d)
    {asked : List (DriverIndex drivers)} (hasked : ∀ e ∈ asked, e ∈ deps d)
    {m : ManagerState drivers} (hm : Coherent deps (d :: stack) m) :
    (alone deps allowed).wp (constructorBody get d asked)
      (fun r => ∃ m', r = .ret () (v.holding (k + 1) m') ∧ Asked deps (d :: stack) m asked m')
      (v.holding (k + 1) m) := by
  induction asked generalizing m with
  | nil =>
    exact ⟨m, rfl, hm, fun _ he => he, fun hf => hf, fun _ _ he => absurd he List.not_mem_nil⟩
  | cons dep asked ih =>
    obtain ⟨hdep, hasked⟩ := List.forall_mem_cons.mp hasked
    have hnames' : v.Names deps dep := by
      obtain ⟨r, hr, x, hx, hreach⟩ := hnames
      exact ⟨r, hr, x, hx, hreach.tail hdep⟩
    have hget := h dep (d :: stack) v k m hm (List.isChain_cons_cons.mpr ⟨hdep, hchain⟩) hroom
      hnames'
    refine (alone deps allowed).wp_bind_intro ((alone deps allowed).wp_mono ?_ hget)
    rintro _ ⟨m₁, rfl, hm₁⟩
    have hrefer := hm₁.coherent.refer hm₁.sound
    have hchecked : (ManagerAction.refer d dep).Checked m₁ := fun hf =>
      ⟨by rw [hm₁.coherent.tuple, hm₁.sound hf], hm₁.sound hf⟩
    refine (alone deps allowed).wp_bind_intro
      (wp_act (guard_of_holding rfl rfl hchecked) (fun _ => rfl) ?_)
    refine (alone deps allowed).wp_mono ?_ (ih hasked hrefer)
    rintro _ ⟨m₂, rfl, hm₂⟩
    refine ⟨m₂, rfl, hm₂.coherent, fun e he => hm₂.grows e (hm₁.grows e he),
      fun hf => hm₁.failures (hm₂.failures hf), fun hf e he => ?_⟩
    rcases List.mem_cons.mp he with rfl | he
    · exact hm₂.grows e (hm₁.sound (hm₂.failures hf))
    · exact hm₂.sound hf e he

/-- What `DriverContainer::alloc` leaves of a driver that is not started: if it has been made,
the marks of `DriverManager` are still to be set. -/
theorem wp_containerAlloc {get : DriverIndex drivers → ManagerProgram drivers Unit} {room : ℕ}
    (h : Allocates deps allowed get room) {d : DriverIndex drivers}
    {stack : List (DriverIndex drivers)} {v : ManagerView drivers} {k : ℕ}
    {m : ManagerState drivers} (hm : Coherent deps stack m) (hd : m.isStarted d = false)
    (hchain : List.IsChain (fun x y => Needs deps y x) (d :: stack))
    (hroom : drivers.length < (room + 1) + stack.length) (hnames : v.Names deps d) :
    (alone deps allowed).wp (containerAlloc (construct deps get) d)
      (fun r => ∃ n m', r = .ret n (v.holding (k + 1) m') ∧
        (n = -1 ∧ m' = m ∧ d ∈ stack ∨
          n = 0 ∧ Allocated deps stack m d ((m'.act (.setDeviceList d)).act (.setIsStarted d))))
      (v.holding (k + 1) m) := by
  have hcontainer : m.containerIsStarted d = false := by rw [hm.container, hd]
  refine (alone deps allowed).wp_bind_intro (wp_containerIsStarted ?_)
  rw [Handler.andThen_ret, hcontainer, if_neg Bool.false_ne_true]
  refine (alone deps allowed).wp_bind_intro (wp_isStarting ?_)
  rw [Handler.andThen_ret]
  by_cases hstack : d ∈ stack
  · -- the driver is being constructed already
    rw [if_pos ((hm.starting d).mpr hstack)]
    exact ⟨-1, m, rfl, Or.inl ⟨rfl, rfl, hstack⟩⟩
  · rw [if_neg fun h0 => hstack ((hm.starting d).mp h0)]
    refine (alone deps allowed).wp_bind_intro (wp_act (guard_of_holding rfl rfl) (fun _ => rfl) ?_)
    -- the constructor
    have hpermits : v.Permits deps (.enter d) := hnames
    have hchecked : (ManagerAction.enter d).Checked (m.act (.setIsStarting d true)) :=
      hm.not_mem_entered hd hstack
    refine (alone deps allowed).wp_bind_intro ((alone deps allowed).wp_bind_intro
      (wp_act (guard_of_deed rfl rfl hpermits hchecked) (fun _ => rfl) ?_))
    have hbody := wp_constructorBody (k := k) h hchain (by rw [List.length_cons]; omega) hnames
      (fun _ he => he) (hm.begin hd hstack)
    refine (alone deps allowed).wp_bind_intro ((alone deps allowed).wp_mono ?_ hbody)
    rintro _ ⟨m₁, rfl, hm₁⟩
    refine wp_act (guard_of_holding rfl rfl) (fun _ => rfl) ?_
    -- the marks
    refine (alone deps allowed).wp_bind_intro (wp_act (guard_of_holding rfl rfl) (fun _ => rfl) ?_)
    refine (alone deps allowed).wp_bind_intro (wp_act (guard_of_holding rfl rfl) (fun _ => rfl) ?_)
    refine ⟨0, _, rfl, Or.inr ⟨rfl, ?_⟩⟩
    have hstarted : (m₁.complete d).isStarted d = true := by simp [ManagerState.complete]
    exact
      { coherent := hm₁.coherent.complete hm₁.sound
        grows := fun e he => by
          by_cases hde : e = d
          · rw [hde]
            exact hstarted
          · exact (Function.update_of_ne hde true m₁.isStarted).trans (hm₁.grows e he)
        failures := hm₁.failures
        started := Or.inl hstarted
        sound := fun _ => hstarted }

/-- `alloc_driver` under its lock guard, by a thread that has come to `d` over the pending
constructors in `stack`. -/
theorem wp_allocDriverLocked {get : DriverIndex drivers → ManagerProgram drivers Unit} {room : ℕ}
    (h : Allocates deps allowed get room) {d : DriverIndex drivers}
    {stack : List (DriverIndex drivers)} {v : ManagerView drivers} {k : ℕ}
    {m : ManagerState drivers} (hm : Coherent deps stack m)
    (hchain : List.IsChain (fun x y => Needs deps y x) (d :: stack))
    (hroom : drivers.length < (room + 1) + stack.length) (hnames : v.Names deps d)
    (hk : k = 0 → stack = []) :
    (alone deps allowed).wp (allocDriverLocked deps get d)
      (fun r => ∃ m', r = .ret () (v.released k m') ∧ Allocated deps stack m d m')
      (v.holding (k + 1) m) := by
  have hunlock : ∀ {m' : ManagerState drivers}, Allocated deps stack m d m' →
      (alone deps allowed).wp (manager .unlock)
        (fun r => ∃ m', r = .ret () (v.released k m') ∧ Allocated deps stack m d m')
        (v.holding (k + 1) m') := by
    intro m' hm'
    refine wp_unlock_holding (fun h0 => ?_) ⟨m', rfl, hm'⟩
    rw [← hk h0]
    exact hm'.coherent
  refine (alone deps allowed).wp_bind_intro (wp_managerIsStarted_holding ?_)
  rw [Handler.andThen_ret]
  cases hd : m.isStarted d with
  | true =>
    rw [if_pos rfl]
    exact hunlock ⟨hm, fun _ he => he, fun hf => hf, Or.inl hd, fun _ => hd⟩
  | false =>
    rw [if_neg Bool.false_ne_true]
    have hcontainer := wp_containerAlloc (k := k) h hm hd hchain hroom hnames
    refine (alone deps allowed).wp_bind_intro ((alone deps allowed).wp_mono ?_ hcontainer)
    rintro _ ⟨n, m', rfl, ⟨rfl, rfl, hstack⟩ | ⟨rfl, hallocated⟩⟩
    · -- the driver needs itself
      rw [Handler.andThen_ret, if_pos (by decide)]
      obtain ⟨r, hr, hnamed⟩ := hnames
      have hpermits : v.Permits deps (.fail d) :=
        ⟨r, hr, hnamed, onCycle_of_mem_chain hchain hstack⟩
      refine (alone deps allowed).wp_bind_intro
        (wp_act (guard_of_deed rfl rfl hpermits) (fun _ => rfl) (hunlock ?_))
      have hne : (m'.fail d).failures ≠ [] := by simp [ManagerState.fail]
      exact ⟨hm.fail hstack, fun _ he => he, fun hf => absurd hf hne, Or.inr hstack,
        fun hf => absurd hf hne⟩
    · rw [Handler.andThen_ret, if_neg (by decide)]
      refine (alone deps allowed).wp_bind_intro
        (wp_act (guard_of_holding rfl rfl) (fun _ => rfl) ?_)
      have hdevice : (m'.act (.setDeviceList d)).deviceList d = true := by
        simp [ManagerState.act]
      have htuple : (m'.act (.setDeviceList d)).driverTuple d = true := by
        have h0 := congrFun hallocated.coherent.tuple d
        simpa [ManagerState.act] using h0
      have hchecked : (ManagerAction.setIsStarted d).Checked (m'.act (.setDeviceList d)) :=
        ⟨htuple, hdevice⟩
      exact (alone deps allowed).wp_bind_intro
        (wp_act (guard_of_holding rfl rfl hchecked) (fun _ => rfl) (hunlock hallocated))

/-- **`alloc_driver` with the mutex held.**  No more constructors are pending than there are
drivers, so the recursion comes to an end. -/
theorem wp_managerAllocDriver (fuel : ℕ) :
    Allocates deps allowed (managerAllocDriver deps fuel) fuel := by
  induction fuel with
  | zero =>
    intro d stack v k m hm _ hroom _
    have hlength := hm.length_stack
    omega
  | succ fuel ih =>
    intro d stack v k m hm hchain hroom hnames
    refine (alone deps allowed).wp_bind_intro (wp_lock_holding ?_)
    exact wp_allocDriverLocked (k := k + 1) (wp_managerGet ih) hm hchain hroom hnames
      fun h0 => absurd h0 (Nat.succ_ne_zero k)

/-- The thread has gone on, has not the mutex and has seen `d` started. -/
def ManagerView.After (v : ManagerView drivers) (d : DriverIndex drivers)
    (v' : ManagerView drivers) : Prop :=
  v'.requested = v.requested ∧ v'.held = none ∧ v'.quiet = v.quiet ∧ v.known ⊆ v'.known ∧
    d ∈ v'.known

/-- **`alloc_driver` from outside**, whatever the other threads have left. -/
theorem wp_managerAllocDriver_free {fuel : ℕ} (hfuel : drivers.length < fuel)
    {d : DriverIndex drivers} {v : ManagerView drivers} (hheld : v.held = none)
    (hnames : v.Names deps d) :
    (alone deps allowed).wp (managerAllocDriver deps fuel d)
      (fun r => ∃ v', r = .ret () v' ∧ v.After d v') v := by
  cases fuel with
  | zero => exact absurd hfuel (Nat.not_lt_zero _)
  | succ fuel =>
    have hguard : v.Guard deps allowed .lock :=
      guard_of_idle rfl rfl (fun _ => trivial) trivial
    refine (alone deps allowed).wp_bind_intro
      (((alone deps allowed).wp_act_none (stop_alone hguard)).mpr fun m hm => ?_)
    have hok : Coherent deps [] m ∧ ∀ d ∈ v.known, m.isStarted d = true := by
      have hlock : ManagerView.ok deps .lock v m := hm
      simpa only [ManagerView.ok, hheld] using hlock
    have hnext : (alone deps allowed).next .lock v m = v.holding 1 m := by
      change ManagerView.next .lock v m = _
      simp only [ManagerView.next, hheld]
      rfl
    rw [hnext]
    have hget : Allocates deps allowed (managerGet (managerAllocDriver deps fuel)) fuel :=
      wp_managerGet (wp_managerAllocDriver fuel)
    have halloc := wp_allocDriverLocked (k := 0) hget hok.1 (.singleton d) hfuel hnames
      fun _ => rfl
    change (alone deps allowed).wp (allocDriverLocked deps _ d) _ (v.holding 1 m)
    refine (alone deps allowed).wp_mono ?_ halloc
    rintro _ ⟨m', rfl, hm'⟩
    refine ⟨_, rfl, rfl, rfl, rfl, Set.subset_union_left, ?_⟩
    rcases hm'.started with hstarted | hstack
    · exact Or.inr hstarted
    · exact absurd hstack List.not_mem_nil

end Allocation

/-! ## Requests -/

section Requests

variable {deps : DriverIndex drivers → List (DriverIndex drivers)}
  {allowed : Allowed drivers} {arch : Arch} {fuel : ℕ} {v : ManagerView drivers}

/-- What a session does for an operation leaves the view alone, if the calls are permitted. -/
theorem wp_interpret_manage {s : Session} {driver operation : ℕ} {α : Type} {P : α → Prop}
    {p : Program α} (hp : p.Within (fun e => e.OfOperation drivers s driver operation ∧
      (findOperation drivers driver operation = none → e.IsMutex)) P)
    (hcall : ∀ op, findOperation drivers driver operation = some op →
      v.Permits deps (.call driver operation) ∧ v.Permits deps .touch) (hheld : v.held = none) :
    (alone deps allowed).wp (p.interpret (manage deps fuel))
      (fun r => ∃ a, P a ∧ r = .ret a v) v := by
  obtain ⟨honly, hgives⟩ := hp
  induction p with
  | pure a => exact ⟨a, hgives, rfl⟩
  | act e k ih =>
    have hsession : manage deps fuel e
        = Prog.perform (A := ManagerAnswer drivers) (.session e) := by
      cases e with
      | isStarted i => exact honly.1.1.elim
      | allocDriver d => exact honly.1.1.elim
      | device i => exact honly.1.1.elim
      | _ => rfl
    have hguard : v.Guard deps allowed (.session e) := by
      refine ⟨fun h => Bool.noConfusion h, fun _ _ _ => trivial, fun deed hdeed => ?_, trivial⟩
      have hknown : ¬ e.IsMutex → ∃ op, findOperation drivers driver operation = some op :=
        fun h0 => Option.ne_none_iff_exists'.mp fun h => h0 (honly.1.2 h)
      cases e with
      | call d op names =>
        obtain ⟨rfl, rfl, o, ho, -⟩ := honly.1.1
        obtain rfl : Deed.call d op = deed := Option.some.inj hdeed
        exact (hcall o ho).1
      | read n =>
        obtain ⟨o, ho⟩ := hknown not_false
        obtain rfl : Deed.touch = deed := Option.some.inj hdeed
        exact (hcall o ho).2
      | store d op name x =>
        obtain ⟨o, ho⟩ := hknown not_false
        obtain rfl : Deed.touch = deed := Option.some.inj hdeed
        exact (hcall o ho).2
      | write dest bytes =>
        obtain ⟨o, ho⟩ := hknown not_false
        obtain rfl : Deed.touch = deed := Option.some.inj hdeed
        exact (hcall o ho).2
      | _ => cases hdeed
    have hnext : ∀ x, ManagerView.next (.session e) v x = v :=
      fun x => ManagerView.with_map_held hheld _
    rw [Prog.interpret, hsession]
    refine ((alone deps allowed).wp_act_none (stop_alone hguard)).mpr fun x _ => ?_
    change (alone deps allowed).wp ((k x).interpret (manage deps fuel)) _
      (ManagerView.next (.session e) v x)
    rw [hnext]
    exact ih x (honly.2 x) (hgives x)

/-- `get`, up to the reference. -/
theorem wp_managerGet_free (hfuel : drivers.length < fuel) {d : DriverIndex drivers}
    (hheld : v.held = none) (hnames : v.Names deps d) :
    (alone deps allowed).wp (managerGet (managerAllocDriver deps fuel) d)
      (fun r => ∃ v', r = .ret () v' ∧ v.After d v') v := by
  have hguard : v.Guard deps allowed (.isStarted d) :=
    guard_of_idle rfl rfl (fun _ => trivial) trivial
  refine ((alone deps allowed).wp_act_none (stop_alone hguard)).mpr fun b _ => ?_
  change (alone deps allowed).wp (if !b then managerAllocDriver deps fuel d else pure ()) _
    (ManagerView.next (.isStarted d) v b)
  simp only [ManagerView.next, hheld]
  cases b with
  | true => exact ⟨_, rfl, rfl, rfl, rfl, Set.subset_insert d v.known, Set.mem_insert d v.known⟩
  | false => exact wp_managerAllocDriver_free hfuel hheld hnames

theorem startImpl_of_mem {driver : ℕ} {devs : List ℕ} (h : driver ∈ devs) :
    DriverManager.startImpl driver devs = allocDriver driver := by
  induction devs with
  | nil => exact absurd h List.not_mem_nil
  | cons dev₀ devs ih =>
    cases devs with
    | nil => rw [List.mem_singleton.mp h, DriverManager.startImpl]
    | cons dev₁ devs =>
      rw [DriverManager.startImpl]
      · split
        · next h0 => rw [h0]
        · next h0 => exact ih ((List.mem_cons.mp h).resolve_left h0)
      · exact List.cons_ne_nil _ _

/-- A command for a generated driver starts as `get` does. -/
theorem interpret_execute {s : Session} {cmd : Command} {d : DriverIndex drivers}
    (hd : cmd.driver = d + firstDriverId) :
    (DriverManager.execute arch drivers s cmd).interpret (manage deps fuel) =
      managerGet (managerAllocDriver deps fuel) d >>= fun _ => manage deps fuel (.device d) >>=
        fun type => (DriverManager.executeDriverImplementation arch drivers s type cmd
          (DriverManager.driverRange drivers)).interpret (manage deps fuel) := by
  have hlt := d.isLt
  have hsub : cmd.driver - firstDriverId = d := by omega
  have hmem : cmd.driver ∈ DriverManager.driverRange drivers :=
    mem_driverRange.mpr ⟨by omega, by rw [deviceNum, hd, firstDriverId]; omega⟩
  have hisStarted : manage deps fuel (.isStarted d) = managerIsStarted d := dif_pos hlt
  have halloc : manage deps fuel (.allocDriver cmd.driver) = managerAllocDriver deps fuel d := by
    have hlt' : cmd.driver - firstDriverId < drivers.length := by omega
    have heq : (⟨cmd.driver - firstDriverId, hlt'⟩ : DriverIndex drivers) = d := Fin.ext hsub
    exact (dif_pos hlt').trans (by rw [heq])
  rw [DriverManager.execute, if_neg (by rw [hd, firstDriverId]; omega),
    if_neg (by rw [hd, firstDriverId]; omega), hsub, startImpl_of_mem hmem]
  change (manage deps fuel (.isStarted d)).bind _ = _
  rw [hisStarted, managerGet, bind_assoc]
  refine congrArg (Prog.bind (managerIsStarted d)) (funext fun started => ?_)
  cases started with
  | true => rfl
  | false =>
    change (manage deps fuel (.allocDriver cmd.driver)).bind _ = _
    rw [halloc]
    rfl

/-- The thread has gone on, has not the mutex, and has seen what `served` asks for started. -/
structure ManagerView.Served (v : ManagerView drivers) (served : List (Request drivers))
    (v' : ManagerView drivers) : Prop where
  requested : v'.requested = v.requested
  held : v'.held = none
  quiet : v'.quiet = v.quiet
  grows : v.known ⊆ v'.known
  known : ∀ r ∈ served, ∀ d, r.driver? = some d → d ∈ v'.known

theorem ManagerView.After.served {d : DriverIndex drivers} {v' : ManagerView drivers}
    (h : v.After d v') {r : Request drivers} (hr : r.driver? = some d) : v.Served [r] v' := by
  obtain ⟨hrequested, hheld, hquiet, hgrows, hknown⟩ := h
  refine ⟨hrequested, hheld, hquiet, hgrows, fun r' hr' e he => ?_⟩
  obtain rfl := List.mem_singleton.mp hr'
  obtain rfl : d = e := Option.some.inj (hr.symm.trans he)
  exact hknown

/-- The end of `execute`. -/
theorem wp_finish (hheld : v.held = none) {n : ℤ} (hpermits : v.Permits deps (.finish n))
    {post : Result Unit (ManagerView drivers) Unit → Prop} (hpost : post (.ret () v)) :
    (alone deps allowed).wp (manager (.finish n)) post v := by
  have hguard : v.Guard deps allowed (.finish n) := by
    refine ⟨fun h => Bool.noConfusion h, fun _ _ _ => trivial, fun deed hdeed => ?_, trivial⟩
    obtain rfl : Deed.finish n = deed := Option.some.inj hdeed
    exact hpermits
  have hnext : ∀ x, ManagerView.next (.finish n) v x = v :=
    fun x => ManagerView.with_map_held hheld _
  refine ((alone deps allowed).wp_act_none (stop_alone hguard)).mpr fun x _ => ?_
  change post (.ret () (ManagerView.next (.finish n) v x))
  rwa [hnext]

/-- The driver that the command names executes it. -/
theorem wp_executed (hheld : v.held = none) {s : Session} {cmd : Command}
    (hlt : cmd.driver < deviceNum drivers) (hpos : cmd.driver ≠ 0)
    (hlast : v.requested.getLast? = some (.execute s cmd hlt))
    {post : Result Unit (ManagerView drivers) Unit → Prop} (hpost : post (.ret () v)) :
    (alone deps allowed).wp
      ((s.execute arch drivers cmd.driver cmd).interpret (manage deps fuel) >>=
        fun p => manager (.finish p.1)) post v := by
  refine (alone deps allowed).wp_bind_intro ((alone deps allowed).wp_mono ?_
    (wp_interpret_manage (within_execute cmd)
      (fun op hop => ⟨⟨_, hlast, rfl, rfl, op, hop⟩, _, hlast, op, hop⟩) hheld))
  rintro _ ⟨p, ⟨-, hp⟩, rfl⟩
  exact wp_finish hheld ⟨_, hlast, fun h => absurd h hpos, fun _ hop => hp hop⟩ hpost

theorem wp_managerDevice {d : DriverIndex drivers} (hheld : v.held = none) (hd : d ∈ v.known)
    {post : Result Unit (ManagerView drivers) (Option ℕ) → Prop}
    (hpost : post (.ret (some (d + firstDriverId)) v)) :
    (alone deps allowed).wp (managerDevice d) post v := by
  have hguard : v.Guard deps allowed (.device d) :=
    guard_of_idle rfl rfl (fun _ => trivial) trivial
  refine ((alone deps allowed).wp_act_none (stop_alone hguard)).mpr fun type htype => ?_
  have hanswer : type = some (d + firstDriverId) := htype hd
  have hnext : ManagerView.next (.device d) v type = v := ManagerView.with_map_held hheld _
  change post (.ret type (ManagerView.next (.device d) v type))
  rwa [hnext, hanswer]

/-- The device of a driver that the thread has seen started. -/
theorem wp_device_known {d : DriverIndex drivers} (hheld : v.held = none) (hd : d ∈ v.known)
    {α : Type} {f : ℕ → ManagerProgram drivers α}
    {post : Result Unit (ManagerView drivers) α → Prop}
    (hf : (alone deps allowed).wp (f (d + firstDriverId)) post v) :
    (alone deps allowed).wp (manage deps fuel (.device d) >>= f) post v := by
  have hlt : (d : ℕ) < drivers.length := d.isLt
  have hmanage : manage deps fuel (.device d) = managerDevice d >>= fun type? =>
      type?.elim (do
        manager (.fault .nullDereference)
        return (0 : ℕ)) pure := by
    refine Eq.trans (dif_pos hlt) (bind_congr fun type? => ?_)
    cases type? <;> rfl
  rw [hmanage]
  refine (alone deps allowed).wp_bind_intro ((alone deps allowed).wp_bind_intro ?_)
  exact wp_managerDevice hheld hd hf

/-- The driver that a command is for, if it has not one of the reserved ids. -/
theorem Request.exists_driver {s : Session} {cmd : Command} (hlt : cmd.driver < deviceNum drivers)
    (h : firstDriverId ≤ cmd.driver) :
    ∃ d, (Request.execute s cmd hlt).driver? = some d ∧ cmd.driver = d + firstDriverId :=
  ⟨_, dif_pos h, (Nat.sub_add_cancel h).symm⟩

/-- **A request**, as a thread that has not the mutex serves it. -/
theorem wp_run (hfuel : drivers.length < fuel) (hheld : v.held = none) {r : Request drivers}
    (hlast : v.requested.getLast? = some r) :
    (alone deps allowed).wp (r.run arch deps fuel)
      (fun x => ∃ v', x = .ret () v' ∧ v.Served [r] v') v := by
  cases r with
  | get d =>
    have hnames : v.Names deps d := ⟨_, hlast, d, rfl, .refl⟩
    refine (alone deps allowed).wp_bind_intro
      ((alone deps allowed).wp_mono ?_ (wp_managerGet_free hfuel hheld hnames))
    rintro _ ⟨v', rfl, hafter⟩
    have hguard : v'.Guard deps allowed (.dereference d) :=
      guard_of_idle rfl rfl (fun _ => trivial) hafter.2.2.2.2
    refine ((alone deps allowed).wp_act_none (stop_alone hguard)).mpr fun x _ =>
      ⟨v', ?_, hafter.served rfl⟩
    exact congrArg (Result.ret ()) (ManagerView.with_map_held hafter.2.1 _)
  | execute s cmd hlt =>
    by_cases hsmall : cmd.driver < firstDriverId
    · -- `NoDriver` and `Server` are not started
      have hserved : v.Served [.execute s cmd hlt] v := by
        refine ⟨rfl, hheld, rfl, subset_rfl, fun r hr d hd => ?_⟩
        rw [List.mem_singleton.mp hr, Request.driver?, dif_neg (by omega)] at hd
        cases hd
      by_cases hzero : cmd.driver = 0
      · rw [Request.run, DriverManager.execute, if_pos hzero, Prog.interpret_pure, pure_bind]
        exact wp_finish hheld ⟨_, hlast, fun _ => rfl, fun h => absurd hzero h⟩ ⟨v, rfl, hserved⟩
      · have hone : cmd.driver = 1 := by rw [firstDriverId] at hsmall; omega
        rw [Request.run, DriverManager.execute, if_neg hzero, if_pos hone, ← hone]
        exact wp_executed hheld hlt hzero hlast ⟨v, rfl, hserved⟩
    · obtain ⟨d, hdriver, hid⟩ := Request.exists_driver (s := s) hlt (Nat.not_lt.mp hsmall)
      have hmem : cmd.driver ∈ DriverManager.driverRange drivers :=
        mem_driverRange.mpr ⟨Nat.not_lt.mp hsmall, hlt⟩
      have hpos : cmd.driver ≠ 0 := fun h => hsmall (by rw [h, firstDriverId]; omega)
      rw [Request.run, interpret_execute hid, bind_assoc]
      refine (alone deps allowed).wp_bind_intro ((alone deps allowed).wp_mono ?_
        (wp_managerGet_free hfuel hheld ⟨_, hlast, d, hdriver, .refl⟩))
      rintro _ ⟨v', rfl, hafter⟩
      rw [Handler.andThen_ret, bind_assoc]
      refine wp_device_known hafter.2.1 hafter.2.2.2.2 ?_
      rw [← hid, executeDriverImplementation_of_mem hmem]
      refine wp_executed hafter.2.1 hlt hpos (hafter.1.symm ▸ hlast) ?_
      exact ⟨v', rfl, hafter.served hdriver⟩

/-- **A thread with its requests**, from a state in which it has not the mutex. -/
theorem wp_runRequests (hfuel : drivers.length < fuel) {rs : List (Request drivers)}
    (hallowed : ∀ r ∈ rs, allowed.request r) (hheld : v.held = none) :
    (alone deps allowed).wp (runRequests arch deps fuel rs)
      (fun x => ∃ v', x = .ret () v' ∧ v'.held = none ∧ v'.requested = v.requested ++ rs ∧
        v'.quiet = v.quiet ∧ v.known ⊆ v'.known ∧
        ∀ r ∈ rs, ∀ d, r.driver? = some d → d ∈ v'.known) v := by
  induction rs generalizing v with
  | nil =>
    exact ⟨v, rfl, hheld, (List.append_nil _).symm, rfl, subset_rfl,
      fun r hr => absurd hr List.not_mem_nil⟩
  | cons r rs ih =>
    obtain ⟨hr, hrs⟩ := List.forall_mem_cons.mp hallowed
    have hguard : v.Guard deps allowed (.begin r) :=
      guard_of_idle rfl rfl (fun _ => trivial) ⟨hheld, hr⟩
    refine (alone deps allowed).wp_bind_intro
      (((alone deps allowed).wp_act_none (stop_alone hguard)).mpr fun x _ => ?_)
    let v₁ : ManagerView drivers := { v with requested := v.requested ++ [r] }
    have hheld₁ : v₁.held = none := hheld
    have hlast : v₁.requested.getLast? = some r := List.getLast?_concat
    change (alone deps allowed).wp
      (r.run arch deps fuel >>= fun _ => runRequests arch deps fuel rs) _ v₁
    refine (alone deps allowed).wp_bind_intro ((alone deps allowed).wp_mono ?_
      (wp_run hfuel hheld₁ hlast))
    rintro _ ⟨v', rfl, hserved⟩
    refine (alone deps allowed).wp_mono ?_ (ih hrs hserved.held)
    rintro _ ⟨v'', rfl, hheld'', hrequested, hquiet, hgrows, hknown⟩
    refine ⟨v'', rfl, hheld'', ?_, hquiet.trans hserved.quiet, hserved.grows.trans hgrows, ?_⟩
    · rw [hrequested, hserved.requested, List.append_assoc, List.singleton_append]
    · intro r' hr' d hd
      rcases List.mem_cons.mp hr' with rfl | hr'
      · exact hgrows (hserved.known _ (List.mem_singleton_self _) d hd)
      · exact hknown r' hr' d hd

end Requests

end KoheronSdk
