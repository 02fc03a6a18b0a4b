import KoheronSdk.Lib.Interleaving
import KoheronSdk.Drivers.Requests

/-!
# The threads around the driver manager

Any number of threads with one driver manager, its recursive mutex and the flag
`exit_all`.  Loads of `is_started` are not guarded by the mutex, as in the source.

One thread may be the main thread, which runs alone until it has started the others.

The world keeps who has the mutex and how often it was locked, and what each thread has been asked
for and has seen started.  A thread that wants the mutex while another one has it is not enabled,
so a step is always one action of a thread that can perform it.

`managerOutline` is an outline of a run in the sense of `Lib/Interleaving`: each thread has a view,
its own actions move the view as `alone` says, and an action of another thread leaves it as
it is.  The last point is where the invariant is needed.  A state in the view of one thread is
the state of the manager only as long as this thread has the mutex, and no other thread
changes the state without it; what a thread has seen started stays started.

* `ManagerWorld.next`: what an action of a thread does.
* `ManagerWorld.Inv`: what holds between any two actions.
* `managerOutline`: the view of each thread is `alone` in it.
* `finished_or_exists_step`: no thread waits for ever.
-/

namespace KoheronSdk

open Effects Dependency Relation

variable {ι : Type} {drivers : List Driver}

/-- The driver manager and its threads: what is shared, who has the mutex and how often, what
each thread has been asked for and the drivers it has seen started, and what the threads
have done for which request. -/
structure ManagerWorld (ι : Type) (drivers : List Driver) where
  manager : ManagerState drivers
  owner : Option (ι × ℕ)
  exitAll : Bool
  serving : Bool
  shutdown : Bool
  requested : ι → List (Request drivers)
  known : ι → Set (DriverIndex drivers)
  journal : List (ι × Option (Request drivers) × Deed drivers)

namespace ManagerWorld

/-- Nothing has been started; `serving` tells whether the threads but the main one run. -/
def initial (ι : Type) (drivers : List Driver) (serving : Bool) : ManagerWorld ι drivers where
  manager := .initial drivers
  owner := none
  exitAll := false
  serving := serving
  shutdown := false
  requested _ := []
  known _ := ∅
  journal := []

variable [DecidableEq ι] (main : Option ι) (i : ι)

/-- How often a thread has locked the mutex that it holds. -/
def depth (w : ManagerWorld ι drivers) : Option ℕ :=
  w.owner.bind fun o => if o.1 = i then some o.2 else none

/-- The actions that a thread can perform now. -/
def Enabled (e : ManagerAction drivers) (w : ManagerWorld ι drivers) : Prop :=
  (main = some i ∨ w.serving = true) ∧
    match e with
    | .lock => w.owner = none ∨ w.depth i ≠ none
    | _ => True

/-- What a thread can be answered. -/
def ok : (e : ManagerAction drivers) → ManagerWorld ι drivers → ManagerAnswer drivers e → Prop
  | .lock, w, (m : ManagerState drivers) => m = w.manager
  | .isStarted d, w, (b : Bool) => b = w.manager.isStarted d
  | .containerIsStarted d, w, (b : Bool) => b = w.manager.containerIsStarted d
  | .isStarting d, w, (b : Bool) => b = w.manager.isStarting d
  | .device d, w, (type : Option ℕ) =>
    type = if w.manager.deviceList d then some (d + firstDriverId) else none
  | .exitAll, w, (b : Bool) => b = w.exitAll
  | _, _, _ => True

/-- Who has the mutex after an action. -/
def ownerAfter (e : ManagerAction drivers) (w : ManagerWorld ι drivers) : Option (ι × ℕ) :=
  match e, w.depth i with
  | .lock, k => some (i, k.getD 0 + 1)
  | .unlock, some (k + 2) => some (i, k + 1)
  | .unlock, some 1 => none
  | _, _ => w.owner

/-- The drivers that a thread has seen started after an action. -/
def knownAfter (w : ManagerWorld ι drivers) :
    (e : ManagerAction drivers) → ManagerAnswer drivers e → Set (DriverIndex drivers)
  | .unlock, _ =>
    if w.depth i = some 1 then w.known i ∪ {d | w.manager.isStarted d = true} else w.known i
  | .isStarted d, (b : Bool) =>
      if w.depth i = none ∧ b = true then insert d (w.known i) else w.known i
  | _, _ => w.known i

/-- What an action of a thread does. -/
def next (e : ManagerAction drivers) (w : ManagerWorld ι drivers) (x : ManagerAnswer drivers e) :
    ManagerWorld ι drivers where
  manager := w.manager.act e
  owner := w.ownerAfter i e
  exitAll := match e with
    | .fail _ => true
    | .storeExitAll b => b
    | _ => w.exitAll
  serving := match e with
    | .startWorkers => true
    | _ => w.serving
  shutdown := match e with
    | .shutdown => true
    | _ => w.shutdown
  requested := match e with
    | .begin r => Function.update w.requested i (w.requested i ++ [r])
    | _ => w.requested
  known := Function.update w.known i (w.knownAfter i e x)
  journal := w.journal ++ e.deed?.toList.map fun deed => (i, (w.requested i).getLast?, deed)

end ManagerWorld

/-- The threads around the driver manager. -/
def managerSystem [DecidableEq ι] (drivers : List Driver) (main : Option ι) :
    System ι (ManagerAction drivers) (ManagerAnswer drivers) (ManagerWorld ι drivers) where
  enabled := ManagerWorld.Enabled main
  ok _ := ManagerWorld.ok
  next := ManagerWorld.next

namespace ManagerWorld

/-- What a thread sees of the world. -/
def view [DecidableEq ι] (main : Option ι) (i : ι) (w : ManagerWorld ι drivers) :
    ManagerView drivers where
  requested := w.requested i
  held := (w.depth i).map fun k => (k, w.manager)
  known := w.known i
  quiet := decide (main = some i) && !w.serving

/-- What holds between any two actions. -/
structure Inv (deps : DriverIndex drivers → List (DriverIndex drivers)) (main : Option ι)
    (allowed : ι → Allowed drivers) (w : ManagerWorld ι drivers) : Prop where
  coherent : w.owner = none → Coherent deps [] w.manager
  known : ∀ i, ∀ d ∈ w.known i, w.manager.isStarted d = true
  made : ∀ d, w.manager.isStarted d = true →
    w.manager.driverTuple d = true ∧ w.manager.deviceList d = true
  entered_nodup : w.manager.entered.Nodup
  references : w.manager.failures = [] → ∀ r ∈ w.manager.references, r.2 = (true, true)
  journal : ∀ t ∈ w.journal, ∃ r ∈ w.requested t.1, t.2.1 = some r ∧ r.Permits deps t.2.2
  entered : ∀ d ∈ w.manager.entered, ∃ t ∈ w.journal, t.2.2 = .enter d
  failures : ∀ f ∈ w.manager.failures, ∃ t ∈ w.journal, t.2.2 = .fail f.1
  exitAll : w.manager.failures ≠ [] → w.exitAll = true
  quiet : w.serving = false → ∀ i, main ≠ some i → w.requested i = []
  begun : ∀ i, ∀ r ∈ w.requested i, (allowed i).request r
  stopped : w.shutdown = true → ∃ i, (allowed i).shutdown

end ManagerWorld

/-! ## What an action does to the state -/

section Act

variable {e : ManagerAction drivers} {m : ManagerState drivers} {d : DriverIndex drivers}

theorem ManagerState.act_of_not_guarded (h : e.guarded ≠ true) : m.act e = m := by
  cases e with
  | setIsStarted d => exact absurd rfl h
  | setContainerIsStarted d => exact absurd rfl h
  | setIsStarting d b => exact absurd rfl h
  | enter d => exact absurd rfl h
  | refer d dep => exact absurd rfl h
  | setDriverTuple d => exact absurd rfl h
  | setDeviceList d => exact absurd rfl h
  | fail d => exact absurd rfl h
  | _ => rfl

/-- A mark that is set stays set. -/
theorem update_true {f : DriverIndex drivers → Bool} {x : DriverIndex drivers} (h : f d = true) :
    Function.update f x true d = true := by
  by_cases hd : d = x
  · rw [hd, Function.update_self]
  · rwa [Function.update_of_ne hd]

theorem ManagerState.isStarted_act (h : m.isStarted d = true) : (m.act e).isStarted d = true := by
  cases e with
  | setIsStarted x => exact update_true h
  | _ => exact h

theorem ManagerState.made_act (hchecked : e.Checked m)
    (h : ∀ d, m.isStarted d = true → m.driverTuple d = true ∧ m.deviceList d = true) :
    ∀ d, (m.act e).isStarted d = true →
      (m.act e).driverTuple d = true ∧ (m.act e).deviceList d = true := by
  intro d hd
  cases e with
  | setIsStarted x =>
    by_cases hdx : d = x
    · rw [hdx]
      exact hchecked
    · refine h d ?_
      simpa [ManagerState.act, Function.update_of_ne hdx] using hd
  | setDriverTuple x => exact ⟨update_true (h d hd).1, (h d hd).2⟩
  | setDeviceList x => exact ⟨(h d hd).1, update_true (h d hd).2⟩
  | _ => exact h d hd

theorem ManagerState.entered_act (hchecked : e.Checked m) (h : m.entered.Nodup) :
    (m.act e).entered.Nodup := by
  cases e with
  | enter d =>
    refine List.nodup_append.mpr ⟨h, List.nodup_singleton d, ?_⟩
    rintro a ha b hb rfl
    rw [List.mem_singleton.mp hb] at ha
    exact hchecked ha
  | _ => exact h

/-- What has been entered is what had been, or what is entered now. -/
theorem ManagerState.mem_entered_act (h : d ∈ (m.act e).entered) :
    d ∈ m.entered ∨ e.deed? = some (.enter d) := by
  cases e with
  | enter x =>
    rcases List.mem_append.mp h with h | h
    · exact Or.inl h
    · rw [List.mem_singleton.mp h]
      exact Or.inr rfl
  | _ => exact Or.inl h

theorem ManagerState.mem_failures_act {f : DriverIndex drivers × (DriverIndex drivers → Bool)}
    (h : f ∈ (m.act e).failures) : f ∈ m.failures ∨ e.deed? = some (.fail f.1) := by
  cases e with
  | fail x =>
    rcases List.mem_append.mp h with h | h
    · exact Or.inl h
    · rw [List.mem_singleton.mp h]
      exact Or.inr rfl
  | _ => exact Or.inl h

theorem ManagerState.failures_of_act (h : (m.act e).failures = []) : m.failures = [] := by
  cases e with
  | fail x => exact absurd h (List.append_ne_nil_of_right_ne_nil _ (List.cons_ne_nil _ _))
  | _ => exact h

theorem ManagerState.references_act (hchecked : e.Checked m)
    (h : m.failures = [] → ∀ r ∈ m.references, r.2 = (true, true))
    (hfailures : (m.act e).failures = []) : ∀ r ∈ (m.act e).references, r.2 = (true, true) := by
  have hnone := ManagerState.failures_of_act hfailures
  cases e with
  | refer x dep =>
    intro r hr
    rcases List.mem_append.mp hr with hr | hr
    · exact h hnone r hr
    · obtain ⟨htuple, hstarted⟩ := hchecked hnone
      rw [List.mem_singleton.mp hr]
      exact Prod.ext htuple hstarted
  | _ => exact h hnone

end Act

/-! ## The outline -/

namespace ManagerWorld

variable [DecidableEq ι] {main : Option ι} {i j : ι} {w : ManagerWorld ι drivers}
  {deps : DriverIndex drivers → List (DriverIndex drivers)} {allowed : ι → Allowed drivers}
  {e : ManagerAction drivers} {x : ManagerAnswer drivers e}

theorem depth_eq_some {k : ℕ} : w.depth i = some k ↔ w.owner = some (i, k) := by
  rw [depth]
  rcases w.owner with _ | ⟨j, l⟩
  · simp
  · by_cases hj : j = i
    · subst hj
      simp
    · simp [hj]

theorem depth_eq_none (h : w.owner = none) : w.depth i = none := by rw [depth, h, Option.bind_none]

/-- Two threads do not have the mutex at once. -/
theorem depth_eq_none_of_ne {k : ℕ} (h : w.depth i = some k) (hji : j ≠ i) : w.depth j = none := by
  rw [depth, depth_eq_some.mp h, Option.bind_some, if_neg (Ne.symm hji)]

theorem held_view {k : ℕ} {m : ManagerState drivers} :
    (w.view main i).held = some (k, m) ↔ w.depth i = some k ∧ m = w.manager := by
  constructor
  · intro h
    obtain ⟨l, hl, heq⟩ := Option.map_eq_some_iff.mp h
    obtain ⟨rfl, rfl⟩ := Prod.mk.inj heq
    exact ⟨hl, rfl⟩
  · rintro ⟨hk, rfl⟩
    exact Option.map_eq_some_iff.mpr ⟨k, hk, rfl⟩

theorem held_view_eq_none : (w.view main i).held = none ↔ w.depth i = none := Option.map_eq_none_iff

section Guard

variable (hguard : (w.view main i).Guard deps (allowed i) e)
include hguard

/-- A thread that may change the state has the mutex. -/
theorem exists_depth (he : e.guarded = true) : ∃ k, w.depth i = some k :=
  Option.ne_none_iff_exists'.mp (mt held_view_eq_none.mpr (hguard.guarded he))

theorem checked_manager : e.Checked w.manager := by
  by_cases he : e.guarded = true
  · obtain ⟨k, hk⟩ := exists_depth hguard he
    exact hguard.checked k w.manager (held_view.mpr ⟨hk, rfl⟩)
  · cases e with
    | setIsStarted d => exact absurd rfl he
    | enter d => exact absurd rfl he
    | refer d dep => exact absurd rfl he
    | _ => trivial

/-- A state that another thread has, or nobody, is left alone. -/
theorem act_manager (h : w.depth i = none) : w.manager.act e = w.manager := by
  refine ManagerState.act_of_not_guarded fun he => ?_
  obtain ⟨k, hk⟩ := exists_depth hguard he
  rw [h] at hk
  cases hk

end Guard

/-- Releasing the mutex for the last time leaves a state in which nothing is pending. -/
theorem Inv.coherent_next (h : w.Inv deps main allowed)
    (hguard : (w.view main i).Guard deps (allowed i) e)
    (hnone : (w.next i e x).owner = none) : Coherent deps [] (w.next i e x).manager := by
  by_cases howner : w.owner = none
  · have hact : w.manager.act e = w.manager := act_manager hguard (depth_eq_none howner)
    change Coherent deps [] (w.manager.act e)
    rw [hact]
    exact h.coherent howner
  · cases e with
    | lock => cases hnone
    | unlock =>
      obtain ⟨k, m, hheld, hcoherent⟩ := hguard.ready
      obtain ⟨hk, rfl⟩ := held_view.mp hheld
      cases k with
      | zero => exact hcoherent rfl
      | succ k =>
        have howner' : w.ownerAfter i .unlock = some (i, k + 1) := by simp only [ownerAfter, hk]
        exact absurd (howner'.symm.trans hnone) (Option.some_ne_none _)
    | _ => exact absurd hnone howner

theorem Inv.known_next (h : w.Inv deps main allowed) (hok : ok e w x) :
    ∀ j, ∀ d ∈ (w.next i e x).known j, (w.next i e x).manager.isStarted d = true := by
  intro j d hd
  refine ManagerState.isStarted_act ?_
  by_cases hj : j = i
  · subst hj
    have hmem : d ∈ w.knownAfter j e x := by
      have h0 := hd
      simpa only [next, Function.update_self] using h0
    cases e with
    | unlock =>
      simp only [knownAfter] at hmem
      split at hmem
      · rcases hmem with hmem | hmem
        · exact h.known j d hmem
        · exact hmem
      · exact h.known j d hmem
    | isStarted x' =>
      simp only [knownAfter] at hmem
      split at hmem
      · rename_i hx
        rcases hmem with rfl | hmem
        · exact (Eq.symm hok).trans hx.2
        · exact h.known j d hmem
      · exact h.known j d hmem
    | _ => exact h.known j d hmem
  · refine h.known j d ?_
    have h0 := hd
    simpa only [next, Function.update_of_ne hj] using h0

/-- Every request that was there is still there. -/
theorem mem_requested_next {r : Request drivers} (h : r ∈ w.requested j) :
    r ∈ (w.next i e x).requested j := by
  cases e with
  | begin r' =>
    by_cases hj : j = i
    · subst hj
      change r ∈ Function.update w.requested j _ j
      rw [Function.update_self]
      exact List.mem_append_left _ h
    · change r ∈ Function.update w.requested i _ j
      rwa [Function.update_of_ne hj]
  | _ => exact h

theorem mem_journal_next {t : ι × Option (Request drivers) × Deed drivers} :
    t ∈ (w.next i e x).journal ↔
      t ∈ w.journal ∨ e.deed? = some t.2.2 ∧ t = (i, (w.requested i).getLast?, t.2.2) := by
  change t ∈ w.journal ++ e.deed?.toList.map _ ↔ _
  rw [List.mem_append, List.mem_map]
  refine or_congr_right ⟨?_, ?_⟩
  · rintro ⟨deed, hdeed, rfl⟩
    exact ⟨Option.mem_toList.mp hdeed, rfl⟩
  · rintro ⟨hdeed, ht⟩
    exact ⟨t.2.2, Option.mem_toList.mpr hdeed, ht.symm⟩

theorem Inv.journal_next (h : w.Inv deps main allowed)
    (hguard : (w.view main i).Guard deps (allowed i) e) :
    ∀ t ∈ (w.next i e x).journal,
      ∃ r ∈ (w.next i e x).requested t.1, t.2.1 = some r ∧ r.Permits deps t.2.2 := by
  intro t ht
  rcases mem_journal_next.mp ht with ht | ⟨hdeed, ht⟩
  · obtain ⟨r, hr, hrequest, hpermits⟩ := h.journal t ht
    exact ⟨r, mem_requested_next hr, hrequest, hpermits⟩
  · obtain ⟨r, hlast, hpermits⟩ := hguard.permitted t.2.2 hdeed
    rw [ht]
    exact ⟨r, mem_requested_next (List.mem_of_getLast? hlast), hlast, hpermits⟩

omit [DecidableEq ι] in
/-- An allocation fails for a request that reaches a cycle. -/
theorem Inv.exists_of_failures (h : w.Inv deps main allowed) (hf : w.manager.failures ≠ []) :
    ∃ j, ∃ r ∈ w.requested j, ∃ d, r.driver? = some d ∧ ReachesCycle (Needs deps) d := by
  obtain ⟨f, hf⟩ := List.exists_mem_of_ne_nil _ hf
  obtain ⟨t, ht, hdeed⟩ := h.failures f hf
  obtain ⟨r, hr, -, hpermits⟩ := h.journal t ht
  rw [hdeed] at hpermits
  obtain ⟨⟨d, hd, hreach⟩, hcycle⟩ : r.Names deps f.1 ∧ OnCycle (Needs deps) f.1 := by
    cases r <;> exact hpermits
  exact ⟨t.1, r, hr, d, hd, f.1, hreach, hcycle⟩

/-- The flag is stored to when nothing has failed. -/
theorem Inv.exitAll_next (h : w.Inv deps main allowed)
    (hguard : (w.view main i).Guard deps (allowed i) e)
    (hfailures : (w.next i e x).manager.failures ≠ []) : (w.next i e x).exitAll = true := by
  cases e with
  | fail d => rfl
  | storeExitAll b =>
    obtain ⟨hquiet, hsound⟩ := hguard.ready
    obtain ⟨j, r, hr, d, hd, hcycle⟩ := h.exists_of_failures hfailures
    obtain ⟨hmain, hserving⟩ : main = some i ∧ w.serving = false := by
      simpa [view] using hquiet
    by_cases hj : j = i
    · subst hj
      exact absurd hcycle (hsound r hr d hd)
    · have hempty :=
        h.quiet hserving j (by rw [hmain]; exact fun h0 => hj (Option.some.inj h0).symm)
      rw [hempty] at hr
      cases hr
  | _ => exact h.exitAll hfailures

theorem Inv.quiet_next (h : w.Inv deps main allowed) (henabled : Enabled main i e w)
    (hserving : (w.next i e x).serving = false) (j : ι) (hj : main ≠ some j) :
    (w.next i e x).requested j = [] := by
  cases e with
  | startWorkers => cases hserving
  | begin r =>
    have hmain := henabled.1.resolve_right (by
      have h0 : w.serving = false := hserving
      rw [h0]
      exact Bool.false_ne_true)
    have hji : j ≠ i := fun h0 => hj (h0 ▸ hmain)
    change Function.update w.requested i _ j = []
    rw [Function.update_of_ne hji]
    exact h.quiet hserving j hj
  | _ => exact h.quiet hserving j hj

theorem Inv.begun_next (h : w.Inv deps main allowed)
    (hguard : (w.view main i).Guard deps (allowed i) e) :
    ∀ j, ∀ r ∈ (w.next i e x).requested j, (allowed j).request r := by
  intro j r hr
  cases e with
  | begin r' =>
    by_cases hj : j = i
    · subst hj
      have hmem : r ∈ w.requested j ++ [r'] := by
        have h0 := hr
        simpa only [ManagerWorld.next, Function.update_self] using h0
      rcases List.mem_append.mp hmem with hmem | hmem
      · exact h.begun j r hmem
      · rw [List.mem_singleton.mp hmem]
        exact hguard.ready.2
    · refine h.begun j r ?_
      have h0 := hr
      simpa only [ManagerWorld.next, Function.update_of_ne hj] using h0
  | _ => exact h.begun j r hr

/-- **An action of a thread keeps the invariant.** -/
theorem Inv.next (h : w.Inv deps main allowed) (henabled : Enabled main i e w)
    (hguard : (w.view main i).Guard deps (allowed i) e) (hok : ok e w x) :
    (w.next i e x).Inv deps main allowed where
  coherent := h.coherent_next hguard
  known := h.known_next hok
  made := ManagerState.made_act (checked_manager hguard) h.made
  entered_nodup := ManagerState.entered_act (checked_manager hguard) h.entered_nodup
  references := ManagerState.references_act (checked_manager hguard) h.references
  journal := h.journal_next hguard
  entered d hd := by
    rcases ManagerState.mem_entered_act hd with hd | hd
    · obtain ⟨t, ht, hdeed⟩ := h.entered d hd
      exact ⟨t, mem_journal_next.mpr (Or.inl ht), hdeed⟩
    · exact ⟨(i, (w.requested i).getLast?, .enter d), mem_journal_next.mpr (Or.inr ⟨hd, rfl⟩), rfl⟩
  failures f hf := by
    rcases ManagerState.mem_failures_act hf with hf | hf
    · obtain ⟨t, ht, hdeed⟩ := h.failures f hf
      exact ⟨t, mem_journal_next.mpr (Or.inl ht), hdeed⟩
    · exact ⟨(i, (w.requested i).getLast?, .fail f.1), mem_journal_next.mpr (Or.inr ⟨hf, rfl⟩), rfl⟩
  exitAll := h.exitAll_next hguard
  quiet := h.quiet_next henabled
  begun := h.begun_next hguard
  stopped hshutdown := by
    cases e with
    | shutdown => exact ⟨i, hguard.ready⟩
    | _ => exact h.stopped hshutdown

/-- What a thread is answered is what it can be answered in its view. -/
theorem Inv.sees (h : w.Inv deps main allowed) (henabled : Enabled main i e w) (hok : ok e w x) :
    ManagerView.ok deps e (w.view main i) x := by
  cases e with
  | lock =>
    obtain rfl : x = w.manager := hok
    cases hk : w.depth i with
    | none =>
      have hfree : w.owner = none := henabled.2.resolve_right fun h0 => h0 hk
      have hheld : (w.view main i).held = none := held_view_eq_none.mpr hk
      simp only [ManagerView.ok, hheld]
      exact ⟨h.coherent hfree, h.known i⟩
    | some k =>
      have hheld : (w.view main i).held = some (k, w.manager) := held_view.mpr ⟨hk, rfl⟩
      simp only [ManagerView.ok, hheld]
  | isStarted d =>
    intro k m hheld
    rw [(held_view.mp hheld).2]
    exact hok
  | containerIsStarted d =>
    intro k m hheld
    rw [(held_view.mp hheld).2]
    exact hok
  | isStarting d =>
    intro k m hheld
    rw [(held_view.mp hheld).2]
    exact hok
  | device d =>
    intro hd
    obtain ⟨-, hdevice⟩ := h.made d (h.known i d hd)
    have htype : x = if w.manager.deviceList d then some (d + firstDriverId) else none := hok
    rw [htype, if_pos hdevice]
  | _ => trivial

/-- The other threads keep what they see. -/
theorem view_next_of_ne (henabled : Enabled main i e w)
    (hguard : (w.view main i).Guard deps (allowed i) e) (hji : j ≠ i) :
    (w.next i e x).view main j = w.view main j := by
  have hrequested : (w.next i e x).requested j = w.requested j := by
    cases e with
    | begin r => exact Function.update_of_ne hji _ _
    | _ => rfl
  have hknown : (w.next i e x).known j = w.known j := Function.update_of_ne hji _ _
  have hserving : (decide (main = some j) && !(w.next i e x).serving) =
      (decide (main = some j) && !w.serving) := by
    cases e with
    | startWorkers =>
      by_cases hmain : main = some j
      · have hi : main ≠ some i := fun h0 => hji (Option.some.inj (hmain.symm.trans h0))
        have hserving : w.serving = true := henabled.1.resolve_left hi
        rw [hserving]
        rfl
      · rw [decide_eq_false hmain, Bool.false_and, Bool.false_and]
    | _ => rfl
  have hheld : ((w.next i e x).depth j).map (fun k => (k, (w.next i e x).manager)) =
      (w.depth j).map fun k => (k, w.manager) := by
    cases hk : w.depth i with
    | none =>
      -- the mutex is free or another thread has it
      have hmanager : (w.next i e x).manager = w.manager := act_manager hguard hk
      have hdepth : (w.next i e x).depth j = w.depth j := by
        cases e with
        | lock =>
          have hfree : w.owner = none := henabled.2.resolve_right fun h0 => h0 hk
          rw [depth_eq_none hfree]
          exact depth_eq_none_of_ne (i := i) (k := 1) (depth_eq_some.mpr (by
            change w.ownerAfter i .lock = _
            simp only [ownerAfter, hk, Option.getD_none])) hji
        | unlock =>
          have howner : w.ownerAfter i .unlock = w.owner := by simp only [ownerAfter, hk]
          change (w.ownerAfter i .unlock).bind _ = _
          rw [howner]
          rfl
        | _ => rfl
      rw [hdepth, hmanager]
    | some k =>
      have hbefore : w.depth j = none := depth_eq_none_of_ne hk hji
      have hafter : (w.next i e x).depth j = none := by
        cases e with
        | lock =>
          exact depth_eq_none_of_ne (i := i) (k := k + 1) (depth_eq_some.mpr (by
            change w.ownerAfter i .lock = _
            simp only [ownerAfter, hk, Option.getD_some])) hji
        | unlock =>
          rcases k with _ | _ | k
          · have howner : w.ownerAfter i .unlock = w.owner := by simp only [ownerAfter, hk]
            change (w.ownerAfter i .unlock).bind _ = _
            rw [howner]
            exact hbefore
          · refine depth_eq_none ?_
            change w.ownerAfter i .unlock = none
            simp only [ownerAfter, hk]
          · exact depth_eq_none_of_ne (i := i) (k := k + 1) (depth_eq_some.mpr (by
              change w.ownerAfter i .unlock = _
              simp only [ownerAfter, hk])) hji
        | _ => exact hbefore
      rw [hbefore, hafter, Option.map_none, Option.map_none]
  simp only [view, hrequested, hknown, hserving, hheld]

/-- An action moves the view of its thread as it does there. -/
theorem view_next_self (hguard : (w.view main i).Guard deps (allowed i) e) (hok : ok e w x) :
    (w.next i e x).view main i = ManagerView.next e (w.view main i) x := by
  have hknown : (w.next i e x).known i = w.knownAfter i e x := Function.update_self _ _ _
  cases e with
  | lock =>
    obtain rfl : x = w.manager := hok
    have hdepth : (w.next i .lock w.manager).depth i = some ((w.depth i).getD 0 + 1) :=
      depth_eq_some.mpr (by simp only [next, ownerAfter])
    simp only [view, hdepth, hknown, ManagerView.next]
    cases w.depth i <;> rfl
  | unlock =>
    obtain ⟨k, m, hheld, -⟩ := hguard.ready
    obtain ⟨hk, rfl⟩ := held_view.mp hheld
    have hnext : ManagerView.next .unlock (w.view main i) x
        = (w.view main i).released k w.manager := by simp only [ManagerView.next, hheld]
    rw [hnext]
    cases k with
    | zero =>
      have hdepth : (w.next i .unlock x).depth i = none :=
        depth_eq_none (by simp only [next, ownerAfter, hk])
      have hseen : w.knownAfter i .unlock x = w.known i ∪ {d | w.manager.isStarted d = true} :=
        if_pos hk
      simp only [view, hdepth, hknown, hseen]
      rfl
    | succ k =>
      have hdepth : (w.next i .unlock x).depth i = some (k + 1) :=
        depth_eq_some.mpr (by simp only [next, ownerAfter, hk])
      have hseen : w.knownAfter i .unlock x = w.known i := by simp [knownAfter, hk]
      simp only [view, hdepth, hknown, hseen]
      rfl
  | isStarted d =>
    simp only [view, hknown, ManagerView.next, knownAfter]
    change ManagerView.mk (w.requested i) ((w.depth i).map fun k => (k, w.manager)) _
      (decide (main = some i) && !w.serving) = _
    cases hk : w.depth i with
    | none =>
      cases x with
      | true => simp
      | false => simp
    | some k => simp
  | begin r =>
    have hrequested : (w.next i (.begin r) x).requested i = w.requested i ++ [r] :=
      Function.update_self _ _ _
    simp only [view, hknown, hrequested]
    rfl
  | startWorkers =>
    have hserving : (w.next i .startWorkers x).serving = true := rfl
    simp only [view, hknown, hserving, Bool.not_true, Bool.and_false]
    rfl
  | _ =>
    simp only [view, hknown]
    change ManagerView.mk _ ((w.depth i).map _) _ _ =
      ManagerView.mk _ (((w.depth i).map _).map _) _ _
    rw [Option.map_map]
    rfl

end ManagerWorld

/-- **The outline.**  Each thread ends, and has been asked for what it was to be asked for
and has seen it started; it does nothing on the way that its view does not admit. -/
noncomputable def managerOutline [DecidableEq ι]
    (deps : DriverIndex drivers → List (DriverIndex drivers))
    (main : Option ι) (allowed : ι → Allowed drivers)
    (ends : ι → ManagerView drivers → Prop) :
    Outline (managerSystem drivers main) (ManagerView drivers) Unit Unit where
  handler i := alone deps (allowed i)
  view := ManagerWorld.view main
  inv := ManagerWorld.Inv deps main allowed
  post i r := ∃ v, r = .ret () v ∧ ends i v
  goes := by
    rintro i e w s - - - ⟨v, hv, -⟩
    cases hv
  sees := by
    intro i e w x hinv henabled _ hok
    exact hinv.sees henabled hok
  keeps := by
    intro i e w x hinv henabled hstop hok
    exact hinv.next henabled (guard_of_stop hstop) hok
  moves := by
    intro i e w x _ _ hstop hok
    exact ManagerWorld.view_next_self (guard_of_stop hstop) hok
  stays := by
    intro i j e w x _ henabled hstop _ hji
    exact ManagerWorld.view_next_of_ne henabled (guard_of_stop hstop) hji

section Outline

variable [DecidableEq ι] {deps : DriverIndex drivers → List (DriverIndex drivers)}
  {main : Option ι} {allowed : ι → Allowed drivers} {ends : ι → ManagerView drivers → Prop}
  {c : Config ι (ManagerAction drivers) (ManagerAnswer drivers) (ManagerWorld ι drivers) Unit}
  {i : ι} {e : ManagerAction drivers} {k : ManagerAnswer drivers e → ManagerProgram drivers Unit}

/-- A thread does only what its view admits. -/
theorem guard_of_holds (h : (managerOutline deps main allowed ends).Holds c)
    (hprog : c.progs i = .act e k) (henabled : ManagerWorld.Enabled main i e c.world) :
    (c.world.view main i).Guard deps (allowed i) e :=
  guard_of_stop (h.stop_eq_none hprog henabled)

/-- When all threads have come to their end, and give the mutex back there, nobody has it. -/
theorem owner_eq_none_of_finished (h : (managerOutline deps main allowed ends).Holds c)
    (hheld : ∀ i v, ends i v → v.held = none) (hfinished : c.Finished) : c.world.owner = none := by
  by_contra howner
  obtain ⟨⟨i, k⟩, howner⟩ := Option.ne_none_iff_exists'.mp howner
  obtain ⟨a, ha⟩ := hfinished i
  obtain ⟨v, hv, hends⟩ := h.post_of_pure ha
  have hview : c.world.view main i = v := (Result.ret.inj hv).2
  have hdepth : c.world.depth i = none :=
    ManagerWorld.held_view_eq_none.mp (hview ▸ hheld i v hends)
  rw [ManagerWorld.depth_eq_some.mpr howner] at hdepth
  cases hdepth

omit [DecidableEq ι] in
/-- An action that a thread can perform has an answer. -/
theorem exists_answer (e : ManagerAction drivers) (w : ManagerWorld ι drivers) :
    ∃ x, ManagerWorld.ok e w x := by
  cases e with
  | session e => exact ⟨Classical.arbitrary (Answer e), trivial⟩
  | lock => exact ⟨w.manager, rfl⟩
  | isStarted d => exact ⟨w.manager.isStarted d, rfl⟩
  | containerIsStarted d => exact ⟨w.manager.containerIsStarted d, rfl⟩
  | isStarting d => exact ⟨w.manager.isStarting d, rfl⟩
  | device d => exact ⟨if w.manager.deviceList d then some (d + firstDriverId) else none, rfl⟩
  | exitAll => exact ⟨w.exitAll, rfl⟩
  | attempt => exact ⟨true, trivial⟩
  | _ => exact ⟨(), trivial⟩

theorem exists_step_of_enabled (hprog : c.progs i = .act e k)
    (henabled : ManagerWorld.Enabled main i e c.world) :
    ∃ c', (managerSystem drivers main).Step c c' := by
  obtain ⟨x, hx⟩ := exists_answer e c.world
  exact ⟨_, .act hprog henabled hx⟩

/-- **No thread waits for ever for the mutex**: as long as the threads have not all come to
their end, one of them can go on. -/
theorem finished_or_exists_step (h : (managerOutline deps main allowed ends).Holds c)
    (hheld : ∀ i v, ends i v → v.held = none) (hserving : c.world.serving = true) :
    c.Finished ∨ ∃ c', (managerSystem drivers main).Step c c' := by
  cases howner : c.world.owner with
  | some o =>
    -- the thread that has the mutex can go on
    obtain ⟨i, k⟩ := o
    have hdepth : c.world.depth i = some k := ManagerWorld.depth_eq_some.mpr howner
    cases hprog : c.progs i with
    | pure a =>
      obtain ⟨v, hv, hends⟩ := h.post_of_pure hprog
      have hview : c.world.view main i = v := (Result.ret.inj hv).2
      have hnone := ManagerWorld.held_view_eq_none.mp (hview ▸ hheld i v hends)
      rw [hdepth] at hnone
      cases hnone
    | act e k' =>
      refine Or.inr (exists_step_of_enabled hprog ⟨Or.inr hserving, ?_⟩)
      cases e with
      | lock => exact Or.inr (by rw [hdepth]; exact Option.some_ne_none k)
      | _ => trivial
  | none =>
    by_cases hfinished : c.Finished
    · exact Or.inl hfinished
    · obtain ⟨i, hi⟩ := not_forall.mp hfinished
      cases hprog : c.progs i with
      | pure a => exact absurd ⟨a, hprog⟩ hi
      | act e k =>
        refine Or.inr (exists_step_of_enabled hprog ⟨Or.inr hserving, ?_⟩)
        cases e with
        | lock => exact Or.inl howner
        | _ => trivial

end Outline

end KoheronSdk
