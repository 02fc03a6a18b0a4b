import KoheronSdk.Drivers.Starting

/-!
# Starting and stopping the server

The main thread: the constructor of `Server`, with `DriverManager::init` in it, and
`Server::run`.  The constructor stores `false` to `exit_all` when the drivers of
`DriverManager::init` have been started, whatever has become of them.

The same flag has two uses.  A failed allocation raises it, and the loop of `Server::run` leaves
when it is set.  Between the drivers of `init` and the loop there is the store, and no test
of the flag.  An allocation that has failed before the store is forgotten, and the
server goes on with a driver that is not there.

The session threads are started behind the store.  What they make of the flag
reaches the loop, and the order of the threads does not matter for this.  So there is a run
that forgets a failure exactly when something fails in `init`, and `init` runs alone:
whether it does is a question about its list of drivers.

* `serverMain`: the main thread.
* `wp_serverMain`: the store is made while nothing has failed, if `init` reaches no cycle.
* `exists_reset`: and otherwise there is a run in which it is made later.
* `neverReset_iff`: a failed allocation leads to the shutdown if and only if it is not one
  of `DriverManager::init`.
-/

namespace KoheronSdk

open Effects Dependency Relation
open Effects.Prog (within_pure within_perform within_bind within_act)

variable {ι : Type} {drivers : List Driver}

/-! ## The main thread -/

/-- What the start of a server depends on: the driver `Common`, what `Context::init` and
`Common::init` ask for, and the channels that are configured. -/
structure Setup (drivers : List Driver) where
  common : DriverIndex drivers
  contextGets : List (DriverIndex drivers)
  commonGets : List (DriverIndex drivers)
  channels : List Bool

/-- What `DriverManager::init` asks for. -/
def Setup.requests (s : Setup drivers) : List (Request drivers) :=
  s.contextGets.map .get ++ (s.common :: s.commonGets).map .get

section Programs

def attempt : ManagerProgram drivers Bool := Prog.perform (A := ManagerAnswer drivers) .attempt

def loadExitAll : ManagerProgram drivers Bool := Prog.perform (A := ManagerAnswer drivers) .exitAll

/-- `DriverManager::init` -/
def managerInit (arch : Arch) (deps : DriverIndex drivers → List (DriverIndex drivers))
    (fuel : ℕ) (s : Setup drivers) : ManagerProgram drivers Bool := do
  runRequests arch deps fuel (s.contextGets.map .get)
  if !(← attempt) then return false
  runRequests arch deps fuel ((s.common :: s.commonGets).map .get)
  return true

/-- `ListeningChannel::init` for the channels that are configured. -/
def initListeners : List Bool → ManagerProgram drivers Bool
  | [] => return true
  | configured :: channels => do
    if configured then
      if !(← attempt) then return false
    initListeners channels

/-- `Server::start_listeners_workers` -/
def startListenersWorkers : List Bool → ManagerProgram drivers Bool
  | [] => return true
  | listening :: channels => do
    if listening then
      if !(← attempt) then return false
      manager .startWorkers
    startListenersWorkers channels

/-- The loop of `Server::run`, for some rounds. -/
def runLoop : ℕ → ManagerProgram drivers Unit
  | 0 => return ()
  | rounds + 1 => do
    if ← attempt then manager .shutdown
    else if ← loadExitAll then manager .shutdown
    else runLoop rounds

/-- The rest of the constructor of `Server`, and `Server::run`. -/
def serverListen (channels : List Bool) (rounds : ℕ) : ManagerProgram drivers Unit := do
  if !(← initListeners channels) then return ()
  if !(← startListenersWorkers channels) then return ()
  runLoop rounds

/-- The constructor of `Server` up to where it stores to `exit_all`; `false` where it exits. -/
def serverInit (arch : Arch) (deps : DriverIndex drivers → List (DriverIndex drivers))
    (fuel : ℕ) (s : Setup drivers) : ManagerProgram drivers Bool := do
  if !(← attempt) then return false
  if !(← managerInit arch deps fuel s) then return false
  manager (.storeExitAll false)
  return true

/-- `main` -/
def serverMain (arch : Arch) (deps : DriverIndex drivers → List (DriverIndex drivers))
    (fuel rounds : ℕ) (s : Setup drivers) : ManagerProgram drivers Unit := do
  if !(← serverInit arch deps fuel s) then return ()
  serverListen s.channels rounds

end Programs

/-- The main thread and the threads that it starts, before the first step. -/
def serverThreads (arch : Arch) (deps : DriverIndex drivers → List (DriverIndex drivers))
    (fuel rounds : ℕ) (s : Setup drivers) (requests : ι → List (Request drivers)) :
    Config (Option ι) (ManagerAction drivers) (ManagerAnswer drivers)
      (ManagerWorld (Option ι) drivers) Unit where
  progs
    | none => serverMain arch deps fuel rounds s
    | some i => runRequests arch deps fuel (requests i)
  world := .initial (Option ι) drivers false

/-- An allocation that has failed is remembered until the shutdown. -/
def KeepsFailure (w : ManagerWorld ι drivers) : Prop :=
  w.manager.failures ≠ [] → w.shutdown = false → w.exitAll = true

/-- No driver that `DriverManager::init` asks for reaches a cycle. -/
def Setup.Sound (deps : DriverIndex drivers → List (DriverIndex drivers)) (s : Setup drivers) :
    Prop := ∀ r ∈ s.requests, ∀ d, r.driver? = some d → ¬ ReachesCycle (Needs deps) d

/-! ## The main thread, as its view has it -/

section Rules

variable {deps : DriverIndex drivers → List (DriverIndex drivers)}
  {allowed : Allowed drivers} {arch : Arch} {fuel rounds : ℕ} {v : ManagerView drivers}

theorem wp_attempt (hheld : v.held = none) {post : Result Unit (ManagerView drivers) Bool → Prop}
    (hpost : ∀ b, post (.ret b v)) : (alone deps allowed).wp attempt post v := by
  have hguard : v.Guard deps allowed .attempt :=
    guard_of_idle rfl rfl (fun _ => trivial) trivial
  have hnext : ∀ b, ManagerView.next .attempt v b = v :=
    fun b => ManagerView.with_map_held hheld _
  refine ((alone deps allowed).wp_act_none (stop_alone hguard)).mpr fun b _ => ?_
  change post (.ret b (ManagerView.next .attempt v b))
  rw [hnext]
  exact hpost b

/-- `DriverManager::init` runs alone and asks for nothing else. -/
theorem wp_managerInit (hfuel : drivers.length < fuel) {s : Setup drivers}
    (hallowed : ∀ r ∈ s.requests, allowed.request r) (hheld : v.held = none)
    (hrequested : v.requested = []) :
    (alone deps allowed).wp (managerInit arch deps fuel s)
      (fun x => ∃ b v', x = .ret b v' ∧ v'.held = none ∧ v'.quiet = v.quiet ∧
        ∀ r ∈ v'.requested, r ∈ s.requests) v := by
  refine (alone deps allowed).wp_bind_intro ((alone deps allowed).wp_mono ?_
    (wp_runRequests hfuel (fun r hr => hallowed r (List.mem_append_left _ hr)) hheld))
  rintro _ ⟨v₁, rfl, hheld₁, hrequested₁, hquiet₁, -, -⟩
  rw [hrequested, List.nil_append] at hrequested₁
  refine (alone deps allowed).wp_bind_intro (wp_attempt hheld₁ fun b => ?_)
  cases b with
  | false =>
    refine ⟨false, v₁, rfl, hheld₁, hquiet₁, fun r hr => ?_⟩
    rw [hrequested₁] at hr
    exact List.mem_append_left _ hr
  | true =>
    refine (alone deps allowed).wp_bind_intro ((alone deps allowed).wp_mono ?_
      (wp_runRequests hfuel (fun r hr => hallowed r (List.mem_append_right _ hr)) hheld₁))
    rintro _ ⟨v₂, rfl, hheld₂, hrequested₂, hquiet₂, -, -⟩
    refine ⟨true, v₂, rfl, hheld₂, hquiet₂.trans hquiet₁, fun r hr => ?_⟩
    rw [hrequested₂, hrequested₁] at hr
    exact hr

/-- What the main thread does once the flag has been stored. -/
def ManagerAction.Listens : ManagerAction drivers → Prop
  | .attempt | .exitAll | .startWorkers | .shutdown => True
  | _ => False

theorem within_initListeners (channels : List Bool) :
    (initListeners channels : ManagerProgram drivers Bool).Within ManagerAction.Listens
      fun _ => True := by
  induction channels with
  | nil => exact within_pure trivial
  | cons configured channels ih =>
    cases configured with
    | false => exact ih
    | true =>
      refine within_act trivial fun b => ?_
      cases b with
      | false => exact within_pure trivial
      | true => exact ih

theorem within_startListenersWorkers (channels : List Bool) :
    (startListenersWorkers channels : ManagerProgram drivers Bool).Within ManagerAction.Listens
      fun _ => True := by
  induction channels with
  | nil => exact within_pure trivial
  | cons listening channels ih =>
    cases listening with
    | false => exact ih
    | true =>
      refine within_act trivial fun b => ?_
      cases b with
      | false => exact within_pure trivial
      | true => exact ⟨⟨trivial, fun _ => ih.1⟩, fun _ => ih.2⟩

theorem within_runLoop (rounds : ℕ) :
    (runLoop rounds : ManagerProgram drivers Unit).Within ManagerAction.Listens
      fun _ => True := by
  induction rounds with
  | zero => exact within_pure trivial
  | succ rounds ih =>
    refine within_act trivial fun b => ?_
    cases b with
    | true => exact ⟨⟨trivial, fun _ => trivial⟩, fun _ => trivial⟩
    | false =>
      refine within_act trivial fun b => ?_
      cases b with
      | true => exact ⟨⟨trivial, fun _ => trivial⟩, fun _ => trivial⟩
      | false => exact ih

theorem within_serverListen (channels : List Bool) (rounds : ℕ) :
    (serverListen channels rounds : ManagerProgram drivers Unit).Within ManagerAction.Listens
      fun _ => True := by
  refine within_bind (within_initListeners channels) fun b _ => ?_
  cases b with
  | false => exact within_pure trivial
  | true =>
    refine within_bind (within_startListenersWorkers channels) fun b _ => ?_
    cases b with
    | false => exact within_pure trivial
    | true => exact within_runLoop rounds

theorem wp_serverListen (hshutdown : allowed.shutdown) (channels : List Bool)
    (hheld : v.held = none) :
    (alone deps allowed).wp (serverListen channels rounds)
      (fun x => ∃ a v', x = .ret a v' ∧ v'.held = none) v := by
  refine (alone deps allowed).wp_ret_of_only (φ := ManagerAction.Listens)
    (I := fun v => v.held = none) ?_ ?_ (within_serverListen channels rounds).1 hheld
  · intro e v he hv
    cases e with
    | attempt => exact stop_alone (guard_of_idle rfl rfl (fun _ => trivial) trivial)
    | exitAll => exact stop_alone (guard_of_idle rfl rfl (fun _ => trivial) trivial)
    | startWorkers => exact stop_alone (guard_of_idle rfl rfl (fun _ => trivial) trivial)
    | shutdown => exact stop_alone (guard_of_idle rfl rfl (fun _ => trivial) hshutdown)
    | _ => exact he.elim
  · intro e v x he hv _
    cases e with
    | startWorkers => exact hv
    | attempt => exact Option.map_eq_none_iff.mpr hv
    | exitAll => exact Option.map_eq_none_iff.mpr hv
    | shutdown => exact Option.map_eq_none_iff.mpr hv
    | _ => exact he.elim

/-- **The main thread stores to the flag while nothing has failed**, if nothing that
`DriverManager::init` asks for reaches a cycle. -/
theorem wp_serverMain (hfuel : drivers.length < fuel) {s : Setup drivers} (hsound : s.Sound deps)
    (hallowed : ∀ r ∈ s.requests, allowed.request r) (hshutdown : allowed.shutdown)
    (hheld : v.held = none) (hrequested : v.requested = []) (hquiet : v.quiet = true) :
    (alone deps allowed).wp (serverMain arch deps fuel rounds s)
      (fun x => ∃ a v', x = .ret a v' ∧ v'.held = none) v := by
  refine (alone deps allowed).wp_bind_intro ((alone deps allowed).wp_bind_intro
    (wp_attempt hheld fun b => ?_))
  cases b with
  | false => exact ⟨(), v, rfl, hheld⟩
  | true =>
    refine (alone deps allowed).wp_bind_intro ((alone deps allowed).wp_mono ?_
      (wp_managerInit hfuel hallowed hheld hrequested))
    rintro _ ⟨b, v₁, rfl, hheld₁, hquiet₁, hrequested₁⟩
    cases b with
    | false => exact ⟨(), v₁, rfl, hheld₁⟩
    | true =>
      have hguard : v₁.Guard deps allowed (.storeExitAll false) := by
        refine guard_of_idle rfl rfl (fun _ => trivial) ⟨hquiet₁.trans hquiet, ?_⟩
        intro r hr
        exact hsound r (hrequested₁ r hr)
      refine (alone deps allowed).wp_bind_intro
        (((alone deps allowed).wp_act_none (stop_alone hguard)).mpr fun x _ => ?_)
      exact wp_serverListen hshutdown s.channels (Option.map_eq_none_iff.mpr hheld₁)

end Rules

/-! ## The main thread alone -/

section Solo

variable [DecidableEq ι] {deps : DriverIndex drivers → List (DriverIndex drivers)} {arch : Arch}
  {fuel : ℕ} {main i : ι} {w : ManagerWorld ι drivers}

/-- Some answer; whatever is attempted succeeds. -/
noncomputable def someAnswer :
    (e : ManagerAction drivers) → ManagerWorld ι drivers → ManagerAnswer drivers e
  | .attempt, _ => true
  | e, w => (exists_answer e w).choose

omit [DecidableEq ι] in
theorem ok_someAnswer (e : ManagerAction drivers) (w : ManagerWorld ι drivers) :
    ManagerWorld.ok e w (someAnswer e w) := by
  cases e with
  | attempt => trivial
  | _ => exact (exists_answer _ w).choose_spec

/-- The mutex is free, or the thread has it. -/
def ManagerWorld.Free (i : ι) (w : ManagerWorld ι drivers) : Prop :=
  w.owner = none ∨ w.depth i ≠ none

theorem ManagerWorld.Free.enabled (h : w.Free main) (e : ManagerAction drivers) :
    ManagerWorld.Enabled (some main) main e w := by
  refine ⟨Or.inl rfl, ?_⟩
  cases e with
  | lock => exact h
  | _ => trivial

theorem ManagerWorld.Free.next (h : w.Free i) (e : ManagerAction drivers)
    (x : ManagerAnswer drivers e) : (w.next i e x).Free i := by
  cases e with
  | lock =>
    refine Or.inr ?_
    have hdepth : (w.next i .lock x).depth i = some ((w.depth i).getD 0 + 1) :=
      ManagerWorld.depth_eq_some.mpr (by simp only [ManagerWorld.next, ManagerWorld.ownerAfter])
    rw [hdepth]
    exact Option.some_ne_none _
  | unlock =>
    rcases hk : w.depth i with _ | _ | _ | k
    · have howner : (w.next i .unlock x).owner = w.owner := by
        simp only [ManagerWorld.next, ManagerWorld.ownerAfter, hk]
      exact Or.inl (howner.trans (h.resolve_right fun h0 => h0 hk))
    · have howner : (w.next i .unlock x).owner = w.owner := by
        simp only [ManagerWorld.next, ManagerWorld.ownerAfter, hk]
      have hdepth : (w.next i .unlock x).depth i = some 0 :=
        ManagerWorld.depth_eq_some.mpr (howner.trans (ManagerWorld.depth_eq_some.mp hk))
      exact Or.inr (by rw [hdepth]; exact Option.some_ne_none 0)
    · exact Or.inl (by simp only [ManagerWorld.next, ManagerWorld.ownerAfter, hk])
    · have hdepth : (w.next i .unlock x).depth i = some (k + 1) :=
        ManagerWorld.depth_eq_some.mpr (by
          simp only [ManagerWorld.next, ManagerWorld.ownerAfter, hk])
      exact Or.inr (by rw [hdepth]; exact Option.some_ne_none _)
  | _ => exact h

theorem free_next (e : ManagerAction drivers) (w : ManagerWorld ι drivers) (h : w.Free i) :
    (w.next i e (someAnswer e w)).Free i := h.next e _

/-- The main thread goes on alone, in any program. -/
theorem reachable_solo_main {α : Type} (hfree : w.Free main) (p : ManagerProgram drivers α)
    (f : α → ManagerProgram drivers Unit) {progs : ι → ManagerProgram drivers Unit}
    (hprog : progs main = p.bind f) :
    (managerSystem drivers (some main)).Reachable ⟨progs, w⟩
      ⟨Function.update progs main
        (f ((managerSystem drivers (some main)).solo main someAnswer p w).1),
        ((managerSystem drivers (some main)).solo main someAnswer p w).2⟩ := by
  have henabled : ∀ (e : ManagerAction drivers) (w : ManagerWorld ι drivers), w.Free main →
      (managerSystem drivers (some main)).enabled main e w := fun e _ h => h.enabled e
  exact System.reachable_solo henabled ok_someAnswer free_next p f hprog hfree

/-- What the world is like when the main thread alone has served some requests. -/
structure ManagerWorld.ServedAlone (deps : DriverIndex drivers → List (DriverIndex drivers))
    (main : ι) (w : ManagerWorld ι drivers) (rs : List (Request drivers))
    (w' : ManagerWorld ι drivers) : Prop where
  inv : w'.Inv deps (some main) fun _ => ⟨fun _ => True, False⟩
  owner : w'.owner = none
  grows : w.known main ⊆ w'.known main
  known : ∀ r ∈ rs, ∀ d, r.driver? = some d → d ∈ w'.known main

/-- **The main thread serves requests alone**, whether they reach a cycle or not. -/
theorem servedAlone_solo (arch : Arch) (hfuel : drivers.length < fuel)
    (hinv : w.Inv deps (some main) fun _ => ⟨fun _ => True, False⟩) (howner : w.owner = none)
    (rs : List (Request drivers)) :
    w.ServedAlone deps main rs
      ((managerSystem drivers (some main)).solo main someAnswer (runRequests arch deps fuel rs)
        w).2 := by
  let sys := managerSystem drivers (some main)
  let o := managerOutline deps (some main) (fun _ : ι => ⟨fun _ => True, False⟩) fun j v =>
    j = main → v.held = none ∧ w.known main ⊆ v.known ∧
      ∀ r ∈ rs, ∀ d, r.driver? = some d → d ∈ v.known
  let progs : ι → ManagerProgram drivers Unit :=
    Function.update (fun _ => .pure ()) main (runRequests arch deps fuel rs)
  have hmain : progs main = runRequests arch deps fuel rs := Function.update_self main _ _
  have hholds : o.Holds ⟨progs, w⟩ := by
    refine ⟨hinv, fun j => ?_⟩
    by_cases hj : j = main
    · subst hj
      have hheld : (w.view (some j) j).held = none :=
        ManagerWorld.held_view_eq_none.mpr (ManagerWorld.depth_eq_none howner)
      change (o.handler j).wp (progs j) _ _
      rw [hmain]
      refine (alone deps _).wp_mono ?_ (wp_runRequests hfuel (fun _ _ => trivial) hheld)
      rintro _ ⟨v, rfl, hheld', -, -, hgrows, hknown⟩
      exact ⟨v, rfl, fun _ => ⟨hheld', hgrows, hknown⟩⟩
    · have hpure : progs j = .pure () := Function.update_of_ne hj _ _
      change (o.handler j).wp (progs j) _ _
      rw [hpure]
      exact ⟨_, rfl, fun h => absurd h hj⟩
  have hfree : w.Free main := Or.inl howner
  have hreach := reachable_solo_main hfree (runRequests arch deps fuel rs) .pure
    (hmain.trans (Prog.bind_pure_right _).symm)
  have hend := o.sound hholds hreach
  obtain ⟨v, hv, hfacts⟩ := hend.post_of_pure (Function.update_self main _ progs)
  have hview := (Result.ret.inj hv).2
  obtain ⟨hheld, hgrows, hknown⟩ := hfacts rfl
  have hfree' : ((managerSystem drivers (some main)).solo main someAnswer
      (runRequests arch deps fuel rs) w).2.Free main := System.good_solo free_next _ hfree
  refine ⟨hend.inv, hfree'.resolve_right fun h0 => h0 ?_, ?_, ?_⟩
  · exact ManagerWorld.held_view_eq_none.mp ((congrArg ManagerView.held hview).trans hheld)
  · exact hgrows.trans (congrArg ManagerView.known hview).symm.subset
  · intro r hr d hd
    exact (congrArg ManagerView.known hview).symm.subset (hknown r hr d hd)

omit [DecidableEq ι] in
/-- An attempt changes nothing that is looked at here. -/
theorem ManagerWorld.next_attempt [DecidableEq ι] (b : Bool) : w.next i .attempt b = w := by
  have hknown : Function.update w.known i (w.known i) = w.known := Function.update_eq_self _ _
  have hjournal : w.journal ++ [] = w.journal := List.append_nil _
  cases w
  simp only [next, ManagerState.act, ownerAfter, knownAfter, ManagerAction.deed?,
    Option.toList_none, List.map_nil, hknown, hjournal]

theorem solo_managerInit (s : Setup drivers) :
    (managerSystem drivers (some main)).solo main someAnswer (managerInit arch deps fuel s) w =
      (true, ((managerSystem drivers (some main)).solo main someAnswer
        (runRequests arch deps fuel ((s.common :: s.commonGets).map .get))
        ((managerSystem drivers (some main)).solo main someAnswer
          (runRequests arch deps fuel (s.contextGets.map .get)) w).2).2) := by
  change System.solo _ main someAnswer
    ((runRequests arch deps fuel (s.contextGets.map .get)).bind _) w = _
  rw [System.solo_bind]
  generalize (System.solo (managerSystem drivers (some main)) main someAnswer
    (runRequests arch deps fuel (s.contextGets.map .get)) w).2 = w₁
  change System.solo _ main someAnswer
    ((runRequests arch deps fuel ((s.common :: s.commonGets).map .get)).bind _)
    (w₁.next main .attempt true) = _
  rw [ManagerWorld.next_attempt, System.solo_bind]
  rfl

theorem solo_serverInit (s : Setup drivers) :
    (managerSystem drivers (some main)).solo main someAnswer (serverInit arch deps fuel s) w =
      (true, (((managerSystem drivers (some main)).solo main someAnswer
        (managerInit arch deps fuel s) w).2).next main (.storeExitAll false) ()) := by
  change System.solo _ main someAnswer ((managerInit arch deps fuel s).bind _)
    (w.next main .attempt true) = _
  rw [ManagerWorld.next_attempt, System.solo_bind, solo_managerInit]
  rfl

end Solo

/-! ## The flag -/

section Flag

variable [DecidableEq ι] {deps : DriverIndex drivers → List (DriverIndex drivers)} {arch : Arch}
  {fuel rounds : ℕ} {s : Setup drivers} {requests : ι → List (Request drivers)}

/-- The flag of a failed allocation is never reset before the shutdown. -/
def NeverReset (arch : Arch) (deps : DriverIndex drivers → List (DriverIndex drivers))
    (fuel rounds : ℕ) (s : Setup drivers) (requests : ι → List (Request drivers)) : Prop :=
  ∀ c, (managerSystem drivers (some none)).Reachable
    (serverThreads arch deps fuel rounds s requests) c → KeepsFailure c.world

theorem neverReset_of_sound (hfuel : drivers.length < fuel) (hsound : s.Sound deps) :
    NeverReset arch deps fuel rounds s requests := by
  intro c hreach hf _
  let allowed : Option ι → Allowed drivers := fun i =>
    i.elim ⟨(· ∈ s.requests), True⟩ fun i => ⟨(· ∈ requests i), False⟩
  have hholds : (managerOutline deps (some none) allowed fun _ v => v.held = none).Holds
      (serverThreads arch deps fuel rounds s requests) := by
    refine ⟨ManagerWorld.inv_initial _ _ _, fun i => ?_⟩
    cases i with
    | none =>
      have hquiet : ((ManagerWorld.initial (Option ι) drivers false).view (some none) none).quiet
          = true := by
        simp [ManagerWorld.view, ManagerWorld.initial]
      have hshutdown : (allowed none).shutdown := trivial
      refine (alone deps _).wp_mono ?_
        (wp_serverMain hfuel hsound (fun _ hr => hr) hshutdown rfl rfl hquiet)
      rintro _ ⟨-, v, rfl, hheld⟩
      exact ⟨v, rfl, hheld⟩
    | some i =>
      refine (alone deps _).wp_mono ?_ (wp_runRequests hfuel (fun _ hr => hr) rfl)
      rintro _ ⟨v, rfl, hheld, -⟩
      exact ⟨v, rfl, hheld⟩
  exact (Outline.sound hholds hreach).inv.exitAll hf

/-- **The constructor of `Server` resets the flag** when an allocation in
`DriverManager::init` has failed. -/
theorem exists_reset (arch : Arch) (rounds : ℕ) (requests : ι → List (Request drivers))
    (hfuel : drivers.length < fuel) (hsound : ¬ s.Sound deps) :
    ¬ NeverReset arch deps fuel rounds s requests := by
  intro hkeeps
  let w₀ := ManagerWorld.initial (Option ι) drivers false
  have hinv₀ : w₀.Inv deps (some none) fun _ => ⟨fun _ => True, False⟩ :=
    ManagerWorld.inv_initial _ _ _
  have h₁ := servedAlone_solo arch hfuel hinv₀ rfl (s.contextGets.map .get)
  have h₂ := servedAlone_solo arch hfuel h₁.inv h₁.owner ((s.common :: s.commonGets).map .get)
  -- the main thread alone, up to where the flag has been stored
  have hreach := reachable_solo_main (w := w₀) (Or.inl rfl) (serverInit arch deps fuel s) _
    (rfl : (serverThreads arch deps fuel rounds s requests).progs none = _)
  have hkept := hkeeps _ hreach
  rw [solo_serverInit, solo_managerInit] at hkept
  generalize (System.solo (managerSystem drivers (some none)) none someAnswer
    (runRequests arch deps fuel (s.contextGets.map .get)) w₀).2 = w₁ at h₁ h₂ hkept
  generalize (System.solo (managerSystem drivers (some none)) none someAnswer
    (runRequests arch deps fuel ((s.common :: s.commonGets).map .get)) w₁).2 = w₂ at h₂ hkept
  have hshutdown : w₂.shutdown = false := by
    by_contra hstopped
    obtain ⟨_, hfalse⟩ := h₂.inv.stopped (Bool.not_eq_false _ ▸ hstopped)
    exact hfalse
  have hfailures : w₂.manager.failures ≠ [] := by
    intro hf
    refine hsound fun r hr d hd => ?_
    have hknown : d ∈ w₂.known none := by
      rcases List.mem_append.mp hr with hr | hr
      · exact h₂.grows (h₁.known r hr d hd)
      · exact h₂.known r hr d hd
    have hcoherent := h₂.inv.coherent h₂.owner
    exact (hcoherent.grounded hf d (h₂.inv.known none d hknown)).not_reachesCycle
  exact Bool.false_ne_true (hkept hfailures hshutdown)

/-- **When a failed allocation leads to the shutdown**: if and only if it is no allocation of
`DriverManager::init`. -/
theorem neverReset_iff (arch : Arch) (deps : DriverIndex drivers → List (DriverIndex drivers))
    (more rounds : ℕ) (s : Setup drivers) (requests : ι → List (Request drivers)) :
    NeverReset arch deps (drivers.length + 1 + more) rounds s requests ↔ s.Sound deps := by
  have hfuel : drivers.length < drivers.length + 1 + more := by omega
  constructor
  · intro hnever
    by_contra hsound
    exact exists_reset arch rounds requests hfuel hsound hnever
  · exact neverReset_of_sound hfuel

/-- The constructor of `Common` asks for `Common`. -/
theorem not_neverReset_self :
    ¬ NeverReset .lp64 (fun d : DriverIndex probeDrivers => [d]) 2 1
      ⟨⟨0, Nat.one_pos⟩, [], [], [true, true, true]⟩ fun _ : Unit => [] := by
  have hfuel : probeDrivers.length < 2 := Nat.one_lt_two
  refine exists_reset .lp64 1 _ hfuel fun hsound => ?_
  refine hsound (.get ⟨0, Nat.one_pos⟩) (List.mem_singleton_self _) _ rfl ?_
  exact OnCycle.reachesCycle (TransGen.single (List.mem_singleton_self _))

end Flag

end KoheronSdk
