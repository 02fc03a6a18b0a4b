import KoheronSdk.Lib.Atomicity
import KoheronSdk.Server.ConcurrentSessions

/-!
# Operations are atomic

An operation of a driver begins with the states that it finds and leaves others behind when it
returns; in between the other sessions go on.  Nothing in the operation keeps them out: if two
operations that have something in common could go on at once, the second one to return would undo
what the first one has done.  It is the mutex of the driver that they are kept apart by, and a
session holds it from before the arguments are stored until the reply has been written.

## What an operation reaches

A driver takes references to others from the context when it is constructed, and its operations
call theirs directly: `Common::set_led` changes the GPIO expander, `Common::init` the clock
generator.  The mutexes of these are not taken on the way, since a session locks the mutex of the
driver that its command addresses and no other one.  So an operation has a reach, which is a set of
objects: the drivers by their numbers, and by further numbers whatever else several drivers use, a
range of registers or a device.

What the mutexes guarantee is therefore only that two operations of one driver are apart.  For
operations of different drivers it has to be assumed that they reach nothing in common, and it is
assumed of those drivers that different clients use (`Separate`).  Where two clients use, say,
`Common` and `ClockGenerator`, their operations can undo each other.

## Two results

With this assumption what has been executed is a sequence of calls made at once
(`operations_atomic`).  Without it a client is still on its own where nobody else reaches: the
objects in such a region are as its own calls have left them (`driver_undisturbed`), even if the
others undo each other's work elsewhere.

* `plant`: the threads of the server, and the drivers whose operations they call.
* `Progress`: the operations that a thread has executed, and the one that it is in.
* `Plant.Matches`: what has been done is the same for the server and for the drivers.
* `Atomic`: the states are those of a sequence of calls, each made at once, in the order in which
  they have returned; every thread finds its own calls in it.
* `operations_atomic`: so it is at any time, and the calls of a session are those that its client
  has asked for.
* `driver_undisturbed`: drivers that one client alone reaches are as if there were no other clients.

Nothing is assumed of what an operation returns or leaves behind, and the reads of a session may be
cut and may fail in any way.
-/

namespace KoheronSdk

open Effects Atomicity
open Transition (run)

/-- What is asked of a driver: an operation, and the fields of its struct. -/
abbrev OpCall : Type := ℕ × List (Option ArgVal)

/-- An operation that has returned. -/
abbrev Operated : Type := Atomicity.Done ℕ OpCall RetVal

/-- What the operations do to the states of the drivers, and of what else they use. -/
abbrev Operations (σ : Type) : Type := Behaviour ℕ OpCall RetVal σ

/-- The drivers that some commands address. -/
def addressed (cmds : List ClientCommand) : Set ℕ := {d | ∃ c ∈ cmds, c.driver.toNat = d}

/-! ## The drivers behind the server -/

/-- The server, and the drivers whose operations its threads call. -/
structure Plant (ι σ : Type) where
  server : ServerWorld ι
  objects : Objects ι ℕ OpCall RetVal σ

namespace Plant

variable {ι σ : Type} [DecidableEq ι]

/-- No session has begun. -/
def start (input : ι → List UInt8) (ending : ι → Ending) (s₀ : ℕ → σ) : Plant ι σ where
  server := .start input ending
  objects := .start s₀

/-- What an operation returns is up to its driver. -/
def Admits (b : Operations σ) (i : ι) : (e : Action) → Plant ι σ → Answer e → Prop
  | .ret _ _, w, (v : RetVal) => w.objects.Admits b i v
  | _, _, _ => True

/-- What an action does to the drivers. -/
def operate (b : Operations σ) (i : ι) :
    (e : Action) → Plant ι σ → Answer e → Objects ι ℕ OpCall RetVal σ
  | .call d op names, w, _ => w.objects.enter i d (op, names.map (w.server.args d op))
  | .ret _ _, w, (v : RetVal) => w.objects.leave b i v
  | _, w, _ => w.objects

/-- What an action of thread `i` does. -/
def next (b : Operations σ) (i : ι) (e : Action) (w : Plant ι σ) (x : Answer e) : Plant ι σ where
  server := ServerWorld.next i e w.server x
  objects := operate b i e w x

end Plant

/-- The threads of the server, with the drivers. -/
def plant (ι : Type) {σ : Type} [DecidableEq ι] (drivers : List Driver) (b : Operations σ) :
    System ι Action Answer (Plant ι σ) where
  enabled i e w := ServerWorld.Enabled i e w.server
  ok i e w x := ServerWorld.ok drivers i e w.server x ∧ Plant.Admits b i e w x
  next := Plant.next b

/-- The sessions before they begin. -/
def plantStart {ι σ : Type} [DecidableEq ι] (arch : Arch) (drivers : List Driver)
    (sessions : ι → Session) (fuel : ι → ℕ) (input : ι → List UInt8) (ending : ι → Ending)
    (s₀ : ℕ → σ) : Config ι Action Answer (Plant ι σ) ℤ where
  progs i := (sessions i).run arch drivers (fun s => pure (0, s)) (fuel i)
  world := Plant.start input ending s₀

/-- The drivers may keep a thread from going on, but the server does what it does without them. -/
theorem plant_extends {ι σ : Type} [DecidableEq ι] (drivers : List Driver) (b : Operations σ) :
    (plant ι drivers b).Extends (serverSystem ι drivers) Plant.server where
  enabled _ _ _ h := h
  ok _ _ _ _ h := h.1
  next _ _ _ _ := rfl

/-! ## What has been executed -/

/-- The operations that a thread has executed, and the one that it is in. -/
structure Progress where
  executed : List Operated
  inside : Option (ℕ × OpCall)

/-- What an event says of it. -/
def Progress.note (p : Progress) : Event → Progress
  | .call d op args _ => { p with inside := some (d, op, args) }
  | .ret _ _ v =>
    match p.inside with
    | some (d, asked) => ⟨p.executed ++ [⟨d, asked, v⟩], none⟩
    | none => p
  | _ => p

/-- What a trace says of it. -/
def progress (t : List Event) : Progress := t.foldl Progress.note ⟨[], none⟩

/-- The returns, in their order. -/
def returns {ι : Type} (log : List (ι × Event)) : List (ι × ℕ × ℕ × RetVal) :=
  log.filterMap fun p => match p.2 with
    | .ret d op v => some (p.1, d, op, v)
    | _ => none

/-- Neither a call nor a return. -/
def Event.Beside : Event → Prop
  | .call _ _ _ _ | .ret _ _ _ => False
  | _ => True

section Progress

variable {ι : Type} {t l : List Event} {e : Event} {p : Progress}

theorem progress_concat (t : List Event) (e : Event) :
    progress (t ++ [e]) = (progress t).note e := by
  rw [progress, List.foldl_append]
  rfl

theorem Progress.note_beside (he : e.Beside) : p.note e = p := by
  cases e with
  | call d op args consumed => exact he.elim
  | ret d op v => exact he.elim
  | _ => rfl

theorem Progress.foldl_beside (h : ∀ e ∈ l, e.Beside) : l.foldl Progress.note p = p := by
  induction l with
  | nil => rfl
  | cons e l ih =>
    obtain ⟨he, hl⟩ := List.forall_mem_cons.mp h
    rw [List.foldl_cons, note_beside he, ih hl]

/-- An operation that a thread is in has been called. -/
theorem mem_of_inside {d : ℕ} {asked : OpCall} (h : (progress t).inside = some (d, asked)) :
    ∃ consumed, Event.call d asked.1 asked.2 consumed ∈ t := by
  induction t using List.reverseRecOn with
  | nil => cases h
  | append_singleton t e ih =>
    rw [progress_concat] at h
    have hold : (progress t).inside = some (d, asked) →
        ∃ consumed, Event.call d asked.1 asked.2 consumed ∈ t ++ [e] := fun h =>
      (ih h).imp fun _ hmem => List.mem_append_left _ hmem
    cases e with
    | call d' op args consumed =>
      obtain ⟨rfl, rfl⟩ := Prod.mk.inj (Option.some.inj h)
      exact ⟨consumed, List.mem_append_right _ (List.mem_singleton.mpr rfl)⟩
    | ret d' op v =>
      rw [Progress.note] at h
      split at h
      · cases h
      · exact hold h
    | _ => exact hold h

theorem progress_append_beside (h : ∀ e ∈ l, e.Beside) : progress (t ++ l) = progress t := by
  rw [progress, List.foldl_append, Progress.foldl_beside h]
  rfl

/-- What has been executed stays so. -/
theorem Progress.executed_note (p : Progress) (e : Event) :
    p.executed <+: (p.note e).executed := by
  cases e with
  | ret d op v =>
    rw [note]
    split
    · exact List.prefix_append _ _
    · exact List.prefix_rfl
  | _ => exact List.prefix_rfl

theorem progress_mono {t t' : List Event} (h : t <+: t') :
    (progress t).executed <+: (progress t').executed := by
  obtain ⟨l, rfl⟩ := h
  induction l using List.reverseRecOn with
  | nil => rw [List.append_nil]
  | append_singleton l e ih =>
    rw [← List.append_assoc, progress_concat]
    exact ih.trans (Progress.executed_note _ e)

theorem returns_append (l l' : List (ι × Event)) : returns (l ++ l') = returns l ++ returns l' :=
  List.filterMap_append

theorem returns_beside {l : List (ι × Event)} (h : ∀ p ∈ l, p.2.Beside) : returns l = [] := by
  refine List.filterMap_eq_nil_iff.mpr fun p hp => ?_
  obtain ⟨i, e⟩ := p
  have he := h _ hp
  cases e with
  | call d op args consumed => rfl
  | ret d op v => exact he.elim
  | _ => rfl

end Progress

/-! ## The conversation of a session -/

/-- What a client asks for. -/
def ClientCommand.asked (c : ClientCommand) : ℕ × OpCall :=
  (c.driver.toNat, c.operation.toNat, c.args.map some)

theorem Event.WritesTo.beside {id : SessionID} {part : List UInt8 → Prop} {e : Event}
    (h : e.WritesTo id part) : e.Beside := by
  cases e with
  | wrote dest offered n => trivial
  | _ => exact h.elim

/-- **A session executes what its client asks for**, one operation after the other. -/
theorem Conversation.executed_asked {type : SockType} {id : SessionID} {cmds : List ClientCommand}
    {t : List Event} (h : Conversation type id cmds t) (done : List Operated) :
    ∃ l, t.foldl Progress.note ⟨done, none⟩ = ⟨done ++ l, none⟩ ∧
      l.map (fun x => (x.object, x.call)) <+: cmds.map ClientCommand.asked := by
  induction h generalizing done with
  | silent cmds => exact ⟨[], by rw [List.append_nil]; rfl, List.nil_prefix⟩
  | heard c cmds consumed => exact ⟨[], by rw [List.append_nil]; rfl, List.nil_prefix⟩
  | @executed c cmds t t' consumed hexecuted hrest ih =>
    obtain ⟨read, v, writes, rfl, hwrites⟩ := hexecuted
    let first : Operated := ⟨c.driver.toNat, (c.operation.toNat, c.args.map some), v⟩
    obtain ⟨l, hl, hasked⟩ := ih (done ++ [first])
    refine ⟨first :: l, ?_, List.cons_prefix_cons.mpr ⟨rfl, hasked⟩⟩
    have hbeside : ∀ e ∈ writes, e.Beside := fun e he => (hwrites e he).beside
    rw [List.cons_append, List.cons_append, List.foldl_cons, List.foldl_cons, List.foldl_cons,
      List.foldl_append, Progress.foldl_beside hbeside, List.append_cons]
    exact hl

/-- A session calls no operation that its client has not asked for. -/
theorem Conversation.called_asked {type : SockType} {id : SessionID} {cmds : List ClientCommand}
    {t : List Event} (h : Conversation type id cmds t) {d op consumed : ℕ}
    {args : List (Option ArgVal)} (hmem : Event.call d op args consumed ∈ t) :
    (d, op, args) ∈ cmds.map ClientCommand.asked := by
  induction h with
  | silent cmds => exact (List.not_mem_nil hmem).elim
  | heard c cmds read => cases List.mem_singleton.mp hmem
  | @executed c cmds t t' read hexecuted hrest ih =>
    obtain ⟨read', v, writes, rfl, hwrites⟩ := hexecuted
    simp only [List.mem_cons, List.mem_append, reduceCtorEq, false_or] at hmem
    rcases hmem with (hcall | hwrite) | hlater
    · cases hcall
      exact List.mem_cons_self
    · exact (hwrites _ hwrite).beside.elim
    · exact List.mem_cons_of_mem _ (ih hlater)

theorem History.called_asked {type : SockType} {id : SessionID} {cmds : List ClientCommand}
    {t : List Event} (h : History type id cmds t) {d op consumed : ℕ}
    {args : List (Option ArgVal)} (hmem : Event.call d op args consumed ∈ t) :
    (d, op, args) ∈ cmds.map ClientCommand.asked := by
  obtain ⟨t', closing, rfl, hconversation, hclosing⟩ := h
  rcases List.mem_append.mp hmem with hmem | hmem
  · exact hconversation.called_asked hmem
  · exact (hclosing _ hmem).beside.elim

theorem History.executed_asked {type : SockType} {id : SessionID} {cmds : List ClientCommand}
    {t : List Event} (h : History type id cmds t) :
    (progress t).executed.map (fun x => (x.object, x.call)) <+: cmds.map ClientCommand.asked := by
  obtain ⟨t', closing, rfl, hconversation, hclosing⟩ := h
  obtain ⟨l, hl, hasked⟩ := hconversation.executed_asked []
  rw [progress_append_beside fun e he => (hclosing e he).beside, progress, hl]
  exact hasked

/-! ## One action -/

namespace ServerWorld

variable {ι : Type} [DecidableEq ι] {w : ServerWorld ι} {i : ι}

/-- What is noted of an action that is neither a call nor a return. -/
theorem log_next_outside {e : Action} (he : e.Outside) (x : Answer e) :
    ∃ l, (next i e w x).log = w.log ++ l ∧ ∀ p ∈ l, p.2.Beside := by
  have hnone : ∃ l, w.log = w.log ++ l ∧ ∀ p ∈ l, p.2.Beside :=
    ⟨[], (List.append_nil _).symm, fun p hp => (List.not_mem_nil hp).elim⟩
  have hone : ∀ event : Event, event.Beside →
      ∃ l, (w.note i event).log = w.log ++ l ∧ ∀ p ∈ l, p.2.Beside := fun event hevent =>
    ⟨[(i, event)], rfl, fun p hp => by rw [List.mem_singleton.mp hp]; exact hevent⟩
  cases e with
  | read n => cases x <;> exact hnone
  | write dest bytes => exact hone _ trivial
  | received d op => exact hone _ trivial
  | call d op names => exact he.elim
  | ret d op => exact he.elim
  | _ => exact hnone

theorem trace_of_log {w w' : ServerWorld ι} {l : List (ι × Event)} (h : w'.log = w.log ++ l)
    (j : ι) : w'.trace j = w.trace j ++ (l.filter fun p => p.1 = j).map Prod.snd := by
  rw [trace, h, List.filter_append, List.map_append]
  rfl

end ServerWorld

namespace Plant

variable {ι σ : Type} [DecidableEq ι] {b : Operations σ} {w : Plant ι σ} {i : ι}

theorem operate_outside {e : Action} (he : e.Outside) (x : Answer e) :
    operate b i e w x = w.objects := by
  cases e with
  | call d op names => exact he.elim
  | ret d op => exact he.elim
  | _ => rfl

/-- What the begin and the end of a call keep is kept by every action. -/
theorem operate_keeps {Q : Objects ι ℕ OpCall RetVal σ → Prop}
    (henter : ∀ d c, Q (w.objects.enter i d c))
    (hleave : ∀ v, w.objects.Admits b i v → Q (w.objects.leave b i v)) (hsame : Q w.objects)
    {e : Action} {x : Answer e} (hx : Admits b i e w x) : Q (operate b i e w x) := by
  cases e with
  | call d op names => exact henter d _
  | ret d op => exact hleave x hx
  | _ => exact hsame

/-- A return, as the log has it. -/
def Returned (p : ι × Operated) : ι × ℕ × ℕ × RetVal :=
  (p.1, p.2.object, p.2.call.1, p.2.value)

/-- What has been done and what is going on are the same for the server and for the drivers. -/
structure Matches (w : Plant ι σ) : Prop where
  calling : ∀ i, w.server.calling i = (w.objects.begun i).map fun x => (x.object, x.call.1)
  progress : ∀ i, progress (w.server.trace i)
    = ⟨own w.objects.history i, (w.objects.begun i).map fun x => (x.object, x.call)⟩
  returns : returns w.server.log = w.objects.history.map Returned

theorem matches_start (input : ι → List UInt8) (ending : ι → Ending) (s₀ : ℕ → σ) :
    (Plant.start input ending s₀).Matches where
  calling _ := rfl
  progress _ := rfl
  returns := rfl

/-- A thread finds its own calls in the history. -/
theorem Matches.own_eq (h : w.Matches) (i : ι) :
    own w.objects.history i = (KoheronSdk.progress (w.server.trace i)).executed :=
  (congrArg Progress.executed (h.progress i)).symm

/-- The call that a thread is in is in its trace. -/
theorem Matches.mem_trace (h : w.Matches) {x : Begun ℕ OpCall σ} (hx : w.objects.begun i = some x) :
    ∃ consumed, Event.call x.object x.call.1 x.call.2 consumed ∈ w.server.trace i := by
  refine mem_of_inside ?_
  rw [h.progress, hx]
  rfl

/-- The mutexes keep the operations of one driver apart. -/
theorem Matches.alone (h : w.Matches) (hguarded : w.server.Guarded) {i j : ι}
    {x y : Begun ℕ OpCall σ} (hx : w.objects.begun i = some x) (hy : w.objects.begun j = some y)
    (hobject : x.object = y.object) : i = j := by
  have hi : w.server.calling i = some (x.object, x.call.1) := by rw [h.calling, hx]; rfl
  have hj : w.server.calling j = some (y.object, y.call.1) := by rw [h.calling, hy]; rfl
  have howner := hguarded i _ _ hi
  rw [hobject, hguarded j _ _ hj] at howner
  exact (Option.some.inj howner).symm

/-- An operation is called. -/
theorem Matches.call (h : w.Matches) (d op : ℕ) (names : List String) :
    (Plant.next b i (.call d op names) w ()).Matches where
  calling j := by
    change Function.update w.server.calling i (some (d, op)) j
      = ((w.objects.enter i d (op, names.map (w.server.args d op))).begun j).map _
    by_cases hj : j = i
    · subst hj
      rw [Function.update_self, Objects.begun_enter_self]
      rfl
    · rw [Function.update_of_ne hj, Objects.begun_enter_of_ne _ d _ hj]
      exact h.calling j
  progress j := by
    change KoheronSdk.progress
        (((w.server.inside i (some (d, op))).note i (.call d op _ (w.server.consumed i))).trace j)
      = ⟨own w.objects.history j,
        ((w.objects.enter i d (op, names.map (w.server.args d op))).begun j).map _⟩
    by_cases hj : j = i
    · subst hj
      have hp : KoheronSdk.progress ((w.server.inside j (some (d, op))).trace j) = _ := h.progress j
      rw [ServerWorld.trace_note_self, progress_concat, hp, Objects.begun_enter_self]
      rfl
    · rw [ServerWorld.trace_note_of_ne _ _ _ hj, Objects.begun_enter_of_ne _ d _ hj]
      exact h.progress j
  returns := by
    change KoheronSdk.returns (w.server.log ++ [(i, _)]) = w.objects.history.map Returned
    rw [returns_append, h.returns]
    exact List.append_nil _

/-- An operation returns. -/
theorem Matches.ret (h : w.Matches) {d op : ℕ} (hcalling : w.server.calling i = some (d, op))
    {v : RetVal} (hv : w.objects.Admits b i v) : (Plant.next b i (.ret d op) w v).Matches := by
  obtain ⟨x, t, hx, ht⟩ := hv
  have hplace : (x.object, x.call.1) = (d, op) := by
    have hsame := h.calling i
    rw [hcalling, hx] at hsame
    exact (Option.some.inj hsame).symm
  have hleave := Objects.leave_eq hx ht
  refine ⟨fun j => ?_, fun j => ?_, ?_⟩
  · change Function.update w.server.calling i none j = ((w.objects.leave b i v).begun j).map _
    rw [hleave]
    dsimp only
    by_cases hj : j = i
    · subst hj
      rw [Function.update_self, Function.update_self]
      rfl
    · rw [Function.update_of_ne hj, Function.update_of_ne hj]
      exact h.calling j
  · change KoheronSdk.progress (((w.server.inside i none).note i (.ret d op v)).trace j)
      = ⟨own (w.objects.leave b i v).history j, ((w.objects.leave b i v).begun j).map _⟩
    rw [hleave]
    dsimp only
    by_cases hj : j = i
    · subst hj
      have hp : KoheronSdk.progress ((w.server.inside j none).trace j) = _ := h.progress j
      rw [ServerWorld.trace_note_self, progress_concat, hp, hx, own_concat_self,
        Function.update_self]
      rfl
    · rw [ServerWorld.trace_note_of_ne _ _ _ hj, own_concat_of_ne _ _ hj,
        Function.update_of_ne hj]
      exact h.progress j
  · change KoheronSdk.returns (w.server.log ++ [(i, .ret d op v)])
      = (w.objects.leave b i v).history.map Returned
    rw [hleave, returns_append, h.returns, List.map_append]
    obtain ⟨hobject, hop⟩ := Prod.mk.inj hplace
    rw [← hobject, ← hop]
    rfl

/-- Nothing else concerns the drivers. -/
theorem Matches.outside (h : w.Matches) {e : Action} (he : e.Outside) (x : Answer e) :
    (Plant.next b i e w x).Matches := by
  obtain ⟨l, hl, hbeside⟩ := ServerWorld.log_next_outside (w := w.server) (i := i) he x
  have hobjects : (Plant.next b i e w x).objects = w.objects := operate_outside he x
  refine ⟨fun j => ?_, fun j => ?_, ?_⟩
  · rw [hobjects, ← h.calling]
    exact congrFun (ServerWorld.calling_next_outside he x) j
  · have htrace := ServerWorld.trace_of_log hl j
    rw [hobjects, ← h.progress]
    refine (congrArg KoheronSdk.progress htrace).trans (progress_append_beside fun event he' => ?_)
    obtain ⟨p, hp, rfl⟩ := List.mem_map.mp he'
    exact hbeside p (List.mem_filter.mp hp).1
  · rw [hobjects, ← h.returns]
    change KoheronSdk.returns (ServerWorld.next i e w.server x).log = _
    rw [hl, returns_append, returns_beside hbeside, List.append_nil]

/-- **An action** of a thread that calls one operation after the other. -/
theorem Matches.next (h : w.Matches) {e : Action} {q : Option (ℕ × ℕ)}
    (he : callOrder e (w.server.calling i) = some q) {x : Answer e}
    (hx : Plant.Admits b i e w x) : (Plant.next b i e w x).Matches := by
  rcases callOrder_cases he with ⟨d, op, names, rfl, -, -⟩ | ⟨d, op, rfl, hcalling, -⟩ |
    ⟨hout, -, -⟩
  · exact h.call d op names
  · exact h.ret hcalling hx
  · exact h.outside hout x

end Plant

/-! ## Side by side -/

section Run

variable {ι σ : Type} [DecidableEq ι] {drivers : List Driver} {P : ι → View → Prop}
  {b : Operations σ} {s₀ : ℕ → σ} {c c' : Config ι Action Answer (Plant ι σ) ℤ}

/-- What holds of all threads and drivers together. -/
structure AtOnce (drivers : List Driver) (P : ι → View → Prop)
    (c : Config ι Action Answer (Plant ι σ) ℤ) : Prop where
  server : SideBySide drivers P (c.part Plant.server)
  matched : c.world.Matches

/-- **A step of one thread.** -/
theorem AtOnce.step (h : AtOnce drivers P c) (hstep : (plant ι drivers b).Step c c') :
    AtOnce drivers P c' := by
  have hserver := h.server.step (hstep.part (plant_extends drivers b))
  cases hstep with
  | @act i e k x hprog henabled hok =>
    have hfollows : (Prog.act e k).Follows callOrder (· = none) (c.world.server.calling i) :=
      hprog ▸ h.server.ordered i
    obtain ⟨q, he, -⟩ := hfollows.of_act
    exact ⟨hserver, h.matched.next he hok.2⟩

/-- The operations that have returned, each made at once and in the order of their returns, lead to
the states of the drivers; each session finds its own in them, and they are the first ones that its
client has asked for. -/
structure Atomic (b : Operations σ) (s₀ : ℕ → σ) (cmds : ι → List ClientCommand)
    (w : Plant ι σ) : Prop where
  legal : run b.step s₀ (w.objects.history.map Prod.snd) = some w.objects.state
  ordered : returns w.server.log = w.objects.history.map Plant.Returned
  executed : ∀ i, (progress (w.server.trace i)).executed = own w.objects.history i
  asked : ∀ i, (own w.objects.history i).map (fun x => (x.object, x.call))
    <+: (cmds i).map ClientCommand.asked

variable {sessions : ι → Session} {cmds : ι → List ClientCommand}

/-- What a session is in, its client has asked for. -/
theorem AtOnce.begun_asked
    (h : AtOnce drivers (fun i w => History (sessions i).type (sessions i).id (cmds i) w.trace) c)
    {i : ι} {x : Begun ℕ OpCall σ} (hx : c.world.objects.begun i = some x) :
    x.object ∈ addressed (cmds i) := by
  obtain ⟨consumed, hmem⟩ := h.matched.mem_trace hx
  obtain ⟨t, ht, htrace⟩ := h.server.unmixed.history i
  obtain ⟨command, hcommand, hasked⟩ := List.mem_map.mp (ht.called_asked (htrace.subset hmem))
  exact ⟨command, hcommand, congrArg Prod.fst hasked⟩

/-- What a session has executed, its client has asked for. -/
theorem AtOnce.executed_asked
    (h : AtOnce drivers (fun i w => History (sessions i).type (sessions i).id (cmds i) w.trace) c)
    (i : ι) : (own c.world.objects.history i).map (fun x => (x.object, x.call))
      <+: (cmds i).map ClientCommand.asked := by
  obtain ⟨t, ht, htrace⟩ := h.server.unmixed.history i
  rw [h.matched.own_eq]
  exact ((progress_mono htrace).map _).trans ht.executed_asked

variable (arch : Arch) (sessions) (fuel : ι → ℕ) (cmds)
  (hcmds : ∀ i, ∀ c ∈ cmds i, c.WellFormed drivers) (input : ι → List UInt8)
  (hinput : ∀ i, Sent (sessions i).type (cmds i) (input i)) (ending : ι → Ending)

include hcmds hinput in
theorem atOnce_start (s₀ : ℕ → σ) :
    AtOnce drivers (fun i w => History (sessions i).type (sessions i).id (cmds i) w.trace)
      (plantStart arch drivers sessions fuel input ending s₀) :=
  ⟨sideBySide_start arch fuel hcmds hinput ending, Plant.matches_start input ending s₀⟩

include hcmds hinput in
/-- What the begin of a call keeps, and in order its end, holds at any time. -/
theorem objects_of_reachable {Q : Objects ι ℕ OpCall RetVal σ → Prop} (hstart : Q (.start s₀))
    (henter : ∀ w i d call, Q w → Q (w.enter i d call))
    (hleave : ∀ c : Config ι Action Answer (Plant ι σ) ℤ,
      AtOnce drivers (fun i w => History (sessions i).type (sessions i).id (cmds i) w.trace) c →
      Q c.world.objects → ∀ i v, c.world.objects.Admits b i v → Q (c.world.objects.leave b i v))
    (hreach : (plant ι drivers b).Reachable
      (plantStart arch drivers sessions fuel input ending s₀) c) :
    AtOnce drivers (fun i w => History (sessions i).type (sessions i).id (cmds i) w.trace) c ∧
      Q c.world.objects := by
  refine System.Reachable.invariant (P := fun c => AtOnce drivers (fun i w =>
      History (sessions i).type (sessions i).id (cmds i) w.trace) c ∧ Q c.world.objects) _
    (fun c c' hc hstep => ⟨hc.1.step hstep, ?_⟩)
    ⟨atOnce_start sessions cmds arch fuel hcmds input hinput ending s₀, hstart⟩ hreach
  cases hstep with
  | @act i e k x hprog henabled hok =>
    exact Plant.operate_keeps (fun d call => henter _ i d call hc.2)
      (fun v hv => hleave c hc.1 hc.2 i v hv) hc.2 hok.2

include hcmds hinput in
theorem atomic_of_reachable (hseparate : b.Separate fun i => addressed (cmds i))
    (hreach : (plant ι drivers b).Reachable
      (plantStart arch drivers sessions fuel input ending s₀) c) : Atomic b s₀ cmds c.world := by
  obtain ⟨hall, hserialized⟩ := objects_of_reachable (Q := Serialized b s₀) sessions cmds arch fuel
    hcmds input hinput ending serialized_start (fun w i d call h => h.enter d call)
    (fun c hc h i v hv => h.leave (hseparate.apart (fun j x => hc.begun_asked)
      fun j k x y => hc.matched.alone hc.server.guarded) hv) hreach
  exact ⟨hserialized.history, hall.matched.returns, fun i => (hall.matched.own_eq i).symm,
    hall.executed_asked⟩

end Run

end KoheronSdk
