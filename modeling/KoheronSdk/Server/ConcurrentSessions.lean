import KoheronSdk.Lib.Interleaving
import KoheronSdk.Server.Conversation

/-!
# Sessions do not mix

Session threads run `Session::run` side by side.  They share the mutex and the `args_<op>`
structs of every driver; nothing but the order of the code keeps a thread from storing into a
struct, or calling an operation, whose mutex it does not hold.  A step is one `read()` result,
one lock, one field of a struct, one entry into an operation or one return from it, one
`write()`.  What of its input has arrived is not kept: a `read()` may find any part of it.

## The threads and their views

What one session does in its own view is known from `Server/Conversation`.  Here the view is that
of the world: a thread sees its own socket and trace, and of the structs those of the driver
whose mutex it holds (`ServerWorld.view`).  An action of a thread is one in its view
(`view_next_self`), and the others do not see it (`view_next_of_ne`); the latter is where the
mutexes matter, since a struct is in nobody's view but its owner's.  With this outline the
sequential result holds of every thread in every interleaving.

That nobody stores without the mutex is not assumed.  It is the view that stops a thread that does
(`View.stop`), as at anything undefined, and the sequential proofs show that none is stopped so.

## Inside an operation

A thread is inside an operation from its entry to its return, and does nothing in between
(`callOrder`).  It is so with the mutex of the driver (`Guarded`), so that no two threads are inside
operations of one driver.

* `serverSystem`: the threads and what they share.
* `ServerWorld.view`: what one of them sees, as the holder of one mutex or of none.
* `sessions_unmixed`: at any time every session has had a part of the conversation with its own
  client, and no two of them are inside operations of one driver.
-/

namespace KoheronSdk

open Effects
open Effects.Prog (follows_bind follows_of_only follows_act)

/-! ## What the sessions share -/

/-- The sockets, the drivers' mutexes and structs, the operations that are being executed, and
what has been done, with the thread that did it. -/
structure ServerWorld (ι : Type) where
  input : ι → List UInt8
  ending : ι → Ending
  consumed : ι → ℕ
  owner : ℕ → Option ι
  args : ℕ → ArgStructs
  calling : ι → Option (ℕ × ℕ)
  log : List (ι × Event)

namespace ServerWorld

variable {ι : Type}

/-- No session has begun. -/
def start (input : ι → List UInt8) (ending : ι → Ending) : ServerWorld ι where
  input := input
  ending := ending
  consumed := fun _ => 0
  owner := fun _ => none
  args := fun _ _ _ => none
  calling := fun _ => none
  log := []

/-- A `read()` waits for bytes and `lock()` for the mutex. -/
def Enabled (i : ι) : Action → ServerWorld ι → Prop
  | .read n, w => ¬ (0 < n ∧ w.input i = [] ∧ w.ending i = .waiting)
  | .lock d, w => w.owner d = none
  | .throw, _ | .outOfFuel, _ => False
  | _, _ => True

/-- The structs are as the threads have left them. -/
def ok (drivers : List Driver) (i : ι) : (e : Action) → ServerWorld ι → Answer e → Prop
  | .lock d, w, (s : ArgStructs) => s = w.args d
  | e, w, x => View.ok drivers e (View.start (w.input i) (w.ending i)) x

/-- Thread `i` has done something. -/
def note (w : ServerWorld ι) (i : ι) (e : Event) : ServerWorld ι :=
  { w with log := w.log ++ [(i, e)] }

/-- The mutex of a driver has got an owner, or none. -/
def owned (w : ServerWorld ι) (d : ℕ) (o : Option ι) : ServerWorld ι :=
  { w with owner := Function.update w.owner d o }

/-- A field of one of the structs of a driver has got a content. -/
def stored (w : ServerWorld ι) (d op : ℕ) (name : String) (v : Option ArgVal) : ServerWorld ι :=
  { w with args := Function.update w.args d ((w.args d).set op name v) }

variable [DecidableEq ι]

/-- Thread `i` has read `n` bytes. -/
def advance (w : ServerWorld ι) (i : ι) (n : ℕ) : ServerWorld ι :=
  { w with
    input := Function.update w.input i ((w.input i).drop n)
    consumed := Function.update w.consumed i (w.consumed i + n) }

/-- Thread `i` is inside an operation, or outside. -/
def inside (w : ServerWorld ι) (i : ι) (c : Option (ℕ × ℕ)) : ServerWorld ι :=
  { w with calling := Function.update w.calling i c }

/-- What an action of thread `i` does. -/
def next (i : ι) : (e : Action) → ServerWorld ι → Answer e → ServerWorld ι
  | .read _, w, .bytes bs => w.advance i bs.length
  | .write dest bs, w, (n : ℤ) => w.note i (.wrote dest bs n)
  | .received d op, w, _ => w.note i (.header d op (w.consumed i))
  | .lock d, w, _ => w.owned d (some i)
  | .unlock d, w, _ => w.owned d none
  | .store d op name v, w, _ => w.stored d op name v
  | .call d op names, w, _ =>
    (w.inside i (some (d, op))).note i (.call d op (names.map (w.args d op)) (w.consumed i))
  | .ret d op, w, (v : RetVal) => (w.inside i none).note i (.ret d op v)
  | _, w, _ => w

/-- What thread `i` has done. -/
def trace (w : ServerWorld ι) (i : ι) : List Event :=
  (w.log.filter fun p => p.1 = i).map Prod.snd

end ServerWorld

/-- The threads of the server. -/
def serverSystem (ι : Type) [DecidableEq ι] (drivers : List Driver) :
    System ι Action Answer (ServerWorld ι) where
  enabled := ServerWorld.Enabled
  ok := ServerWorld.ok drivers
  next := ServerWorld.next

/-! ## What one thread sees -/

namespace ServerWorld

variable {ι : Type} [DecidableEq ι] {drivers : List Driver} {w : ServerWorld ι} {i j : ι}

open Classical in
/-- One of the mutexes with a property, if there is one. -/
noncomputable def someMutex (P : ℕ → Prop) : Option ℕ :=
  if h : ∃ d, P d then some h.choose else none

/-- The mutex that a thread holds. -/
noncomputable def held (w : ServerWorld ι) (i : ι) : Option ℕ :=
  someMutex fun d => w.owner d = some i

/-- The structs that a thread may access. -/
noncomputable def ownArgs (w : ServerWorld ι) (i : ι) : ArgStructs :=
  match w.held i with
  | some d => w.args d
  | none => fun _ _ => none

/-- What thread `i` sees. -/
noncomputable def view (w : ServerWorld ι) (i : ι) : View where
  input := w.input i
  ending := w.ending i
  consumed := w.consumed i
  held := w.held i
  args := w.ownArgs i
  calling := w.calling i
  trace := w.trace i

/-- No thread holds two mutexes. -/
def Single (w : ServerWorld ι) : Prop :=
  ∀ i d d', w.owner d = some i → w.owner d' = some i → d = d'

omit [DecidableEq ι] in
theorem Single.held_eq (h : w.Single) {d : ℕ} : w.held i = some d ↔ w.owner d = some i := by
  unfold held someMutex
  split
  · rename_i hex
    constructor
    · intro hd
      rw [← Option.some.inj hd]
      exact hex.choose_spec
    · intro hd
      rw [h i _ d hex.choose_spec hd]
  · rename_i hnot
    exact ⟨fun hd => (by cases hd), fun hd => (hnot ⟨d, hd⟩).elim⟩

omit [DecidableEq ι] in
theorem held_eq_none : w.held i = none ↔ ∀ d, w.owner d ≠ some i := by
  unfold held someMutex
  split
  · rename_i hex
    exact ⟨fun h => (by cases h), fun h => (h _ hex.choose_spec).elim⟩
  · rename_i hnot
    exact ⟨fun _ d hd => hnot ⟨d, hd⟩, fun _ => rfl⟩

omit [DecidableEq ι] in
/-- Which mutex a thread holds is a matter of what it owns. -/
theorem held_congr {w' : ServerWorld ι} (h : ∀ d, w.owner d = some i ↔ w'.owner d = some i) :
    w.held i = w'.held i := congrArg someMutex (funext fun d => propext (h d))

omit [DecidableEq ι] in
theorem ownArgs_of_held {d : ℕ} (h : w.held i = some d) : w.ownArgs i = w.args d := by
  unfold ownArgs
  rw [h]

omit [DecidableEq ι] in
theorem ownArgs_of_none (h : w.held i = none) : w.ownArgs i = fun _ _ => none := by
  unfold ownArgs
  rw [h]

/-! ### An action in the view of its thread, and of another one -/

section Note

variable (w) (i) (e : Event)

theorem trace_note_self : (w.note i e).trace i = w.trace i ++ [e] := by
  simp [trace, note]

theorem trace_note_of_ne (h : j ≠ i) : (w.note i e).trace j = w.trace j := by
  simp [trace, note, Ne.symm h]

theorem view_note_self : (w.note i e).view i = (w.view i).log e := by
  rw [view, trace_note_self]
  rfl

theorem view_note_of_ne (h : j ≠ i) : (w.note i e).view j = w.view j := by
  rw [view, trace_note_of_ne w i e h]
  rfl

end Note

theorem view_advance_self (w : ServerWorld ι) (i : ι) (n : ℕ) :
    (w.advance i n).view i = (w.view i).advance n := by
  simp only [view, advance, Function.update_self]
  rfl

theorem view_advance_of_ne (w : ServerWorld ι) (n : ℕ) (h : j ≠ i) :
    (w.advance i n).view j = w.view j := by
  simp only [view, advance, Function.update_of_ne h]
  rfl

theorem view_inside_self (w : ServerWorld ι) (i : ι) (c : Option (ℕ × ℕ)) :
    (w.inside i c).view i = (w.view i).inside c := by
  simp only [view, inside, Function.update_self]
  rfl

theorem view_inside_of_ne (w : ServerWorld ι) (c : Option (ℕ × ℕ)) (h : j ≠ i) :
    (w.inside i c).view j = w.view j := by
  simp only [view, inside, Function.update_of_ne h]
  rfl

omit [DecidableEq ι] in
theorem owner_owned (w : ServerWorld ι) (d : ℕ) (o : Option ι) (d' : ℕ) :
    (w.owned d o).owner d' = if d' = d then o else w.owner d' := Function.update_apply _ _ _ _

omit [DecidableEq ι] in
theorem Single.lock (h : w.Single) {d : ℕ} (hheld : w.held i = none) :
    (w.owned d (some i)).Single := by
  have hnone := held_eq_none.mp hheld
  intro j d₁ d₂ h₁ h₂
  rw [owner_owned] at h₁ h₂
  split at h₁ <;> split at h₂
  · rename_i hd₁ hd₂
    rw [hd₁, hd₂]
  · obtain rfl := Option.some.inj h₁
    exact (hnone d₂ h₂).elim
  · obtain rfl := Option.some.inj h₂
    exact (hnone d₁ h₁).elim
  · exact h j d₁ d₂ h₁ h₂

omit [DecidableEq ι] in
theorem Single.unlock (h : w.Single) {d : ℕ} : (w.owned d none).Single := by
  intro j d₁ d₂ h₁ h₂
  rw [owner_owned] at h₁ h₂
  split at h₁
  · cases h₁
  split at h₂
  · cases h₂
  exact h j d₁ d₂ h₁ h₂

/-- A thread that takes a free mutex sees the structs behind it. -/
theorem view_lock_self (h : w.Single) {d : ℕ} (hheld : w.held i = none) :
    (w.owned d (some i)).view i = (w.view i).locked d (w.args d) := by
  have hheld' : (w.owned d (some i)).held i = some d := by
    rw [(h.lock hheld).held_eq, owner_owned, if_pos rfl]
  rw [view, ownArgs_of_held hheld', hheld']
  rfl

theorem view_unlock_self (h : w.Single) {d : ℕ} (hheld : w.held i = some d) :
    (w.owned d none).view i = (w.view i).unlocked := by
  have hheld' : (w.owned d none).held i = none := by
    rw [held_eq_none]
    intro d' hd'
    rw [owner_owned] at hd'
    split at hd'
    · cases hd'
    · rename_i hne
      exact hne (h i d' d hd' (h.held_eq.mp hheld))
  rw [view, ownArgs_of_none hheld', hheld']
  rfl

/-- A thread does not see that a mutex that is not its own changes hands. -/
theorem view_owned_of_ne {d : ℕ} {o : Option ι} (hw : w.owner d ≠ some j) (ho : o ≠ some j) :
    (w.owned d o).view j = w.view j := by
  have hheld : (w.owned d o).held j = w.held j := by
    refine held_congr fun d' => ?_
    rw [owner_owned]
    by_cases hd : d' = d
    · subst hd
      rw [if_pos rfl]
      exact ⟨fun h => (ho h).elim, fun h => (hw h).elim⟩
    · rw [if_neg hd]
  have hargs : (w.owned d o).ownArgs j = w.ownArgs j := by
    unfold ownArgs
    rw [hheld]
    rfl
  rw [view, hheld, hargs]
  rfl

theorem view_stored_self {d : ℕ} (hheld : w.held i = some d) (op : ℕ) (name : String)
    (v : Option ArgVal) : (w.stored d op name v).view i = (w.view i).setArg op name v := by
  have hargs : (w.stored d op name v).ownArgs i = (w.ownArgs i).set op name v := by
    rw [ownArgs_of_held hheld, ownArgs_of_held (w := w.stored d op name v) hheld]
    exact Function.update_self _ _ _
  rw [view, hargs]
  rfl

/-- Nor does it see what is stored behind one. -/
theorem view_stored_of_ne (hw : w.Single) {d : ℕ} (howner : w.owner d ≠ some j) (op : ℕ)
    (name : String) (v : Option ArgVal) : (w.stored d op name v).view j = w.view j := by
  have hargs : (w.stored d op name v).ownArgs j = w.ownArgs j := by
    cases hheld : w.held j with
    | none => rw [ownArgs_of_none hheld, ownArgs_of_none (w := w.stored d op name v) hheld]
    | some d' =>
      have hne : d' ≠ d := by
        rintro rfl
        exact howner (hw.held_eq.mp hheld)
      rw [ownArgs_of_held hheld, ownArgs_of_held (w := w.stored d op name v) hheld]
      exact Function.update_of_ne hne _ _
  rw [view, hargs]
  rfl

/-! ### The outline -/

omit [DecidableEq ι] in
theorem of_ite_eq_none {c : Prop} [Decidable c] {s : Stop}
    (h : (if c then none else some s) = (none : Option Stop)) : c := by
  by_contra hc
  rw [if_neg hc] at h
  cases h

/-- **An action in the view of its thread.** -/
theorem view_next_self (hw : w.Single) {e : Action}
    (hstop : View.stop drivers e (w.view i) = none) {x : Answer e}
    (hok : ok drivers i e w x) : (next i e w x).view i = View.next e (w.view i) x := by
  cases e with
  | read n =>
    cases x with
    | bytes bs => exact view_advance_self w i bs.length
    | zero => rfl
    | negative => rfl
  | write dest bs => exact view_note_self w i _
  | received d op => exact view_note_self w i _
  | lock d =>
    obtain rfl : x = w.args d := hok
    exact view_lock_self hw (of_ite_eq_none hstop)
  | unlock d => exact view_unlock_self hw (of_ite_eq_none hstop)
  | store d op name v => exact view_stored_self (of_ite_eq_none hstop) op name v
  | call d op names =>
    have hargs : (w.view i).args = w.args d := ownArgs_of_held (of_ite_eq_none hstop)
    change ((w.inside i (some (d, op))).note i _).view i = _
    rw [view_note_self, view_inside_self, View.next, hargs]
    rfl
  | ret d op =>
    change ((w.inside i none).note i _).view i = _
    rw [view_note_self, view_inside_self]
    rfl
  | _ => rfl

/-- **The others do not see it.** -/
theorem view_next_of_ne (hw : w.Single) {e : Action} (henabled : Enabled i e w)
    (hstop : View.stop drivers e (w.view i) = none) {x : Answer e} (hji : j ≠ i) :
    (next i e w x).view j = w.view j := by
  have hother : ∀ {d}, w.held i = some d → w.owner d ≠ some j := by
    intro d hheld howner
    rw [hw.held_eq.mp hheld] at howner
    exact hji (Option.some.inj howner).symm
  cases e with
  | read n =>
    cases x with
    | bytes bs => exact view_advance_of_ne w bs.length hji
    | zero => rfl
    | negative => rfl
  | write dest bs => exact view_note_of_ne w i _ hji
  | received d op => exact view_note_of_ne w i _ hji
  | lock d =>
    have hfree : w.owner d = none := henabled
    refine view_owned_of_ne ?_ fun h => hji (Option.some.inj h).symm
    rw [hfree]
    exact (Option.some_ne_none j).symm
  | unlock d => exact view_owned_of_ne (hother (of_ite_eq_none hstop)) (Option.some_ne_none j).symm
  | store d op name v => exact view_stored_of_ne hw (hother (of_ite_eq_none hstop)) op name v
  | call d op names =>
    change ((w.inside i (some (d, op))).note i _).view j = _
    rw [view_note_of_ne _ _ _ hji, view_inside_of_ne _ _ hji]
  | ret d op =>
    change ((w.inside i none).note i _).view j = _
    rw [view_note_of_ne _ _ _ hji, view_inside_of_ne _ _ hji]
  | _ => rfl

/-- No thread ever holds two mutexes. -/
theorem Single.next (hw : w.Single) {e : Action} (hstop : View.stop drivers e (w.view i) = none)
    (x : Answer e) : (next i e w x).Single := by
  cases e with
  | read n => cases x <;> exact hw
  | lock d => exact hw.lock (of_ite_eq_none hstop)
  | unlock d => exact hw.unlock
  | _ => exact hw

/-- What a thread is answered is what its view admits. -/
theorem sees {e : Action} {x : Answer e} (hok : ok drivers i e w x) :
    (session drivers .any).ok e (w.view i) x := by
  refine ⟨?_, Env.ok_any e x⟩
  cases e with
  | read n => cases x <;> exact hok
  | lock d => trivial
  | _ => exact hok

omit [DecidableEq ι] in
/-- Where an action goes on that stops in the view of its thread, C++ leaves open what it does. -/
theorem not_defined_of_stop {v : View} (hinput : v.input = w.input i)
    (hending : v.ending = w.ending i) {e : Action} (henabled : Enabled i e w) {f : Stop}
    (hstop : View.stop drivers e v = some f) : ¬ Defined f := by
  intro hf
  have hundefined : ∀ {c : Prop} [Decidable c] {fault : Fault},
      (if c then none else some (.undefined fault)) = some f → False := by
    intro c _ fault h
    split at h
    · cases h
    · exact hf fault (Option.some.inj h).symm
  cases e with
  | read n =>
    rw [View.stop, hinput, hending, if_neg henabled] at hstop
    cases hstop
  | isStarted d => exact hundefined hstop
  | device d => exact hundefined hstop
  | lock d => exact hundefined hstop
  | unlock d => exact hundefined hstop
  | store d op name x => exact hundefined hstop
  | call d op names => exact hundefined hstop
  | ret d op => exact hundefined hstop
  | overrun => exact hf _ (Option.some.inj hstop).symm
  | throw => exact henabled
  | outOfFuel => exact henabled
  | _ => cases hstop

end ServerWorld

/-- **The outline.**  Every session thread has, in its view, what `P` says of it. -/
noncomputable def serverOutline (ι : Type) [DecidableEq ι] (drivers : List Driver)
    (P : ι → View → Prop) : Outline (serverSystem ι drivers) View Stop ℤ where
  handler _ := session drivers .any
  view i w := w.view i
  inv := ServerWorld.Single
  post i := Result.EndsOr (fun _ w => P i w) fun f w => P i w ∧ Defined f
  goes := by
    intro i e w f _ henabled hstop hpost
    exact ServerWorld.not_defined_of_stop rfl rfl henabled hstop hpost.2
  sees := by
    intro i e w x _ _ _ hok
    exact ServerWorld.sees hok
  keeps := by
    intro i e w x hw _ hstop _
    exact hw.next hstop x
  moves := by
    intro i e w x hw _ hstop hok
    exact ServerWorld.view_next_self hw hstop hok
  stays := by
    intro i j e w x hw henabled hstop _ hji
    exact ServerWorld.view_next_of_ne hw henabled hstop hji

/-! ## Operations and returns -/

/-- Where an action takes a thread that is inside an operation, or outside.  Inside there is
nothing but the return. -/
def callOrder : Action → Option (ℕ × ℕ) → Option (Option (ℕ × ℕ))
  | .ret d op, some c => if c = (d, op) then some none else none
  | .call d op _, none => some (some (d, op))
  | .ret _ _, none => none
  | _, none => some none
  | _, some _ => none

/-- An action that is neither the entry into an operation nor the return from it. -/
def Action.Outside : Action → Prop
  | .call _ _ _ | .ret _ _ => False
  | _ => True

theorem callOrder_of_outside {e : Action} (h : e.Outside) : callOrder e none = some none := by
  cases e with
  | call d op names => exact h.elim
  | ret d op => exact h.elim
  | _ => rfl

/-- What a thread does, and where it is then. -/
theorem callOrder_cases {e : Action} {c q : Option (ℕ × ℕ)} (h : callOrder e c = some q) :
    (∃ d op names, e = .call d op names ∧ c = none ∧ q = some (d, op)) ∨
      (∃ d op, e = .ret d op ∧ c = some (d, op) ∧ q = none) ∨
      e.Outside ∧ c = none ∧ q = none := by
  cases c with
  | none =>
    cases e with
    | call d op names => exact Or.inl ⟨d, op, names, rfl, rfl, (Option.some.inj h).symm⟩
    | ret d op => cases h
    | _ => exact Or.inr (Or.inr ⟨trivial, rfl, (Option.some.inj h).symm⟩)
  | some c =>
    cases e with
    | ret d op =>
      rw [callOrder] at h
      split at h
      · rename_i hc
        exact Or.inr (Or.inl ⟨d, op, rfl, congrArg some hc, (Option.some.inj h).symm⟩)
      · cases h
    | _ => cases h

/-- A program that calls no operation, or whose calls are followed by their returns. -/
def CallsInOrder {α : Type} (p : Program α) : Prop := p.Follows callOrder (· = none) none

section CallsInOrder

variable {arch : Arch} {drivers : List Driver} {s : Session} {α β : Type}

theorem CallsInOrder.pure (a : α) : CallsInOrder (Pure.pure a : Program α) := rfl

theorem CallsInOrder.bind {p : Program α} {f : α → Program β} (hp : CallsInOrder p)
    (hf : ∀ a, CallsInOrder (f a)) : CallsInOrder (p >>= f) := by
  refine follows_bind hp ?_
  rintro a q rfl
  exact hf a

theorem CallsInOrder.of_within {φ : Action → Prop} {P : α → Prop} {p : Program α}
    (hφ : ∀ e, φ e → e.Outside) (hp : p.Within φ P) : CallsInOrder p :=
  follows_of_only (fun e he => callOrder_of_outside (hφ e he)) hp.1 rfl

theorem CallsInOrder.act {e : Action} (he : e.Outside) {f : Answer e → Program β}
    (hf : ∀ a, CallsInOrder (f a)) : CallsInOrder (Prog.perform e >>= f) :=
  (of_within (fun _ h => h) (Prog.within_perform he)).bind hf

theorem Action.OfWriting.outside {id : SessionID} {part : List UInt8 → Prop} (e : Action)
    (h : e.OfWriting id part) : e.Outside := by
  cases e with
  | write dest bytes => trivial
  | outOfFuel => trivial
  | _ => exact h.elim

theorem Action.OfReading.outside (e : Action) (h : e.OfReading) : e.Outside := by
  cases e with
  | call d op names => exact h.elim
  | ret d op => exact h.elim
  | _ => trivial

theorem Action.OfParser.outside {driver operation : ℕ} (e : Action)
    (h : e.OfParser s driver operation) : e.Outside := by
  cases e with
  | call d op names => exact h.elim
  | ret d op => exact h.elim
  | _ => trivial

theorem callsInOrder_send (driver operation : ℕ) (v : RetVal) :
    CallsInOrder (s.send driver operation v) := by
  cases hbuf : Server.buildReply (UInt16.ofNat driver) (UInt16.ofNat operation) v with
  | none =>
    rw [Session.send, hbuf]
    exact .act (by trivial) fun _ => .pure _
  | some sendBuffer => exact .of_within Action.OfWriting.outside (within_send_writing hbuf)

/-- The generated call returns before anything else is done. -/
theorem callsInOrder_generateCall (driver operation : ℕ) (op : Operation) :
    CallsInOrder (s.generateCall driver operation op) := by
  have hcall : callOrder (.call driver operation (op.arguments.map Arg.name)) none =
      some (some (driver, operation)) := rfl
  have hret : callOrder (.ret driver operation) (some (driver, operation)) = some none :=
    if_pos rfl
  refine follows_act hcall fun _ => follows_act hret fun v => ?_
  change CallsInOrder (if op.retType = .void then Pure.pure (0, s) else s.send driver operation v)
  split
  · exact .pure _
  · exact callsInOrder_send driver operation v

theorem callsInOrder_execute (driver : ℕ) (cmd : Command) :
    CallsInOrder (s.execute arch drivers driver cmd) := by
  refine .act (by trivial) fun _ => ?_
  cases hop : findOperation drivers driver cmd.operation with
  | none => exact .act (by trivial) fun _ => .pure _
  | some op =>
    refine .bind ?_ fun p => .act (by trivial) fun _ => .pure _
    refine .bind (.of_within Action.OfParser.outside (within_parse op.packs cmd)) ?_
    rintro ⟨err, cmd'⟩
    dsimp only
    split
    · exact .pure _
    · exact callsInOrder_generateCall driver cmd.operation op

theorem callsInOrder_executeDriverImplementation (type : ℕ) (cmd : Command) (devs : List ℕ) :
    CallsInOrder (DriverManager.executeDriverImplementation arch drivers s type cmd devs) := by
  induction devs with
  | nil => exact .pure _
  | cons dev₀ devs ih =>
    cases devs with
    | nil => exact callsInOrder_execute dev₀ cmd
    | cons dev₁ devs =>
      rw [DriverManager.executeDriverImplementation]
      · split
        · exact callsInOrder_execute dev₀ cmd
        · exact ih
      · exact List.cons_ne_nil _ _

theorem callsInOrder_managerExecute (cmd : Command) :
    CallsInOrder (DriverManager.execute arch drivers s cmd) := by
  have hselected : ∀ type, CallsInOrder (DriverManager.executeDriverImplementation arch drivers s
      type cmd (DriverManager.driverRange drivers)) :=
    fun type => callsInOrder_executeDriverImplementation type cmd _
  rw [DriverManager.execute]
  split
  · exact .pure _
  split
  · exact callsInOrder_execute 1 cmd
  refine .act (by trivial) fun started => ?_
  split
  · refine .bind (.of_within (φ := Action.Outside) (fun _ h => h) (within_startImpl ?_ _))
      fun _ => .act (by trivial) hselected
    intro e he
    cases e with
    | call d op names => exact he.elim
    | ret d op => exact he.elim
    | _ => trivial
  · exact .act (by trivial) hselected

theorem callsInOrder_serve (fuel : ℕ) :
    CallsInOrder (s.serve arch drivers fuel) := by
  induction fuel generalizing s with
  | zero => exact .act (by trivial) fun _ => .pure _
  | succ fuel ih =>
    refine .act (by trivial) fun b => ?_
    split
    · exact .pure _
    refine .act (by trivial) fun mem => ?_
    refine .bind (.of_within Action.OfReading.outside (within_readCommand fuel _)) ?_
    rintro ⟨n, s', cmd⟩
    refine .act (by trivial) fun b => ?_
    split
    · exact .pure _
    dsimp only
    split
    · exact .pure _
    refine .bind (callsInOrder_managerExecute cmd) ?_
    rintro ⟨err, s''⟩
    dsimp only
    split
    · exact .pure _
    · exact ih

/-- **A session thread calls one operation after the other.** -/
theorem callsInOrder_run (fuel : ℕ) :
    CallsInOrder (s.run arch drivers (fun s => pure (0, s)) fuel) := by
  have hinit : s.initSocket (fun s => pure (0, s)) = pure (0, s) := by
    rw [Session.initSocket]
    cases s.type <;> rfl
  rw [Session.run, hinit, pure_bind]
  simp only [lt_self_iff_false, if_false]
  refine .bind (callsInOrder_serve fuel) ?_
  rintro ⟨_ | n, served⟩
  · exact .bind (.of_within Action.OfWriting.outside (within_exitSocket s.type served))
      fun _ => .pure _
  · exact .pure _

end CallsInOrder

/-! ## Side by side -/

namespace ServerWorld

variable {ι : Type} {drivers : List Driver} {w : ServerWorld ι} {i j : ι}

/-- A thread is inside an operation of a driver only with the mutex of this driver. -/
def Guarded (w : ServerWorld ι) : Prop :=
  ∀ i d op, w.calling i = some (d, op) → w.owner d = some i

variable [DecidableEq ι]

theorem calling_next_outside {e : Action} (he : e.Outside) (x : Answer e) :
    (next i e w x).calling = w.calling := by
  cases e with
  | read n => cases x <;> rfl
  | call d op names => exact he.elim
  | ret d op => exact he.elim
  | _ => rfl

theorem calling_next_self {e : Action} {q : Option (ℕ × ℕ)}
    (he : callOrder e (w.calling i) = some q) (x : Answer e) : (next i e w x).calling i = q := by
  rcases callOrder_cases he with ⟨d, op, names, rfl, -, rfl⟩ | ⟨d, op, rfl, -, rfl⟩ |
    ⟨hout, hc, rfl⟩
  · exact Function.update_self _ _ _
  · exact Function.update_self _ _ _
  · rw [calling_next_outside hout, hc]

theorem calling_next_of_ne (e : Action) (x : Answer e) (h : j ≠ i) :
    (next i e w x).calling j = w.calling j := by
  cases e with
  | read n => cases x <;> rfl
  | call d op names => exact Function.update_of_ne h _ _
  | ret d op => exact Function.update_of_ne h _ _
  | _ => rfl

/-- **A mutex is not given up inside an operation.** -/
theorem Guarded.next (h : w.Guarded) (hw : w.Single) {e : Action} (henabled : Enabled i e w)
    (hstop : View.stop drivers e (w.view i) = none) {q : Option (ℕ × ℕ)}
    (he : callOrder e (w.calling i) = some q) (x : Answer e) : (next i e w x).Guarded := by
  intro j d op hcalling
  by_cases hji : j = i
  · subst hji
    rw [calling_next_self he] at hcalling
    rcases callOrder_cases he with ⟨d', op', names, rfl, -, hq⟩ | ⟨d', op', rfl, -, hq⟩ |
      ⟨-, -, hq⟩
    · obtain ⟨rfl, rfl⟩ := Prod.mk.inj (Option.some.inj (hq.symm.trans hcalling))
      exact hw.held_eq.mp (of_ite_eq_none hstop)
    · rw [hq] at hcalling
      cases hcalling
    · rw [hq] at hcalling
      cases hcalling
  · rw [calling_next_of_ne e x hji] at hcalling
    have howner := h j d op hcalling
    cases e with
    | read n => cases x <;> exact howner
    | lock d' =>
      have hfree : w.owner d' = none := henabled
      change (w.owned d' (some i)).owner d = some j
      rw [owner_owned, if_neg ?_]
      · exact howner
      · rintro rfl
        rw [hfree] at howner
        cases howner
    | unlock d' =>
      have hown : w.owner d' = some i := hw.held_eq.mp (of_ite_eq_none hstop)
      change (w.owned d' none).owner d = some j
      rw [owner_owned, if_neg ?_]
      · exact howner
      · rintro rfl
        rw [hown] at howner
        exact hji (Option.some.inj howner).symm
    | _ => exact howner

/-- Every session has had a part of the conversation with its own client, and no two sessions
are inside operations of one driver. -/
structure Unmixed (sessions : ι → Session) (cmds : ι → List ClientCommand) (w : ServerWorld ι) :
    Prop where
  history : ∀ i, ∃ t, History (sessions i).type (sessions i).id (cmds i) t ∧ w.trace i <+: t
  apart : ∀ i j d op op', w.calling i = some (d, op) → w.calling j = some (d, op') → i = j

theorem view_start (input : ι → List UInt8) (ending : ι → Ending) (i : ι) :
    (start input ending).view i = View.start (input i) (ending i) := by
  have hheld : (start input ending).held i = none :=
    held_eq_none.mpr fun d h => (Option.some_ne_none i h.symm).elim
  rw [view, ownArgs_of_none hheld, hheld]
  rfl

end ServerWorld

/-- The sessions before they begin. -/
def serverStart {ι : Type} (arch : Arch) (drivers : List Driver) (sessions : ι → Session)
    (fuel : ι → ℕ) (input : ι → List UInt8) (ending : ι → Ending) :
    Config ι Action Answer (ServerWorld ι) ℤ where
  progs i := (sessions i).run arch drivers (fun s => pure (0, s)) (fuel i)
  world := ServerWorld.start input ending

section Unmixed

variable {ι : Type} [DecidableEq ι] {drivers : List Driver} {P : ι → View → Prop}
  {c c' : Config ι Action Answer (ServerWorld ι) ℤ}

/-- What holds of all threads together. -/
structure SideBySide (drivers : List Driver) (P : ι → View → Prop)
    (c : Config ι Action Answer (ServerWorld ι) ℤ) : Prop where
  holds : (serverOutline ι drivers P).Holds c
  ordered : ∀ i, (c.progs i).Follows callOrder (· = none) (c.world.calling i)
  guarded : c.world.Guarded

/-- **A step of one thread.** -/
theorem SideBySide.step (h : SideBySide drivers P c) (hstep : (serverSystem ι drivers).Step c c') :
    SideBySide drivers P c' where
  holds := h.holds.step hstep
  ordered := by
    have hown : ∀ i e (w : ServerWorld ι) x q', callOrder e (w.calling i) = some q' →
        ((serverSystem ι drivers).next i e w x).calling i = q' :=
      fun i e w x q' he => ServerWorld.calling_next_self he x
    have hother : ∀ i j e (w : ServerWorld ι) x, j ≠ i →
        ((serverSystem ι drivers).next i e w x).calling j = w.calling j :=
      fun i j e w x hji => ServerWorld.calling_next_of_ne e x hji
    exact System.Step.follows hown hother h.ordered hstep
  guarded := by
    cases hstep with
    | @act i e k x hprog henabled hok =>
      have hfollows := h.ordered i
      rw [hprog] at hfollows
      obtain ⟨q, he, -⟩ := hfollows.of_act
      exact h.guarded.next h.holds.inv henabled (h.holds.stop_eq_none hprog henabled) he x

variable (arch : Arch) {sessions : ι → Session} (fuel : ι → ℕ) {cmds : ι → List ClientCommand}
  {input : ι → List UInt8}

/-- **At the start** every session has the conversation with its client before it. -/
theorem sideBySide_start (hcmds : ∀ i, ∀ c ∈ cmds i, c.WellFormed drivers)
    (hinput : ∀ i, Sent (sessions i).type (cmds i) (input i)) (ending : ι → Ending) :
    SideBySide drivers (fun i w => History (sessions i).type (sessions i).id (cmds i) w.trace)
      (serverStart arch drivers sessions fuel input ending) := by
  refine ⟨⟨?_, fun i => ?_⟩, fun i => callsInOrder_run (fuel i), ?_⟩
  · intro i d d' h
    cases h
  · change (session drivers .any).wp _ _ ((ServerWorld.start input ending).view i)
    rw [ServerWorld.view_start]
    have hrest : (View.start (input i) (ending i)).AtRest := ⟨rfl, rfl, rfl⟩
    refine (session drivers .any).wp_mono ?_
      (wp_run_conversation (fuel i) hrest (hinput i) (hcmds i))
    have hhistory : ∀ {w : View}, (∃ t, w.trace = [] ++ t ∧
        History (sessions i).type (sessions i).id (cmds i) t) →
          History (sessions i).type (sessions i).id (cmds i) w.trace := by
      rintro w ⟨t, htrace, ht⟩
      rwa [htrace]
    rintro (⟨n, w⟩ | ⟨f, w⟩) hr
    · exact hhistory hr
    · exact ⟨hhistory hr.1, hr.2⟩
  · intro i d op h
    cases h

/-- At any time it has had a part of it. -/
theorem SideBySide.unmixed (h : SideBySide drivers
    (fun i w => History (sessions i).type (sessions i).id (cmds i) w.trace) c) :
    c.world.Unmixed sessions cmds := by
  refine ⟨fun i => ?_, fun i j d op op' hi hj => ?_⟩
  · obtain ⟨r, hr, htrace⟩ := (session drivers .any).exists_of_wp
      (session_live drivers Env.any_possible)
      ((session drivers .any).wp_and (h.holds.wp i) (wp_trace (c.progs i) (c.world.view i)))
    cases r with
    | ret n w => exact ⟨_, hr, htrace⟩
    | halt f w => exact ⟨_, hr.1, htrace⟩
  · have hown := (h.guarded i d op hi).symm.trans (h.guarded j d op' hj)
    exact Option.some.inj hown

end Unmixed

/-- **Sessions do not mix.**  In whatever order the threads go on, however the bytes arrive and
whatever a thread is answered. -/
theorem sessions_unmixed {ι : Type} [DecidableEq ι] (arch : Arch) (drivers : List Driver)
    (sessions : ι → Session) (fuel : ι → ℕ) (cmds : ι → List ClientCommand)
    (hcmds : ∀ i, ∀ c ∈ cmds i, c.WellFormed drivers) (input : ι → List UInt8)
    (hinput : ∀ i, Sent (sessions i).type (cmds i) (input i)) (ending : ι → Ending)
    {c : Config ι Action Answer (ServerWorld ι) ℤ}
    (hreach : (serverSystem ι drivers).Reachable
      (serverStart arch drivers sessions fuel input ending) c) :
    c.world.Unmixed sessions cmds := by
  have h := System.Reachable.invariant _ (fun _ _ hc hstep => hc.step hstep)
    (sideBySide_start arch fuel hcmds hinput ending) hreach
  exact h.unmixed

/-- A stream and a WebSocket. -/
def probeSessions : Bool → Session
  | true => probeSession
  | false => probeWebSession

/-- The same two commands on each of them. -/
def probeInput : Bool → List UInt8
  | true => streamOf (probeCommands.map ClientCommand.message)
  | false => framesOf (probeCommands.map fun c =>
    ⟨⟨0, Nat.succ_pos 7⟩, .binary, fun _ => UInt8.ofNat 0, c.message.bytes⟩)

theorem sent_probeInput (b : Bool) : Sent (probeSessions b).type probeCommands (probeInput b) := by
  cases b with
  | true => exact .stream SockType.noConfusion probeCommands
  | false =>
    refine .frames (List.forall₂_map_right_iff.mpr (List.forall₂_same.mpr fun c hc => ⟨rfl, ?_⟩))
    revert c
    decide

/-- Both sessions go on until none can, and have not mixed. -/
theorem sessions_unmixed_probe :
    ∃ c, (serverSystem Bool probeDrivers).Reachable
        (serverStart .lp64 probeDrivers probeSessions (fun _ => 3) probeInput fun _ => .eof) c ∧
      (∀ c', ¬ (serverSystem Bool probeDrivers).Step c c') ∧
      c.world.Unmixed probeSessions fun _ => probeCommands := by
  obtain ⟨c, hreach, hend⟩ := (serverSystem Bool probeDrivers).exists_terminal
    (serverStart .lp64 probeDrivers probeSessions (fun _ => 3) probeInput fun _ => .eof)
  exact ⟨c, hreach, hend, sessions_unmixed .lp64 probeDrivers probeSessions (fun _ => 3)
    (fun _ => probeCommands) (fun _ => wellFormed_probeCommands) probeInput sent_probeInput
    (fun _ => .eof) hreach⟩

end KoheronSdk
