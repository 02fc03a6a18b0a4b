import KoheronSdk.Lib.Program

/-!
# Interpreting programs, and taking notes

`Prog.interpret` replaces every action of a program by a program that gives the
answer.  It commutes with sequencing, so that a program over the operations of an
interface becomes one over the actions of an implementation.

## Notes

A note is an action that does nothing but leave a value behind.  A program with
notes has the actions `E ⊕ N`; `Prog.erase` forgets the notes, `Prog.plain` is a
program that takes none, and `Handler.noting` keeps the notes in a list beside the
world.  So what a program did on the way can be stated about the program that takes
notes of it, and is then a statement about the program with the notes erased.

The alternative would be to keep such things in the world itself.  They would then have
to be threaded through every lemma about the program, and the actions of the program
would have to say things that the program does not do.  With notes the lemmas are about
the plain program (`wp_plain`, `wp_plain_bind`), and a note costs one step of a proof.

* `Prog.interpret`: every action as a program.
* `Prog.plain`, `Prog.note`, `Prog.erase`: programs with notes and without.
* `Handler.noting`: the meaning of actions and notes, with the notes taken so far.
* `Handler.notingPick`: the run with notes in which the actions are answered as without.
-/

namespace Effects

variable {E E' : Type} {A : E → Type} {A' : E' → Type} {W S N α β : Type}

namespace Prog

/-- Replace every action by a program that answers it. -/
def interpret (ρ : (e : E) → Prog E' A' (A e)) : Prog E A α → Prog E' A' α
  | .pure a => .pure a
  | .act e k => (ρ e).bind fun x => (k x).interpret ρ

variable (ρ : (e : E) → Prog E' A' (A e))

@[simp] theorem interpret_pure (a : α) :
    (Pure.pure a : Prog E A α).interpret ρ = Pure.pure a := rfl

@[simp] theorem interpret_perform (e : E) : (perform e : Prog E A (A e)).interpret ρ = ρ e :=
  bind_pure_right (ρ e)

@[simp] theorem interpret_bind (p : Prog E A α) (f : α → Prog E A β) :
    (p >>= f).interpret ρ = p.interpret ρ >>= fun a => (f a).interpret ρ := by
  induction p with
  | pure a => rfl
  | act e k ih =>
    change (ρ e).bind (fun x => ((k x).bind f).interpret ρ)
      = ((ρ e).bind fun x => (k x).interpret ρ).bind fun a => (f a).interpret ρ
    rw [bind_assoc']
    exact congrArg _ (funext ih)

/-! ## Notes -/

/-- The answers to actions and notes. -/
def Noting (A : E → Type) (N : Type) : E ⊕ N → Type
  | .inl e => A e
  | .inr _ => Unit

/-- The program, taking no notes. -/
def plain (N : Type) : Prog E A α → Prog (E ⊕ N) (Noting A N) α :=
  interpret fun e => perform (A := Noting A N) (.inl e)

/-- Take a note. -/
def note (A : E → Type) (n : N) : Prog (E ⊕ N) (Noting A N) Unit :=
  perform (A := Noting A N) (.inr n)

/-- One action, or the note forgotten. -/
def eraseAction : (e : E ⊕ N) → Prog E A (Noting A N e)
  | .inl e => perform e
  | .inr _ => Pure.pure ()

/-- The program with the notes forgotten. -/
def erase : Prog (E ⊕ N) (Noting A N) α → Prog E A α := interpret eraseAction

@[simp] theorem erase_pure (a : α) :
    (Pure.pure a : Prog (E ⊕ N) (Noting A N) α).erase = Pure.pure a := rfl

@[simp] theorem erase_bind (p : Prog (E ⊕ N) (Noting A N) α)
    (f : α → Prog (E ⊕ N) (Noting A N) β) :
    (p >>= f).erase = p.erase >>= fun a => (f a).erase :=
  interpret_bind eraseAction p f

@[simp] theorem erase_note (n : N) : (note A n).erase = Pure.pure () := rfl

@[simp] theorem erase_plain (p : Prog E A α) : (p.plain N).erase = p := by
  induction p with
  | pure a => rfl
  | act e k ih => exact congrArg (Prog.act e) (funext ih)

end Prog

/-- The same ending, in another world. -/
def Result.mapWorld {W' : Type} (f : W → W') : Result S W α → Result S W' α
  | .ret a w => .ret a (f w)
  | .halt s w => .halt s (f w)

namespace Handler

variable (h : Handler E A W S)

/-- The meaning of actions and notes, with the notes taken so far. -/
def noting (N : Type) : Handler (E ⊕ N) (Prog.Noting A N) (W × List N) S where
  stop
    | .inl e, w => h.stop e w.1
    | .inr _, _ => none
  ok
    | .inl e, w, x => h.ok e w.1 x
    | .inr _, _, _ => True
  next
    | .inl e, w, x => (h.next e w.1 x, w.2)
    | .inr n, w, _ => (w.1, w.2 ++ [n])

/-- A program that takes no notes leaves the notes alone. -/
theorem wp_plain {p : Prog E A α} {post : Result S (W × List N) α → Prop} {w : W}
    {notes : List N} :
    (h.noting N).wp (p.plain N) post (w, notes) ↔
      h.wp p (fun r => post (r.mapWorld fun w' => (w', notes))) w := by
  induction p generalizing w with
  | pure a => rfl
  | act e k ih =>
    change (h.noting N).wp (.act (.inl e) fun x => (k x).plain N) post (w, notes) ↔ _
    cases hs : h.stop e w with
    | some s =>
      have hs' : (h.noting N).stop (.inl e) (w, notes) = some s := hs
      rw [wp_act_some h hs, wp_act_some _ hs']
      rfl
    | none =>
      have hs' : (h.noting N).stop (.inl e) (w, notes) = none := hs
      rw [wp_act_none h hs, wp_act_none _ hs']
      exact forall_congr' fun x => imp_congr_right fun _ => ih x

/-- A program that takes no notes, in front of one that may. -/
theorem wp_plain_bind {p : Prog E A α} {f : α → Prog (E ⊕ N) (Prog.Noting A N) β}
    {Q : α → W → Prop} {post : Result S (W × List N) β → Prop} {w : W} {notes : List N}
    (hp : h.wp p (Result.OnRet Q) w) (hhalt : ∀ s w', post (.halt s (w', notes)))
    (hf : ∀ a w', Q a w' → (h.noting N).wp (f a) post (w', notes)) :
    (h.noting N).wp (p.plain N >>= f) post (w, notes) := by
  refine (h.noting N).wp_bind_intro (h.wp_plain.mpr (h.wp_mono (fun r hr => ?_) hp))
  cases r with
  | ret a w' => exact hf a w' hr
  | halt s w' => exact hhalt s w'

/-- The same answers, whatever notes there are. -/
def notingPick (N : Type) (pick : ℕ → (e : E) → W → A e) :
    ℕ → (e : E ⊕ N) → W × List N → Prog.Noting A N e
  | i, .inl e, w => pick i e w.1
  | _, .inr _, _ => ()

theorem notingPick_allows {pick : ℕ → (e : E) → W → A e} (hpick : h.Allows pick) :
    (h.noting N).Allows (notingPick N pick)
  | i, .inl e, w => hpick i e w.1
  | _, .inr _, _ => fun _ => trivial

@[simp] theorem wp_note {n : N} {post : Result S (W × List N) Unit → Prop} {w : W}
    {notes : List N} :
    (h.noting N).wp (Prog.note A n) post (w, notes) ↔ post (.ret () (w, notes ++ [n])) :=
  ⟨fun hn => hn () trivial, fun hn _ _ => hn⟩

end Handler

end Effects
