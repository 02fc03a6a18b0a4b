import Mathlib.Logic.Basic
import Mathlib.Tactic.Common

/-!
# Programs that act on a world

A program is a tree of actions: it stops with a value, or it performs an action
and goes on with the answer.  What the actions mean is not part of the program.
A `Handler` gives them a meaning on a world: which actions cannot go on, which
answers an action may get, and how the world is afterwards.  Several answers may
be allowed, so one program has many runs.

## Why trees

One program is looked at under different meanings: alone on a connection, as one of many
threads, with the notes that it takes.  Written as a function on one of these worlds it would
have to be written again for the next one.  As a tree it is translated from the source once,
with `do`, and every meaning is a handler.  A loop has its fuel as an argument; that enough of it
is enough is proved where it is used.

## Runs and what holds of all of them

* `Handler.exec pick`: the run in which `pick` chooses the answers.  It computes.
* `Handler.wp p post w`: every run of `p` from `w` ends in `post`.

`wp` is what the proofs work with: it follows the program by `wp_bind`, weakens
by `wp_mono`, and `wp_of_only` carries an invariant that the actions of a program
keep.  `forall_exec_iff_wp` brings a result back to the runs, as soon as no action
is left without an answer.

A run may also stop in the middle, and says why: `Result` has both endings, and a
postcondition may speak of both, so that "the program returns" is a statement like any other.

* `Prog.Only`, `Prog.Gives`, `Prog.Within`: the actions that a program can perform and the values
  that it can return, whatever the answers.
-/

namespace Effects

/-- A program over actions `E`, where `e : E` is answered by an `A e`. -/
inductive Prog (E : Type) (A : E → Type) (α : Type) : Type where
  | pure (a : α)
  | act (e : E) (k : A e → Prog E A α)

variable {E : Type} {A : E → Type} {W S α β γ : Type}

namespace Prog

/-- Run `p`, then the program that its value selects. -/
def bind : Prog E A α → (α → Prog E A β) → Prog E A β
  | .pure a, f => f a
  | .act e k, f => .act e fun x => (k x).bind f

instance : Monad (Prog E A) where
  pure := .pure
  bind := .bind

/-- The program of one action. -/
def perform (e : E) : Prog E A (A e) := .act e .pure

theorem bind_pure_right (p : Prog E A α) : p.bind .pure = p := by
  induction p with
  | pure a => rfl
  | act e k ih => exact congrArg (Prog.act e) (funext ih)

theorem bind_assoc' (p : Prog E A α) (f : α → Prog E A β) (g : β → Prog E A γ) :
    (p.bind f).bind g = p.bind fun a => (f a).bind g := by
  induction p with
  | pure a => rfl
  | act e k ih => exact congrArg (Prog.act e) (funext ih)

instance : LawfulMonad (Prog E A) :=
  LawfulMonad.mk' (Prog E A) bind_pure_right (fun _ _ => rfl) bind_assoc'

/-- Every action that `p` can perform satisfies `φ`. -/
def Only (φ : E → Prop) : Prog E A α → Prop
  | .pure _ => True
  | .act e k => φ e ∧ ∀ x, (k x).Only φ

theorem only_perform {φ : E → Prop} {e : E} (h : φ e) :
    (perform e : Prog E A (A e)).Only φ := ⟨h, fun _ => trivial⟩

theorem only_bind {φ : E → Prop} {p : Prog E A α} {f : α → Prog E A β}
    (hp : p.Only φ) (hf : ∀ a, (f a).Only φ) : (p >>= f).Only φ := by
  induction p with
  | pure a => exact hf a
  | act e k ih => exact ⟨hp.1, fun x => ih x (hp.2 x)⟩

/-- Every value that `p` can return satisfies `φ`. -/
def Gives (φ : α → Prop) : Prog E A α → Prop
  | .pure a => φ a
  | .act _ k => ∀ x, (k x).Gives φ

theorem gives_bind {φ : α → Prop} {ψ : β → Prop} {p : Prog E A α} {f : α → Prog E A β}
    (hp : p.Gives φ) (hf : ∀ a, φ a → (f a).Gives ψ) : (p >>= f).Gives ψ := by
  induction p with
  | pure a => exact hf a hp
  | act e k ih => exact fun x => ih x (hp x)

theorem gives_true : (p : Prog E A α) → p.Gives fun _ => True
  | .pure _ => trivial
  | .act _ k => fun x => gives_true (k x)

theorem only_true : (p : Prog E A α) → p.Only fun _ => True
  | .pure _ => trivial
  | .act _ k => ⟨trivial, fun x => only_true (k x)⟩

theorem Only.mono {φ ψ : E → Prop} (h : ∀ e, φ e → ψ e) :
    ∀ {p : Prog E A α}, p.Only φ → p.Only ψ
  | .pure _, _ => trivial
  | .act e _, hp => ⟨h e hp.1, fun x => (hp.2 x).mono h⟩

/-- `p` performs only actions that satisfy `φ` and returns only values that satisfy `P`. -/
def Within (φ : E → Prop) (P : α → Prop) (p : Prog E A α) : Prop := p.Only φ ∧ p.Gives P

theorem within_pure {φ : E → Prop} {P : α → Prop} {a : α} (h : P a) :
    (Pure.pure a : Prog E A α).Within φ P := ⟨trivial, h⟩

theorem within_perform {φ : E → Prop} {e : E} (h : φ e) :
    (perform e : Prog E A (A e)).Within φ fun _ => True := ⟨only_perform h, fun _ => trivial⟩

theorem within_bind {φ : E → Prop} {P : α → Prop} {Q : β → Prop} {p : Prog E A α}
    {f : α → Prog E A β} (hp : p.Within φ P) (hf : ∀ a, P a → (f a).Within φ Q) :
    (p >>= f).Within φ Q := by
  obtain ⟨honly, hgives⟩ := hp
  refine ⟨?_, gives_bind hgives fun a ha => (hf a ha).2⟩
  induction p with
  | pure a => exact (hf a hgives).1
  | act e k ih => exact ⟨honly.1, fun x => ih x (honly.2 x) (hgives x)⟩

/-- An action in front that nothing is asked of but `φ`. -/
theorem within_act {φ : E → Prop} {Q : β → Prop} {e : E} {f : A e → Prog E A β} (h : φ e)
    (hf : ∀ a, (f a).Within φ Q) : (perform e >>= f).Within φ Q :=
  within_bind (within_perform h) fun a _ => hf a

theorem Gives.mono {P Q : α → Prop} (h : ∀ a, P a → Q a) :
    ∀ {p : Prog E A α}, p.Gives P → p.Gives Q
  | .pure a, hp => h a hp
  | .act _ _, hp => fun x => (hp x).mono h

theorem Within.mono {φ ψ : E → Prop} {P Q : α → Prop} {p : Prog E A α} (h : ∀ e, φ e → ψ e)
    (hvalue : ∀ a, P a → Q a) (hp : p.Within φ P) : p.Within ψ Q :=
  ⟨hp.1.mono h, hp.2.mono hvalue⟩

end Prog

/-! ## Handlers and runs -/

/-- A meaning of the actions on a world `W`: `stop` tells the actions that cannot
go on and why, `ok` the answers an action may get, `next` the world after it. -/
structure Handler (E : Type) (A : E → Type) (W S : Type) where
  stop : E → W → Option S
  ok : (e : E) → W → A e → Prop
  next : (e : E) → W → A e → W

/-- How a run ends: with a value, or stopped in the middle. -/
inductive Result (S W α : Type) where
  | ret (a : α) (w : W)
  | halt (s : S) (w : W)

namespace Result

/-- The world a run ends in. -/
def world : Result S W α → W
  | .ret _ w => w
  | .halt _ w => w

/-- Why a run stopped in the middle, if it did. -/
def stop? : Result S W α → Option S
  | .ret _ _ => none
  | .halt s _ => some s

/-- If the run ended with a value, then `Q` holds of it. -/
def OnRet (Q : α → W → Prop) : Result S W α → Prop
  | .ret a w => Q a w
  | .halt _ _ => True

@[simp] theorem onRet_ret (Q : α → W → Prop) (a : α) (w : W) :
    (Result.ret a w : Result S W α).OnRet Q = Q a w := rfl

@[simp] theorem onRet_halt (Q : α → W → Prop) (s : S) (w : W) :
    (Result.halt s w : Result S W α).OnRet Q = True := rfl

/-- `Q` holds of a run that ended with a value, `H` of where one was stopped. -/
def Ends (Q : α → W → Prop) (H : W → Prop) : Result S W α → Prop
  | .ret a w => Q a w
  | .halt _ w => H w

/-- `Q` holds of a run that ended with a value, `H` of why and where one was stopped. -/
def EndsOr (Q : α → W → Prop) (H : S → W → Prop) : Result S W α → Prop
  | .ret a w => Q a w
  | .halt s w => H s w

@[simp] theorem world_ret (a : α) (w : W) : (Result.ret a w : Result S W α).world = w := rfl

@[simp] theorem world_halt (s : S) (w : W) : (Result.halt s w : Result S W α).world = w := rfl

@[simp] theorem stop?_ret (a : α) (w : W) : (Result.ret a w : Result S W α).stop? = none := rfl

@[simp] theorem stop?_halt (s : S) (w : W) :
    (Result.halt s w : Result S W α).stop? = some s := rfl

end Result

namespace Handler

variable (h : Handler E A W S)

/-- The answers `pick` chooses are allowed.  The first argument of `pick` counts
the actions of the run, so that `pick` may answer one question differently at
different times. -/
def Allows (pick : ℕ → (e : E) → W → A e) : Prop :=
  ∀ i e w, h.stop e w = none → h.ok e w (pick i e w)

/-- The run in which `pick` answers. -/
def exec (pick : ℕ → (e : E) → W → A e) : ℕ → Prog E A α → W → Result S W α
  | _, .pure a, w => .ret a w
  | i, .act e k, w =>
    match h.stop e w with
    | some s => .halt s w
    | none => exec pick (i + 1) (k (pick i e w)) (h.next e w (pick i e w))

/-- Every run of `p` from `w` ends in `post`. -/
def wp : Prog E A α → (Result S W α → Prop) → W → Prop
  | .pure a, post, w => post (.ret a w)
  | .act e k, post, w =>
    match h.stop e w with
    | some s => post (.halt s w)
    | none => ∀ x, h.ok e w x → wp (k x) post (h.next e w x)

/-- What has to hold after `p` for `p >>= f` to end in `post`. -/
def andThen (f : α → Prog E A β) (post : Result S W β → Prop) : Result S W α → Prop
  | .ret a w => h.wp (f a) post w
  | .halt s w => post (.halt s w)

@[simp] theorem wp_pure (a : α) (post : Result S W α → Prop) (w : W) :
    h.wp (Pure.pure a) post w = post (.ret a w) := rfl

@[simp] theorem andThen_ret (f : α → Prog E A β) (post : Result S W β → Prop) (a : α) (w : W) :
    h.andThen f post (.ret a w) = h.wp (f a) post w := rfl

@[simp] theorem andThen_halt (f : α → Prog E A β) (post : Result S W β → Prop) (s : S) (w : W) :
    h.andThen f post (.halt s w) = post (.halt s w) := rfl

theorem wp_act_none {e : E} {k : A e → Prog E A α} {post : Result S W α → Prop} {w : W}
    (hs : h.stop e w = none) :
    h.wp (.act e k) post w ↔ ∀ x, h.ok e w x → h.wp (k x) post (h.next e w x) := by
  rw [wp, hs]

theorem wp_act_some {e : E} {k : A e → Prog E A α} {post : Result S W α → Prop} {w : W} {s : S}
    (hs : h.stop e w = some s) : h.wp (.act e k) post w ↔ post (.halt s w) := by
  rw [wp, hs]

theorem wp_perform {e : E} {post : Result S W (A e) → Prop} {w : W} (hs : h.stop e w = none) :
    h.wp (Prog.perform e) post w ↔ ∀ x, h.ok e w x → post (.ret x (h.next e w x)) :=
  h.wp_act_none hs

theorem wp_mono {p : Prog E A α} {post post' : Result S W α → Prop}
    (hpost : ∀ r, post r → post' r) {w : W} (hp : h.wp p post w) : h.wp p post' w := by
  induction p generalizing w with
  | pure a => exact hpost _ hp
  | act e k ih =>
    cases hs : h.stop e w with
    | some s => rw [wp_act_some h hs] at hp ⊢; exact hpost _ hp
    | none =>
      rw [wp_act_none h hs] at hp ⊢
      exact fun x hx => ih x (hp x hx)

/-- The sequencing rule. -/
theorem wp_bind (p : Prog E A α) (f : α → Prog E A β) (post : Result S W β → Prop) (w : W) :
    h.wp (p >>= f) post w ↔ h.wp p (h.andThen f post) w := by
  induction p generalizing w with
  | pure a => rfl
  | act e k ih =>
    change h.wp (.act e fun x => (k x) >>= f) post w ↔ _
    cases hs : h.stop e w with
    | some s => rw [wp_act_some h hs, wp_act_some h hs, andThen_halt]
    | none =>
      rw [wp_act_none h hs, wp_act_none h hs]
      exact forall_congr' fun x => imp_congr_right fun _ => ih x _

theorem wp_bind_intro {p : Prog E A α} {f : α → Prog E A β} {post : Result S W β → Prop} {w : W}
    (hp : h.wp p (h.andThen f post) w) : h.wp (p >>= f) post w :=
  (h.wp_bind p f post w).mpr hp

/-- Two things that hold of every run hold together. -/
theorem wp_and {p : Prog E A α} {post post' : Result S W α → Prop} {w : W}
    (hp : h.wp p post w) (hp' : h.wp p post' w) : h.wp p (fun r => post r ∧ post' r) w := by
  induction p generalizing w with
  | pure a => exact ⟨hp, hp'⟩
  | act e k ih =>
    cases hs : h.stop e w with
    | some s => rw [wp_act_some h hs] at hp hp' ⊢; exact ⟨hp, hp'⟩
    | none =>
      rw [wp_act_none h hs] at hp hp' ⊢
      exact fun x hx => ih x (hp x hx) (hp' x hx)

/-- The sequencing rule for what holds when a run ends with a value. -/
theorem wp_bind_onRet {p : Prog E A α} {f : α → Prog E A β} {R : α → W → Prop}
    {Q : β → W → Prop} {w : W} (hp : h.wp p (Result.OnRet R) w)
    (hf : ∀ a w', R a w' → h.wp (f a) (Result.OnRet Q) w') : h.wp (p >>= f) (Result.OnRet Q) w := by
  refine h.wp_bind_intro (h.wp_mono (fun r hr => ?_) hp)
  cases r with
  | ret a w' => exact hf a w' hr
  | halt s w' => trivial

/-- The sequencing rule for what holds at the end and wherever a run is stopped. -/
theorem wp_bind_ends {p : Prog E A α} {f : α → Prog E A β} {R : α → W → Prop}
    {Q : β → W → Prop} {H : W → Prop} {w : W} (hp : h.wp p (Result.Ends R H) w)
    (hf : ∀ a w', R a w' → h.wp (f a) (Result.Ends Q H) w') :
    h.wp (p >>= f) (Result.Ends Q H) w := by
  refine h.wp_bind_intro (h.wp_mono (fun r hr => ?_) hp)
  cases r with
  | ret a w' => exact hf a w' hr
  | halt s w' => exact hr

/-- The sequencing rule for what holds at the end, and of every stop. -/
theorem wp_bind_endsOr {p : Prog E A α} {f : α → Prog E A β} {R : α → W → Prop}
    {Q : β → W → Prop} {H : S → W → Prop} {w : W} (hp : h.wp p (Result.EndsOr R H) w)
    (hf : ∀ a w', R a w' → h.wp (f a) (Result.EndsOr Q H) w') :
    h.wp (p >>= f) (Result.EndsOr Q H) w := by
  refine h.wp_bind_intro (h.wp_mono (fun r hr => ?_) hp)
  cases r with
  | ret a w' => exact hf a w' hr
  | halt s w' => exact hr

/-- What `p` gives. -/
theorem wp_of_gives {φ : α → Prop} {p : Prog E A α} (hp : p.Gives φ) {w : W} :
    h.wp p (Result.OnRet fun a _ => φ a) w := by
  induction p generalizing w with
  | pure a => exact hp
  | act e k ih =>
    cases hs : h.stop e w with
    | some s => rw [wp_act_some h hs]; trivial
    | none =>
      rw [wp_act_none h hs]
      exact fun x _ => ih x (hp x)

/-- An invariant that every action of `p` keeps holds when `p` ends. -/
theorem wp_of_only {φ : E → Prop} {I : W → Prop}
    (hkeep : ∀ e w x, φ e → I w → h.ok e w x → I (h.next e w x)) {p : Prog E A α}
    (hp : p.Only φ) {w : W} (hw : I w) : h.wp p (fun r => I r.world) w := by
  induction p generalizing w with
  | pure a => exact hw
  | act e k ih =>
    cases hs : h.stop e w with
    | some s => rw [wp_act_some h hs]; exact hw
    | none =>
      rw [wp_act_none h hs]
      exact fun x hx => ih x (hp.2 x) (hkeep e w x hp.1 hw hx)

/-- What the actions of `p` keep holds at its end, and so does what `p` gives. -/
theorem wp_of_within {φ : E → Prop} {P : α → Prop} {I : W → Prop}
    (hkeep : ∀ e w x, φ e → I w → h.ok e w x → I (h.next e w x)) {p : Prog E A α}
    (hp : p.Within φ P) {w : W} (hw : I w) :
    h.wp p (Result.Ends (fun a w' => I w' ∧ P a) I) w := by
  refine h.wp_mono ?_ (h.wp_and (h.wp_of_only hkeep hp.1 hw) (h.wp_of_gives hp.2))
  rintro (⟨a, w'⟩ | ⟨s, w'⟩) ⟨hI, hP⟩
  · exact ⟨hI, hP⟩
  · exact hI

/-- What the actions of `p` keep holds at its end and where it is stopped, and `p` is stopped
for a reason that they have. -/
theorem wp_endsOr_of_within {φ : E → Prop} {P : α → Prop} {I : W → Prop} {R : S → Prop}
    (hkeep : ∀ e w x, φ e → I w → h.ok e w x → I (h.next e w x))
    (hstop : ∀ e w s, φ e → h.stop e w = some s → R s) {p : Prog E A α} (hp : p.Within φ P) {w : W}
    (hw : I w) :
    h.wp p (Result.EndsOr (fun a w' => I w' ∧ P a) fun s w' => I w' ∧ R s) w := by
  obtain ⟨honly, hgives⟩ := hp
  induction p generalizing w with
  | pure a => exact ⟨hw, hgives⟩
  | act e k ih =>
    cases hs : h.stop e w with
    | some s =>
      rw [wp_act_some h hs]
      exact ⟨hw, hstop e w s honly.1 hs⟩
    | none =>
      rw [wp_act_none h hs]
      exact fun x hx => ih x (hkeep e w x honly.1 hw hx) (honly.2 x) (hgives x)

/-- A program whose actions all go on, and keep an invariant, comes to its end. -/
theorem wp_ret_of_only {φ : E → Prop} {I : W → Prop}
    (hgo : ∀ e w, φ e → I w → h.stop e w = none)
    (hkeep : ∀ e w x, φ e → I w → h.ok e w x → I (h.next e w x)) {p : Prog E A α}
    (hp : p.Only φ) {w : W} (hw : I w) : h.wp p (fun r => ∃ a w', r = .ret a w' ∧ I w') w := by
  induction p generalizing w with
  | pure a => exact ⟨a, w, rfl, hw⟩
  | act e k ih =>
    rw [wp_act_none h (hgo e w hp.1 hw)]
    exact fun x hx => ih x (hp.2 x) (hkeep e w x hp.1 hw hx)

/-- **A run is one of the runs.**  What holds of every run holds of the run that
an allowed `pick` selects. -/
theorem wp_exec {pick : ℕ → (e : E) → W → A e} (hpick : h.Allows pick) {p : Prog E A α}
    {post : Result S W α → Prop} {w : W} (hp : h.wp p post w) (i : ℕ) :
    post (h.exec pick i p w) := by
  induction p generalizing w i with
  | pure a => exact hp
  | act e k ih =>
    cases hs : h.stop e w with
    | some s => rw [wp_act_some h hs] at hp; rw [exec, hs]; exact hp
    | none =>
      rw [wp_act_none h hs] at hp
      rw [exec, hs]
      exact ih _ (hp _ (hpick i e w hs)) (i + 1)

/-- An action that goes on has an answer. -/
def Live : Prop := ∀ e w, h.stop e w = none → ∃ x, h.ok e w x

/-- A run looks at the answers from its first action on. -/
theorem exec_congr {pick pick' : ℕ → (e : E) → W → A e} {i : ℕ}
    (hpick : ∀ j, i ≤ j → pick j = pick' j) (p : Prog E A α) (w : W) :
    h.exec pick i p w = h.exec pick' i p w := by
  induction p generalizing w i with
  | pure a => rfl
  | act e k ih =>
    rw [exec, exec, hpick i (Nat.le_refl i)]
    cases h.stop e w with
    | some s => rfl
    | none => exact ih _ (fun j hj => hpick j (by omega)) _

open Classical in
theorem exists_exec_of_not_wp (hlive : h.Live) [∀ e, Nonempty (A e)] {p : Prog E A α}
    {post : Result S W α → Prop} {w : W} (hp : ¬ h.wp p post w) (i : ℕ) :
    ∃ pick, h.Allows pick ∧ ¬ post (h.exec pick i p w) := by
  have hdefault : ∃ pick, h.Allows pick := by
    refine ⟨fun _ e w => if hx : ∃ x, h.ok e w x then hx.choose else Classical.arbitrary _,
      fun _ e w hs => ?_⟩
    simp only [dif_pos (hlive e w hs)]
    exact (hlive e w hs).choose_spec
  induction p generalizing w i with
  | pure a =>
    obtain ⟨pick, hpick⟩ := hdefault
    exact ⟨pick, hpick, hp⟩
  | act e k ih =>
    cases hs : h.stop e w with
    | some s =>
      obtain ⟨pick, hpick⟩ := hdefault
      rw [wp_act_some h hs] at hp
      exact ⟨pick, hpick, by rw [exec, hs]; exact hp⟩
    | none =>
      rw [wp_act_none h hs] at hp
      push Not at hp
      obtain ⟨x, hx, hnot⟩ := hp
      obtain ⟨pick', hpick', hbad⟩ := ih x hnot (i + 1)
      -- the failing run answers its first action by `x` and then goes on as `pick'` does
      let pick : ℕ → (e : E) → W → A e := fun j e' w' =>
        if hj : j = i ∧ e' = e ∧ w' = w then hj.2.1 ▸ x else pick' j e' w'
      have hfirst : pick i e w = x := dif_pos ⟨rfl, rfl, rfl⟩
      have hrest : ∀ j, i + 1 ≤ j → pick j = pick' j := fun j hj =>
        funext fun e' => funext fun w' => dif_neg fun hji => by omega
      refine ⟨pick, fun j e' w' hs' => ?_, ?_⟩
      · by_cases hj : j = i ∧ e' = e ∧ w' = w
        · obtain ⟨rfl, rfl, rfl⟩ := hj
          rwa [hfirst]
        · simp only [pick, dif_neg hj]
          exact hpick' j e' w' hs'
      · rw [exec, hs]
        simp only [hfirst]
        rwa [h.exec_congr hrest]

/-- **Runs and `wp` say the same.** -/
theorem forall_exec_iff_wp (hlive : h.Live) [∀ e, Nonempty (A e)] (p : Prog E A α)
    (post : Result S W α → Prop) (w : W) :
    (∀ pick, h.Allows pick → post (h.exec pick 0 p w)) ↔ h.wp p post w := by
  constructor
  · intro hrun
    by_contra hp
    obtain ⟨pick, hpick, hbad⟩ := h.exists_exec_of_not_wp hlive hp 0
    exact hbad (hrun pick hpick)
  · exact fun hp pick hpick => h.wp_exec hpick hp 0

/-- From a world where every run ends in `post`, some run does. -/
theorem exists_of_wp (hlive : h.Live) {p : Prog E A α} {post : Result S W α → Prop} {w : W}
    (hp : h.wp p post w) : ∃ r, post r := by
  induction p generalizing w with
  | pure a => exact ⟨_, hp⟩
  | act e k ih =>
    cases hs : h.stop e w with
    | some s => rw [wp_act_some h hs] at hp; exact ⟨_, hp⟩
    | none =>
      rw [wp_act_none h hs] at hp
      obtain ⟨x, hx⟩ := hlive e w hs
      exact ih x (hp x hx)

end Handler

end Effects
