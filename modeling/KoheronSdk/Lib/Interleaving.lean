import Mathlib.Logic.Relation
import Mathlib.Logic.Hydra
import Mathlib.Data.Fintype.Basic
import KoheronSdk.Lib.Program

/-!
# Interleaved programs

Threads that run programs over a shared world, one action at a time and in any order.  A
`System` says when a thread can perform an action, which answers it may get, and how the
world is afterwards.

## From sequential proofs to all interleavings

An outline gives every thread a view of the world, in which its program is a sequential one
(`Handler.wp` of `Lib/Program`).  Two things are asked of it: an action that a thread performs
in the world is an action in its view, with the same answer, and leads to the view of the world
after it; and an action of one thread leaves the views of the others as they are.  An invariant
of the world may be used for both.  Then what was proved of each program on its own holds of its
thread in every configuration that can be reached (`Outline.sound`), each with the part of the
program that is still to come.

So the interleavings are dealt with once, here, and the proofs about a program follow its text.

## Other tools

A system may be seen in a part of the world: `System.Extends` carries what can be reached in the
whole over to the part.  `Prog.Follows` is for what does not need a view: that a program
performs its actions in an order of its own, however it is answered.  Programs are finite trees,
so finitely many threads come to an end in any order (`wellFounded_step`), and a configuration in
which no thread can go on is reached from everywhere.

## Results

* `System.Step`, `System.Reachable`: one action of one thread, and what can be reached.
* `System.Extends`: a system in a part of the world of another one.
* `Outline`, `Outline.sound`: the views, and that an outline holds in all that can be reached.
* `Prog.Follows`: a program keeps to an order of its actions, and its thread does so too.
* `System.wellFounded_step`: finitely many threads take finitely many steps.
* `System.solo`: the run in which one thread goes on and the others wait.
-/

namespace Effects

variable {ι E : Type} {A : E → Type} {W V S α : Type}

/-- What the actions of the threads mean on the world they share. -/
structure System (ι E : Type) (A : E → Type) (W : Type) where
  enabled : ι → E → W → Prop
  ok : ι → (e : E) → W → A e → Prop
  next : ι → (e : E) → W → A e → W

/-- What every thread has still to do, and the world. -/
structure Config (ι E : Type) (A : E → Type) (W α : Type) where
  progs : ι → Prog E A α
  world : W

/-- Every thread has come to its end. -/
def Config.Finished (c : Config ι E A W α) : Prop := ∀ i, ∃ a, c.progs i = .pure a

namespace System

variable [DecidableEq ι] (sys : System ι E A W)

/-- One thread performs its next action. -/
inductive Step (c : Config ι E A W α) : Config ι E A W α → Prop
  | act {i : ι} {e : E} {k : A e → Prog E A α} {x : A e} (hprog : c.progs i = .act e k)
    (henabled : sys.enabled i e c.world) (hok : sys.ok i e c.world x) :
    Step c ⟨Function.update c.progs i (k x), sys.next i e c.world x⟩

/-- What can be reached by steps of the threads, in any order. -/
def Reachable (c c' : Config ι E A W α) : Prop := Relation.ReflTransGen sys.Step c c'

/-- What every step keeps holds of everything that can be reached. -/
theorem Reachable.invariant {P : Config ι E A W α → Prop}
    (hstep : ∀ c c', P c → sys.Step c c' → P c') {c c' : Config ι E A W α} (hc : P c)
    (h : sys.Reachable c c') : P c' := by
  induction h with
  | refl => exact hc
  | tail _ hlast ih => exact hstep _ _ ih hlast

end System

/-! ## A part of the world -/

section Part

variable {W' : Type} {sys : System ι E A W} {sys' : System ι E A W'} {π : W' → W}

/-- The same threads, with a part of the world. -/
def Config.part (π : W' → W) (c : Config ι E A W' α) : Config ι E A W α := ⟨c.progs, π c.world⟩

/-- The first system goes on in its part of the world as the second one does; the rest of it may
keep a thread from an action or from an answer. -/
structure System.Extends (sys' : System ι E A W') (sys : System ι E A W) (π : W' → W) : Prop where
  enabled : ∀ i e w, sys'.enabled i e w → sys.enabled i e (π w)
  ok : ∀ i e w x, sys'.ok i e w x → sys.ok i e (π w) x
  next : ∀ i e w x, π (sys'.next i e w x) = sys.next i e (π w) x

variable [DecidableEq ι]

theorem System.Step.part (h : sys'.Extends sys π) {c c' : Config ι E A W' α}
    (hstep : sys'.Step c c') : sys.Step (c.part π) (c'.part π) := by
  cases hstep with
  | @act i e k x hprog henabled hok =>
    have hact : sys.Step (c.part π) _ :=
      .act hprog (h.enabled i e _ henabled) (h.ok i e _ x hok)
    change sys.Step (c.part π) ⟨Function.update c.progs i (k x), π (sys'.next i e c.world x)⟩
    rw [h.next]
    exact hact

/-- **What goes on in the part goes on without the rest.** -/
theorem System.Reachable.part (h : sys'.Extends sys π) {c c' : Config ι E A W' α}
    (hreach : sys'.Reachable c c') : sys.Reachable (c.part π) (c'.part π) := by
  induction hreach with
  | refl => exact .refl
  | tail _ hlast ih => exact ih.tail (hlast.part h)

end Part

/-! ## Outlines -/

/-- A view of the world for every thread, and what is known of the world at any time.  An
action that a thread can perform goes on in its view too, in the same way, and is not
seen by the others. -/
structure Outline (sys : System ι E A W) (V S α : Type) where
  handler : ι → Handler E A V S
  view : ι → W → V
  inv : W → Prop
  post : ι → Result S V α → Prop
  goes : ∀ {i e w s}, inv w → sys.enabled i e w → (handler i).stop e (view i w) = some s →
    ¬ post i (.halt s (view i w))
  sees : ∀ {i e w x}, inv w → sys.enabled i e w → (handler i).stop e (view i w) = none →
    sys.ok i e w x → (handler i).ok e (view i w) x
  keeps : ∀ {i e w x}, inv w → sys.enabled i e w → (handler i).stop e (view i w) = none →
    sys.ok i e w x → inv (sys.next i e w x)
  moves : ∀ {i e w x}, inv w → sys.enabled i e w → (handler i).stop e (view i w) = none →
    sys.ok i e w x → view i (sys.next i e w x) = (handler i).next e (view i w) x
  stays : ∀ {i j e w x}, inv w → sys.enabled i e w → (handler i).stop e (view i w) = none →
    sys.ok i e w x → j ≠ i → view j (sys.next i e w x) = view j w

namespace Outline

variable [DecidableEq ι] {sys : System ι E A W} (o : Outline sys V S α)

/-- The outline holds: each thread ends as it should, from its view on. -/
structure Holds (c : Config ι E A W α) : Prop where
  inv : o.inv c.world
  wp : ∀ i, (o.handler i).wp (c.progs i) (o.post i) (o.view i c.world)

variable {o}

omit [DecidableEq ι] in
/-- In the view of its thread an action that can be performed goes on. -/
theorem Holds.stop_eq_none {c : Config ι E A W α} (h : o.Holds c) {i : ι} {e : E}
    {k : A e → Prog E A α} (hprog : c.progs i = .act e k) (henabled : sys.enabled i e c.world) :
    (o.handler i).stop e (o.view i c.world) = none := by
  cases hstop : (o.handler i).stop e (o.view i c.world) with
  | none => rfl
  | some s =>
    have hwp := h.wp i
    rw [hprog, (o.handler i).wp_act_some hstop] at hwp
    exact absurd hwp (o.goes h.inv henabled hstop)

/-- **A step keeps the outline.** -/
theorem Holds.step {c c' : Config ι E A W α} (h : o.Holds c) (hstep : sys.Step c c') :
    o.Holds c' := by
  cases hstep with
  | @act i e k x hprog henabled hok =>
    have hstop := h.stop_eq_none hprog henabled
    refine ⟨o.keeps h.inv henabled hstop hok, fun j => ?_⟩
    dsimp only
    by_cases hj : j = i
    · subst hj
      have hwp := h.wp j
      rw [hprog, (o.handler j).wp_act_none hstop] at hwp
      rw [Function.update_self, o.moves h.inv henabled hstop hok]
      exact hwp x (o.sees h.inv henabled hstop hok)
    · rw [Function.update_of_ne hj, o.stays h.inv henabled hstop hok hj]
      exact h.wp j

/-- **The outline holds in everything that can be reached.** -/
theorem sound {c c' : Config ι E A W α} (h : o.Holds c) (hreach : sys.Reachable c c') :
    o.Holds c' :=
  System.Reachable.invariant sys (fun _ _ hc hstep => hc.step hstep) h hreach

omit [DecidableEq ι] in
/-- A thread that has come to its end has ended as it should. -/
theorem Holds.post_of_pure {c : Config ι E A W α} (h : o.Holds c) {i : ι} {a : α}
    (hprog : c.progs i = .pure a) : o.post i (.ret a (o.view i c.world)) := by
  have hwp := h.wp i
  rw [hprog] at hwp
  exact hwp

end Outline

/-! ## What a thread keeps to -/

section Protocol

variable {Q : Type} {δ : E → Q → Option Q} {P R : Q → Prop} {β : Type} {φ : E → Prop} {q : Q}

/-- The actions of `p` are such as `δ` has from `q` on, and it ends in `P`. -/
def Prog.Follows (δ : E → Q → Option Q) (P : Q → Prop) : Prog E A α → Q → Prop
  | .pure _, q => P q
  | .act e k, q => ∃ q', δ e q = some q' ∧ ∀ x, (k x).Follows δ P q'

theorem Prog.follows_act {e : E} {k : A e → Prog E A α} {q' : Q} (he : δ e q = some q')
    (hk : ∀ x, (k x).Follows δ P q') : (Prog.act e k).Follows δ P q := ⟨q', he, hk⟩

theorem Prog.follows_bind {p : Prog E A α} {f : α → Prog E A β} (hp : p.Follows δ R q)
    (hf : ∀ a q', R q' → (f a).Follows δ P q') : (p >>= f).Follows δ P q := by
  induction p generalizing q with
  | pure a => exact hf a q hp
  | act e k ih =>
    obtain ⟨q', he, hk⟩ := hp
    exact ⟨q', he, fun x => ih x (hk x)⟩

/-- Actions that `δ` does not note. -/
theorem Prog.follows_of_only (hφ : ∀ e, φ e → δ e q = some q) {p : Prog E A α} (hp : p.Only φ)
    (hq : P q) : p.Follows δ P q := by
  induction p with
  | pure a => exact hq
  | act e k ih => exact ⟨q, hφ e hp.1, fun x => ih x (hp.2 x)⟩

/-- The next action of a thread is one that `δ` has. -/
theorem Prog.Follows.of_act {e : E} {k : A e → Prog E A α} (h : (Prog.act e k).Follows δ P q) :
    ∃ q', δ e q = some q' ∧ ∀ x, (k x).Follows δ P q' := h

/-- **The threads keep to it**, when the world notes where each of them is. -/
theorem System.Step.follows [DecidableEq ι] {sys : System ι E A W} {place : ι → W → Q}
    (hown : ∀ i e w x q', δ e (place i w) = some q' → place i (sys.next i e w x) = q')
    (hother : ∀ i j e w x, j ≠ i → place j (sys.next i e w x) = place j w)
    {c c' : Config ι E A W α} (hc : ∀ i, (c.progs i).Follows δ P (place i c.world))
    (hstep : sys.Step c c') (i : ι) : (c'.progs i).Follows δ P (place i c'.world) := by
  cases hstep with
  | @act j e k x hprog henabled hok =>
    dsimp only
    by_cases hi : i = j
    · subst hi
      have hfollows := hc i
      rw [hprog] at hfollows
      obtain ⟨q', he, hk⟩ := hfollows
      rw [Function.update_self, hown i e _ x q' he]
      exact hk x
    · rw [Function.update_of_ne hi, hother j i e _ x hi]
      exact hc i

end Protocol

/-! ## Termination -/

/-- `p` is what is left of `q` after its first action. -/
inductive Prog.Rest : Prog E A α → Prog E A α → Prop
  | act (e : E) (k : A e → Prog E A α) (x : A e) : Rest (k x) (.act e k)

theorem Prog.wellFounded_rest : WellFounded (Prog.Rest : Prog E A α → Prog E A α → Prop) := by
  refine ⟨fun p => ?_⟩
  induction p with
  | pure a => exact ⟨_, fun q hq => by cases hq⟩
  | act e k ih =>
    refine ⟨_, fun q hq => ?_⟩
    cases hq with
    | act e k x => exact ih x

/-- **Finitely many threads take finitely many steps**, in any order. -/
theorem System.wellFounded_step [DecidableEq ι] [Fintype ι] (sys : System ι E A W) :
    WellFounded fun c' c : Config ι E A W α => sys.Step c c' := by
  have hwf := (Prog.wellFounded_rest (E := E) (A := A) (α := α)).cutExpand
  refine Subrelation.wf ?_ (InvImage.wf
    (fun c : Config ι E A W α => (Finset.univ.val : Multiset ι).map c.progs) hwf)
  intro c' c hstep
  cases hstep with
  | @act i e k x hprog henabled hok =>
    -- the program of one thread is replaced by what is left of it
    refine ⟨{k x}, .act e k, ?_, ?_⟩
    · intro p hp
      rw [Multiset.mem_singleton.mp hp]
      exact .act e k x
    · obtain ⟨others, hothers⟩ := Multiset.exists_cons_of_mem (Finset.mem_univ_val i)
      have hi : i ∉ others := by
        have hnodup := (Finset.univ : Finset ι).nodup
        rw [hothers] at hnodup
        exact (Multiset.nodup_cons.mp hnodup).1
      have hmap : others.map (Function.update c.progs i (k x)) = others.map c.progs :=
        Multiset.map_congr rfl fun j hj => Function.update_of_ne (ne_of_mem_of_not_mem hj hi) _ _
      dsimp only
      rw [hothers, Multiset.map_cons, Multiset.map_cons, hmap, Function.update_self, hprog,
        ← Multiset.singleton_add, ← Multiset.singleton_add, add_right_comm, add_comm {k x},
        add_assoc, add_comm {k x}, ← add_assoc]

/-- From everything the threads go on to where no thread can. -/
theorem System.exists_terminal [DecidableEq ι] [Fintype ι] (sys : System ι E A W)
    (c : Config ι E A W α) : ∃ c', sys.Reachable c c' ∧ ∀ c'', ¬ sys.Step c' c'' := by
  induction c using (System.wellFounded_step (α := α) sys).induction with
  | _ c ih =>
    by_cases h : ∃ c', sys.Step c c'
    · obtain ⟨c', hstep⟩ := h
      obtain ⟨c'', hreach, hterminal⟩ := ih c' hstep
      exact ⟨c'', .head hstep hreach, hterminal⟩
    · exact ⟨c, .refl, not_exists.mp h⟩

/-! ## One thread at a time -/

section Solo

variable [DecidableEq ι] {sys : System ι E A W} {i : ι} {answer : (e : E) → W → A e} {β : Type}

/-- The run in which only thread `i` goes on, and is answered by `answer`. -/
def System.solo (sys : System ι E A W) (i : ι) (answer : (e : E) → W → A e) :
    Prog E A β → W → β × W
  | .pure a, w => (a, w)
  | .act e k, w => solo sys i answer (k (answer e w)) (sys.next i e w (answer e w))

omit [DecidableEq ι] in
theorem System.solo_bind (p : Prog E A β) (f : β → Prog E A α) (w : W) :
    sys.solo i answer (p.bind f) w
      = sys.solo i answer (f (sys.solo i answer p w).1) (sys.solo i answer p w).2 := by
  induction p generalizing w with
  | pure a => rfl
  | act e k ih => exact ih _ _

omit [DecidableEq ι] in
theorem System.good_solo {good : W → Prop}
    (hgood : ∀ e w, good w → good (sys.next i e w (answer e w))) (p : Prog E A β) {w : W}
    (hw : good w) : good (sys.solo i answer p w).2 := by
  induction p generalizing w with
  | pure a => exact hw
  | act e k ih => exact ih _ (hgood e w hw)

/-- **A thread can go on alone** from a world in which it is always enabled. -/
theorem System.reachable_solo {good : W → Prop}
    (henabled : ∀ e w, good w → sys.enabled i e w) (hok : ∀ e w, sys.ok i e w (answer e w))
    (hgood : ∀ e w, good w → good (sys.next i e w (answer e w))) (p : Prog E A β)
    (f : β → Prog E A α) {progs : ι → Prog E A α} (hprog : progs i = p.bind f) {w : W}
    (hw : good w) :
    sys.Reachable ⟨progs, w⟩
      ⟨Function.update progs i (f (sys.solo i answer p w).1), (sys.solo i answer p w).2⟩ := by
  induction p generalizing progs w with
  | pure a =>
    have hsame : Function.update progs i (f a) = progs := by
      rw [Function.update_eq_self_iff]
      exact hprog.symm
    rw [solo, hsame]
    exact .refl
  | act e k ih =>
    have hstep := Step.act (c := ⟨progs, w⟩) hprog (henabled e w hw) (hok e w)
    refine .head hstep ?_
    have hself : Function.update progs i ((k (answer e w)).bind f) i = (k (answer e w)).bind f :=
      Function.update_self i _ progs
    have hrest := ih (answer e w) hself (hgood e w hw)
    rwa [Function.update_idem] at hrest

end Solo

end Effects
