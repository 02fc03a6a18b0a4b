import KoheronSdk.Lib.Interleaving

/-!
# What is still to come

An outline gives each thread one view of the world.  Where threads answer each other that is not
enough: what a thread is going to read depends on what another one has not done yet.  Here a
thread has a view for every prophecy of what is to come, and the steps of the other threads only
rule prophecies out.

## How prophecies are used

Take a client that calls and a server that answers.  In the view of the server the commands are
there as a whole from the start, so that its program is a sequential one over a known input, and
in the view of the client the same holds of the replies.  Neither is true in the world, where both
come into being step by step.  A prophecy says what they will turn out to be; under each prophecy
the two views are fixed, and a sequential proof about each program can be used.  When a thread does
something that contradicts a prophecy, the prophecy is dropped; those that remain agree with
all that has happened.

It has to be shown that some prophecy remains.  This is a matter of the programs and not of the
threads: what has been answered so far can be continued to the end (`Prog.exists_exchanges`), also
after another answer than the one that was foreseen (`Prog.Exchanges.otherwise`).

## Results

* `Prog.Exchanges`: the actions of a program and their answers, up to what is left of it.
* `Handler.restrict`: actions with fewer answers.
* `Foresight`: the views of the threads under the prophecies, and what a thread is known to have
  done when it has taken a step in all of them.
* `Foresight.sound`: what holds under every prophecy at the start holds in every configuration
  that can be reached, under those that have not been ruled out.
-/

namespace Effects

variable {ι E : Type} {A : E → Type} {W V S G α : Type}

/-! ## Exchanges -/

namespace Prog

/-- When its next actions are these and are answered so, `q` is what is left of `p`. -/
inductive Exchanges : Prog E A α → List ((e : E) × A e) → Prog E A α → Prop
  | nil (p : Prog E A α) : Exchanges p [] p
  | cons {e : E} {k : A e → Prog E A α} {x : A e} {xs : List ((e : E) × A e)} {q : Prog E A α}
    (h : Exchanges (k x) xs q) : Exchanges (.act e k) (⟨e, x⟩ :: xs) q

variable {p q r : Prog E A α} {xs ys : List ((e : E) × A e)} {φ : E → Prop}

/-- A program that is at its end makes no more exchanges. -/
theorem Exchanges.eq_of_pure {a : α} (h : Exchanges (.pure a : Prog E A α) xs q) :
    xs = [] ∧ q = .pure a := by
  cases h
  exact ⟨rfl, rfl⟩

/-- The first exchange is one of the next action. -/
theorem Exchanges.of_act {e : E} {k : A e → Prog E A α} {x : (e : E) × A e}
    (h : Exchanges (.act e k) (x :: xs) q) : ∃ y, x = ⟨e, y⟩ ∧ Exchanges (k y) xs q := by
  cases h with
  | cons h => exact ⟨_, rfl, h⟩

theorem Exchanges.append (h : Exchanges p xs q) (h' : Exchanges q ys r) :
    Exchanges p (xs ++ ys) r := by
  induction h with
  | nil p => exact h'
  | cons h ih => exact .cons (ih h')

theorem Exchanges.of_append (h : Exchanges p (xs ++ ys) r) :
    ∃ q, Exchanges p xs q ∧ Exchanges q ys r := by
  induction xs generalizing p with
  | nil => exact ⟨p, .nil p, h⟩
  | cons x xs ih =>
    cases h with
    | cons h =>
      obtain ⟨q, hq, hr⟩ := ih h
      exact ⟨q, .cons hq, hr⟩

/-- The value of a program is put into another one at its end. -/
theorem Exchanges.of_map {β : Type} {f : α → β} {q : Prog E A β}
    (h : Exchanges (p >>= fun a => pure (f a)) xs q) :
    ∃ q', Exchanges p xs q' ∧ q = q' >>= fun a => pure (f a) := by
  induction p generalizing xs with
  | pure a =>
    obtain ⟨rfl, rfl⟩ := Exchanges.eq_of_pure h
    exact ⟨.pure a, .nil _, rfl⟩
  | act e k ih =>
    cases xs with
    | nil =>
      cases h
      exact ⟨.act e k, .nil _, rfl⟩
    | cons x xs =>
      obtain ⟨y, rfl, hy⟩ := Exchanges.of_act h
      obtain ⟨q', hq', rfl⟩ := ih y hy
      exact ⟨q', .cons hq', rfl⟩

/-- What is left is determined by the exchanges. -/
theorem Exchanges.unique (h : Exchanges p xs q) (h' : Exchanges p xs r) : q = r := by
  induction h with
  | nil p =>
    cases h'
    rfl
  | cons h ih =>
    cases h' with
    | cons h' => exact ih h'

theorem Exchanges.only (h : Exchanges p xs q) (hp : p.Only φ) :
    (∀ x ∈ xs, φ x.1) ∧ q.Only φ := by
  induction h with
  | nil p => exact ⟨fun x hx => (List.not_mem_nil hx).elim, hp⟩
  | cons h ih =>
    obtain ⟨hxs, hq⟩ := ih (hp.2 _)
    exact ⟨List.forall_mem_cons.mpr ⟨hp.1, hxs⟩, hq⟩

/-- Answers that there are lead to the end. -/
theorem exists_exchanges {good : (e : E) → A e → Prop} (hgood : ∀ e, φ e → ∃ x, good e x)
    (hp : p.Only φ) : ∃ xs a, Exchanges p xs (.pure a) ∧ ∀ x ∈ xs, good x.1 x.2 := by
  induction p with
  | pure a => exact ⟨[], a, .nil _, fun x hx => (List.not_mem_nil hx).elim⟩
  | act e k ih =>
    obtain ⟨x, hx⟩ := hgood e hp.1
    obtain ⟨xs, a, hxs, hall⟩ := ih x (hp.2 x)
    exact ⟨⟨e, x⟩ :: xs, a, .cons hxs, List.forall_mem_cons.mpr ⟨hx, hall⟩⟩

/-- An exchange that goes on otherwise. -/
theorem Exchanges.otherwise {e : E} {x y : A e} {a : α} {good : (e : E) → A e → Prop}
    (hgood : ∀ e, φ e → ∃ x, good e x) (hp : p.Only φ)
    (h : Exchanges p (xs ++ ⟨e, x⟩ :: ys) (.pure a)) :
    ∃ zs b, Exchanges p (xs ++ ⟨e, y⟩ :: zs) (.pure b) ∧ ∀ z ∈ zs, good z.1 z.2 := by
  obtain ⟨q, hxs, hys⟩ := h.of_append
  cases hys with
  | @cons e k x ys q h =>
    obtain ⟨zs, b, hzs, hall⟩ := exists_exchanges hgood ((hxs.only hp).2.2 y)
    exact ⟨zs, b, hxs.append (.cons hzs), hall⟩

end Prog

/-! ## Fewer answers -/

namespace Handler

/-- The actions, with `good` answers only. -/
def restrict (h : Handler E A W S) (good : (e : E) → A e → Prop) : Handler E A W S where
  stop := h.stop
  ok e w x := h.ok e w x ∧ good e x
  next := h.next

variable {h : Handler E A W S} {good : (e : E) → A e → Prop}

/-- With good answers only what they keep may be taken for granted. -/
theorem wp_restrict {I : W → Prop} (hkeep : ∀ e w x, I w → good e x → I (h.next e w x))
    {p : Prog E A α} {post : Result S W α → Prop} {w : W} (hw : I w)
    (hp : h.wp p (fun r => I r.world → post r) w) : (h.restrict good).wp p post w := by
  induction p generalizing w with
  | pure a => exact hp hw
  | act e k ih =>
    cases hs : h.stop e w with
    | some s =>
      rw [wp_act_some h hs] at hp
      rw [wp_act_some (h.restrict good) hs]
      exact hp hw
    | none =>
      rw [wp_act_none h hs] at hp
      rw [wp_act_none (h.restrict good) hs]
      exact fun x hx => ih x (hkeep e w x hw hx.2) (hp x hx.1)

end Handler

/-! ## Prophecies -/

/-- The views of the threads under the prophecies in `G`.  `Known` is what `post` tells of a view
that the thread has come to. -/
structure Foresight (sys : System ι E A W) (V S G α : Type) where
  handler : ι → Handler E A V S
  inv : W → Prop
  Sees : ι → G → W → V → Prop
  post : ι → G → Result S V α → Prop
  Known : ι → G → V → Prop
  known : ∀ {i g p v}, (handler i).wp p (post i g) v → Known i g v
  goes : ∀ {i e w g v s}, inv w → sys.enabled i e w → Sees i g w v →
    (handler i).stop e v = some s → ¬ post i g (.halt s v)
  ok : ∀ {i e w g v x}, inv w → sys.enabled i e w → Sees i g w v →
    (handler i).stop e v = none → sys.ok i e w x → (handler i).ok e v x
  keeps : ∀ {i e w x}, inv w → sys.enabled i e w → sys.ok i e w x →
    (∀ g v, Sees i g w v → (handler i).stop e v = none ∧ Known i g ((handler i).next e v x)) →
    inv (sys.next i e w x)
  moves : ∀ {i e w x g v'}, inv w → sys.enabled i e w → sys.ok i e w x →
    (∀ g v, Sees i g w v → (handler i).stop e v = none ∧ Known i g ((handler i).next e v x)) →
    Sees i g (sys.next i e w x) v' → ∃ v, Sees i g w v ∧ (handler i).next e v x = v'
  stays : ∀ {i j e w x g v}, inv w → sys.enabled i e w → sys.ok i e w x →
    (∀ g v, Sees i g w v → (handler i).stop e v = none ∧ Known i g ((handler i).next e v x)) →
    j ≠ i → Sees j g (sys.next i e w x) v → Sees j g w v

namespace Foresight

variable [DecidableEq ι] {sys : System ι E A W} (o : Foresight sys V S G α)

/-- Each thread ends as it should, from each of its views on. -/
structure Holds (c : Config ι E A W α) : Prop where
  inv : o.inv c.world
  wp : ∀ i g v, o.Sees i g c.world v → (o.handler i).wp (c.progs i) (o.post i g) v

variable {o} {c c' : Config ι E A W α} {i : ι} {g : G} {v : V} {e : E} {k : A e → Prog E A α}

omit [DecidableEq ι] in
/-- An action that can be performed goes on in every view. -/
theorem Holds.stop_eq_none (h : o.Holds c) (hprog : c.progs i = .act e k)
    (henabled : sys.enabled i e c.world) (hsees : o.Sees i g c.world v) :
    (o.handler i).stop e v = none := by
  cases hstop : (o.handler i).stop e v with
  | none => rfl
  | some s =>
    have hwp := h.wp i g v hsees
    rw [hprog, (o.handler i).wp_act_some hstop] at hwp
    exact absurd hwp (o.goes h.inv henabled hsees hstop)

omit [DecidableEq ι] in
/-- What is left of the thread ends as it should. -/
theorem Holds.rest (h : o.Holds c) (hprog : c.progs i = .act e k)
    (henabled : sys.enabled i e c.world) {x : A e} (hok : sys.ok i e c.world x)
    (hsees : o.Sees i g c.world v) :
    (o.handler i).wp (k x) (o.post i g) ((o.handler i).next e v x) := by
  have hstop := h.stop_eq_none hprog henabled hsees
  have hwp := h.wp i g v hsees
  rw [hprog, (o.handler i).wp_act_none hstop] at hwp
  exact hwp x (o.ok h.inv henabled hsees hstop hok)

/-- **A step only rules prophecies out.** -/
theorem Holds.step (h : o.Holds c) (hstep : sys.Step c c') : o.Holds c' := by
  cases hstep with
  | @act i e k x hprog henabled hok =>
    have hknown : ∀ g v, o.Sees i g c.world v → (o.handler i).stop e v = none ∧
        o.Known i g ((o.handler i).next e v x) := fun g v hsees =>
      ⟨h.stop_eq_none hprog henabled hsees, o.known (h.rest hprog henabled hok hsees)⟩
    refine ⟨o.keeps h.inv henabled hok hknown, fun j g v hsees => ?_⟩
    dsimp only at hsees ⊢
    by_cases hj : j = i
    · subst hj
      obtain ⟨v, hbefore, rfl⟩ := o.moves h.inv henabled hok hknown hsees
      rw [Function.update_self]
      exact h.rest hprog henabled hok hbefore
    · rw [Function.update_of_ne hj]
      exact h.wp j g v (o.stays h.inv henabled hok hknown hj hsees)

/-- **It holds in everything that can be reached.** -/
theorem sound (h : o.Holds c) (hreach : sys.Reachable c c') : o.Holds c' :=
  System.Reachable.invariant sys (fun _ _ hc hstep => hc.step hstep) h hreach

omit [DecidableEq ι] in
/-- A thread that has come to its end has ended as it should, in each of its views. -/
theorem Holds.post_of_pure (h : o.Holds c) {a : α} (hprog : c.progs i = .pure a)
    (hsees : o.Sees i g c.world v) : o.post i g (.ret a v) := by
  have hwp := h.wp i g v hsees
  rw [hprog] at hwp
  exact hwp

omit [DecidableEq ι] in
/-- So has one whose next action stops in one of its views. -/
theorem Holds.post_of_stop (h : o.Holds c) {s : S} (hprog : c.progs i = .act e k)
    (hsees : o.Sees i g c.world v) (hstop : (o.handler i).stop e v = some s) :
    o.post i g (.halt s v) := by
  have hwp := h.wp i g v hsees
  rwa [hprog, (o.handler i).wp_act_some hstop] at hwp

end Foresight

end Effects
