import Mathlib.Logic.Basic
import Mathlib.Tactic.Common

/-!
# Labelled transitions and their runs

A system that takes one step after another is a function `step s l`, the state after the
step `l` from `s`, or `none` when this step cannot be taken.  The label says which party
moves and how the environment answers, so that a run is a list of labels.  The step is a
function and not a relation: all choice is in the labels, and a run can be computed.

## Two kinds of statements about a run

`Throughout` is about the states of a run, the first one included, and `Along` about its
steps, each with the state before it.  An invariant is of the first kind, a condition on
what may be done is of the second.  The invariant rule (`throughout_of_along`) leads from a
condition on the steps to a property of the states.

Often the condition is exact: a step that misses it breaks the property, and then the
property holds in all states of a run if and only if the condition holds of all its steps.
A step that breaks the property is the last one of which anything is asked, so it is enough to
look at steps from states in which the property still holds.  The property alone is seldom
enough for the steps; `throughout_iff_along_of_invariant` has an invariant beside it.

* `run step s ls`: the state after the steps `ls`.
* `Throughout`: a property of all the states of a run.
* `Along`: a property of all its steps, that is, of a label and the state before it.
* `throughout_of_along`: what every step keeps, as long as it meets a condition, holds
  throughout a run whose steps meet the condition.
* `throughout_iff_along`, `throughout_iff_along_of_invariant`: when a step that misses the
  condition breaks the property, the condition is exact.
-/

namespace Transition

variable {S L : Type*} (step : S → L → Option S)

/-- The state after the steps `ls` from `s`. -/
def run : S → List L → Option S
  | s, [] => some s
  | s, l :: ls => (step s l).bind fun s' => run s' ls

/-- `P` holds of every state of the run. -/
def Throughout (P : S → Prop) : S → List L → Prop
  | s, [] => P s
  | s, l :: ls => P s ∧ ∀ s', step s l = some s' → Throughout P s' ls

/-- `C` holds of every step of the run and the state before it. -/
def Along (C : S → L → Prop) : S → List L → Prop
  | _, [] => True
  | s, l :: ls => C s l ∧ ∀ s', step s l = some s' → Along C s' ls

variable {step}

@[simp] theorem run_nil (s : S) : run step s [] = some s := rfl

theorem run_cons_eq_some {s s' : S} {l : L} {ls : List L} :
    run step s (l :: ls) = some s' ↔ ∃ t, step s l = some t ∧ run step t ls = some s' :=
  Option.bind_eq_some_iff

theorem run_append (s : S) (ls ls' : List L) :
    run step s (ls ++ ls') = (run step s ls).bind fun t => run step t ls' := by
  induction ls generalizing s with
  | nil => rfl
  | cons l ls ih =>
    rw [List.cons_append, run, run, Option.bind_assoc]
    exact Option.bind_congr fun t _ => ih t

/-- Steps that can always be taken. -/
theorem run_total (g : S → L → S) (s : S) (ls : List L) :
    run (fun s l => some (g s l)) s ls = some (ls.foldl g s) := by
  induction ls generalizing s with
  | nil => rfl
  | cons l ls ih => exact ih (g s l)

theorem Throughout.head {P : S → Prop} {s : S} {ls : List L} (h : Throughout step P s ls) :
    P s := by
  cases ls with
  | nil => exact h
  | cons l ls => exact h.1

theorem Throughout.mono {P Q : S → Prop} (hPQ : ∀ s, P s → Q s) {s : S} {ls : List L}
    (h : Throughout step P s ls) : Throughout step Q s ls := by
  induction ls generalizing s with
  | nil => exact hPQ s h
  | cons l ls ih => exact ⟨hPQ s h.1, fun s' hs => ih (h.2 s' hs)⟩

theorem Along.mono {C D : S → L → Prop} (hCD : ∀ s l, C s l → D s l) {s : S} {ls : List L}
    (h : Along step C s ls) : Along step D s ls := by
  induction ls generalizing s with
  | nil => trivial
  | cons l ls ih => exact ⟨hCD s l h.1, fun s' hs => ih (h.2 s' hs)⟩

/-- A condition that every step meets. -/
theorem along_of_forall {C : S → L → Prop} (hC : ∀ s l, C s l) (s : S) (ls : List L) :
    Along step C s ls := by
  induction ls generalizing s with
  | nil => trivial
  | cons l ls ih => exact ⟨hC s l, fun s' _ => ih s'⟩

/-- A condition that the labels meet by themselves. -/
theorem along_of_forall_mem {P : L → Prop} {ls : List L} (hP : ∀ l ∈ ls, P l) (s : S) :
    Along step (fun _ l => P l) s ls := by
  induction ls generalizing s with
  | nil => trivial
  | cons l ls ih =>
    obtain ⟨hhead, htail⟩ := List.forall_mem_cons.mp hP
    exact ⟨hhead, fun s' _ => ih htail s'⟩

instance decidableAlong {C : S → L → Prop} [∀ s l, Decidable (C s l)] :
    (s : S) → (ls : List L) → Decidable (Along step C s ls)
  | _, [] => isTrue trivial
  | s, l :: ls =>
    match hs : step s l with
    | none => decidable_of_iff (C s l)
        ⟨fun h => ⟨h, fun s' hs' => by rw [hs] at hs'; cases hs'⟩, fun h => h.1⟩
    | some s' =>
      have : Decidable (Along step C s' ls) := decidableAlong s' ls
      decidable_of_iff (C s l ∧ Along step C s' ls)
        ⟨fun h => ⟨h.1, fun t ht => Option.some.inj (hs.symm.trans ht) ▸ h.2⟩,
          fun h => ⟨h.1, h.2 s' hs⟩⟩

/-- The last state of a run is one of its states. -/
theorem Throughout.last {P : S → Prop} {s s' : S} {ls : List L} (h : Throughout step P s ls)
    (hrun : run step s ls = some s') : P s' := by
  induction ls generalizing s with
  | nil =>
    obtain rfl : s = s' := Option.some.inj hrun
    exact h
  | cons l ls ih =>
    obtain ⟨t, hstep, hrest⟩ := run_cons_eq_some.mp hrun
    exact ih (h.2 t hstep) hrest

section Invariant

variable {I : S → Prop} {C : S → L → Prop}

/-- **The invariant rule.**  What every step that meets the condition keeps holds
throughout a run whose steps meet it. -/
theorem throughout_of_along (hI : ∀ s l s', I s → C s l → step s l = some s' → I s') {s : S}
    {ls : List L} (hs : I s) (h : Along step C s ls) : Throughout step I s ls := by
  induction ls generalizing s with
  | nil => exact hs
  | cons l ls ih => exact ⟨hs, fun s' hstep => ih (hI s l s' hs h.1 hstep) (h.2 s' hstep)⟩

/-- What every step keeps holds throughout every run. -/
theorem throughout (hI : ∀ s l s', I s → step s l = some s' → I s') {s : S} (hs : I s)
    (ls : List L) : Throughout step I s ls :=
  throughout_of_along (C := fun _ _ => True) (fun s l s' h _ => hI s l s' h) hs
    (along_of_forall (fun _ _ => trivial) s ls)

/-- What an invariant implies of every step holds along every run. -/
theorem along {D : S → L → Prop} (hI : ∀ s l s', I s → step s l = some s' → I s')
    (hD : ∀ s l, I s → D s l) {s : S} (hs : I s) (ls : List L) : Along step D s ls := by
  induction ls generalizing s with
  | nil => trivial
  | cons l ls ih => exact ⟨hD s l hs, fun s' hstep => ih (hI s l s' hs hstep)⟩

/-- What an invariant implies of every step that meets the condition holds along a run
whose steps meet it. -/
theorem along_of_along {D : S → L → Prop}
    (hI : ∀ s l s', I s → C s l → step s l = some s' → I s')
    (hD : ∀ s l, I s → C s l → D s l) {s : S} {ls : List L} (hs : I s)
    (h : Along step C s ls) : Along step D s ls := by
  induction ls generalizing s with
  | nil => trivial
  | cons l ls ih =>
    exact ⟨hD s l hs h.1, fun s' hstep => ih (hI s l s' hs h.1 hstep) (h.2 s' hstep)⟩

/-- A property of the steps that the condition is exact for, where an invariant holds that the
steps that meet the condition keep, holds along a run exactly when the condition does. -/
theorem along_iff_along {D : S → L → Prop}
    (hI : ∀ s l s', I s → C s l → step s l = some s' → I s')
    (hD : ∀ s l, I s → (D s l ↔ C s l)) {s : S} (hs : I s) (ls : List L) :
    Along step D s ls ↔ Along step C s ls := by
  induction ls generalizing s with
  | nil => exact Iff.rfl
  | cons l ls ih =>
    rw [Along, Along, hD s l hs]
    exact and_congr_right fun hC => forall_congr' fun s' => forall_congr' fun hstep =>
      ih (hI s l s' hs hC hstep)

/-- **The exact condition**, by an invariant that implies the property and that only the
steps that meet the condition keep. -/
theorem throughout_iff_along_of_invariant {P : S → Prop} (hP : ∀ s, I s → P s)
    (hkeep : ∀ s l s', I s → C s l → step s l = some s' → I s')
    (hbreak : ∀ s l s', I s → ¬ C s l → step s l = some s' → ¬ P s') {s s' : S} {ls : List L}
    (hs : I s) (hrun : run step s ls = some s') :
    Throughout step P s ls ↔ Along step C s ls := by
  constructor
  · intro h
    induction ls generalizing s with
    | nil => trivial
    | cons l ls ih =>
      obtain ⟨t, hstep, hrest⟩ := run_cons_eq_some.mp hrun
      have hC : C s l := by
        by_contra hC
        exact hbreak s l t hs hC hstep (h.2 t hstep).head
      refine ⟨hC, fun u hu => ?_⟩
      obtain rfl : t = u := Option.some.inj (hstep.symm.trans hu)
      exact ih (hkeep s l t hs hC hstep) hrest (h.2 t hstep)
  · exact fun h => (throughout_of_along hkeep hs h).mono hP

/-- **The exact condition.**  If a step that meets the condition keeps the property and
one that misses it breaks it, the property holds throughout a run exactly when all the
steps meet the condition. -/
theorem throughout_iff_along {P : S → Prop}
    (hI : ∀ s l s', I s → step s l = some s' → I s')
    (hkeep : ∀ s l s', I s → P s → C s l → step s l = some s' → P s')
    (hbreak : ∀ s l s', I s → P s → ¬ C s l → step s l = some s' → ¬ P s') {s s' : S}
    {ls : List L} (hs : I s) (hP : P s) (hrun : run step s ls = some s') :
    Throughout step P s ls ↔ Along step C s ls := by
  induction ls generalizing s with
  | nil => exact ⟨fun _ => trivial, fun _ => hP⟩
  | cons l ls ih =>
    obtain ⟨t, hstep, hrest⟩ := run_cons_eq_some.mp hrun
    have ht : I t := hI s l t hs hstep
    -- the step leads to one state only
    have honly : ∀ {Q : S → Prop}, (∀ u, step s l = some u → Q u) ↔ Q t := by
      intro Q
      refine ⟨fun h => h t hstep, fun h u hu => ?_⟩
      obtain rfl : t = u := Option.some.inj (hstep.symm.trans hu)
      exact h
    rw [Throughout, Along, honly, honly]
    constructor
    · rintro ⟨-, hall⟩
      have hC : C s l := by
        by_contra hC
        exact hbreak s l t hs hP hC hstep hall.head
      exact ⟨hC, (ih ht (hkeep s l t hs hP hC hstep) hrest).mp hall⟩
    · rintro ⟨hC, hall⟩
      exact ⟨hP, (ih ht (hkeep s l t hs hP hC hstep) hrest).mpr hall⟩

end Invariant

end Transition
