import Mathlib.Logic.Relation
import Mathlib.Data.List.Basic

/-!
# Dependencies

Things that need other things before they can be built.  `dep d e` says that `d` needs `e`; nothing
is assumed of `dep`, which may have cycles.

Something can be built if what it needs can be built first, and what that needs, and so on:
`Grounded` is accessibility for the converse of `dep`.  What needs itself, over some others, cannot,
and neither can anything that needs such a thing.  Over infinitely many things the two are no
complements, since one may also go on to ever new needs; only that nothing grounded reaches a cycle
is stated here.

A builder finds a cycle when it is asked for something whose construction is still going on.  What
is going on is then a stack, each entry needed by the one below it, and the entry that is asked for
twice is on a cycle.

* `OnCycle`, `ReachesCycle`: what needs itself, and what needs such a thing.
* `Grounded`: what can be built from the ground up; `Grounded.not_reachesCycle`.
* `onCycle_of_mem_chain`: a chain of pending needs that comes back to itself is a cycle.
-/

namespace Dependency

open Relation

variable {α : Type*}

/-- `d` needs itself, over some others. -/
def OnCycle (dep : α → α → Prop) (d : α) : Prop := TransGen dep d d

/-- `d` needs something that needs itself. -/
def ReachesCycle (dep : α → α → Prop) (d : α) : Prop := ∃ c, ReflTransGen dep d c ∧ OnCycle dep c

/-- What `d` needs can be built, and what that needs, and so on. -/
def Grounded (dep : α → α → Prop) (d : α) : Prop := Acc (fun e d => dep d e) d

variable {dep : α → α → Prop}

theorem ReachesCycle.of_reaches {d e : α} (hreach : ReflTransGen dep d e)
    (h : ReachesCycle dep e) : ReachesCycle dep d := by
  obtain ⟨c, hc, hcycle⟩ := h
  exact ⟨c, hreach.trans hc, hcycle⟩

theorem OnCycle.reachesCycle {d : α} (h : OnCycle dep d) : ReachesCycle dep d := ⟨d, .refl, h⟩

/-- It is enough that everything needed is grounded. -/
theorem Grounded.of_forall {d : α} (h : ∀ e, dep d e → Grounded dep e) : Grounded dep d :=
  Acc.intro d h

theorem Grounded.of_dep {d e : α} (h : Grounded dep d) (hdep : dep d e) : Grounded dep e :=
  Acc.inv h hdep

theorem Grounded.of_reaches {d e : α} (h : Grounded dep d) (hreach : ReflTransGen dep d e) :
    Grounded dep e := by
  induction hreach with
  | refl => exact h
  | tail _ hlast ih => exact ih.of_dep hlast

/-- Nothing grounded is on a cycle. -/
theorem Grounded.not_onCycle {d : α} (h : Grounded dep d) : ¬ OnCycle dep d := by
  have hacc : Acc (TransGen fun e d => dep d e) d := Acc.transGen h
  intro hcycle
  have hback : TransGen (fun e d => dep d e) d d := transGen_swap.mpr hcycle
  induction hacc with
  | intro d _ ih => exact ih d hback (Acc.inv_of_transGen h hback) hcycle hback

/-- Nothing grounded reaches a cycle. -/
theorem Grounded.not_reachesCycle {d : α} (h : Grounded dep d) : ¬ ReachesCycle dep d := by
  rintro ⟨c, hreach, hcycle⟩
  exact (h.of_reaches hreach).not_onCycle hcycle

/-- In a chain of pending needs, the last one first, each is needed by the earlier ones. -/
theorem transGen_of_mem_chain {d e : α} {stack : List α}
    (h : List.IsChain (fun x y => dep y x) (d :: stack)) (he : e ∈ stack) : TransGen dep e d := by
  induction stack generalizing d with
  | nil => exact absurd he List.not_mem_nil
  | cons x stack ih =>
    obtain ⟨hdep, hrest⟩ := List.isChain_cons_cons.mp h
    rcases List.mem_cons.mp he with rfl | he
    · exact .single hdep
    · exact (ih hrest he).tail hdep

/-- **A need that is pending already is on a cycle.** -/
theorem onCycle_of_mem_chain {d : α} {stack : List α}
    (h : List.IsChain (fun x y => dep y x) (d :: stack)) (hd : d ∈ stack) : OnCycle dep d :=
  transGen_of_mem_chain h hd

end Dependency
