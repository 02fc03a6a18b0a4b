import Mathlib.Data.List.Infix

/-!
# Substring search

`offset?` is where a text first has a pattern, and `find` the same from a position on, like the
methods of string classes.  Both go through the text place by place, which is also what they are
specified by: `offset?_eq_some_iff` says that the pattern begins at the place that is found and at
none before it, and `offset?_eq_none_iff` that it is nowhere.

The lemmas are for texts that are built from parts.  A first part without the first character of the
pattern is passed over (`offset?_append_of_notMem`), one that has the pattern is where the search
ends, whatever comes behind it (`offset?_append_of_some`), and a mismatch moves on by one character
(`offset?_cons_of_mismatch`).

* `offset?`, `find`: the search.
* `offset?_eq_some_iff`, `offset?_eq_none_iff`: what the search finds.
* `offset?_append_of_some`: what has been found stays found when the text goes on.
-/

namespace TextSearch

variable {α : Type} [DecidableEq α]

/-- The first place where `pat` begins. -/
def offset? (pat : List α) : List α → Option ℕ
  | [] => if pat = [] then some 0 else none
  | c :: cs => if pat <+: c :: cs then some 0 else (offset? pat cs).map (· + 1)

/-- The first place from `pos` on where `pat` begins. -/
def find (s pat : List α) (pos : ℕ) : Option ℕ := (offset? pat (s.drop pos)).map (pos + ·)

variable {pat s t : List α} {k : ℕ}

theorem offset?_of_begins (h : pat <+: s) : offset? pat s = some 0 := by
  cases s with
  | nil => exact if_pos (List.prefix_nil.mp h)
  | cons c cs => exact if_pos h

theorem offset?_cons_of_mismatch {cs : List α} {c : α} (h : ¬ pat <+: c :: cs) :
    offset? pat (c :: cs) = (offset? pat cs).map (· + 1) := if_neg h

/-- A text without the first character of the pattern is passed over. -/
theorem offset?_append_of_notMem {p : α} (h : p ∉ s) (t : List α) :
    offset? (p :: pat) (s ++ t) = (offset? (p :: pat) t).map (· + s.length) := by
  induction s with
  | nil => simp only [List.nil_append, List.length_nil, Nat.add_zero, Option.map_id_fun', id]
  | cons c cs ih =>
    obtain ⟨hne, hcs⟩ := not_or.mp (mt List.mem_cons.mpr h)
    rw [List.cons_append,
      offset?_cons_of_mismatch fun hpre => hne (List.cons_prefix_cons.mp hpre).1,
      ih hcs, Option.map_map]
    rfl

/-- The search finds the first place there is. -/
theorem offset?_eq_some_iff :
    offset? pat s = some k ↔ k ≤ s.length ∧ pat <+: s.drop k ∧ ∀ j < k, ¬ pat <+: s.drop j := by
  induction s generalizing k with
  | nil =>
    rw [offset?, Option.ite_none_right_eq_some, List.drop_nil, List.prefix_nil, List.length_nil]
    constructor
    · rintro ⟨hpat, hk⟩
      obtain rfl := Option.some.inj hk
      exact ⟨Nat.le_refl 0, hpat, fun j hj => absurd hj (Nat.not_lt_zero j)⟩
    · rintro ⟨hk, hpat, -⟩
      exact ⟨hpat, congrArg some (Nat.le_zero.mp hk).symm⟩
  | cons c cs ih =>
    by_cases hpre : pat <+: c :: cs
    · rw [offset?_of_begins hpre, Option.some.injEq]
      constructor
      · rintro rfl
        exact ⟨Nat.zero_le _, hpre, fun j hj => absurd hj (Nat.not_lt_zero j)⟩
      · rintro ⟨-, -, hfirst⟩
        by_contra hne
        exact hfirst 0 (Nat.pos_of_ne_zero (Ne.symm hne)) hpre
    · rw [offset?_cons_of_mismatch hpre, Option.map_eq_some_iff]
      constructor
      · rintro ⟨j, hj, rfl⟩
        obtain ⟨hle, hat, hfirst⟩ := ih.mp hj
        refine ⟨Nat.succ_le_succ hle, hat, fun i hi => ?_⟩
        cases i with
        | zero => exact hpre
        | succ i => exact hfirst i (Nat.lt_of_succ_lt_succ hi)
      · rintro ⟨hle, hat, hfirst⟩
        cases k with
        | zero => exact absurd hat hpre
        | succ k =>
          exact ⟨k, ih.mpr ⟨Nat.le_of_succ_le_succ hle, hat, fun j hj =>
            hfirst (j + 1) (Nat.succ_lt_succ hj)⟩, rfl⟩

theorem offset?_eq_none_iff : offset? pat s = none ↔ ¬ pat <:+: s := by
  induction s with
  | nil =>
    rw [offset?, List.infix_nil]
    by_cases hpat : pat = []
    · rw [if_pos hpat]
      exact iff_of_false (Option.some_ne_none 0) fun h => h hpat
    · rw [if_neg hpat]
      exact iff_of_true rfl hpat
  | cons c cs ih =>
    rw [List.infix_cons_iff, not_or]
    by_cases hpre : pat <+: c :: cs
    · rw [offset?_of_begins hpre]
      exact iff_of_false (Option.some_ne_none 0) fun h => h.1 hpre
    · rw [offset?_cons_of_mismatch hpre, Option.map_eq_none_iff, ih]
      exact (and_iff_right hpre).symm

/-- Where a pattern has been found it is found when the text goes on. -/
theorem offset?_append_of_some (h : offset? pat s = some k) (t : List α) :
    offset? pat (s ++ t) = some k := by
  obtain ⟨hle, hat, hfirst⟩ := offset?_eq_some_iff.mp h
  have hdrop : ∀ j ≤ k, (s ++ t).drop j = s.drop j ++ t := fun j hj =>
    List.drop_append_of_le_length (Nat.le_trans hj hle)
  refine offset?_eq_some_iff.mpr ⟨?_, ?_, fun j hj hpre => hfirst j hj ?_⟩
  · rw [List.length_append]
    omega
  · rw [hdrop k (Nat.le_refl k)]
    exact hat.trans (List.prefix_append _ _)
  · have hroom := hat.length_le
    rw [hdrop j hj.le] at hpre
    rw [List.length_drop] at hroom
    exact List.prefix_of_prefix_length_le hpre (List.prefix_append _ _)
      (by rw [List.length_drop]; omega)

end TextSearch
