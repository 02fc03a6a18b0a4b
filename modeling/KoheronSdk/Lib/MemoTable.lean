import Mathlib.Tactic.Common

/-!
# Tables of results

A table that keeps the first value made for a key, as a map does whose `insert` or `emplace` leaves
an entry alone that is there already.  Requests come one after the other; each has a key, and for
each a value can be made that fits it.

If two requests share a key, the second one finds the value of the first.  Whether that value fits
it is a matter of what a value is for; if a value fits one request only, then the requests are all
served if and only if no two of them share a key (`fill_fits_iff`).  So a key must tell everything
apart that a value depends on.

* `insertNew`: a value for a key that has none.
* `fill`: the table behind requests in their order.
* `lookup_fill`: a key has the value of the first request with it.
* `fill_fits_iff`: when each request finds a value that fits it.
-/

namespace MemoTable

variable {κ ν ρ : Type*} [BEq κ]

/-- A value for a key that has none. -/
def insertNew (table : List (κ × ν)) (k : κ) (v : ν) : List (κ × ν) :=
  if (table.lookup k).isNone then table ++ [(k, v)] else table

/-- The table behind requests in their order. -/
def fill (key : ρ → κ) (make : ρ → ν) (table : List (κ × ν)) (requests : List ρ) : List (κ × ν) :=
  requests.foldl (fun t r => insertNew t (key r) (make r)) table

variable [LawfulBEq κ] {key : ρ → κ} {make : ρ → ν}

theorem lookup_insertNew (table : List (κ × ν)) (k : κ) (v : ν) (k' : κ) :
    (insertNew table k v).lookup k' = (table.lookup k').or (if k' == k then some v else none) := by
  rw [insertNew]
  split
  · next hnone =>
    rw [List.lookup_append, List.lookup_cons, List.lookup_nil]
    cases k' == k <;> rfl
  · next hsome =>
    by_cases hk : k' = k
    · subst hk
      rw [if_pos (beq_self_eq_true k')]
      cases hw : table.lookup k' with
      | none => exact absurd (Option.isNone_iff_eq_none.mpr hw) hsome
      | some w => rfl
    · rw [if_neg (mt eq_of_beq hk), Option.or_none]

/-- A key has the value that it had, or that of the first request with it. -/
theorem lookup_fill (table : List (κ × ν)) (requests : List ρ) (k : κ) :
    (fill key make table requests).lookup k
      = (table.lookup k).or ((requests.find? fun r => k == key r).map make) := by
  induction requests generalizing table with
  | nil => exact (Option.or_none).symm
  | cons r requests ih =>
    show (fill key make (insertNew table (key r) (make r)) requests).lookup k = _
    rw [ih, lookup_insertNew, Option.or_assoc, List.find?_cons]
    cases k == key r <;> rfl

/-- **Each request finds a value that fits it** if and only if the requests have keys of their own,
where a value fits one request. -/
theorem fill_fits_iff {P : ν → ρ → Prop} (hmake : ∀ r, P (make r) r)
    (hfits : ∀ v r r', P v r → P v r' → r = r') (requests : List ρ) :
    (∀ r ∈ requests, ∃ v, (fill key make [] requests).lookup (key r) = some v ∧ P v r) ↔
      ∀ r ∈ requests, ∀ r' ∈ requests, key r = key r' → r = r' := by
  constructor
  · intro h r hr r' hr' hkey
    obtain ⟨v, hv, hfit⟩ := h r hr
    obtain ⟨v', hv', hfit'⟩ := h r' hr'
    rw [hkey, hv', Option.some_inj] at hv
    subst hv
    exact hfits v' r r' hfit hfit'
  · intro h r hr
    refine ⟨make r, ?_, hmake r⟩
    have hfound : (requests.find? fun r' => key r == key r').isSome = true :=
      List.find?_isSome.mpr ⟨r, hr, beq_self_eq_true (key r)⟩
    obtain ⟨r', hr'⟩ := Option.isSome_iff_exists.mp hfound
    have hbeq := List.find?_some hr'
    have hkey : key r = key r' := eq_of_beq hbeq
    rw [lookup_fill, hr', ← h r hr r' (List.mem_of_find?_eq_some hr') hkey]
    rfl

end MemoTable
