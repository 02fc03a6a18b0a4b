import Mathlib.Data.List.Sublists
import KoheronSdk.Lib.Clocked

/-!
# Streams with handshakes

What goes over a stream is a list that grows with the clocks.  A circuit counts it into blocks of
one length; it offers a result with a `valid` flag, until the other side takes it.  Where a result
is put while another one waits, one of them is lost: the flag stands for one result.

## Lists that grow

A signal is a function of the clock.  What has happened on it before clock `n`, in its order, is
`happened`, and a statement about a circuit compares such lists: what was accepted, what was put
into the output register, what was taken from it.  `Blocks` and `Framed` cut a list into pieces of
one length with an incomplete rest, and grow by one element at a time, so that an edge of the clock
is one application of a lemma.

## One place for a result

`Slot` is a register with its flag, with the edge that circuits write with two `if`s: the flag is
set when a result is put, and then cleared when the other side is ready for the one that was there.
The order of the two matters: a result that is put in the clock in which another one waits and is
taken goes with it.  All results are counted: they have been taken, wait, or are lost.  What
is taken is a sublist of what was put, and all of it exactly if nothing is put on a result that
waits.

* `happened`: what has happened up to a clock.
* `Blocks`: a list in blocks of one length, with the rest.
* `Framed`: the beats of a stream in packets, the last beat of each with a mark.
* `Slot`: the flag and the result, with the edge of the usual two `if`s.
* `Slot.Runs.length_happened`: results that were put have been taken, wait, or are lost.
* `Slot.Runs.taken_append_held_iff`: nothing is lost if and only if no result is put on another one.
-/

namespace Clocked

section Happened

variable {α β : Type*}

/-- What has happened before clock `n`, in the order of the clocks. -/
def happened (event : ℕ → Option α) (n : ℕ) : List α := (List.range n).filterMap event

variable {event : ℕ → Option α}

@[simp] theorem happened_zero : happened event 0 = [] := rfl

theorem happened_succ (n : ℕ) :
    happened event (n + 1) = happened event n ++ (event n).toList := by
  rw [happened, List.range_succ, List.filterMap_append]
  rfl

theorem happened_succ_of_none {n : ℕ} (h : event n = none) :
    happened event (n + 1) = happened event n := by
  rw [happened_succ, h]
  exact List.append_nil _

theorem happened_succ_of_some {n : ℕ} {x : α} (h : event n = some x) :
    happened event (n + 1) = happened event n ++ [x] := by
  rw [happened_succ, h]
  rfl

/-- What happens at fewer clocks. -/
theorem happened_sublist {event' : ℕ → Option α} (h : ∀ k x, event k = some x → event' k = some x)
    (n : ℕ) : (happened event n).Sublist (happened event' n) := by
  induction n with
  | zero => exact List.nil_sublist _
  | succ n ih =>
    rw [happened_succ, happened_succ]
    refine ih.append ?_
    cases hn : event n with
    | none => exact List.nil_sublist _
    | some x => rw [h n x hn]

theorem happened_map (f : α → β) (n : ℕ) :
    happened (fun k => (event k).map f) n = (happened event n).map f := by
  rw [happened, happened, List.map_filterMap]

end Happened

/-! ## Blocks -/

/-- A list in blocks of length `n`, and what is left of it. -/
structure Blocks {α : Type*} (n : ℕ) (l : List α) (blocks : List (List α)) (rest : List α) :
    Prop where
  flatten : l = blocks.flatten ++ rest
  full : ∀ b ∈ blocks, b.length = n
  short : rest.length < n

namespace Blocks

variable {α : Type*} {n : ℕ} {l rest : List α} {blocks : List (List α)}

theorem nil (hn : 0 < n) : Blocks n ([] : List α) [] [] :=
  ⟨rfl, fun _ hb => (List.not_mem_nil hb).elim, hn⟩

/-- Another one goes to the rest. -/
theorem snoc (h : Blocks n l blocks rest) (x : α) (hlt : rest.length + 1 < n) :
    Blocks n (l ++ [x]) blocks (rest ++ [x]) :=
  ⟨by rw [h.flatten, List.append_assoc], h.full, by rwa [List.length_append]⟩

/-- The last one of a block. -/
theorem snoc_full (h : Blocks n l blocks rest) (x : α) (heq : rest.length + 1 = n) :
    Blocks n (l ++ [x]) (blocks ++ [rest ++ [x]]) [] := by
  refine ⟨?_, fun b hb => ?_, by rw [List.length_nil]; omega⟩
  · rw [h.flatten, List.flatten_append, List.flatten_cons, List.flatten_nil, List.append_nil,
      List.append_nil, List.append_assoc]
  · rcases List.mem_append.mp hb with hb | hb
    · exact h.full b hb
    · rw [List.mem_singleton.mp hb, List.length_append, List.length_singleton, heq]

end Blocks

/-- The beats of a stream in packets of length `n`: the last beat of each packet is marked, and no
other one. -/
structure Framed {α : Type*} (n : ℕ) (beats : List (α × Bool)) (packets : List (List (α × Bool)))
    (rest : List (α × Bool)) : Prop where
  blocks : Blocks n beats packets rest
  marked : ∀ p ∈ packets, p.map Prod.snd = List.replicate (n - 1) false ++ [true]
  unmarked : ∀ x ∈ rest, x.2 = false

namespace Framed

variable {α : Type*} {n : ℕ} {beats rest : List (α × Bool)} {packets : List (List (α × Bool))}

theorem nil (hn : 0 < n) : Framed n ([] : List (α × Bool)) [] [] :=
  ⟨.nil hn, fun _ hp => (List.not_mem_nil hp).elim, fun _ hx => (List.not_mem_nil hx).elim⟩

/-- A beat inside a packet. -/
theorem snoc (h : Framed n beats packets rest) (x : α) (hlt : rest.length + 1 < n) :
    Framed n (beats ++ [(x, false)]) packets (rest ++ [(x, false)]) := by
  refine ⟨h.blocks.snoc _ hlt, h.marked, fun y hy => ?_⟩
  rcases List.mem_append.mp hy with hy | hy
  · exact h.unmarked y hy
  · rw [List.mem_singleton.mp hy]

/-- The beat that ends one. -/
theorem snoc_full (h : Framed n beats packets rest) (x : α) (heq : rest.length + 1 = n) :
    Framed n (beats ++ [(x, true)]) (packets ++ [rest ++ [(x, true)]]) [] := by
  refine ⟨h.blocks.snoc_full _ heq, fun p hp => ?_, fun _ hx => (List.not_mem_nil hx).elim⟩
  rcases List.mem_append.mp hp with hp | hp
  · exact h.marked p hp
  · have hrest : rest.map Prod.snd = List.replicate (n - 1) false := by
      refine List.eq_replicate_iff.mpr ⟨by rw [List.length_map]; omega, fun b hb => ?_⟩
      obtain ⟨y, hy, rfl⟩ := List.mem_map.mp hb
      exact h.unmarked y hy
    rw [List.mem_singleton.mp hp, List.map_append, hrest]
    rfl

end Framed

/-! ## Results that wait to be taken -/

/-- A register for one result. -/
structure Slot (α : Type*) where
  valid : Bool
  data : α

namespace Slot

variable {α : Type*}

/-- An edge: `valid` is set when a result is put, and then cleared when the other side is ready
for the one that was there. -/
def edge (s : Slot α) (put : Option α) (ready : Bool) : Slot α where
  valid := (s.valid || put.isSome) && !(ready && s.valid)
  data := put.getD s.data

/-- The result that waits. -/
def held (s : Slot α) : List α := if s.valid then [s.data] else []

/-- The result that the other side takes. -/
def taken (s : Slot α) (ready : Bool) : Option α := if s.valid && ready then some s.data else none

/-- A slot over the clocks, free at first. -/
structure Runs (slot : ℕ → Slot α) (put : ℕ → Option α) (ready : ℕ → Bool) : Prop where
  free : (slot 0).valid = false
  edge : ∀ n, slot (n + 1) = (slot n).edge (put n) (ready n)

theorem held_of_not_valid {s : Slot α} (h : s.valid = false) : s.held = [] :=
  if_neg (by rw [h]; exact Bool.false_ne_true)

theorem held_of_valid {s : Slot α} (h : s.valid = true) : s.held = [s.data] := if_pos h

theorem taken_of_not_valid {s : Slot α} (h : s.valid = false) (ready : Bool) :
    s.taken ready = none :=
  if_neg (by rw [h]; exact Bool.false_ne_true)

theorem taken_of_valid {s : Slot α} (h : s.valid = true) (ready : Bool) :
    s.taken ready = if ready then some s.data else none := by
  rw [taken, h, Bool.true_and]

/-- A free slot takes what is put. -/
theorem held_edge_of_free {s : Slot α} (h : s.valid = false) (put : Option α) (ready : Bool) :
    (s.edge put ready).held = put.toList := by
  cases put with
  | none => exact held_of_not_valid (by simp [edge, h])
  | some x => exact held_of_valid (by simp [edge, h])

/-- Without a new result the one that is there is taken or held. -/
theorem held_edge_of_none {s : Slot α} (h : s.valid = true) (ready : Bool) :
    (s.taken ready).toList ++ (s.edge none ready).held = [s.data] := by
  cases ready with
  | false => rw [taken_of_valid h]; exact held_of_valid (by simp [edge, h])
  | true =>
    rw [taken_of_valid h]
    exact congrArg ([s.data] ++ ·) (held_of_not_valid (by simp [edge, h]))

/-- Of two results one is lost: the old one if it was not taken, and else the new one. -/
theorem held_edge_of_valid {s : Slot α} (h : s.valid = true) (x : α) (ready : Bool) :
    (s.taken ready).toList ++ (s.edge (some x) ready).held
      = if ready then [s.data] else [x] := by
  cases ready with
  | false => rw [taken_of_valid h]; exact held_of_valid (by simp [edge, h])
  | true =>
    rw [taken_of_valid h]
    exact congrArg ([s.data] ++ ·) (held_of_not_valid (by simp [edge, h]))

section Run

variable {slot : ℕ → Slot α} {put : ℕ → Option α} {ready : ℕ → Bool}

/-- What the other side has taken before clock `n`. -/
def takenBefore (slot : ℕ → Slot α) (ready : ℕ → Bool) (n : ℕ) : List α :=
  happened (fun k => (slot k).taken (ready k)) n

/-- The results that were put before clock `n` while another one waited. -/
def lostBefore (slot : ℕ → Slot α) (put : ℕ → Option α) (n : ℕ) : ℕ :=
  Nat.count (fun k => (put k).isSome = true ∧ (slot k).valid = true) n

/-- **Nothing else is taken than what was put**, and in its order. -/
theorem Runs.sublist (h : Runs slot put ready) (n : ℕ) :
    (takenBefore slot ready n ++ (slot n).held).Sublist (happened put n) := by
  induction n with
  | zero =>
    rw [held_of_not_valid h.free]
    exact List.nil_sublist _
  | succ n ih =>
    rw [takenBefore, happened_succ, happened_succ, h.edge, List.append_assoc]
    cases hvalid : (slot n).valid with
    | false =>
      rw [held_of_not_valid hvalid, List.append_nil] at ih
      rw [taken_of_not_valid hvalid, held_edge_of_free hvalid]
      exact ih.append (List.Sublist.refl _)
    | true =>
      rw [held_of_valid hvalid] at ih
      cases put n with
      | none =>
        rw [held_edge_of_none hvalid]
        exact ih.trans (List.sublist_append_left _ _)
      | some x =>
        rw [held_edge_of_valid hvalid]
        cases ready n with
        | true => exact ih.trans (List.sublist_append_left _ _)
        | false => exact ((List.sublist_append_left _ _).trans ih).append (List.Sublist.refl _)

/-- **Every result that was put has been taken, waits, or is lost.** -/
theorem Runs.length_happened (h : Runs slot put ready) (n : ℕ) :
    (happened put n).length = (takenBefore slot ready n).length + (slot n).held.length
      + lostBefore slot put n := by
  induction n with
  | zero =>
    rw [held_of_not_valid h.free]
    rfl
  | succ n ih =>
    have hedge := h.edge n
    rw [takenBefore, happened_succ, happened_succ, lostBefore, Nat.count_succ, hedge,
      List.length_append, List.length_append, ih, takenBefore, lostBefore]
    cases hvalid : (slot n).valid with
    | false =>
      rw [held_of_not_valid hvalid, taken_of_not_valid hvalid, held_edge_of_free hvalid,
        if_neg fun hlost => Bool.false_ne_true hlost.2]
      simp only [List.length_nil, Option.toList_none]
      omega
    | true =>
      rw [held_of_valid hvalid]
      cases put n with
      | none =>
        have hlen := congrArg List.length (held_edge_of_none hvalid (ready n))
        rw [List.length_append] at hlen
        simp only [Option.toList_none, List.length_nil, List.length_singleton] at hlen ⊢
        rw [if_neg fun hlost => Bool.false_ne_true hlost.1]
        omega
      | some x =>
        have hlen := congrArg List.length (held_edge_of_valid hvalid x (ready n))
        rw [List.length_append] at hlen
        have hone : (if ready n then [(slot n).data] else [x]).length = 1 := by
          cases ready n <;> rfl
        rw [if_pos ⟨rfl, rfl⟩]
        simp only [Option.toList_some, List.length_singleton] at hlen ⊢
        omega

/-- The numbers agree if and only if no result is put on another one. -/
theorem Runs.length_eq_iff (h : Runs slot put ready) (n : ℕ) :
    (takenBefore slot ready n).length + (slot n).held.length = (happened put n).length ↔
      ∀ k < n, (put k).isSome = true → (slot k).valid = false := by
  have hcount : lostBefore slot put n = 0 ↔
      ∀ k < n, (put k).isSome = true → (slot k).valid = false := by
    rw [lostBefore, Nat.count_iff_forall_not]
    refine forall₂_congr fun k _ => ?_
    rw [not_and, Bool.not_eq_true]
  have hlen := h.length_happened n
  rw [← hcount]
  omega

/-- **Nothing is lost if and only if no result is put on another one**: then what has been taken
and what waits are the results, in their order. -/
theorem Runs.taken_append_held_iff (h : Runs slot put ready) (n : ℕ) :
    takenBefore slot ready n ++ (slot n).held = happened put n ↔
      ∀ k < n, (put k).isSome = true → (slot k).valid = false := by
  rw [← h.length_eq_iff, ← List.length_append]
  exact ⟨congrArg List.length, (h.sublist n).eq_of_length⟩

end Run

end Slot

end Clocked
