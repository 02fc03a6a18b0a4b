import Mathlib.Tactic.Common
import Mathlib.Algebra.Order.Ring.Nat
import Mathlib.Data.Nat.Nth

/-!
# Clocked circuits

A circuit with one clock is a function `posedge s i`, the registers after an edge of the clock from
those before it and the inputs at this edge.  The assignments of a clocked block are all made at
once, from the values before the edge, so that such a function reads like the block itself.

## Runs

The inputs are a function of the clock, and `trace` is the registers clock by clock.  Most results
are about all clocks: an edge keeps an invariant, so it holds throughout (`trace_invariant`).
Others are about stretches, as those in which a counter counts up: `trace_along` has the registers
of a stretch as a function of the clock in it, to be checked at one edge, and a period is put
together from stretches.

## Vectors

The assignment of one bit, `v[i] <= b`, has an index that may lie behind the last bit; hardware
then assigns nothing (`setBit`).  `ofBits` builds a vector from a function of the index, for
assignments that go over all bits in a loop.

* `trace`, `trace_invariant`, `trace_along`: the registers, clock by clock.
* `exists_count_eq`: the clocks on which a signal is high.
* `setBit`: the assignment of one bit of a register, and `ofBits`, of all of them.
* `sampled`: what is taken from a serial line at the edges of its own clock, and
  `sampled_periodic`, for a clock that is divided.
-/

namespace Clocked

variable {S I : Type*} (posedge : S → I → S)

/-- The registers at each clock. -/
def trace (s : S) (inputs : ℕ → I) : ℕ → S
  | 0 => s
  | n + 1 => posedge (trace s inputs n) (inputs n)

variable {posedge} {s : S} {inputs : ℕ → I}

@[simp] theorem trace_zero : trace posedge s inputs 0 = s := rfl

theorem trace_succ (n : ℕ) :
    trace posedge s inputs (n + 1) = posedge (trace posedge s inputs n) (inputs n) := rfl

/-- A trace from one of its clocks on. -/
theorem trace_add (n k : ℕ) : trace posedge s inputs (n + k)
    = trace posedge (trace posedge s inputs n) (fun i => inputs (n + i)) k := by
  induction k with
  | zero => rfl
  | succ k ih => rw [← Nat.add_assoc, trace_succ, ih, trace_succ]

/-- What every edge keeps holds at every clock. -/
theorem trace_invariant {P : S → Prop} (hs : P s) (hstep : ∀ s i, P s → P (posedge s i)) (n : ℕ) :
    P (trace posedge s inputs n) := by
  induction n with
  | zero => exact hs
  | succ n ih => exact hstep _ _ ih

/-- The registers are those of `f` for a stretch of clocks. -/
theorem trace_along {f : ℕ → S} {n len : ℕ} (hstart : trace posedge s inputs n = f 0)
    (hstep : ∀ k < len, posedge (f k) (inputs (n + k)) = f (k + 1)) :
    ∀ k ≤ len, trace posedge s inputs (n + k) = f k := by
  intro k hk
  induction k with
  | zero => exact hstart
  | succ k ih => rw [← Nat.add_assoc, trace_succ, ih (Nat.le_of_succ_le hk), hstep k hk]

/-- A signal that is high again and again is high on the clock before which it has been high `n`
times. -/
theorem exists_count_eq {p : ℕ → Prop} [DecidablePred p] (h : ∀ m, ∃ k, m ≤ k ∧ p k) (n : ℕ) :
    ∃ b, p b ∧ Nat.count p b = n := by
  have hinfinite : (Set.ofPred p).Infinite := Set.infinite_of_forall_exists_gt fun m => by
    obtain ⟨k, hle, hk⟩ := h (m + 1)
    exact ⟨k, hk, hle⟩
  exact ⟨Nat.nth p n, Nat.nth_mem_of_infinite hinfinite n, Nat.count_nth_of_infinite hinfinite n⟩

/-- `v[i] <= b`.  An index behind the last bit is that of none. -/
def setBit {w : ℕ} (v : BitVec w) (i : ℕ) (b : Bool) : BitVec w :=
  if b then v ||| 1#w <<< i else v &&& ~~~(1#w <<< i)

theorem getLsbD_setBit {w : ℕ} (v : BitVec w) (i : ℕ) (b : Bool) (j : ℕ) :
    (setBit v i b).getLsbD j = if j = i ∧ i < w then b else v.getLsbD j := by
  by_cases hj : j < w
  · have hone : (1#w <<< i).getLsbD j = decide (j = i) := by
      rw [BitVec.getLsbD_shiftLeft, BitVec.getLsbD_one]
      grind
    cases b with
    | true =>
      rw [setBit, if_pos rfl, BitVec.getLsbD_or, hone]
      grind
    | false =>
      rw [setBit, if_neg Bool.false_ne_true, BitVec.getLsbD_and, BitVec.getLsbD_not, hone]
      grind
  · have hge : w ≤ j := Nat.le_of_not_lt hj
    rw [BitVec.getLsbD_of_ge _ _ hge, BitVec.getLsbD_of_ge _ _ hge, if_neg (by omega)]

/-- The vector with these bits. -/
def ofBits (w : ℕ) (f : ℕ → Bool) : BitVec w :=
  (List.range w).foldl (fun v i => setBit v i (f i)) 0#w

theorem getLsbD_foldl_setBit {w : ℕ} (f : ℕ → Bool) {n : ℕ} (hn : n ≤ w) (j : ℕ) :
    ((List.range n).foldl (fun v i => setBit v i (f i)) 0#w).getLsbD j
      = (decide (j < n) && f j) := by
  induction n with
  | zero => simp
  | succ n ih =>
    rw [List.range_succ, List.foldl_append, List.foldl_cons, List.foldl_nil, getLsbD_setBit,
      ih (Nat.le_of_succ_le hn)]
    grind

theorem getLsbD_ofBits {w : ℕ} (f : ℕ → Bool) {j : ℕ} (hj : j < w) :
    (ofBits w f).getLsbD j = f j := by
  rw [ofBits, getLsbD_foldl_setBit f le_rfl, decide_eq_true hj, Bool.true_and]

/-! ## Serial lines -/

/-- The values of a line at the rising edges of `sclk`, as long as it is enabled. -/
def sampled (sclk line enabled : ℕ → Bool) : ℕ → List Bool
  | 0 => []
  | n + 1 =>
    if sclk n = false ∧ sclk (n + 1) = true ∧ enabled (n + 1) = true then
      sampled sclk line enabled n ++ [line (n + 1)]
    else sampled sclk line enabled n

/-- Without an edge nothing is taken. -/
theorem sampled_add_of_not_edge {sclk line enabled : ℕ → Bool} (n m : ℕ) (h : ∀ k < m,
    ¬ (sclk (n + k) = false ∧ sclk (n + k + 1) = true ∧ enabled (n + k + 1) = true)) :
    sampled sclk line enabled (n + m) = sampled sclk line enabled n := by
  induction m with
  | zero => rfl
  | succ m ih =>
    rw [← Nat.add_assoc, sampled, if_neg (h m (Nat.lt_succ_self m))]
    exact ih fun k hk => h k (Nat.lt_succ_of_lt hk)

/-- What is taken after a clock is taken from the lines from there on. -/
theorem sampled_add (sclk line enabled : ℕ → Bool) (n m : ℕ) :
    sampled sclk line enabled (n + m) = sampled sclk line enabled n ++
      sampled (fun k => sclk (n + k)) (fun k => line (n + k)) (fun k => enabled (n + k)) m := by
  induction m with
  | zero => exact (List.append_nil _).symm
  | succ m ih =>
    rw [← Nat.add_assoc, sampled, sampled, ih, Nat.add_assoc]
    split
    · exact List.append_assoc _ _ _
    · rfl

/-- Edges in every period give the values of every period. -/
theorem sampled_periodic (sclk line enabled : ℕ → Bool) {period len : ℕ} {values : ℕ → Bool}
    (hedge : ∀ k < len, (sclk k = false ∧ sclk (k + 1) = true ∧ enabled (k + 1) = true) ↔
      (k + 1) % period = 0)
    (hline : ∀ j, period * (j + 1) ≤ len → line (period * (j + 1)) = values j) {n : ℕ}
    (hn : n ≤ len) :
    sampled sclk line enabled n = (List.range (n / period)).map values := by
  induction n with
  | zero => rw [Nat.zero_div]; rfl
  | succ n ih =>
    have ih' := ih (Nat.le_of_succ_le hn)
    rw [sampled]
    by_cases hmod : (n + 1) % period = 0
    · rw [if_pos ((hedge n hn).mpr hmod), ih', Nat.succ_div_of_dvd (Nat.dvd_of_mod_eq_zero hmod),
        List.range_succ, List.map_append]
      obtain ⟨j, hj⟩ := Nat.dvd_of_mod_eq_zero hmod
      obtain ⟨j, rfl⟩ : ∃ i, j = i + 1 := ⟨j - 1, by
        rcases Nat.eq_zero_or_pos j with rfl | hpos
        · omega
        · omega⟩
      have hperiod : 0 < period := by
        rcases Nat.eq_zero_or_pos period with rfl | hpos
        · omega
        · exact hpos
      have hdiv : n / period = j := by
        rw [Nat.div_eq_iff hperiod]
        rw [Nat.mul_succ] at hj
        rw [Nat.mul_comm j]
        omega
      rw [hdiv, hj, hline j (hj ▸ hn)]
      rfl
    · rw [if_neg (mt (hedge n hn).mp hmod), ih', Nat.succ_div_of_not_dvd fun hdvd =>
        hmod (Nat.mod_eq_zero_of_dvd hdvd)]

end Clocked
