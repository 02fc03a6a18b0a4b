import Mathlib.Algebra.BigOperators.Intervals
import Mathlib.Algebra.BigOperators.Ring.Finset
import Mathlib.Algebra.Order.Group.Abs
import Mathlib.Algebra.Order.Ring.Int
import Mathlib.Order.Interval.Finset.Nat
import Mathlib.Tactic.Linarith
import Mathlib.Tactic.Ring
import KoheronSdk.Lib.Clocked

/-!
# The pulse density modulator

The core `pdm` subtracts its input from an error at every clock, and adds the largest input
whenever it has given a pulse.  The subtraction takes one clock and the update another, so that
there are two errors that do not meet: those of the even clocks and those of the odd ones.

The sums of the source have 32 bits and the registers keep some of them.  Over two clocks the error
goes up by the largest input or not at all, and down by the input; the comparison with the
input makes sure that it stays between zero and the largest input, so nothing wraps
around and the error can be read as an integer.

From there the sum over a window is a telescope.  The pulses of the window, each as much as the
largest input, differ from the sum of the inputs by the change of the two errors, and
these are bounded.  So the difference does not grow with the window, whatever the inputs are.

* `Pdm.posedge`: one clock of the core.
* `error_posedge_posedge`: the error two clocks later, as an integer.
* `pulses_follow_input`: over a window the pulses follow the input.
-/

namespace KoheronSdk

open Clocked

/-- The registers of `pdm`. -/
@[ext] structure Pdm (nbits : ℕ) where
  rstReg : Bool
  dinReg : BitVec nbits
  error0 : BitVec nbits
  error1 : BitVec nbits
  dout : Bool
  error : BitVec nbits

namespace Pdm

variable {nbits : ℕ}

/-- `MAX` -/
def max (nbits : ℕ) : ℕ := 2 ^ nbits - 1

/-- The inputs at a clock. -/
structure Input (nbits : ℕ) where
  din : BitVec nbits
  rst : Bool

/-- `posedge clk`: the three blocks, of which each register belongs to one.  The sums have 32 bits,
of which the registers keep `nbits`. -/
def posedge (r : Pdm nbits) (i : Input nbits) : Pdm nbits where
  rstReg := i.rst
  dinReg := i.din
  error1 := r.error + BitVec.ofNat nbits (max nbits) - r.dinReg
  error0 := r.error - r.dinReg
  dout := if r.rstReg then false else decide (r.error ≤ r.dinReg)
  error := if r.rstReg then 0 else if r.dout then r.error1 else r.error0

/-- A pulse as a number. -/
def pulse (r : Pdm nbits) : ℤ := if r.dout then 1 else 0

/-- **The error two clocks later.** Nothing wraps around: a pulse is given exactly if the input is
not below the error. -/
theorem error_posedge_posedge (r : Pdm nbits) (i j : Input nbits) (hr : r.rstReg = false)
    (hi : i.rst = false) :
    (((r.posedge i).posedge j).error.toNat : ℤ)
      = r.error.toNat + max nbits * (r.posedge i).pulse - r.dinReg.toNat := by
  have herror := r.error.isLt
  have hdin := r.dinReg.isLt
  have hmax : max nbits + 1 = 2 ^ nbits := Nat.sub_add_cancel (Nat.two_pow_pos nbits)
  by_cases hpulse : r.error ≤ r.dinReg
  · have hle : r.error.toNat ≤ r.dinReg.toNat := hpulse
    have hdout : (r.posedge i).dout = true := by
      show (if r.rstReg then false else decide (r.error ≤ r.dinReg)) = true
      rw [hr, if_neg Bool.false_ne_true, decide_eq_true hpulse]
    have hnext : ((r.posedge i).posedge j).error
        = r.error + BitVec.ofNat nbits (max nbits) - r.dinReg := by
      show (if i.rst then 0 else if (r.posedge i).dout then (r.posedge i).error1 else _) = _
      rw [hi, if_neg Bool.false_ne_true, hdout, if_pos rfl]
      rfl
    have hnat : (r.error + BitVec.ofNat nbits (max nbits) - r.dinReg).toNat
        = r.error.toNat + max nbits - r.dinReg.toNat := by
      rw [BitVec.toNat_sub, BitVec.toNat_add, BitVec.toNat_ofNat,
        Nat.mod_eq_of_lt (by omega : max nbits < 2 ^ nbits)]
      rcases Nat.eq_zero_or_pos r.error.toNat with h0 | hpos
      · rw [h0, Nat.zero_add, Nat.mod_eq_of_lt (by omega : max nbits < 2 ^ nbits)]
        rw [show 2 ^ nbits - r.dinReg.toNat + max nbits
          = max nbits - r.dinReg.toNat + 2 ^ nbits by omega, Nat.add_mod_right]
        exact Nat.mod_eq_of_lt (by omega)
      · have hmod : (r.error.toNat + max nbits) % 2 ^ nbits = r.error.toNat - 1 := by
          rw [show r.error.toNat + max nbits = r.error.toNat - 1 + 2 ^ nbits by omega,
            Nat.add_mod_right]
          exact Nat.mod_eq_of_lt (by omega)
        rw [hmod]
        exact (Nat.mod_eq_of_lt (by omega)).trans (by omega)
    rw [hnext, hnat, pulse, if_pos hdout]
    omega
  · have hlt : r.dinReg.toNat < r.error.toNat := Nat.lt_of_not_le hpulse
    have hdout : (r.posedge i).dout = false := by
      show (if r.rstReg then false else decide (r.error ≤ r.dinReg)) = false
      rw [hr, if_neg Bool.false_ne_true, decide_eq_false hpulse]
    have hnext : ((r.posedge i).posedge j).error = r.error - r.dinReg := by
      show (if i.rst then 0 else if (r.posedge i).dout then (r.posedge i).error1 else _) = _
      rw [hi, if_neg Bool.false_ne_true, hdout, if_neg Bool.false_ne_true]
      rfl
    have hnat : (r.error - r.dinReg).toNat = r.error.toNat - r.dinReg.toNat :=
      BitVec.toNat_sub_of_le hlt.le
    rw [hnext, hnat, pulse, if_neg (by rw [hdout]; exact Bool.false_ne_true)]
    omega

/-! ## Over a window -/

section Window

variable {r : Pdm nbits} {inputs : ℕ → Input nbits}

/-- The error at a clock, as an integer. -/
def errorAt (r : Pdm nbits) (inputs : ℕ → Input nbits) (n : ℕ) : ℤ :=
  (trace posedge r inputs n).error.toNat

/-- The input register at a clock, as an integer. -/
def dinAt (r : Pdm nbits) (inputs : ℕ → Input nbits) (n : ℕ) : ℤ :=
  (trace posedge r inputs n).dinReg.toNat

/-- The clocks of a window with a pulse. -/
def pulses (r : Pdm nbits) (inputs : ℕ → Input nbits) (a b : ℕ) : Finset ℕ :=
  (Finset.Icc a b).filter fun n => (trace posedge r inputs n).dout = true

theorem errorAt_bounds (n : ℕ) : 0 ≤ errorAt r inputs n ∧ errorAt r inputs n ≤ max nbits := by
  have hlt := (trace posedge r inputs n).error.isLt
  have hmax : max nbits + 1 = 2 ^ nbits := Nat.sub_add_cancel (Nat.two_pow_pos nbits)
  rw [errorAt]
  constructor <;> omega

theorem errorAt_recurrence {n : ℕ} (hn : (trace posedge r inputs n).rstReg = false)
    (hnext : (trace posedge r inputs (n + 1)).rstReg = false) :
    errorAt r inputs (n + 2) = errorAt r inputs n
      + max nbits * (trace posedge r inputs (n + 1)).pulse - dinAt r inputs n :=
  error_posedge_posedge _ (inputs n) (inputs (n + 1)) hn hnext

theorem sum_pulse (a b : ℕ) :
    ∑ n ∈ Finset.Icc a b, (trace posedge r inputs n).pulse = (pulses r inputs a b).card := by
  rw [pulses, Finset.card_filter, Nat.cast_sum]
  refine Finset.sum_congr rfl fun n _ => ?_
  rw [pulse]
  split <;> rfl

/-- The two interleaved errors, over the clocks behind `m`. -/
theorem sum_errorAt (m k : ℕ) :
    ∑ i ∈ Finset.range k, (errorAt r inputs (m + i + 2) - errorAt r inputs (m + i))
      = errorAt r inputs (m + k + 1) + errorAt r inputs (m + k)
        - (errorAt r inputs (m + 1) + errorAt r inputs m) := by
  have htelescope := Finset.sum_range_sub
    (fun i => errorAt r inputs (m + i + 1) + errorAt r inputs (m + i)) k
  refine Eq.trans (Finset.sum_congr rfl fun i _ => ?_) htelescope
  show _ = errorAt r inputs (m + i + 2) + errorAt r inputs (m + i + 1) - _
  ring

/-- **The pulses follow the input,** with an error that does not depend on the length of the
window: from the registers of any clock on, and whatever the inputs are, as long as there is no
reset. -/
theorem pulses_follow_input (r : Pdm nbits) (inputs : ℕ → Input nbits) {a b : ℕ} (ha : 1 ≤ a)
    (hreset : ∀ n, a - 1 ≤ n → n ≤ b → (trace posedge r inputs n).rstReg = false) :
    (∀ n, a ≤ n → n ≤ b →
      errorAt r inputs (n + 1) = errorAt r inputs (n - 1)
        + max nbits * (trace posedge r inputs n).pulse - dinAt r inputs (n - 1) ∧
      0 ≤ errorAt r inputs (n + 1) ∧ errorAt r inputs (n + 1) ≤ max nbits) ∧
    |(max nbits : ℤ) * (pulses r inputs a b).card
      - ∑ n ∈ Finset.Icc a b, dinAt r inputs (n - 1)| ≤ 2 * max nbits := by
  obtain ⟨m, rfl⟩ : ∃ m, a = m + 1 := ⟨a - 1, (Nat.sub_add_cancel ha).symm⟩
  rw [Nat.add_sub_cancel] at hreset
  have hstep : ∀ i, m + i + 1 ≤ b → errorAt r inputs (m + i + 2) = errorAt r inputs (m + i)
      + max nbits * (trace posedge r inputs (m + i + 1)).pulse - dinAt r inputs (m + i) :=
    fun i hi => errorAt_recurrence (hreset (m + i) (by omega) (by omega))
      (hreset (m + i + 1) (by omega) hi)
  refine ⟨fun n hn hnb => ?_, ?_⟩
  · obtain ⟨i, rfl⟩ : ∃ i, n = m + i + 1 := ⟨n - (m + 1), by omega⟩
    exact ⟨hstep i hnb, errorAt_bounds _⟩
  · rcases Nat.lt_or_ge b m with hempty | hle
    · have hnone : Finset.Icc (m + 1) b = ∅ := Finset.Icc_eq_empty (by omega)
      rw [pulses, hnone, Finset.filter_empty, Finset.card_empty, Finset.sum_empty]
      simp
    · obtain ⟨k, rfl⟩ : ∃ k, b = m + k := ⟨b - m, by omega⟩
      have hsum : (max nbits : ℤ) * (pulses r inputs (m + 1) (m + k)).card
          - ∑ n ∈ Finset.Icc (m + 1) (m + k), dinAt r inputs (n - 1)
            = ∑ i ∈ Finset.range k, (errorAt r inputs (m + i + 2) - errorAt r inputs (m + i)) := by
        rw [← sum_pulse, Finset.mul_sum, ← Finset.sum_sub_distrib,
          ← Finset.Ico_add_one_right_eq_Icc, Finset.sum_Ico_eq_sum_range,
          show m + k + 1 - (m + 1) = k by omega]
        refine Finset.sum_congr rfl fun i hi => ?_
        have hik := Finset.mem_range.mp hi
        rw [hstep i (by omega), show m + 1 + i = m + i + 1 by omega, Nat.add_sub_cancel]
        ring
      have hbounds : ∀ n, 0 ≤ errorAt r inputs n ∧ errorAt r inputs n ≤ max nbits :=
        errorAt_bounds
      obtain ⟨h1, h1'⟩ := hbounds (m + k + 1)
      obtain ⟨h2, h2'⟩ := hbounds (m + k)
      obtain ⟨h3, h3'⟩ := hbounds (m + 1)
      obtain ⟨h4, h4'⟩ := hbounds m
      rw [hsum, sum_errorAt, abs_le]
      constructor <;> linarith

/-- Registers of three bits with any content, and a constant input. -/
def probe : Pdm 3 := ⟨false, 3, 1, 6, true, 7⟩

def probeInputs : ℕ → Input 3 := fun _ => ⟨5, false⟩

theorem pulses_follow_probeInputs : (∀ n, 1 ≤ n → n ≤ 9 →
      errorAt probe probeInputs (n + 1) = errorAt probe probeInputs (n - 1)
        + max 3 * (trace posedge probe probeInputs n).pulse - dinAt probe probeInputs (n - 1) ∧
      0 ≤ errorAt probe probeInputs (n + 1) ∧ errorAt probe probeInputs (n + 1) ≤ max 3) ∧
    |(max 3 : ℤ) * (pulses probe probeInputs 1 9).card
      - ∑ n ∈ Finset.Icc 1 9, dinAt probe probeInputs (n - 1)| ≤ 2 * max 3 :=
  pulses_follow_input probe probeInputs le_rfl fun n _ _ => by cases n <;> rfl

end Window

end Pdm

end KoheronSdk
