import Mathlib.Data.Nat.Count
import KoheronSdk.Lib.Clocked

/-!
# The counter of the spectrum averages

The core `psd_counter` numbers the samples of a cycle and the cycles of an average.  When the last
sample of a cycle has come, it decides by `cycle_index` whether the cycle was the last one, which
is the number of the cycle one clock before.

A late copy could be wrong, and it is: behind the last sample of a cycle it still has the old
number.  It is read only with the last sample of the next cycle, which with two samples or
more in a cycle is a clock later at least.  By then it is up to date.  This is the reason for the
bound on the period, and the invariant `Counts` says just this about the copy.

The registers are described by the number of the samples that have come, and not by the clocks.
A clock without a sample leaves this number as it is, so that nothing depends on how the
samples are spread.

* `PsdCounter.posedge`: one clock of the core.
* `PsdCounter.Counts`: what holds when a number of samples has come.
* `trace_counts`: the numbers at every clock.
-/

namespace KoheronSdk

open Clocked

/-- The registers of `psd_counter`. -/
@[ext] structure PsdCounter (periodWidth nCyclesWidth : ℕ) where
  cnt : BitVec periodWidth
  cycleIndexReg : BitVec nCyclesWidth
  addr : BitVec (periodWidth + 2)
  cycleIndex : BitVec nCyclesWidth
  firstCycle : Bool
  lastCycle : Bool

namespace PsdCounter

variable {periodWidth nCyclesWidth : ℕ}

/-- `posedge clk`, with the parameters `PERIOD` and `N_CYCLES` and the input `s_axis_tvalid`. -/
def posedge (period nCycles : ℕ) (r : PsdCounter periodWidth nCyclesWidth) (tvalid : Bool) :
    PsdCounter periodWidth nCyclesWidth where
  addr := r.cnt ++ 0#2
  cycleIndex := r.cycleIndexReg
  firstCycle := decide (r.cnt.toNat < period ∧ r.cycleIndexReg.toNat = 0)
  lastCycle := decide (r.cnt.toNat < period ∧ r.cycleIndexReg.toNat = nCycles - 1)
  cnt :=
    if tvalid then if r.cnt.toNat < period - 1 then r.cnt + 1 else 0
    else r.cnt
  cycleIndexReg :=
    if tvalid then
      if r.cnt.toNat < period - 1 then r.cycleIndexReg
      else if r.cycleIndex.toNat < nCycles - 1 then r.cycleIndexReg + 1
      else 0
    else r.cycleIndexReg

/-- The registers when `k` samples have come.  The copy of the number of the cycle is late only at
the first sample of a cycle, and it is not read there. -/
structure Counts (period nCycles k : ℕ) (r : PsdCounter periodWidth nCyclesWidth) : Prop where
  cnt : r.cnt.toNat = k % period
  cycleIndexReg : r.cycleIndexReg.toNat = k / period % nCycles
  cycleIndex : 0 < r.cnt.toNat → r.cycleIndex = r.cycleIndexReg

variable {period nCycles k : ℕ} {r : PsdCounter periodWidth nCyclesWidth}

theorem toNat_add_one {w m : ℕ} {v : BitVec w} (hm : m ≤ 2 ^ w) (hv : v.toNat + 1 < m) :
    (v + 1).toNat = v.toNat + 1 := by
  have hone : (1 : BitVec w).toNat = 1 := BitVec.toNat_one (Nat.pos_of_ne_zero fun hw => by
    subst hw
    omega)
  rw [BitVec.toNat_add, hone]
  exact Nat.mod_eq_of_lt (hv.trans_le hm)

theorem succ_mod_of_lt {k m : ℕ} (h : k % m + 1 < m) : (k + 1) % m = k % m + 1 := by
  rw [Nat.add_mod, Nat.mod_eq_of_lt (by omega : 1 < m), Nat.mod_eq_of_lt h]

theorem Counts.idle (h : r.Counts period nCycles k) :
    (r.posedge period nCycles false).Counts period nCycles k where
  cnt := h.cnt
  cycleIndexReg := h.cycleIndexReg
  cycleIndex := fun _ => rfl

/-- A sample within a cycle. -/
theorem Counts.count (h : r.Counts period nCycles k) (hwidth : period ≤ 2 ^ periodWidth)
    (hlt : r.cnt.toNat < period - 1) :
    (r.posedge period nCycles true).Counts period nCycles (k + 1) := by
  have hmod : k % period + 1 < period := by
    rw [← h.cnt]
    omega
  have hcnt : (r.posedge period nCycles true).cnt = r.cnt + 1 := by
    show (if true = true then if r.cnt.toNat < period - 1 then r.cnt + 1 else 0 else r.cnt) = _
    rw [if_pos rfl, if_pos hlt]
  have hreg : (r.posedge period nCycles true).cycleIndexReg = r.cycleIndexReg := by
    show (if true = true then if r.cnt.toNat < period - 1 then r.cycleIndexReg
      else if r.cycleIndex.toNat < nCycles - 1 then r.cycleIndexReg + 1 else 0
      else r.cycleIndexReg) = _
    rw [if_pos rfl, if_pos hlt]
  have hsame : (k + 1) / period = k / period :=
    Nat.succ_div_of_not_dvd fun hdvd => by
      have hzero : (k + 1) % period = 0 := Nat.mod_eq_zero_of_dvd hdvd
      rw [succ_mod_of_lt hmod] at hzero
      exact Nat.succ_ne_zero _ hzero
  constructor
  · rw [hcnt, toNat_add_one hwidth (by omega), h.cnt, succ_mod_of_lt hmod]
  · rw [hreg, h.cycleIndexReg, hsame]
  · exact fun _ => hreg.symm

/-- The last sample of a cycle. -/
theorem Counts.wrap (h : r.Counts period nCycles k) (hperiod : 2 ≤ period)
    (hcycles : 1 ≤ nCycles) (hwidth : nCycles ≤ 2 ^ nCyclesWidth)
    (hlast : ¬ r.cnt.toNat < period - 1) :
    (r.posedge period nCycles true).Counts period nCycles (k + 1) := by
  have hmod : k % period = period - 1 := by
    have hlt := Nat.mod_lt k (by omega : 0 < period)
    rw [h.cnt] at hlast
    omega
  have hcnt : (r.posedge period nCycles true).cnt = 0 := by
    show (if true = true then if r.cnt.toNat < period - 1 then r.cnt + 1 else 0 else r.cnt) = _
    rw [if_pos rfl, if_neg hlast]
  have hdvd : period ∣ k + 1 := ⟨k / period + 1, by
    have h := Nat.div_add_mod k period
    rw [Nat.mul_succ]
    omega⟩
  -- the copy of the number of the cycle has caught up with it
  have hcopy : r.cycleIndex = r.cycleIndexReg := h.cycleIndex (by rw [h.cnt]; omega)
  have hreg : (r.posedge period nCycles true).cycleIndexReg
      = if r.cycleIndexReg.toNat < nCycles - 1 then r.cycleIndexReg + 1 else 0 := by
    show (if true = true then if r.cnt.toNat < period - 1 then r.cycleIndexReg
      else if r.cycleIndex.toNat < nCycles - 1 then r.cycleIndexReg + 1 else 0
      else r.cycleIndexReg) = _
    rw [if_pos rfl, if_neg hlast, hcopy]
  have hcycle := Nat.mod_lt (k / period) (by omega : 0 < nCycles)
  constructor
  · rw [hcnt, Nat.mod_eq_zero_of_dvd hdvd]
    exact BitVec.toNat_zero
  · rw [hreg, Nat.succ_div_of_dvd hdvd]
    have hreg' := h.cycleIndexReg
    split
    · next hlt =>
      rw [toNat_add_one hwidth (by omega), hreg', succ_mod_of_lt (by omega)]
    · next hge =>
      have hlastCycle : k / period % nCycles = nCycles - 1 := by omega
      rw [← Nat.mod_add_mod, hlastCycle, Nat.sub_add_cancel hcycles, Nat.mod_self]
      exact BitVec.toNat_zero
  · rw [hcnt]
    exact fun hpos => absurd hpos (Nat.lt_irrefl 0)

theorem Counts.posedge (h : r.Counts period nCycles k) (hperiod : 2 ≤ period)
    (hwidth : period ≤ 2 ^ periodWidth) (hcycles : 1 ≤ nCycles)
    (hcyclesWidth : nCycles ≤ 2 ^ nCyclesWidth) (tvalid : Bool) :
    (r.posedge period nCycles tvalid).Counts period nCycles (k + if tvalid then 1 else 0) := by
  cases tvalid with
  | false => exact h.idle
  | true =>
    by_cases hlt : r.cnt.toNat < period - 1
    · exact h.count hwidth hlt
    · exact h.wrap hperiod hcycles hcyclesWidth hlt

/-- **Samples and cycles are counted exactly,** whatever the registers of the outputs hold at
power-up and whenever the samples come. -/
theorem trace_counts {periodWidth nCyclesWidth period nCycles : ℕ} (hperiod : 2 ≤ period)
    (hwidth : period ≤ 2 ^ periodWidth) (hcycles : 1 ≤ nCycles)
    (hcyclesWidth : nCycles ≤ 2 ^ nCyclesWidth) (r : PsdCounter periodWidth nCyclesWidth)
    (hcnt : r.cnt = 0) (hcycle : r.cycleIndexReg = 0) (tvalid : ℕ → Bool) (n : ℕ) :
    let k := Nat.count (fun i => tvalid i = true) n
    let now := trace (posedge period nCycles) r tvalid n
    let next := trace (posedge period nCycles) r tvalid (n + 1)
    now.cnt.toNat = k % period ∧ now.cycleIndexReg.toNat = k / period % nCycles ∧
      next.addr.toNat = 4 * now.cnt.toNat ∧ next.cycleIndex = now.cycleIndexReg ∧
      (next.firstCycle = true ↔ now.cycleIndexReg.toNat = 0) ∧
      (next.lastCycle = true ↔ now.cycleIndexReg.toNat = nCycles - 1) := by
  have hinv : ∀ n, (trace (posedge period nCycles) r tvalid n).Counts period nCycles
      (Nat.count (fun i => tvalid i = true) n) := by
    intro n
    induction n with
    | zero =>
      refine ⟨?_, ?_, fun hpos => ?_⟩
      · rw [trace_zero, hcnt, Nat.count_zero, Nat.zero_mod]
        exact BitVec.toNat_zero
      · rw [trace_zero, hcycle, Nat.count_zero, Nat.zero_div, Nat.zero_mod]
        exact BitVec.toNat_zero
      · rw [trace_zero, hcnt] at hpos
        exact absurd hpos (Nat.lt_irrefl 0)
    | succ n ih =>
      rw [trace_succ, Nat.count_succ]
      exact ih.posedge hperiod hwidth hcycles hcyclesWidth (tvalid n)
  have hlt : (trace (posedge period nCycles) r tvalid n).cnt.toNat < period := by
    rw [(hinv n).cnt]
    exact Nat.mod_lt _ (by omega)
  refine ⟨(hinv n).cnt, (hinv n).cycleIndexReg, ?_, rfl, ?_, ?_⟩
  · show (_ ++ 0#2 : BitVec (periodWidth + 2)).toNat = _
    rw [BitVec.toNat_append]
    simp [Nat.shiftLeft_eq, Nat.mul_comm]
  · show decide (_ ∧ _) = true ↔ _
    rw [decide_eq_true_iff, and_iff_right hlt]
  · show decide (_ ∧ _) = true ↔ _
    rw [decide_eq_true_iff, and_iff_right hlt]

theorem trace_counts_alternate :
    let r : PsdCounter 2 1 := ⟨0, 0, 9, 1, true, true⟩
    let now := trace (posedge 3 2) r (fun i => i % 2 = 0) 7
    let next := trace (posedge 3 2) r (fun i => i % 2 = 0) 8
    now.cnt.toNat = 1 ∧ now.cycleIndexReg.toNat = 1 ∧ next.addr.toNat = 4 * now.cnt.toNat ∧
      next.cycleIndex = now.cycleIndexReg ∧
      (next.firstCycle = true ↔ now.cycleIndexReg.toNat = 0) ∧
      (next.lastCycle = true ↔ now.cycleIndexReg.toNat = 2 - 1) :=
  trace_counts (by decide) (by decide) (by decide) (by decide) _ rfl rfl _ 7

end PsdCounter

end KoheronSdk
