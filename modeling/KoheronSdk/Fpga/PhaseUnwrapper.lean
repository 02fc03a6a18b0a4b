import Mathlib.Algebra.Order.Ring.Int
import Mathlib.Tactic.Linarith
import KoheronSdk.Lib.Clocked

/-!
# The phase unwrapper

The core `phase_unwrapper` takes the difference of two samples of a phase, which are reduced to one
turn, adds or subtracts a turn where the difference is more than half of one, and accumulates the
result.  Each of the three takes a clock.

All registers are bit vectors, and the arithmetic is that of the source with its extensions
of signs.  The difference has one bit more than the phase, so it never overflows, and the corrected
difference fits its register too.  The accumulator may wrap around; what is said of it is
modulo its width, and that is all that a receiver of it can use.

The statement is about a true phase, which moves by less than half a turn from one sample to the
next and of which the input is the part within a turn.  The correction then gives the true
step: of all the numbers that differ from the measured step by whole turns, it is the only one
that is less than half a turn.  The accumulator adds up these steps, so that
differences of the output are those of the phase, three clocks later.

* `PhaseUnwrapper.posedge`: one clock of the core.
* `toInt_diff_posedge`, `toInt_unwrappedDiff_posedge`: nothing overflows.
* `recovers_phase`: differences of the output are those of the true phase.
-/

namespace KoheronSdk

open Clocked

/-- The registers of `phase_unwrapper`. -/
@[ext] structure PhaseUnwrapper (dinWidth doutWidth : ℕ) where
  phaseIn0 : BitVec dinWidth
  diff : BitVec (dinWidth + 1)
  unwrappedDiff : BitVec (dinWidth + 1)
  phaseOut : BitVec doutWidth

namespace PhaseUnwrapper

variable {dinWidth doutWidth : ℕ}

/-- `PI` -/
def pi (dinWidth : ℕ) : ℤ := 2 ^ (dinWidth - 3)

/-- `TWOPI` -/
def twoPi (dinWidth : ℕ) : ℤ := 2 ^ (dinWidth - 2)

/-- The inputs at a clock. -/
structure Input (dinWidth : ℕ) where
  accOn : Bool
  rst : Bool
  phaseIn : BitVec dinWidth

/-- `posedge clk`.  The operands are signed: each is extended to the width of the assignment before
it is added or subtracted. -/
def posedge (r : PhaseUnwrapper dinWidth doutWidth) (i : Input dinWidth) :
    PhaseUnwrapper dinWidth doutWidth where
  phaseIn0 := i.phaseIn
  diff := i.phaseIn.signExtend (dinWidth + 1) - r.phaseIn0.signExtend (dinWidth + 1)
  unwrappedDiff :=
    if pi dinWidth < r.diff.toInt then r.diff - BitVec.ofInt _ (twoPi dinWidth)
    else if r.diff.toInt < -pi dinWidth then r.diff + BitVec.ofInt _ (twoPi dinWidth)
    else r.diff
  phaseOut :=
    if i.rst then 0
    else if i.accOn then r.phaseOut + r.unwrappedDiff.signExtend doutWidth
    else r.phaseOut

/-- The registers at power-up. -/
def initial : PhaseUnwrapper dinWidth doutWidth := ⟨0, 0, 0, 0⟩

/-- `freq_out` -/
def freqOut (r : PhaseUnwrapper dinWidth doutWidth) : BitVec (dinWidth + 1) := r.unwrappedDiff

/-! ## Nothing overflows -/

theorem pi_pos : 0 < pi dinWidth := pow_pos (by decide) _

theorem twoPi_eq (hwidth : 4 ≤ dinWidth) : twoPi dinWidth = 2 * pi dinWidth := by
  rw [twoPi, pi, show dinWidth - 2 = dinWidth - 3 + 1 by omega, pow_succ, mul_comm]

theorem two_pow_eq (hwidth : 4 ≤ dinWidth) : (2 : ℤ) ^ dinWidth = 8 * pi dinWidth := by
  rw [pi, show (8 : ℤ) = 2 ^ 3 by decide, ← pow_add, Nat.add_sub_cancel' (by omega)]

/-- An integer that fits into a register with a bit for the sign. -/
theorem bmod_eq {w : ℕ} {x : ℤ} (hle : -2 ^ w ≤ x) (hlt : x < 2 ^ w) :
    x.bmod (2 ^ (w + 1)) = x := by
  have hpow : ((2 ^ (w + 1) : ℕ) : ℤ) = 2 * 2 ^ w := by
    rw [Nat.pow_succ']
    push_cast
    rfl
  apply Int.bmod_eq_of_le_mul_two <;> rw [hpow] <;> omega

theorem toInt_bounds {w : ℕ} (v : BitVec (w + 1)) : -2 ^ w ≤ v.toInt ∧ v.toInt < 2 ^ w :=
  ⟨v.le_toInt, v.toInt_lt⟩

/-- The difference of two samples has a bit more than they. -/
theorem toInt_diff_posedge (hwidth : 4 ≤ dinWidth) (r : PhaseUnwrapper dinWidth doutWidth)
    (i : Input dinWidth) : (r.posedge i).diff.toInt = i.phaseIn.toInt - r.phaseIn0.toInt := by
  obtain ⟨w, rfl⟩ : ∃ w, dinWidth = w + 1 := ⟨dinWidth - 1, by omega⟩
  have hin := toInt_bounds i.phaseIn
  have hin0 := toInt_bounds r.phaseIn0
  have hpow : (2 : ℤ) ^ (w + 1) = 2 * 2 ^ w := pow_succ' 2 w
  show (BitVec.signExtend _ _ - BitVec.signExtend _ _).toInt = _
  rw [BitVec.toInt_sub, BitVec.toInt_signExtend_of_le (Nat.le_succ _),
    BitVec.toInt_signExtend_of_le (Nat.le_succ _)]
  apply bmod_eq <;> rw [hpow] <;> omega

/-- A turn is added or subtracted where the result fits. -/
theorem toInt_unwrappedDiff_posedge (hwidth : 4 ≤ dinWidth)
    (r : PhaseUnwrapper dinWidth doutWidth) (i : Input dinWidth) :
    (r.posedge i).unwrappedDiff.toInt =
      if pi dinWidth < r.diff.toInt then r.diff.toInt - twoPi dinWidth
      else if r.diff.toInt < -pi dinWidth then r.diff.toInt + twoPi dinWidth
      else r.diff.toInt := by
  have hpos : 0 < pi dinWidth := pi_pos
  have htwo := twoPi_eq hwidth
  have hpow := two_pow_eq hwidth
  have hdiff := toInt_bounds r.diff
  have hturn : (BitVec.ofInt (dinWidth + 1) (twoPi dinWidth)).toInt = twoPi dinWidth := by
    rw [BitVec.toInt_ofInt]
    apply bmod_eq <;> omega
  show (if _ then _ else if _ then _ else _ : BitVec (dinWidth + 1)).toInt = _
  split
  · rw [BitVec.toInt_sub, hturn]
    apply bmod_eq <;> omega
  · split
    · rw [BitVec.toInt_add, hturn]
      apply bmod_eq <;> omega
    · rfl

/-! ## The true phase -/

/-- `phase_in` is the true phase but for whole turns. -/
structure Presents (θ : ℕ → ℤ) (inputs : ℕ → Input dinWidth) : Prop where
  le : ∀ t, -pi dinWidth ≤ (inputs t).phaseIn.toInt
  lt : ∀ t, (inputs t).phaseIn.toInt < pi dinWidth
  dvd : ∀ t, twoPi dinWidth ∣ θ t - (inputs t).phaseIn.toInt

/-- The phase that is presented, from -PI on and below PI. -/
def reduced (dinWidth : ℕ) (phase : ℤ) : ℤ :=
  (phase + pi dinWidth) % twoPi dinWidth - pi dinWidth

theorem presents_reduced (hwidth : 4 ≤ dinWidth) (θ : ℕ → ℤ) (accOn rst : ℕ → Bool) :
    Presents θ fun t => ⟨accOn t, rst t, BitVec.ofInt dinWidth (reduced dinWidth (θ t))⟩ := by
  have hpos : 0 < pi dinWidth := pi_pos
  have htwo := twoPi_eq hwidth
  have hle : ∀ phase, -pi dinWidth ≤ reduced dinWidth phase := by
    intro phase
    have h := Int.emod_nonneg (phase + pi dinWidth) (by omega : twoPi dinWidth ≠ 0)
    rw [reduced]
    omega
  have hlt : ∀ phase, reduced dinWidth phase < pi dinWidth := by
    intro phase
    have h := Int.emod_lt_of_pos (phase + pi dinWidth) (by omega : 0 < twoPi dinWidth)
    rw [reduced]
    omega
  have hread : ∀ phase, (BitVec.ofInt dinWidth (reduced dinWidth phase)).toInt
      = reduced dinWidth phase := by
    intro phase
    have hpow := two_pow_eq hwidth
    obtain ⟨w, rfl⟩ : ∃ w, dinWidth = w + 1 := ⟨dinWidth - 1, by omega⟩
    have hphase := hle phase
    have hphase' := hlt phase
    have hhalf : (2 : ℤ) ^ (w + 1) = 2 * 2 ^ w := pow_succ' 2 w
    rw [BitVec.toInt_ofInt]
    apply bmod_eq <;> omega
  refine ⟨fun t => ?_, fun t => ?_, fun t => ?_⟩
  · rw [hread]
    exact hle _
  · rw [hread]
    exact hlt _
  · rw [hread, reduced, ← sub_add, sub_add_eq_add_sub]
    exact Int.dvd_self_sub_emod

/-- A phase that moves by the same step at every clock. -/
def ramp (step : ℤ) (t : ℕ) : Input 8 := ⟨true, false, BitVec.ofInt 8 (reduced 8 (step * t))⟩

/-- A step of less than half a turn is found from its ends on the circle. -/
theorem unwrap_eq {half step diff : ℤ} (hstep : |step| < half) (hle : -(2 * half) < diff)
    (hlt : diff < 2 * half) (hdvd : 2 * half ∣ step - diff) :
    (if half < diff then diff - 2 * half else if diff < -half then diff + 2 * half else diff)
      = step := by
  obtain ⟨hstep', hstep⟩ := abs_lt.mp hstep
  obtain ⟨k, hk⟩ := hdvd
  have hpos : 0 < half := by omega
  have hle' : -1 ≤ k := by
    by_contra hlt
    have hmul : 2 * half * k ≤ 2 * half * -2 := mul_le_mul_of_nonneg_left (by omega) (by omega)
    omega
  have hle'' : k ≤ 1 := by
    by_contra hlt
    have hmul : 2 * half * 2 ≤ 2 * half * k := mul_le_mul_of_nonneg_left (by omega) (by omega)
    omega
  obtain rfl | rfl | rfl : k = -1 ∨ k = 0 ∨ k = 1 := by omega
  · rw [if_pos (by omega)]
    omega
  · rw [if_neg (by omega), if_neg (by omega)]
    omega
  · rw [if_neg (by omega), if_pos (by omega)]
    omega

section Run

variable {r : PhaseUnwrapper dinWidth doutWidth} {inputs : ℕ → Input dinWidth} {θ : ℕ → ℤ}

/-- What the second stage has found of two samples. -/
theorem toInt_unwrappedDiff (hwidth : 4 ≤ dinWidth) (hθ : ∀ t, |θ (t + 1) - θ t| < pi dinWidth)
    (hinputs : Presents θ inputs) (t : ℕ) :
    (trace posedge r inputs (t + 3)).unwrappedDiff.toInt = θ (t + 1) - θ t := by
  have htwo := twoPi_eq hwidth
  have hdiff : (trace posedge r inputs (t + 2)).diff.toInt
      = (inputs (t + 1)).phaseIn.toInt - (inputs t).phaseIn.toInt := by
    rw [trace_succ, toInt_diff_posedge hwidth]
    rfl
  have hdvd : 2 * pi dinWidth ∣ θ (t + 1) - θ t
      - ((inputs (t + 1)).phaseIn.toInt - (inputs t).phaseIn.toInt) := by
    have h := Int.dvd_sub (hinputs.dvd (t + 1)) (hinputs.dvd t)
    rw [htwo] at h
    rwa [sub_sub_sub_comm]
  have hle := hinputs.le t
  have hle' := hinputs.le (t + 1)
  have hlt := hinputs.lt t
  have hlt' := hinputs.lt (t + 1)
  rw [trace_succ, toInt_unwrappedDiff_posedge hwidth, hdiff, htwo]
  exact unwrap_eq (hθ t) (by omega) (by omega) hdvd

/-- The output over a stretch of clocks that accumulate. -/
theorem phaseOut_add (hwidth : 4 ≤ dinWidth) (hθ : ∀ t, |θ (t + 1) - θ t| < pi dinWidth)
    (hinputs : Presents θ inputs) {t₀ k : ℕ}
    (hacc : ∀ n, t₀ + 3 ≤ n → n < t₀ + k + 3 →
      (inputs n).accOn = true ∧ (inputs n).rst = false) :
    (trace posedge r inputs (t₀ + k + 3)).phaseOut
      = (trace posedge r inputs (t₀ + 3)).phaseOut
        + BitVec.ofInt doutWidth (θ (t₀ + k) - θ t₀) := by
  induction k with
  | zero => simp
  | succ k ih =>
    obtain ⟨hon, hrst⟩ := hacc (t₀ + k + 3) (by omega) (by omega)
    have hstep : (trace posedge r inputs (t₀ + k + 3 + 1)).phaseOut
        = (trace posedge r inputs (t₀ + k + 3)).phaseOut
          + BitVec.ofInt doutWidth (θ (t₀ + k + 1) - θ (t₀ + k)) := by
      rw [← toInt_unwrappedDiff hwidth hθ hinputs (t₀ + k)]
      show (if (inputs (t₀ + k + 3)).rst = true then (0 : BitVec doutWidth)
        else if (inputs (t₀ + k + 3)).accOn = true then _ else _) = _
      rw [hrst, if_neg Bool.false_ne_true, hon, if_pos rfl]
      rfl
    have ih' := ih fun n hle hlt => hacc n hle (by omega)
    have hsum : θ (t₀ + (k + 1)) - θ t₀
        = (θ (t₀ + k) - θ t₀) + (θ (t₀ + k + 1) - θ (t₀ + k)) := by
      rw [← Nat.add_assoc]
      omega
    rw [show t₀ + (k + 1) + 3 = t₀ + k + 3 + 1 by omega, hstep, ih', hsum, BitVec.ofInt_add,
      BitVec.add_assoc]

/-- **The true phase is recovered,** from any registers on: three clocks later the output has moved
by as much as the phase, two clocks later `freq_out` is its last step, and what is assigned to the
registers on the way is what it would be without a bound on their width. -/
theorem recovers_phase (hwidth : 4 ≤ dinWidth) (r : PhaseUnwrapper dinWidth doutWidth)
    (hθ : ∀ t, |θ (t + 1) - θ t| < pi dinWidth) (hinputs : Presents θ inputs) :
    (∀ t₀ t, t₀ ≤ t → (∀ n, t₀ + 3 ≤ n → n < t + 3 →
        (inputs n).accOn = true ∧ (inputs n).rst = false) →
      (trace posedge r inputs (t + 3)).phaseOut - (trace posedge r inputs (t₀ + 3)).phaseOut
        = BitVec.ofInt doutWidth (θ t - θ t₀)) ∧
    (∀ t, (trace posedge r inputs (t + 1 + 2)).freqOut.toInt = θ (t + 1) - θ t) ∧
    ∀ n, (trace posedge r inputs (n + 1)).diff.toInt
        = (inputs n).phaseIn.toInt - (trace posedge r inputs n).phaseIn0.toInt ∧
      (trace posedge r inputs (n + 1)).unwrappedDiff.toInt =
        if pi dinWidth < (trace posedge r inputs n).diff.toInt then
          (trace posedge r inputs n).diff.toInt - twoPi dinWidth
        else if (trace posedge r inputs n).diff.toInt < -pi dinWidth then
          (trace posedge r inputs n).diff.toInt + twoPi dinWidth
        else (trace posedge r inputs n).diff.toInt := by
  refine ⟨fun t₀ t ht hacc => ?_, toInt_unwrappedDiff hwidth hθ hinputs, fun n =>
    ⟨toInt_diff_posedge hwidth _ _, toInt_unwrappedDiff_posedge hwidth _ _⟩⟩
  obtain ⟨k, rfl⟩ := Nat.exists_eq_add_of_le ht
  rw [phaseOut_add hwidth hθ hinputs hacc, BitVec.add_comm, BitVec.add_sub_cancel]

theorem recovers_phase_ramp :
    (trace posedge (initial : PhaseUnwrapper 8 16) (ramp 5) 13).phaseOut
        - (trace posedge initial (ramp 5) 3).phaseOut = BitVec.ofInt 16 50 ∧
      (trace posedge (initial : PhaseUnwrapper 8 16) (ramp 5) 9).freqOut.toInt = 5 := by
  have hwidth : 4 ≤ 8 := by decide
  have hstep : ∀ t : ℕ, 5 * ((t + 1 : ℕ) : ℤ) - 5 * (t : ℤ) = 5 := by
    intro t
    rw [← mul_sub, Nat.cast_succ, add_sub_cancel_left]
    rfl
  have hθ : ∀ t : ℕ, |5 * ((t + 1 : ℕ) : ℤ) - 5 * (t : ℤ)| < pi 8 := by
    intro t
    rw [hstep]
    decide
  have hinputs : Presents (fun t : ℕ => 5 * (t : ℤ)) (ramp 5) :=
    presents_reduced hwidth _ (fun _ => true) fun _ => false
  have h := @recovers_phase 8 16 (ramp 5) (fun t => 5 * t) hwidth initial hθ hinputs
  exact ⟨h.1 0 10 (Nat.zero_le 10) fun _ _ _ => ⟨rfl, rfl⟩, (h.2.1 6).trans (hstep 6)⟩

end Run

end PhaseUnwrapper

end KoheronSdk
