import KoheronSdk.Lib.Clocked

/-!
# The counter of the averager

The core `averager_counter` counts the samples of a period.  A restart is kept in `init_restart`
until the end of the period, and the next period is then written: `wen` is high for as many enabled
clocks as the period has samples.  `ready` and `init_restart` belong to one block, `wen` and the
counters to another, and only the second one waits for `clken`.

A restart is lost when the end of a period falls on a clock that is not enabled.  The first block
clears `init_restart`, since the count is at its end; the second one does not look, and does not
raise `wen`.  `ready` stays low and no data come, until there is another restart.  A restart that
comes while a sweep is written, or on the clock on which one begins, is kept, but `ready` rises at
the end of that sweep as if nothing were left to do.

`Orderly` is a condition on one clock, the registers before it and its inputs, that keeps
both from happening.  `Sound` is what holds along a run of such clocks, and from it the
handshake follows: after a restart the counter comes to its end, as long as the clock is enabled
often enough, and then the sweep takes as many enabled clocks as the period has samples.

* `AveragerCounter.posedge`: one clock of the core.
* `Orderly`: clocks that lose no restart.
* `lost_iff`: which clocks lose one.
* `keepsRestarts_of_orderly`: each restart is followed by a sweep.
-/

namespace KoheronSdk

open Clocked

/-- The registers of `averager_counter`. -/
@[ext] structure AveragerCounter (fastWidth slowWidth : ℕ) where
  ready : Bool
  wen : Bool
  nAvg : BitVec slowWidth
  slowCount : BitVec slowWidth
  clrFback : Bool
  avgOnOut : Bool
  countMaxReg : BitVec fastWidth
  clkenReg : Bool
  clkenReg' : Bool
  initRestart : Bool
  fastCount : BitVec fastWidth
  avgOnOutReg0 : Bool
  avgOnOutReg1 : Bool

namespace AveragerCounter

variable {fastWidth slowWidth : ℕ}

/-- The inputs at a clock. -/
structure Input (fastWidth : ℕ) where
  restart : Bool
  clken : Bool
  countMax : BitVec fastWidth
  avgOn : Bool
  srst : Bool

/-- `posedge clk`: the three blocks, of which each register belongs to one.  In
`count_max_reg - 2` there are 32 bits, so that it is no count if `count_max_reg` is below 2. -/
def posedge (r : AveragerCounter fastWidth slowWidth) (i : Input fastWidth) :
    AveragerCounter fastWidth slowWidth where
  initRestart :=
    if i.srst then false
    else if i.restart && r.clkenReg then true
    else if r.fastCount = r.countMaxReg then
      if r.wen then r.initRestart else if r.initRestart then false else r.initRestart
    else r.initRestart
  ready :=
    if i.srst then true
    else if i.restart && r.clkenReg then false
    else if r.fastCount = r.countMaxReg then if r.wen then true else r.ready
    else r.ready
  clrFback :=
    if r.wen ∧ r.fastCount.toNat + 2 = r.countMaxReg.toNat then !i.avgOn else r.clrFback
  avgOnOutReg0 :=
    if r.wen ∧ r.fastCount.toNat + 2 = r.countMaxReg.toNat then i.avgOn else r.avgOnOutReg0
  avgOnOutReg1 :=
    if r.wen ∧ r.fastCount.toNat + 2 = r.countMaxReg.toNat then r.avgOnOutReg0
    else r.avgOnOutReg1
  countMaxReg := if i.srst then i.countMax else r.countMaxReg
  clkenReg' := if i.srst then r.clkenReg' else i.clken
  clkenReg := if i.srst then r.clkenReg else r.clkenReg'
  fastCount :=
    if i.srst then 0
    else if r.clkenReg then if r.fastCount = r.countMaxReg then 0 else r.fastCount + 1
    else r.fastCount
  slowCount :=
    if i.srst then 0
    else if r.clkenReg then
      if r.fastCount = r.countMaxReg then if r.wen then 0 else r.slowCount + 1
      else r.slowCount
    else r.slowCount
  nAvg :=
    if i.srst then 0
    else if r.clkenReg then
      if r.fastCount = r.countMaxReg then if r.wen then r.slowCount + 1 else r.nAvg
      else r.nAvg
    else r.nAvg
  wen :=
    if i.srst then r.wen
    else if r.clkenReg then
      if r.fastCount = r.countMaxReg then
        if r.wen then false else if r.initRestart then true else r.wen
      else r.wen
    else r.wen
  avgOnOut :=
    if i.srst then r.avgOnOut
    else if r.clkenReg then
      if r.fastCount = r.countMaxReg then if r.wen then r.avgOnOutReg1 else r.avgOnOut
      else r.avgOnOut
    else r.avgOnOut

/-- `address` -/
def address (r : AveragerCounter fastWidth slowWidth) : BitVec (fastWidth + 2) := r.fastCount ++ 0#2

/-- The `initial` block.  The other registers have any value at power-up. -/
structure IsInitial (r : AveragerCounter fastWidth slowWidth) : Prop where
  initRestart : r.initRestart = false
  fastCount : r.fastCount = 0
  slowCount : r.slowCount = 0
  countMaxReg : r.countMaxReg = BitVec.allOnes fastWidth
  nAvg : r.nAvg = 0
  ready : r.ready = true
  wen : r.wen = false

/-- A restart is accepted. -/
def Accepts (r : AveragerCounter fastWidth slowWidth) (i : Input fastWidth) : Prop :=
  i.srst = false ∧ i.restart = true ∧ r.clkenReg = true

/-! ## The handshake -/

/-- From clock `a` to clock `b` a period is written, from address 0 on. -/
structure Sweep (s : ℕ → AveragerCounter fastWidth slowWidth) (a b : ℕ) : Prop where
  lt : a < b
  wen : ∀ j, a + j < b → (s (a + j)).wen = true
  address : ∀ j, a + j < b → (s (a + j)).address.toNat
    = 4 * Nat.count (fun k => (s (a + k)).clkenReg = true) j
  count : Nat.count (fun k => (s (a + k)).clkenReg = true) (b - a) = (s a).countMaxReg.toNat + 1
  ready : (s b).ready = true

/-- No restart is lost: what the handshake promises of a run. -/
structure KeepsRestarts (r : AveragerCounter fastWidth slowWidth) (inputs : ℕ → Input fastWidth) :
    Prop where
  ready : ∀ n, (trace posedge r inputs n).ready = true →
    (trace posedge r inputs n).initRestart = false
  falls : ∀ n, (inputs n).srst = false → (trace posedge r inputs n).initRestart = true →
    (trace posedge r inputs (n + 1)).initRestart = false →
    (trace posedge r inputs n).wen = false ∧ (trace posedge r inputs (n + 1)).wen = true
  sweep : ∀ n, Accepts (trace posedge r inputs n) (inputs n) →
    (∀ m, n ≤ m → (inputs m).srst = false) → (∀ m, ∃ k, m ≤ k ∧ (inputs k).clken = true) →
    ∃ a b, n < a ∧ Sweep (trace posedge r inputs) a b ∧
      (∀ m, n < m → m < a → (trace posedge r inputs m).wen = false) ∧
      ∀ m, b ≤ m → (∀ k, b ≤ k → k < m → ¬ Accepts (trace posedge r inputs k) (inputs k)) →
        (trace posedge r inputs m).wen = false

/-- A clock that loses no restart.  A restart is accepted while no sweep is written, and not on the
clock on which one begins; and when the count is at its end with a restart kept, the clock is
enabled. -/
structure Orderly (r : AveragerCounter fastWidth slowWidth) (i : Input fastWidth) : Prop where
  between : Accepts r i →
    r.wen = false ∧ (r.initRestart = true → r.fastCount ≠ r.countMaxReg)
  enabled : i.srst = false → r.initRestart = true → r.wen = false →
    r.fastCount = r.countMaxReg → r.clkenReg = true

/-! ## One clock -/

section Step

variable {r : AveragerCounter fastWidth slowWidth} {i : Input fastWidth}

theorem not_restart (hsrst : i.srst = false) (h : ¬ Accepts r i) :
    (i.restart && r.clkenReg) = false := by
  rw [Bool.and_eq_false_iff]
  by_contra hboth
  rw [not_or, Bool.not_eq_false, Bool.not_eq_false] at hboth
  exact h ⟨hsrst, hboth⟩

theorem countMaxReg_posedge (hsrst : i.srst = false) :
    (r.posedge i).countMaxReg = r.countMaxReg := by
  simp [posedge, hsrst]

theorem clkenReg_posedge (hsrst : i.srst = false) : (r.posedge i).clkenReg = r.clkenReg' := by
  simp [posedge, hsrst]

theorem clkenReg'_posedge (hsrst : i.srst = false) : (r.posedge i).clkenReg' = i.clken := by
  simp [posedge, hsrst]

/-- Within a period the counter goes on at enabled clocks. -/
theorem fastCount_posedge_of_ne (hsrst : i.srst = false) (hne : r.fastCount ≠ r.countMaxReg) :
    (r.posedge i).fastCount = if r.clkenReg then r.fastCount + 1 else r.fastCount := by
  simp [posedge, hsrst, hne]

theorem wen_posedge_of_ne (hne : r.fastCount ≠ r.countMaxReg) : (r.posedge i).wen = r.wen := by
  simp [posedge, hne]

/-- An accepted restart is kept. -/
theorem posedge_of_accepts (h : Accepts r i) (horderly : Orderly r i) :
    (r.posedge i).initRestart = true ∧ (r.posedge i).ready = false ∧
      (r.posedge i).wen = false := by
  obtain ⟨hsrst, hrestart, hclken⟩ := h
  obtain ⟨hwen, hne⟩ := horderly.between ⟨hsrst, hrestart, hclken⟩
  have hkept : (r.posedge i).initRestart = true ∧ (r.posedge i).ready = false := by
    simp [posedge, hsrst, hrestart, hclken]
  refine ⟨hkept.1, hkept.2, ?_⟩
  by_cases heq : r.fastCount = r.countMaxReg
  · have hinit : r.initRestart = false := by
      by_contra hinit
      exact hne (Bool.of_not_eq_false hinit) heq
    simp [posedge, hsrst, hclken, heq, hwen, hinit]
  · rw [wen_posedge_of_ne heq, hwen]

/-- A restart that is kept waits for the end of the period. -/
theorem posedge_of_waiting (hsrst : i.srst = false) (hinit : r.initRestart = true)
    (hwen : r.wen = false) (hready : r.ready = false) (hne : r.fastCount ≠ r.countMaxReg) :
    (r.posedge i).initRestart = true ∧ (r.posedge i).ready = false ∧
      (r.posedge i).wen = false := by
  refine ⟨?_, ?_, by rw [wen_posedge_of_ne hne, hwen]⟩
  · simp [posedge, hsrst, hne, hinit]
  · simp [posedge, hsrst, hne, hready]

/-- At the end of the period the sweep begins. -/
theorem posedge_of_begin (hsrst : i.srst = false) (hinit : r.initRestart = true)
    (hwen : r.wen = false) (heq : r.fastCount = r.countMaxReg) (horderly : Orderly r i) :
    (r.posedge i).initRestart = false ∧ (r.posedge i).wen = true ∧
      (r.posedge i).fastCount = 0 := by
  have hclken := horderly.enabled hsrst hinit hwen heq
  have hnone := not_restart hsrst fun h => (horderly.between h).2 hinit heq
  refine ⟨?_, ?_, ?_⟩
  · simp [posedge, hsrst, hnone, heq, hwen]
  · simp [posedge, hsrst, hclken, heq, hwen, hinit]
  · simp [posedge, hsrst, hclken, heq]

/-- A sweep goes on until the count is at its end on an enabled clock. -/
theorem posedge_of_sweeping (hsrst : i.srst = false) (hinit : r.initRestart = false)
    (hwen : r.wen = true) (horderly : Orderly r i)
    (hon : r.clkenReg = true → r.fastCount ≠ r.countMaxReg) :
    (r.posedge i).initRestart = false ∧ (r.posedge i).wen = true ∧
      (r.posedge i).fastCount = if r.clkenReg then r.fastCount + 1 else r.fastCount := by
  have hnone := not_restart hsrst fun h =>
    Bool.false_ne_true ((horderly.between h).1.symm.trans hwen)
  refine ⟨by simp [posedge, hsrst, hnone, hinit], ?_, ?_⟩
  · cases hclken : r.clkenReg with
    | true => rw [wen_posedge_of_ne (hon hclken), hwen]
    | false => simp [posedge, hclken, hwen]
  · cases hclken : r.clkenReg with
    | true => rw [fastCount_posedge_of_ne hsrst (hon hclken), hclken]
    | false => simp [posedge, hsrst, hclken]

/-- The last clock of a sweep. -/
theorem posedge_of_end (hsrst : i.srst = false) (hinit : r.initRestart = false)
    (hwen : r.wen = true) (horderly : Orderly r i) (hclken : r.clkenReg = true)
    (heq : r.fastCount = r.countMaxReg) :
    (r.posedge i).initRestart = false ∧ (r.posedge i).wen = false ∧ (r.posedge i).ready = true := by
  have hnone := not_restart hsrst fun h =>
    Bool.false_ne_true ((horderly.between h).1.symm.trans hwen)
  refine ⟨by simp [posedge, hsrst, hnone, hinit], ?_, ?_⟩
  · simp [posedge, hsrst, hclken, heq, hwen]
  · simp [posedge, hsrst, hnone, heq, hwen]

/-- Without a restart nothing begins. -/
theorem posedge_of_quiet (hsrst : i.srst = false) (hinit : r.initRestart = false)
    (hwen : r.wen = false) (h : ¬ Accepts r i) :
    (r.posedge i).initRestart = false ∧ (r.posedge i).wen = false := by
  have hnone := not_restart hsrst h
  constructor
  · simp [posedge, hsrst, hnone, hinit]
  · simp [posedge, hsrst, hwen, hinit]

/-- **A restart is lost** exactly if the clock is not enabled at the end of the period: the first
block drops the restart at once, the second one waits for the enable. -/
theorem lost_iff (hsrst : i.srst = false) (hinit : r.initRestart = true) (hwen : r.wen = false) :
    (r.posedge i).initRestart = false ∧ (r.posedge i).wen = false ↔
      r.fastCount = r.countMaxReg ∧ r.clkenReg = false := by
  by_cases heq : r.fastCount = r.countMaxReg
  · rw [and_iff_right heq]
    cases hclken : r.clkenReg with
    | true => simp [posedge, hsrst, heq, hclken, hinit, hwen]
    | false => simp [posedge, hsrst, heq, hclken, hinit, hwen]
  · constructor
    · rintro ⟨hfalls, -⟩
      simp [posedge, hsrst, heq, hinit] at hfalls
    · exact fun h => absurd h.1 heq

/-- What holds in every state of an orderly run: the count is within the period, and while a
restart is kept no sweep is written. -/
structure Sound (r : AveragerCounter fastWidth slowWidth) : Prop where
  le : r.fastCount.toNat ≤ r.countMaxReg.toNat
  kept : r.initRestart = true → r.wen = false ∧ r.ready = false

theorem toNat_add_one (hlt : r.fastCount.toNat < r.countMaxReg.toNat) :
    (r.fastCount + 1).toNat = r.fastCount.toNat + 1 := by
  have hmax := r.countMaxReg.isLt
  have hone : (1 : BitVec fastWidth).toNat = 1 :=
    BitVec.toNat_one (Nat.pos_of_ne_zero fun hw => by
      subst hw
      omega)
  rw [BitVec.toNat_add, hone]
  exact Nat.mod_eq_of_lt (by omega)

theorem Sound.lt (h : r.Sound) (hne : r.fastCount ≠ r.countMaxReg) :
    r.fastCount.toNat < r.countMaxReg.toNat :=
  lt_of_le_of_ne h.le fun heq => hne (BitVec.eq_of_toNat_eq heq)

theorem Sound.le_posedge (h : r.Sound) :
    (r.posedge i).fastCount.toNat ≤ (r.posedge i).countMaxReg.toNat := by
  cases hsrst : i.srst with
  | true => simp [posedge, hsrst]
  | false =>
    rw [countMaxReg_posedge hsrst]
    by_cases heq : r.fastCount = r.countMaxReg
    · have hcases : (r.posedge i).fastCount = 0 ∨ (r.posedge i).fastCount = r.fastCount := by
        cases hclken : r.clkenReg with
        | true => exact Or.inl (by simp [posedge, hsrst, hclken, heq])
        | false => exact Or.inr (by simp [posedge, hsrst, hclken])
      rcases hcases with hzero | hsame
      · rw [hzero]
        exact Nat.zero_le _
      · rw [hsame]
        exact h.le
    · rw [fastCount_posedge_of_ne hsrst heq]
      split
      · rw [toNat_add_one (h.lt heq)]
        exact h.lt heq
      · exact h.le

theorem Sound.posedge (h : r.Sound) (horderly : Orderly r i) : (r.posedge i).Sound where
  le := h.le_posedge
  kept := by
    intro hkept
    cases hsrst : i.srst with
    | true => simp [AveragerCounter.posedge, hsrst] at hkept
    | false =>
      by_cases haccepts : Accepts r i
      · obtain ⟨-, hready, hwen⟩ := posedge_of_accepts haccepts horderly
        exact ⟨hwen, hready⟩
      · -- the restart has been kept before, and the period is not at its end
        have hnone := not_restart hsrst haccepts
        have hinit : r.initRestart = true := by
          by_contra hinit
          simp [AveragerCounter.posedge, hsrst, hnone, Bool.not_eq_true _ ▸ hinit] at hkept
        obtain ⟨hwen, hready⟩ := h.kept hinit
        have hne : r.fastCount ≠ r.countMaxReg := by
          intro heq
          rw [(posedge_of_begin hsrst hinit hwen heq horderly).1] at hkept
          cases hkept
        obtain ⟨-, hready', hwen'⟩ := posedge_of_waiting hsrst hinit hwen hready hne
        exact ⟨hwen', hready'⟩

theorem sound_of_isInitial (h : r.IsInitial) : r.Sound where
  le := by
    rw [h.fastCount]
    exact Nat.zero_le _
  kept := fun hinit => by
    rw [h.initRestart] at hinit
    cases hinit

end Step

/-! ## A run -/

section Run

variable {r : AveragerCounter fastWidth slowWidth} {inputs : ℕ → Input fastWidth}

theorem sound_trace (hinitial : r.IsInitial)
    (horderly : ∀ n, Orderly (trace posedge r inputs n) (inputs n)) (n : ℕ) :
    (trace posedge r inputs n).Sound := by
  induction n with
  | zero => exact sound_of_isInitial hinitial
  | succ n ih => exact ih.posedge (horderly n)

/-- The clocks from `a` on that are enabled, before the clock `a + j`. -/
def enabledCount (r : AveragerCounter fastWidth slowWidth) (inputs : ℕ → Input fastWidth)
    (a j : ℕ) : ℕ :=
  Nat.count (fun k => (trace posedge r inputs (a + k)).clkenReg = true) j

theorem enabledCount_succ (r : AveragerCounter fastWidth slowWidth)
    (inputs : ℕ → Input fastWidth) (a j : ℕ) :
    enabledCount r inputs a (j + 1) = enabledCount r inputs a j
      + if (trace posedge r inputs (a + j)).clkenReg = true then 1 else 0 := Nat.count_succ _ _

theorem enabledCount_mono (r : AveragerCounter fastWidth slowWidth)
    (inputs : ℕ → Input fastWidth) (a : ℕ) {j k : ℕ} (h : j ≤ k) :
    enabledCount r inputs a j ≤ enabledCount r inputs a k := Nat.count_monotone _ h

theorem countMaxReg_trace {a : ℕ} (hsrst : ∀ m, a ≤ m → (inputs m).srst = false) (j : ℕ) :
    (trace posedge r inputs (a + j)).countMaxReg = (trace posedge r inputs a).countMaxReg := by
  induction j with
  | zero => rfl
  | succ j ih =>
    rw [← Nat.add_assoc, trace_succ, countMaxReg_posedge (hsrst _ (Nat.le_add_right a j)), ih]

/-- `clken_reg` is `clken`, two clocks later. -/
theorem exists_enabledCount {a : ℕ} (hsrst : ∀ m, a ≤ m → (inputs m).srst = false)
    (hclken : ∀ m, ∃ k, m ≤ k ∧ (inputs k).clken = true) (n : ℕ) :
    ∃ k, (trace posedge r inputs (a + k)).clkenReg = true ∧ enabledCount r inputs a k = n := by
  have hagain : ∀ m, ∃ k, m ≤ k ∧ (trace posedge r inputs (a + k)).clkenReg = true := by
    intro m
    obtain ⟨k, hle, hk⟩ := hclken (a + m)
    obtain ⟨j, rfl⟩ := Nat.exists_eq_add_of_le hle
    refine ⟨m + j + 2, by omega, ?_⟩
    rw [show a + (m + j + 2) = a + m + j + 1 + 1 by omega, trace_succ,
      clkenReg_posedge (hsrst _ (by omega)), trace_succ, clkenReg'_posedge (hsrst _ (by omega)), hk]
  exact exists_count_eq hagain n

/-- Until the end of the period a restart is kept. -/
theorem waiting_trace {a : ℕ} (hsrst : ∀ m, a ≤ m → (inputs m).srst = false)
    (horderly : ∀ n, Orderly (trace posedge r inputs n) (inputs n))
    (hinit : (trace posedge r inputs a).initRestart = true)
    (hready : (trace posedge r inputs a).ready = false)
    (hwen : (trace posedge r inputs a).wen = false) (j : ℕ)
    (hj : (trace posedge r inputs a).fastCount.toNat + enabledCount r inputs a j
      ≤ (trace posedge r inputs a).countMaxReg.toNat) :
    (trace posedge r inputs (a + j)).initRestart = true ∧
      (trace posedge r inputs (a + j)).ready = false ∧
      (trace posedge r inputs (a + j)).wen = false ∧
      (trace posedge r inputs (a + j)).fastCount.toNat
        = (trace posedge r inputs a).fastCount.toNat + enabledCount r inputs a j := by
  induction j with
  | zero => exact ⟨hinit, hready, hwen, rfl⟩
  | succ j ih =>
    have hmono := enabledCount_mono r inputs a (Nat.le_add_right j 1)
    obtain ⟨hinit', hready', hwen', hfast⟩ := ih (by omega)
    have hlow := hsrst (a + j) (Nat.le_add_right a j)
    have hmax := countMaxReg_trace (r := r) hsrst j
    have hsucc := enabledCount_succ r inputs a j
    -- at the end of the period the clock would be enabled, and the count one more
    have hne : (trace posedge r inputs (a + j)).fastCount
        ≠ (trace posedge r inputs (a + j)).countMaxReg := by
      intro heq
      have hon := (horderly (a + j)).enabled hlow hinit' hwen' heq
      rw [if_pos hon] at hsucc
      rw [heq, hmax] at hfast
      omega
    obtain ⟨hinit'', hready'', hwen''⟩ := posedge_of_waiting hlow hinit' hwen' hready' hne
    refine ⟨hinit'', hready'', hwen'', ?_⟩
    rw [← Nat.add_assoc, trace_succ, fastCount_posedge_of_ne hlow hne, hsucc]
    split
    · next hon =>
      rw [if_pos hon] at hsucc
      have hlt : (trace posedge r inputs (a + j)).fastCount.toNat
          < (trace posedge r inputs (a + j)).countMaxReg.toNat := by
        rw [hmax]
        omega
      rw [toNat_add_one hlt, hfast, Nat.add_assoc]
    · exact hfast

/-- A sweep, as long as it has clocks left. -/
theorem sweeping_trace {a : ℕ} (hsrst : ∀ m, a ≤ m → (inputs m).srst = false)
    (horderly : ∀ n, Orderly (trace posedge r inputs n) (inputs n))
    (hinit : (trace posedge r inputs a).initRestart = false)
    (hwen : (trace posedge r inputs a).wen = true)
    (hfast : (trace posedge r inputs a).fastCount = 0) (j : ℕ)
    (hj : enabledCount r inputs a j ≤ (trace posedge r inputs a).countMaxReg.toNat) :
    (trace posedge r inputs (a + j)).initRestart = false ∧
      (trace posedge r inputs (a + j)).wen = true ∧
      (trace posedge r inputs (a + j)).fastCount.toNat = enabledCount r inputs a j := by
  induction j with
  | zero =>
    refine ⟨hinit, hwen, ?_⟩
    rw [Nat.add_zero, hfast]
    exact BitVec.toNat_zero
  | succ j ih =>
    have hmono := enabledCount_mono r inputs a (Nat.le_add_right j 1)
    obtain ⟨hinit', hwen', hfast'⟩ := ih (by omega)
    have hlow := hsrst (a + j) (Nat.le_add_right a j)
    have hmax := countMaxReg_trace (r := r) hsrst j
    have hsucc := enabledCount_succ r inputs a j
    have hlt : (trace posedge r inputs (a + j)).clkenReg = true →
        (trace posedge r inputs (a + j)).fastCount.toNat
          < (trace posedge r inputs (a + j)).countMaxReg.toNat := by
      intro hon
      rw [if_pos hon] at hsucc
      rw [hmax, hfast']
      omega
    obtain ⟨hinit'', hwen'', hfast''⟩ := posedge_of_sweeping hlow hinit' hwen' (horderly (a + j))
      fun hon heq => (hlt hon).ne (congrArg BitVec.toNat heq)
    refine ⟨hinit'', hwen'', ?_⟩
    rw [← Nat.add_assoc, trace_succ, hfast'', hsucc]
    split
    · next hon => rw [toNat_add_one (hlt hon), hfast']
    · exact hfast'

/-- Behind a sweep, until a restart is accepted. -/
theorem quiet_trace {b : ℕ} (hsrst : ∀ m, b ≤ m → (inputs m).srst = false)
    (hinit : (trace posedge r inputs b).initRestart = false)
    (hwen : (trace posedge r inputs b).wen = false) (j : ℕ)
    (hnone : ∀ k, b ≤ k → k < b + j → ¬ Accepts (trace posedge r inputs k) (inputs k)) :
    (trace posedge r inputs (b + j)).initRestart = false ∧
      (trace posedge r inputs (b + j)).wen = false := by
  induction j with
  | zero => exact ⟨hinit, hwen⟩
  | succ j ih =>
    obtain ⟨hinit', hwen'⟩ := ih fun k hle hlt => hnone k hle (by omega)
    exact posedge_of_quiet (hsrst _ (Nat.le_add_right b j)) hinit' hwen'
      (hnone (b + j) (Nat.le_add_right b j) (by omega))

theorem toNat_address (r : AveragerCounter fastWidth slowWidth) :
    r.address.toNat = 4 * r.fastCount.toNat := by
  rw [address, BitVec.toNat_append]
  simp [Nat.shiftLeft_eq, Nat.mul_comm]

/-- A period that is written from its first clock on. -/
theorem exists_sweep {a : ℕ} (hsrst : ∀ m, a ≤ m → (inputs m).srst = false)
    (hclken : ∀ m, ∃ k, m ≤ k ∧ (inputs k).clken = true)
    (horderly : ∀ n, Orderly (trace posedge r inputs n) (inputs n))
    (hinit : (trace posedge r inputs a).initRestart = false)
    (hwen : (trace posedge r inputs a).wen = true)
    (hfast : (trace posedge r inputs a).fastCount = 0) :
    ∃ b, Sweep (trace posedge r inputs) a b ∧
      (trace posedge r inputs b).initRestart = false ∧ (trace posedge r inputs b).wen = false := by
  obtain ⟨k, hon, hcount⟩ := exists_enabledCount (r := r) hsrst hclken
    (trace posedge r inputs a).countMaxReg.toNat
  have hrun : ∀ j, j ≤ k → (trace posedge r inputs (a + j)).initRestart = false ∧
      (trace posedge r inputs (a + j)).wen = true ∧
      (trace posedge r inputs (a + j)).fastCount.toNat = enabledCount r inputs a j := fun j hj =>
    sweeping_trace hsrst horderly hinit hwen hfast j (hcount ▸ enabledCount_mono r inputs a hj)
  obtain ⟨hinit', hwen', hfast'⟩ := hrun k (Nat.le_refl k)
  have heq : (trace posedge r inputs (a + k)).fastCount
      = (trace posedge r inputs (a + k)).countMaxReg := by
    apply BitVec.eq_of_toNat_eq
    rw [hfast', hcount, countMaxReg_trace hsrst]
  obtain ⟨hinit'', hwen'', hready⟩ := posedge_of_end (hsrst _ (Nat.le_add_right a k)) hinit' hwen'
    (horderly (a + k)) hon heq
  refine ⟨a + k + 1, ⟨by omega, fun j hj => (hrun j (by omega)).2.1, fun j hj => ?_, ?_, hready⟩,
    hinit'', hwen''⟩
  · rw [toNat_address, (hrun j (by omega)).2.2]
    rfl
  · rw [show a + k + 1 - a = k + 1 by omega]
    show enabledCount r inputs a (k + 1) = _
    rw [enabledCount_succ, if_pos hon, hcount]

/-- **No restart is lost in an orderly run.** -/
theorem keepsRestarts_of_orderly (hinitial : r.IsInitial)
    (horderly : ∀ n, Orderly (trace posedge r inputs n) (inputs n)) : KeepsRestarts r inputs where
  ready := by
    intro n hready
    by_contra hinit
    have hkept := (sound_trace hinitial horderly n).kept (Bool.of_not_eq_false hinit)
    exact Bool.false_ne_true (hkept.2.symm.trans hready)
  falls := by
    intro n hsrst hinit hfalls
    obtain ⟨hwen, hready⟩ := (sound_trace hinitial horderly n).kept hinit
    have heq : (trace posedge r inputs n).fastCount = (trace posedge r inputs n).countMaxReg := by
      by_contra hne
      rw [trace_succ, (posedge_of_waiting hsrst hinit hwen hready hne).1] at hfalls
      cases hfalls
    exact ⟨hwen, (posedge_of_begin hsrst hinit hwen heq (horderly n)).2.1⟩
  sweep := by
    intro n haccepts hsrst hclken
    have hlow : ∀ a, n ≤ a → ∀ m, a ≤ m → (inputs m).srst = false := fun a ha m hm =>
      hsrst m (ha.trans hm)
    obtain ⟨hinit, hready, hwen⟩ : (trace posedge r inputs (n + 1)).initRestart = true ∧ _ ∧ _ :=
      posedge_of_accepts haccepts (horderly n)
    -- the restart waits for the end of the period
    have hle := (sound_trace hinitial horderly (n + 1)).le
    obtain ⟨k, hon, hcount⟩ := exists_enabledCount (r := r) (hlow (n + 1) (Nat.le_succ n)) hclken
      ((trace posedge r inputs (n + 1)).countMaxReg.toNat
        - (trace posedge r inputs (n + 1)).fastCount.toNat)
    have hwait := fun j (hj : j ≤ k) => waiting_trace (hlow (n + 1) (Nat.le_succ n)) horderly hinit
      hready hwen j (by
        have hmono := enabledCount_mono r inputs (n + 1) hj
        omega)
    obtain ⟨hinit', -, hwen', hfast⟩ := hwait k (Nat.le_refl k)
    have heq : (trace posedge r inputs (n + 1 + k)).fastCount
        = (trace posedge r inputs (n + 1 + k)).countMaxReg := by
      apply BitVec.eq_of_toNat_eq
      rw [hfast, hcount, countMaxReg_trace (hlow (n + 1) (Nat.le_succ n))]
      omega
    obtain ⟨hinit'', hwen'', hfast'⟩ := posedge_of_begin (hsrst _ (by omega)) hinit' hwen' heq
      (horderly (n + 1 + k))
    -- and the next one is written
    obtain ⟨b, hsweep, hinitb, hwenb⟩ := exists_sweep (hlow (n + 1 + k + 1) (by omega)) hclken
      horderly hinit'' hwen'' hfast'
    refine ⟨n + 1 + k + 1, b, by omega, hsweep, fun m hm hm' => ?_, fun m hm hnone => ?_⟩
    · obtain ⟨j, rfl⟩ := Nat.exists_eq_add_of_le hm
      exact (hwait j (by omega)).2.2.1
    · obtain ⟨j, rfl⟩ := Nat.exists_eq_add_of_le hm
      have hb := hsweep.lt
      exact (quiet_trace (hlow b (by omega)) hinitb hwenb j hnone).2

/-- Registers at power-up, for a period of two samples. -/
def powerUp : AveragerCounter 1 1 where
  ready := true
  wen := false
  nAvg := 0
  slowCount := 0
  clrFback := false
  avgOnOut := false
  countMaxReg := BitVec.allOnes 1
  clkenReg := true
  clkenReg' := true
  initRestart := false
  fastCount := 0
  avgOnOutReg0 := false
  avgOnOutReg1 := false

theorem isInitial_powerUp : powerUp.IsInitial := ⟨rfl, rfl, rfl, rfl, rfl, rfl, rfl⟩

/-- A restart at one clock, with `clken` low at another. -/
def restartAt (n low : ℕ) (k : ℕ) : Input 1 := ⟨k = n, k ≠ low, 0, false, false⟩

/-- The restart at clock 2 is accepted, and the enable is low when the period ends. -/
theorem not_forall_keepsRestarts : ¬ ∀ (fastWidth slowWidth : ℕ)
    (r : AveragerCounter fastWidth slowWidth) (inputs : ℕ → Input fastWidth),
    r.IsInitial → KeepsRestarts r inputs := by
  intro h
  have hfalls := (h 1 1 powerUp (restartAt 2 1) isInitial_powerUp).falls 3 rfl (by decide)
    (by decide)
  exact absurd hfalls.2 (by decide)

theorem keepsRestarts_powerUp :
    KeepsRestarts powerUp fun k => ⟨k = 0, true, 0, false, false⟩ := by
  apply keepsRestarts_of_orderly isInitial_powerUp
  have hclken : ∀ n, (trace posedge powerUp (fun k => ⟨k = 0, true, 0, false, false⟩) n).clkenReg
      = true ∧
      (trace posedge powerUp (fun k => ⟨k = 0, true, 0, false, false⟩) n).clkenReg' = true := by
    intro n
    induction n with
    | zero => exact ⟨rfl, rfl⟩
    | succ n ih => exact ⟨ih.2, rfl⟩
  intro n
  refine ⟨fun haccepts => ?_, fun _ _ _ _ => (hclken n).1⟩
  obtain rfl : n = 0 := of_decide_eq_true haccepts.2.1
  exact ⟨rfl, fun hinit => absurd hinit Bool.false_ne_true⟩

end Run

end AveragerCounter

end KoheronSdk
