import KoheronSdk.Lib.Clocked

/-!
# The serial interface of the AT93C46D

The core `at93c46d_spi` shifts a command out to the EEPROM of the laser, and data out or in behind
it.  It latches the command at every rising edge of `start`, also in the middle of a transfer, and
the data too, but it is the input `data_in` itself that it shifts out.

## A transfer

A transfer begins at a rising edge of `start`.  What happens at a bit, whether one is sent or read
and when the transfer is over, is decided at each bit anew, by the command that was latched last.
So a second edge of `start` can make a read out of a write on the way, or end it too soon.

`Within` describes the registers in the middle of a transfer by the inputs alone: how far the
counters are, and which bit was shifted out last.  One lemma says that a clock leads from this
description to the next one, and another one what the last bit does.  Everything
about a whole transfer is read off the description.

## What was wanted

`ShiftsOut` compares what is seen on the wire with the inputs at the first clock, since this is
what the user of the core has set.  `Held` says what this comes to bit by bit: an input has
to keep a bit only until the bit is sent, and where two commands agree in it, it may
change as it likes.

* `At93c46d.posedge`: one clock of the core.
* `Within`: the registers in the middle of a transfer; `within_posedge`.
* `ShiftsOut`: what a transfer is for.
* `shiftsOut_iff`: the transfers that are as wanted.
-/

namespace KoheronSdk

open Clocked

/-- The registers of `at93c46d_spi`. -/
structure At93c46d where
  cs : Bool
  sclk : Bool
  din : Bool
  cntSclkOut : ℕ
  dataOut : BitVec 16
  startNext : Bool
  cmdReg : BitVec 8
  dataInReg : BitVec 16
  dataOutReg : BitVec 16
  cntClk : ℕ
  cntSclk : ℕ

namespace At93c46d

/-- The inputs at a clock. -/
structure Input where
  cmd : BitVec 8
  dataIn : BitVec 16
  start : Bool
  dout : Bool

/-- `cmd_reg[8-1:6] == 2'b10` -/
def isRead (cmd : BitVec 8) : Bool := cmd.toNat / 64 = 2

/-- `cmd_reg[8-1:6] == 2'b01 | cmd_reg[8-1:4] == 2'b0001` -/
def isWrite (cmd : BitVec 8) : Bool := cmd.toNat / 64 = 1 || cmd.toNat / 16 = 1

/-- The end of a transfer. -/
def finish (next : At93c46d) : At93c46d := { next with cs := false, cntSclk := 0 }

/-- `// READ mode` -/
def shiftRead (r next : At93c46d) (dout : Bool) : At93c46d :=
  if r.cntSclk = 0 then { next with din := true }
  else if 0 < r.cntSclk ∧ r.cntSclk ≤ 8 then
    { next with din := r.cmdReg.getLsbD (8 - r.cntSclk) }
  else if r.cntSclk = 9 then next
  else if 9 < r.cntSclk ∧ r.cntSclk ≤ 25 then
    { next with dataOutReg := setBit r.dataOutReg (25 - r.cntSclk) dout }
  else { finish next with dataOut := r.dataOutReg }

/-- `// WRITE or WRAL mode` -/
def shiftWrite (r next : At93c46d) (dataIn : BitVec 16) : At93c46d :=
  if r.cntSclk = 0 then { next with din := true }
  else if 0 < r.cntSclk ∧ r.cntSclk ≤ 8 then
    { next with din := r.cmdReg.getLsbD (8 - r.cntSclk) }
  else if 8 < r.cntSclk ∧ r.cntSclk ≤ 24 then
    { next with din := dataIn.getLsbD (24 - r.cntSclk) }
  else finish next

/-- `// Other modes (EWEN, ERASE, ERAL, EWDS)` -/
def shiftOther (r next : At93c46d) : At93c46d :=
  if r.cntSclk = 0 then { next with din := true }
  else if 0 < r.cntSclk ∧ r.cntSclk ≤ 8 then
    { next with din := r.cmdReg.getLsbD (8 - r.cntSclk) }
  else if r.cntSclk = 9 then next
  else if 9 < r.cntSclk ∧ r.cntSclk ≤ 25 then next
  else finish next

/-- The falling edge of `sclk`. -/
def shift (r next : At93c46d) (i : Input) : At93c46d :=
  let next := { next with
    sclk := false, cntSclkOut := r.cntSclk, cntSclk := (r.cntSclk + 1) % 2 ^ 5 }
  if isRead r.cmdReg then shiftRead r next i.dout
  else if isWrite r.cmdReg then shiftWrite r next i.dataIn
  else shiftOther r next

/-- A rising edge of `start`. -/
def latch (r next : At93c46d) (i : Input) : At93c46d :=
  if r.startNext = false ∧ i.start = true then
    { next with cs := true, dataInReg := i.dataIn, cmdReg := i.cmd }
  else next

/-- `posedge clk` -/
def posedge (r : At93c46d) (i : Input) : At93c46d :=
  let next := latch r { r with startNext := i.start } i
  if r.cs = true then
    let next := { next with cntClk := (r.cntClk + 1) % 2 ^ 7 }
    let next := if r.cntClk = 63 then shift r next i else next
    if r.cntClk = 127 then { next with sclk := true } else next
  else { next with sclk := false, cntClk := 0 }

/-! ## What the inputs of a transfer are

The transfer begins at a rising edge of `start`, the clock 0.  The bits are shifted out at the
clocks `shiftClock p`. -/

section Inputs

variable (y : ℕ → Input)

/-- The clock at which `sclk` falls for the `p`-th time. -/
def shiftClock (p : ℕ) : ℕ := 64 + 128 * p

/-- The command at the last rising edge of `start`. -/
def latched : ℕ → BitVec 8
  | 0 => (y 0).cmd
  | k + 1 => if (y k).start = false ∧ (y (k + 1)).start = true then (y (k + 1)).cmd else latched k

/-- The command when `sclk` falls for the `p`-th time. -/
def command (p : ℕ) : BitVec 8 := latched y (shiftClock p - 1)

/-- The bits that are wanted: a one, the command, and the data. -/
def wanted (p : ℕ) : Bool :=
  if p = 0 then true
  else if p ≤ 8 then (y 0).cmd.getLsbD (8 - p)
  else (y 0).dataIn.getLsbD (24 - p)

/-- How many they are. -/
def wantedBits : ℕ := if isWrite (y 0).cmd then 25 else 9

/-- The bit that is shifted out. -/
def shifted : ℕ → Bool
  | 0 => true
  | p + 1 =>
    if p < 8 then (command y (p + 1)).getLsbD (7 - p)
    else if p < 24 ∧ isWrite (command y (p + 1)) = true then
      (y (shiftClock (p + 1))).dataIn.getLsbD (23 - p)
    else shifted p

/-- A bit is read when `sclk` falls for the `p`-th time. -/
def Reads (p : ℕ) : Prop := 9 < p ∧ p ≤ 25 ∧ isRead (command y p) = true

instance (p : ℕ) : Decidable (Reads y p) := inferInstanceAs (Decidable (_ ∧ _ ∧ _))

end Inputs

/-! ## One clock -/

section Posedge

variable (r next : At93c46d) (i : Input)

theorem not_isRead_of_isWrite {cmd : BitVec 8} (h : isWrite cmd = true) : isRead cmd = false := by
  unfold isWrite at h
  unfold isRead
  simp only [Bool.or_eq_true, decide_eq_true_eq] at h
  refine decide_eq_false ?_
  omega

/-- The last bit of a transfer. -/
def lastBit (cmd : BitVec 8) : ℕ := if isWrite cmd then 24 else 25

/-- A bit behind the last one ends the transfer. -/
theorem shift_of_lastBit_lt (h : lastBit r.cmdReg < r.cntSclk) :
    shift r next i = { next with
      sclk := false, cntSclkOut := r.cntSclk, cs := false, cntSclk := 0
      dataOut := if isRead r.cmdReg then r.dataOutReg else next.dataOut } := by
  unfold lastBit at h
  unfold shift
  by_cases hwrite : isWrite r.cmdReg = true
  · rw [if_pos hwrite] at h
    rw [if_neg (by rw [not_isRead_of_isWrite hwrite]; exact Bool.false_ne_true), if_pos hwrite,
      shiftWrite, if_neg (by omega), if_neg (by omega), if_neg (by omega),
      if_neg (by rw [not_isRead_of_isWrite hwrite]; exact Bool.false_ne_true)]
    rfl
  · rw [if_neg hwrite] at h
    by_cases hread : isRead r.cmdReg = true
    · rw [if_pos hread, shiftRead, if_neg (by omega), if_neg (by omega), if_neg (by omega),
        if_neg (by omega), if_pos hread]
      rfl
    · rw [if_neg hread, if_neg hwrite, shiftOther, if_neg (by omega), if_neg (by omega),
        if_neg (by omega), if_neg (by omega), if_neg hread]
      rfl

/-- The others are shifted out, or read. -/
theorem shift_of_le_lastBit (h : r.cntSclk ≤ lastBit r.cmdReg) :
    shift r next i = { next with
      sclk := false, cntSclkOut := r.cntSclk, cntSclk := r.cntSclk + 1
      din :=
        if r.cntSclk = 0 then true
        else if r.cntSclk ≤ 8 then r.cmdReg.getLsbD (8 - r.cntSclk)
        else if r.cntSclk ≤ 24 ∧ isWrite r.cmdReg = true then
          i.dataIn.getLsbD (24 - r.cntSclk)
        else next.din
      dataOutReg :=
        if 9 < r.cntSclk ∧ r.cntSclk ≤ 25 ∧ isRead r.cmdReg = true then
          setBit r.dataOutReg (25 - r.cntSclk) i.dout
        else next.dataOutReg } := by
  have hmod : (r.cntSclk + 1) % 2 ^ 5 = r.cntSclk + 1 := by
    unfold lastBit at h
    split at h <;> omega
  unfold lastBit at h
  unfold shift
  rw [hmod]
  by_cases hwrite : isWrite r.cmdReg = true
  · rw [if_pos hwrite] at h
    have hread : ¬ isRead r.cmdReg = true := by
      rw [not_isRead_of_isWrite hwrite]
      exact Bool.false_ne_true
    rw [if_neg hread, if_pos hwrite, shiftWrite]
    split_ifs <;> first | rfl | grind
  · rw [if_neg hwrite] at h
    by_cases hread : isRead r.cmdReg = true
    · rw [if_pos hread, shiftRead]
      split_ifs <;> first | rfl | grind
    · rw [if_neg hread, if_neg hwrite, shiftOther]
      split_ifs <;> first | rfl | grind

/-- What a clock leaves of the registers but for the shifting. -/
def latchEdge : At93c46d :=
  { r with
    startNext := i.start
    cmdReg := if r.startNext = false ∧ i.start = true then i.cmd else r.cmdReg
    dataInReg := if r.startNext = false ∧ i.start = true then i.dataIn else r.dataInReg
    cntClk := (r.cntClk + 1) % 2 ^ 7 }

theorem posedge_of_cs (hcs : r.cs = true) : posedge r i =
    if r.cntClk = 63 then shift r (latchEdge r i) i
    else { latchEdge r i with sclk := if r.cntClk = 127 then true else r.sclk } := by
  have hlatch : { latch r { r with startNext := i.start } i with
      cntClk := (r.cntClk + 1) % 2 ^ 7 } = latchEdge r i := by
    unfold latch latchEdge
    split
    · rw [← hcs]
    · rfl
  unfold posedge
  simp only [if_pos hcs, hlatch]
  by_cases hshift : r.cntClk = 63
  · have hrise : ¬ r.cntClk = 127 := by omega
    simp only [if_pos hshift, if_neg hrise]
  · simp only [if_neg hshift]
    split <;> rfl

end Posedge

/-! ## In the middle of a transfer -/

section Transfer

variable {s r : At93c46d} {y : ℕ → Input} {k : ℕ}

/-- The registers `k` clocks after a transfer has begun. -/
structure Within (s : At93c46d) (y : ℕ → Input) (k : ℕ) (r : At93c46d) : Prop where
  cs : r.cs = true
  startNext : r.startNext = (y k).start
  cmdReg : r.cmdReg = latched y k
  cntClk : r.cntClk = k % 128
  cntSclk : r.cntSclk = (k + 64) / 128
  sclk : r.sclk = decide (128 ≤ k ∧ k % 128 < 64)
  din : 64 ≤ k → r.din = shifted y ((k + 64) / 128 - 1)
  dataOut : r.dataOut = s.dataOut
  dataOutReg : ∀ j < 16, r.dataOutReg.getLsbD j =
    if 25 - j < (k + 64) / 128 ∧ Reads y (25 - j) then (y (shiftClock (25 - j))).dout
    else s.dataOutReg.getLsbD j

/-- **A transfer goes on,** until the last bit has been shifted out. -/
theorem within_posedge (h : Within s y k r)
    (hbit : r.cntClk = 63 → r.cntSclk ≤ lastBit r.cmdReg) :
    Within s y (k + 1) (r.posedge (y (k + 1))) := by
  have hcmd : (if r.startNext = false ∧ (y (k + 1)).start = true then (y (k + 1)).cmd
      else r.cmdReg) = latched y (k + 1) := by
    rw [h.startNext, h.cmdReg]
    rfl
  have hclk : (r.cntClk + 1) % 2 ^ 7 = (k + 1) % 128 := by
    rw [h.cntClk]
    omega
  rw [posedge_of_cs r _ h.cs]
  by_cases hshift : r.cntClk = 63
  · -- a bit is shifted out
    have hk : k % 128 = 63 := h.cntClk ▸ hshift
    obtain ⟨p, hp⟩ : ∃ p, k = 63 + 128 * p := ⟨k / 128, by omega⟩
    have hcount : r.cntSclk = p := by
      rw [h.cntSclk]
      omega
    have hnext : (k + 1 + 64) / 128 = p + 1 := by omega
    have hcommand : r.cmdReg = command y p := by
      rw [h.cmdReg, command, shiftClock]
      exact congrArg _ (by omega)
    have hclock : k + 1 = shiftClock p := by
      rw [shiftClock]
      omega
    rw [if_pos hshift, shift_of_le_lastBit r _ _ (hbit hshift)]
    refine ⟨h.cs, rfl, hcmd, hclk, ?_, ?_, fun _ => ?_, h.dataOut, fun j hj => ?_⟩
    · show r.cntSclk + 1 = _
      rw [hcount, hnext]
    · refine (decide_eq_false ?_).symm
      omega
    · show (if r.cntSclk = 0 then true
        else if r.cntSclk ≤ 8 then r.cmdReg.getLsbD (8 - r.cntSclk)
        else if r.cntSclk ≤ 24 ∧ isWrite r.cmdReg = true then
          (y (k + 1)).dataIn.getLsbD (24 - r.cntSclk)
        else r.din) = _
      rw [hcount, hnext, Nat.add_sub_cancel, hcommand, hclock]
      cases p with
      | zero => rfl
      | succ p =>
        have hdin : r.din = shifted y p := by
          rw [h.din (by omega)]
          exact congrArg _ (by omega)
        rw [if_neg (Nat.succ_ne_zero p), shifted, hdin]
        refine ite_congr (propext (by omega)) (fun _ => congrArg _ (by omega)) fun _ => ?_
        refine ite_congr (propext (and_congr_left fun _ => by omega)) (fun _ => ?_) fun _ => rfl
        exact congrArg _ (by omega)
    · show (if 9 < r.cntSclk ∧ r.cntSclk ≤ 25 ∧ isRead r.cmdReg = true then
        setBit r.dataOutReg (25 - r.cntSclk) (y (k + 1)).dout else r.dataOutReg).getLsbD j = _
      have hold := h.dataOutReg j hj
      rw [show (k + 64) / 128 = p by omega] at hold
      rw [hcount, hnext, hcommand, hclock]
      by_cases hreads : Reads y p
      · have hreads' : 9 < p ∧ p ≤ 25 ∧ isRead (command y p) = true := hreads
        rw [if_pos hreads', getLsbD_setBit]
        by_cases hjp : j = 25 - p
        · have hpj : 25 - j = p := by omega
          rw [if_pos ⟨hjp, by omega⟩, hpj, if_pos ⟨by omega, hreads⟩]
        · rw [if_neg fun hand => hjp hand.1, hold]
          refine ite_congr (propext (and_congr_left fun _ => ?_)) (fun _ => rfl) fun _ => rfl
          omega
      · have hreads' : ¬ (9 < p ∧ p ≤ 25 ∧ isRead (command y p) = true) := hreads
        rw [if_neg hreads', hold]
        refine ite_congr (propext (and_congr_left fun hj' => ?_)) (fun _ => rfl) fun _ => rfl
        have hne : 25 - j ≠ p := fun heq => hreads (heq ▸ hj')
        omega
  · have hk : ¬ k % 128 = 63 := h.cntClk ▸ hshift
    have hsame : (k + 1 + 64) / 128 = (k + 64) / 128 := by omega
    rw [if_neg hshift]
    refine ⟨h.cs, rfl, hcmd, hclk, ?_, ?_, fun h64 => ?_, h.dataOut, ?_⟩
    · show r.cntSclk = _
      rw [hsame, h.cntSclk]
    · show (if r.cntClk = 127 then true else r.sclk) = _
      rw [h.cntClk, h.sclk]
      split
      · refine (decide_eq_true ?_).symm
        omega
      · refine decide_eq_decide.mpr ?_
        omega
    · show r.din = _
      rw [hsame]
      exact h.din (by omega)
    · rw [hsame]
      exact h.dataOutReg

/-- The registers, clock by clock, from the begin of a transfer on. -/
def transfer (s : At93c46d) (y : ℕ → Input) : ℕ → At93c46d :=
  trace posedge (s.posedge (y 0)) fun k => y (k + 1)

/-- A transfer can begin. -/
structure Begins (s : At93c46d) (y : ℕ → Input) : Prop where
  cs : s.cs = false
  cntSclk : s.cntSclk = 0
  startNext : s.startNext = false
  start : (y 0).start = true

theorem posedge_of_start {i : Input} (hcs : s.cs = false) (hnext : s.startNext = false)
    (hstart : i.start = true) : s.posedge i = { s with
      startNext := i.start, cs := true, dataInReg := i.dataIn, cmdReg := i.cmd
      sclk := false, cntClk := 0 } := by
  unfold posedge latch
  simp only [hcs, hnext, hstart, and_self, if_true, Bool.false_eq_true, if_false]

theorem within_begin (h : Begins s y) : Within s y 0 (transfer s y 0) := by
  rw [transfer, trace_zero, posedge_of_start h.cs h.startNext h.start]
  exact ⟨rfl, rfl, rfl, rfl, h.cntSclk, rfl, fun h64 => by omega, rfl, fun j _ =>
    (if_neg fun hand => Nat.not_lt_zero _ hand.1).symm⟩

/-- How many bits there are until the transfer ends. -/
def endBit (y : ℕ → Input) : ℕ := if isWrite (command y 25) then 25 else 26

theorem endBit_bounds (y : ℕ → Input) : 25 ≤ endBit y ∧ endBit y ≤ 26 := by
  unfold endBit
  split <;> decide

theorem within_transfer (h : Begins s y) (hk : k < shiftClock (endBit y)) :
    Within s y k (transfer s y k) := by
  induction k with
  | zero => exact within_begin h
  | succ k ih =>
    have hwithin := ih (Nat.lt_of_succ_lt hk)
    refine within_posedge hwithin fun hshift => ?_
    have hmod : k % 128 = 63 := hwithin.cntClk ▸ hshift
    obtain ⟨p, hp⟩ : ∃ p, k = 63 + 128 * p := ⟨k / 128, by omega⟩
    have hcount : (transfer s y k).cntSclk = p := by
      rw [hwithin.cntSclk]
      omega
    have hcommand : (transfer s y k).cmdReg = command y p := by
      rw [hwithin.cmdReg, command, shiftClock]
      exact congrArg _ (by omega)
    rw [shiftClock] at hk
    have hle : p + 1 ≤ endBit y := by omega
    show (transfer s y k).cntSclk ≤ lastBit (transfer s y k).cmdReg
    rw [hcount, hcommand, lastBit]
    unfold endBit at hle
    split
    · rename_i hwrite
      split at hle
      · omega
      · rename_i hnot
        have hne : p ≠ 25 := by
          rintro rfl
          exact hnot hwrite
        omega
    · split at hle <;> omega

/-- **The end of a transfer.** -/
theorem transfer_end (h : Begins s y) :
    (transfer s y (shiftClock (endBit y))).cs = false ∧
      (transfer s y (shiftClock (endBit y))).sclk = false ∧
      (transfer s y (shiftClock (endBit y))).cntSclk = 0 ∧
      (transfer s y (shiftClock (endBit y))).dataOut =
        if isRead (command y (endBit y)) then
          (transfer s y (shiftClock (endBit y) - 1)).dataOutReg
        else s.dataOut := by
  have hbefore : shiftClock (endBit y) = shiftClock (endBit y) - 1 + 1 := by
    rw [shiftClock]
    omega
  have hwithin := within_transfer (k := shiftClock (endBit y) - 1) h (by omega)
  have hclk : (transfer s y (shiftClock (endBit y) - 1)).cntClk = 63 := by
    rw [hwithin.cntClk, shiftClock]
    omega
  have hcount : (transfer s y (shiftClock (endBit y) - 1)).cntSclk = endBit y := by
    rw [hwithin.cntSclk, shiftClock]
    omega
  have hcommand : (transfer s y (shiftClock (endBit y) - 1)).cmdReg = command y (endBit y) :=
    hwithin.cmdReg
  have hlast : lastBit (transfer s y (shiftClock (endBit y) - 1)).cmdReg
      < (transfer s y (shiftClock (endBit y) - 1)).cntSclk := by
    rw [hcount, hcommand]
    by_cases hwrite : isWrite (command y 25) = true
    · have hend : endBit y = 25 := if_pos hwrite
      rw [hend, lastBit, if_pos hwrite]
      decide
    · have hend : endBit y = 26 := if_neg hwrite
      rw [hend, lastBit]
      split <;> decide
  have hstep : transfer s y (shiftClock (endBit y))
      = (transfer s y (shiftClock (endBit y) - 1)).posedge (y (shiftClock (endBit y))) := by
    conv_lhs => rw [hbefore]
    rw [transfer, trace_succ, ← hbefore]
  rw [hstep, posedge_of_cs _ _ hwithin.cs, if_pos hclk, shift_of_lastBit_lt _ _ _ hlast, hcommand]
  refine ⟨rfl, rfl, rfl, ?_⟩
  show (if isRead (command y (endBit y)) = true then _ else
    (transfer s y (shiftClock (endBit y) - 1)).dataOut) = _
  rw [hwithin.dataOut]

/-- The bits on `din` at the rising edges of `sclk`, as long as `cs` is high. -/
def sentBits (s : At93c46d) (y : ℕ → Input) (n : ℕ) : List Bool :=
  sampled (fun k => (transfer s y k).sclk) (fun k => (transfer s y k).din)
    (fun k => (transfer s y k).cs) n

theorem sentBits_eq (h : Begins s y) :
    sentBits s y (shiftClock (endBit y)) = (List.range (endBit y)).map (shifted y) := by
  have hedge : ∀ k < shiftClock (endBit y), ((transfer s y k).sclk = false ∧
      (transfer s y (k + 1)).sclk = true ∧ (transfer s y (k + 1)).cs = true) ↔
        (k + 1) % 128 = 0 := by
    intro k hk
    rw [(within_transfer h hk).sclk, decide_eq_false_iff_not]
    rcases Nat.lt_or_ge (k + 1) (shiftClock (endBit y)) with hlt | hge
    · rw [(within_transfer h hlt).sclk, (within_transfer h hlt).cs, decide_eq_true_eq,
        eq_self_iff_true, and_true]
      omega
    · have heq : k + 1 = shiftClock (endBit y) := Nat.le_antisymm hk hge
      rw [heq, (transfer_end h).1, (transfer_end h).2.1, shiftClock]
      refine iff_of_false (fun hand => Bool.noConfusion hand.2.1) ?_
      omega
  have hline : ∀ j, 128 * (j + 1) ≤ shiftClock (endBit y) →
      (transfer s y (128 * (j + 1))).din = shifted y j := by
    intro j hj
    have hlt : 128 * (j + 1) < shiftClock (endBit y) := by
      rw [shiftClock] at hj ⊢
      omega
    rw [(within_transfer h hlt).din (by omega)]
    exact congrArg _ (by omega)
  have hcount : shiftClock (endBit y) / 128 = endBit y := by
    rw [shiftClock]
    omega
  generalize shiftClock (endBit y) = n at hedge hline hcount ⊢
  rw [sentBits, sampled_periodic (fun k => (transfer s y k).sclk) (fun k => (transfer s y k).din)
    (fun k => (transfer s y k).cs) hedge hline le_rfl, hcount]

/-! ## As it was wanted -/

/-- What a transfer is for: the bits that were there at its begin are on `din`, and no others of a
write, what was read is in `data_out` when `cs` falls, and the counter of bits is back at 0. -/
def ShiftsOut (s : At93c46d) (y : ℕ → Input) : Prop :=
  ∃ n ≤ shiftClock 26, (∀ k < n, (transfer s y k).cs = true) ∧ (transfer s y n).cs = false ∧
    (transfer s y n).cntSclk = 0 ∧ (List.range (wantedBits y)).map (wanted y) <+: sentBits s y n ∧
    (isWrite (y 0).cmd = true → (sentBits s y n).length = wantedBits y) ∧
    (isRead (y 0).cmd = true → ∀ p, 10 ≤ p → p ≤ 25 →
      (transfer s y n).dataOut.getLsbD (25 - p) = (y (shiftClock p)).dout)

/-- The inputs hold, as far as they are used: at each bit of the command the last one that was
latched has this bit, at each bit of the data `data_in` has it (or, when the last command is no
write, it is the same as the bit before), a write ends as one, and a read goes on to its end as one
(or what is in the registers happens to be what `dout` gives). -/
structure Held (s : At93c46d) (y : ℕ → Input) : Prop where
  command : ∀ p, 1 ≤ p → p ≤ 8 → (command y p).getLsbD (8 - p) = (y 0).cmd.getLsbD (8 - p)
  data : isWrite (y 0).cmd = true → ∀ p, 9 ≤ p → p ≤ 24 →
    (if isWrite (At93c46d.command y p) then (y (shiftClock p)).dataIn.getLsbD (24 - p)
      else wanted y (p - 1)) = (y 0).dataIn.getLsbD (24 - p)
  write : isWrite (y 0).cmd = true → isWrite (At93c46d.command y 25) = true
  read : isRead (y 0).cmd = true → ∀ p, 10 ≤ p → p ≤ 25 →
    if isWrite (At93c46d.command y 25) = false ∧ isRead (At93c46d.command y 26) = true then
      isRead (At93c46d.command y p) = true ∨ s.dataOutReg.getLsbD (25 - p) = (y (shiftClock p)).dout
    else s.dataOut.getLsbD (25 - p) = (y (shiftClock p)).dout

theorem map_range_prefix {f g : ℕ → Bool} {a b : ℕ} (hab : a ≤ b) :
    (List.range a).map f <+: (List.range b).map g ↔ ∀ p < a, f p = g p := by
  rw [List.prefix_iff_eq_take, List.length_map, List.length_range, ← List.map_take,
    List.take_range, Nat.min_eq_left hab, List.map_inj_left]
  exact forall_congr' fun p => imp_congr_left List.mem_range

theorem wantedBits_le (y : ℕ → Input) : wantedBits y ≤ 25 := by
  unfold wantedBits
  split <;> decide

theorem shifted_command {p : ℕ} (hp : 1 ≤ p) (hp8 : p ≤ 8) :
    shifted y p = (command y p).getLsbD (8 - p) := by
  obtain ⟨p, rfl⟩ : ∃ q, p = q + 1 := ⟨p - 1, by omega⟩
  rw [shifted, if_pos (by omega)]
  exact congrArg _ (by omega)

theorem shifted_data {p : ℕ} (hp : 9 ≤ p) (hp24 : p ≤ 24) : shifted y p =
    if isWrite (command y p) then (y (shiftClock p)).dataIn.getLsbD (24 - p)
    else shifted y (p - 1) := by
  obtain ⟨p, rfl⟩ : ∃ q, p = q + 1 := ⟨p - 1, by omega⟩
  rw [shifted, if_neg (by omega), Nat.add_sub_cancel]
  refine ite_congr (propext (and_iff_right (by omega))) (fun _ => ?_) fun _ => rfl
  exact congrArg _ (by omega)

theorem wanted_command {p : ℕ} (hp : 1 ≤ p) (hp8 : p ≤ 8) :
    wanted y p = (y 0).cmd.getLsbD (8 - p) := by
  rw [wanted, if_neg (by omega), if_pos hp8]

theorem wanted_data {p : ℕ} (hp : 9 ≤ p) : wanted y p = (y 0).dataIn.getLsbD (24 - p) := by
  rw [wanted, if_neg (by omega), if_neg (by omega)]

/-- The bits that are shifted out are those that are wanted. -/
theorem forall_wanted_iff : (∀ p < wantedBits y, wanted y p = shifted y p) ↔
    (∀ p, 1 ≤ p → p ≤ 8 → (command y p).getLsbD (8 - p) = (y 0).cmd.getLsbD (8 - p)) ∧
    (isWrite (y 0).cmd = true → ∀ p, 9 ≤ p → p ≤ 24 →
      (if isWrite (command y p) then (y (shiftClock p)).dataIn.getLsbD (24 - p)
        else wanted y (p - 1)) = (y 0).dataIn.getLsbD (24 - p)) := by
  have hnine : 9 ≤ wantedBits y := by
    unfold wantedBits
    split <;> decide
  constructor
  · intro hall
    refine ⟨fun p hp hp8 => ?_, fun hwrite p hp hp24 => ?_⟩
    · rw [← shifted_command hp hp8, ← hall p (by omega), wanted_command hp hp8]
    · have hbits : wantedBits y = 25 := if_pos hwrite
      rw [← wanted_data hp, hall p (by omega), shifted_data hp hp24, hall (p - 1) (by omega)]
  · rintro ⟨hcommand, hdata⟩ p
    induction p with
    | zero => exact fun _ => rfl
    | succ p ih =>
      intro hp
      rcases Nat.lt_or_ge p 8 with hlt | hge
      · rw [wanted_command (by omega) hlt, shifted_command (by omega) hlt,
          hcommand _ (by omega) hlt]
      · have hwrite : isWrite (y 0).cmd = true := by
          by_contra hnot
          have hbits : wantedBits y = 9 := if_neg hnot
          omega
        have hbits : wantedBits y = 25 := if_pos hwrite
        rw [wanted_data (by omega), shifted_data (by omega) (by omega), ← hdata hwrite (p + 1)
          (by omega) (by omega), Nat.add_sub_cancel, ih (by omega)]

/-- What is in `data_out` at the end. -/
theorem dataOut_end (h : Begins s y) {p : ℕ} (hp : 10 ≤ p) (hp25 : p ≤ 25) :
    (transfer s y (shiftClock (endBit y))).dataOut.getLsbD (25 - p) =
      if isWrite (command y 25) = false ∧ isRead (command y 26) = true then
        if isRead (command y p) = true then (y (shiftClock p)).dout
        else s.dataOutReg.getLsbD (25 - p)
      else s.dataOut.getLsbD (25 - p) := by
  obtain ⟨hlow, hhigh⟩ := endBit_bounds y
  rw [(transfer_end h).2.2.2]
  by_cases hwrite : isWrite (command y 25) = true
  · have hend : endBit y = 25 := if_pos hwrite
    rw [hend, not_isRead_of_isWrite hwrite, if_neg Bool.false_ne_true, if_neg]
    rw [hwrite]
    exact fun hand => Bool.noConfusion hand.1
  · have hend : endBit y = 26 := if_neg hwrite
    have hlast := within_transfer (k := shiftClock 26 - 1) h (by rw [hend]; decide)
    rw [hend]
    by_cases hread : isRead (command y 26) = true
    · have hj : 25 - (25 - p) = p := by omega
      rw [if_pos hread, hlast.dataOutReg (25 - p) (by omega), hj]
      refine Eq.trans ?_ (if_pos ⟨eq_false_of_ne_true hwrite, hread⟩).symm
      refine ite_congr (propext ?_) (fun _ => rfl) fun _ => rfl
      have hcount : (shiftClock 26 - 1 + 64) / 128 = 26 := by decide
      rw [hcount]
      exact ⟨fun hand => hand.2.2.2, fun hr => ⟨by omega, by omega, hp25, hr⟩⟩
    · rw [if_neg hread, if_neg fun hand => hread hand.2]

/-- **A transfer is as wanted exactly if its inputs hold.** -/
theorem shiftsOut_iff_of_begins (h : Begins s y) : ShiftsOut s y ↔ Held s y := by
  obtain ⟨hlow, hhigh⟩ := endBit_bounds y
  obtain ⟨hcs, -, hcount, -⟩ := transfer_end h
  have hbefore : ∀ k < shiftClock (endBit y), (transfer s y k).cs = true := fun k hk =>
    (within_transfer h hk).cs
  have hbits : (List.range (wantedBits y)).map (wanted y) <+: sentBits s y (shiftClock (endBit y)) ↔
      ∀ p < wantedBits y, wanted y p = shifted y p := by
    rw [sentBits_eq h, map_range_prefix (Nat.le_trans (wantedBits_le y) hlow)]
  have hread : ∀ p, 10 ≤ p → p ≤ 25 →
      ((transfer s y (shiftClock (endBit y))).dataOut.getLsbD (25 - p) = (y (shiftClock p)).dout ↔
        if isWrite (command y 25) = false ∧ isRead (command y 26) = true then
          isRead (command y p) = true ∨ s.dataOutReg.getLsbD (25 - p) = (y (shiftClock p)).dout
        else s.dataOut.getLsbD (25 - p) = (y (shiftClock p)).dout) := by
    intro p hp hp25
    rw [dataOut_end h hp hp25]
    split
    · split
      · rename_i hr
        exact iff_of_true rfl (Or.inl hr)
      · rename_i hr
        exact (or_iff_right hr).symm
    · exact Iff.rfl
  have hlength : isWrite (y 0).cmd = true →
      ((sentBits s y (shiftClock (endBit y))).length = wantedBits y ↔
        isWrite (command y 25) = true) := by
    intro hwrite
    rw [sentBits_eq h, List.length_map, List.length_range, wantedBits, if_pos hwrite, endBit]
    split
    · exact iff_of_true rfl ‹_›
    · exact iff_of_false (by decide) ‹_›
  constructor
  · rintro ⟨n, -, hhighcs, hlowcs, -, hsent, hlen, hdata⟩
    have hn : n = shiftClock (endBit y) := by
      rcases Nat.lt_trichotomy n (shiftClock (endBit y)) with hlt | heq | hgt
      · rw [hbefore n hlt] at hlowcs
        cases hlowcs
      · exact heq
      · have hone := hhighcs _ hgt
        rw [hcs] at hone
        cases hone
    subst hn
    obtain ⟨hcommand, hheld⟩ := forall_wanted_iff.mp (hbits.mp hsent)
    exact ⟨hcommand, hheld, fun hwrite => (hlength hwrite).mp (hlen hwrite),
      fun hr p hp hp25 => (hread p hp hp25).mp (hdata hr p hp hp25)⟩
  · rintro ⟨hcommand, hheld, hwrite, hdata⟩
    refine ⟨shiftClock (endBit y), ?_, hbefore, hcs, hcount,
      hbits.mpr (forall_wanted_iff.mpr ⟨hcommand, hheld⟩),
      fun hw => (hlength hw).mpr (hwrite hw),
      fun hr p hp hp25 => (hread p hp hp25).mpr (hdata hr p hp hp25)⟩
    rw [shiftClock, shiftClock]
    omega

end Transfer

/-- A command and data that stay are shifted out as they are. -/
theorem shiftsOut_of_steady {s : At93c46d} {y : ℕ → Input} (h : Begins s y)
    (hcmd : ∀ k, (y k).cmd = (y 0).cmd) (hdata : ∀ k, (y k).dataIn = (y 0).dataIn) :
    ShiftsOut s y := by
  have hlatched : ∀ k, latched y k = (y 0).cmd := by
    intro k
    induction k with
    | zero => rfl
    | succ k ih => rw [latched, hcmd, ih, ite_self]
  have hcommand : ∀ p, command y p = (y 0).cmd := fun p => hlatched _
  refine (shiftsOut_iff_of_begins h).mpr ⟨fun p _ _ => ?_, fun hwrite p _ _ => ?_,
    fun hwrite => ?_, fun hread p _ _ => ?_⟩
  · rw [hcommand]
  · rw [hcommand, if_pos hwrite, hdata]
  · rwa [hcommand]
  · have hwrite : isWrite (y 0).cmd = false :=
      eq_false_of_ne_true fun hw => by
        rw [not_isRead_of_isWrite hw] at hread
        cases hread
    rw [hcommand, hcommand, hcommand, if_pos ⟨hwrite, hread⟩]
    exact Or.inl hread

/-! ## From power-up on -/

/-- The counters that have an initial value. -/
structure PowerUp (r : At93c46d) : Prop where
  cntClk : r.cntClk = 0
  cntSclk : r.cntSclk = 0

/-- A shift that leaves `cs` low leaves the counter of bits at 0. -/
theorem shift_cs {r next : At93c46d} {i : Input} (hnext : next.cs = true)
    (hcs : (shift r next i).cs = false) : (shift r next i).cntSclk = 0 := by
  rcases Nat.lt_or_ge (lastBit r.cmdReg) r.cntSclk with hlt | hge
  · rw [shift_of_lastBit_lt r next i hlt]
  · rw [shift_of_le_lastBit r next i hge] at hcs
    rw [hnext] at hcs
    cases hcs

/-- **When `cs` is low the counter of bits is at 0.** -/
theorem cntSclk_posedge {r : At93c46d} (h : r.cs = false → r.cntSclk = 0) (i : Input) :
    (r.posedge i).cs = false → (r.posedge i).cntSclk = 0 := by
  intro hcs
  by_cases hhigh : r.cs = true
  · rw [posedge_of_cs r i hhigh] at hcs ⊢
    split at hcs
    · rename_i hshift
      rw [if_pos hshift]
      exact shift_cs hhigh hcs
    · replace hcs : r.cs = false := hcs
      rw [hhigh] at hcs
      cases hcs
  · have hcount := h (eq_false_of_ne_true hhigh)
    unfold posedge latch
    rw [if_neg hhigh]
    split <;> exact hcount

theorem cntSclk_trace {r : At93c46d} (h : PowerUp r) (x : ℕ → Input) (n : ℕ) :
    (trace posedge r x n).cs = false → (trace posedge r x n).cntSclk = 0 :=
  trace_invariant (P := fun r : At93c46d => r.cs = false → r.cntSclk = 0) (fun _ => h.cntSclk)
    (fun _ i h => cntSclk_posedge h i) n

/-- **What is shifted out is what was there at the rising edge of `start`** exactly if the inputs
hold. -/
theorem shiftsOut_iff {r : At93c46d} (h : PowerUp r) (x : ℕ → Input) (n : ℕ)
    (hcs : (trace posedge r x n).cs = false) (hnext : (trace posedge r x n).startNext = false)
    (hstart : (x n).start = true) :
    ShiftsOut (trace posedge r x n) (fun k => x (n + k)) ↔
      Held (trace posedge r x n) fun k => x (n + k) :=
  shiftsOut_iff_of_begins ⟨hcs, cntSclk_trace h x n hcs, hnext, hstart⟩

/-- The registers of the examples at power-up. -/
def powerUp : At93c46d := ⟨false, false, false, 0, 0, false, 0, 0, 0, 0, 0⟩

/-- A WRITE of ones to the address 0, whose data is there only at the rising edge of `start`. -/
def writeOnce : ℕ → Input
  | 0 => ⟨0b01000000#8, 0xFFFF#16, true, false⟩
  | _ + 1 => ⟨0b01000000#8, 0#16, false, false⟩

theorem shiftsOut_writeOnce_iff :
    ShiftsOut (trace posedge powerUp writeOnce 0) (fun k => writeOnce (0 + k)) ↔
      Held (trace posedge powerUp writeOnce 0) fun k => writeOnce (0 + k) :=
  shiftsOut_iff ⟨rfl, rfl⟩ writeOnce 0 rfl rfl rfl

/-- The zeros that come behind are shifted out. -/
theorem not_forall_shiftsOut : ¬ ∀ (r : At93c46d), PowerUp r → ∀ (x : ℕ → Input) (n : ℕ),
    (trace posedge r x n).cs = false → (trace posedge r x n).startNext = false →
      (x n).start = true → ShiftsOut (trace posedge r x n) fun k => x (n + k) := by
  intro h
  have hsent := h powerUp ⟨rfl, rfl⟩ writeOnce 0 rfl rfl rfl
  have hheld := (shiftsOut_iff_of_begins ⟨rfl, rfl, rfl, rfl⟩).mp hsent
  have hlatched : ∀ k, latched (fun k => writeOnce (0 + k)) k = 0b01000000#8 := by
    intro k
    induction k with
    | zero => rfl
    | succ k ih =>
      rw [latched, if_neg, ih]
      rw [Nat.zero_add]
      exact fun hand => Bool.noConfusion hand.2
  have hbit := hheld.data (by decide) 9 (by decide) (by decide)
  rw [command, hlatched, if_pos (by decide)] at hbit
  revert hbit
  decide

end At93c46d

end KoheronSdk
