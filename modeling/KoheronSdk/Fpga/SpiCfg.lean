import Mathlib.Data.Nat.Basic
import Mathlib.Tactic.Ring
import Mathlib.Algebra.Order.Ring.Nat

/-!
# The configuration SPI

The core `spi_cfg` shifts a command's data out over SPI, most significant bit first, and is
not ready until the frame is over.  Its clock divider is a parameter.

One counter divides the clock, and another one counts the periods of `sclk` in a frame.  The
registers in the middle of a frame are therefore known from the command, the periods and the
clocks since: this is `inFrame`, and a lemma for each kind of clock says how it leads to the next
one.  The same is done for a slave, which has nothing but the pins and takes a bit whenever
`sclk` rises and one of its chip selects is low.

The inputs do not matter in these lemmas: in the middle of a frame the core does not look at them.
At its end the core is at rest again, and the slave has the frame in its list.
`Boards/SpiConfig` puts the driver before this core, and `Fpga/SpiCfgFrames` looks at it
clock by clock.

* `SpiCfg.posedge`: one clock of the core.
* `SpiSlave.observe`: what a slave sees of its pins: the bits at the rising edges of `sclk`,
  as long as one of the chip selects is low.
* `inFrame`: the registers in the middle of a frame; `posedge_inFrame`, `posedge_nextBit` and
  `posedge_lastPeriod`: how they go on.
* `SpiSlave.pins_inFrame`, ..., `SpiSlave.pins_end`: and what is seen of them.
-/

namespace KoheronSdk

/-- The registers of `spi_cfg`, with a clock divider of `clkDiv` bits and `nSlaves` chip
selects. -/
@[ext] structure SpiCfg (clkDiv nSlaves : ℕ) where
  cs : BitVec nSlaves
  sclk : Bool
  sdi : Bool
  sAxisTready : Bool
  dataReg : BitVec 32
  cmdReg : BitVec 8
  cntClk : ℕ
  cntSclk : ℕ
  sclkReg : Bool
  endSequence : Bool

namespace SpiCfg

variable {clkDiv nSlaves : ℕ}

/-- `cmd_reg[3:2]` -/
def lengthField (cmdReg : BitVec 8) : ℕ := cmdReg.toNat / 4 % 4

/-- `cs[cmd[1:0]] <= 0` -/
def select (cs : BitVec nSlaves) (cmd : BitVec 8) : BitVec nSlaves :=
  cs &&& ~~~((1 : BitVec nSlaves) <<< (cmd.toNat % 4))

/-- `sdi <= data_reg[31 - cnt_sclk]`, and the end of the sequence at the last bit of a byte. -/
def shiftBit (r next : SpiCfg clkDiv nSlaves) (last : Bool) : SpiCfg clkDiv nSlaves :=
  { next with
    sdi := r.dataReg.getLsbD (31 - r.cntSclk)
    endSequence := if last then true else next.endSequence }

/-- `cnt_clk <= cnt_clk + 1` -/
def tick (r : SpiCfg clkDiv nSlaves) : SpiCfg clkDiv nSlaves :=
  { r with cntClk := (r.cntClk + 1) % 2 ^ clkDiv }

/-- `// spi clock posedge` -/
def spiPosedge (r : SpiCfg clkDiv nSlaves) : SpiCfg clkDiv nSlaves :=
  let next :=
    { r.tick with cntSclk := (r.cntSclk + 1) % 64, sclkReg := true, sclk := r.sclkReg }
  if r.endSequence = false then
    if r.cntSclk < 8 then shiftBit r next (r.cntSclk = 7 ∧ lengthField r.cmdReg = 0)
    else if 8 ≤ r.cntSclk ∧ r.cntSclk < 16 then
      shiftBit r next (r.cntSclk = 15 ∧ lengthField r.cmdReg = 1)
    else if 16 ≤ r.cntSclk ∧ r.cntSclk < 24 then
      shiftBit r next (r.cntSclk = 23 ∧ lengthField r.cmdReg = 2)
    else if 24 ≤ r.cntSclk ∧ r.cntSclk < 32 then
      shiftBit r next (r.cntSclk = 31)
    else next
  else
    { next with
      sdi := false, sclkReg := false, cs := BitVec.allOnes nSlaves, sAxisTready := true,
      endSequence := false }

/-- `// spi clock negedge` -/
def spiNegedge (r : SpiCfg clkDiv nSlaves) : SpiCfg clkDiv nSlaves :=
  { r.tick with sclkReg := false, sclk := r.sclkReg }

/-- A command is taken. -/
def accept (r : SpiCfg clkDiv nSlaves) (sAxisTdata : BitVec 32) (cmd : BitVec 8) :
    SpiCfg clkDiv nSlaves :=
  { r with
    cs := select r.cs cmd, sAxisTready := false, cmdReg := cmd, dataReg := sAxisTdata,
    cntClk := 0, cntSclk := 0, sclkReg := false, sclk := false }

/-- `posedge aclk`.  All registers get values computed from those before the edge. -/
def posedge (r : SpiCfg clkDiv nSlaves) (sAxisTdata : BitVec 32) (sAxisTvalid : Bool)
    (cmd : BitVec 8) : SpiCfg clkDiv nSlaves :=
  if r.sAxisTready = false then
    if r.cntClk = 2 ^ clkDiv - 1 then r.spiPosedge
    else if r.cntClk = 2 ^ (clkDiv - 1) - 1 then r.spiNegedge
    else r.tick
  else if sAxisTvalid = true ∧ r.sAxisTready = true then r.accept sAxisTdata cmd
  else r.tick

/-- The core does nothing, and has raised all chip selects. -/
structure Idle (r : SpiCfg clkDiv nSlaves) : Prop where
  ready : r.sAxisTready = true
  deselected : r.cs = BitVec.allOnes nSlaves
  endSequence : r.endSequence = false

end SpiCfg

/-! ## What the slaves see -/

/-- A frame: the chip selects while it went on, and its bits. -/
structure SpiFrame (nSlaves : ℕ) where
  cs : BitVec nSlaves
  bits : List Bool
  deriving DecidableEq

/-- What has been seen on the bus. -/
structure SpiSlave (nSlaves : ℕ) where
  sclk : Bool
  current : Option (SpiFrame nSlaves)
  frames : List (SpiFrame nSlaves)

namespace SpiSlave

variable {nSlaves : ℕ}

/-- The pins after a clock of the core. -/
def observe (o : SpiSlave nSlaves) (cs : BitVec nSlaves) (sclk sdi : Bool) : SpiSlave nSlaves :=
  if cs = BitVec.allOnes nSlaves then ⟨sclk, none, o.frames ++ o.current.toList⟩
  else
    let frame := o.current.getD ⟨cs, []⟩
    let bits := if o.sclk = false ∧ sclk = true then frame.bits ++ [sdi] else frame.bits
    ⟨sclk, some ⟨frame.cs, bits⟩, o.frames⟩

end SpiSlave

/-! ## In the middle of a frame -/

namespace SpiCfg

variable {clkDiv nSlaves : ℕ}

/-- The clocks of a frame with `n` bits: a period of `sclk` for each, and one more. -/
def frameClocks (clkDiv n : ℕ) : ℕ := 2 ^ clkDiv * (n + 1)

/-- The bits of a command. -/
def frameBits (cmdReg : BitVec 8) : ℕ := 8 * (lengthField cmdReg + 1)

variable (clkDiv) in
/-- The registers `k` periods of `sclk` and `c` clocks after the command was taken; `sdi` is
what the pin was before. -/
def inFrame (cs : BitVec nSlaves) (dataReg : BitVec 32) (cmdReg : BitVec 8) (sdi : Bool)
    (k c : ℕ) : SpiCfg clkDiv nSlaves where
  cs := cs
  sclk := decide (1 ≤ k ∧ 2 ^ (clkDiv - 1) ≤ c)
  sdi := if k = 0 then sdi else dataReg.getLsbD (32 - k)
  sAxisTready := false
  dataReg := dataReg
  cmdReg := cmdReg
  cntClk := c
  cntSclk := k
  sclkReg := decide (1 ≤ k ∧ c < 2 ^ (clkDiv - 1))
  endSequence := decide (frameBits cmdReg ≤ k)

theorem frameBits_le (cmdReg : BitVec 8) : frameBits cmdReg ≤ 32 := by
  rw [frameBits, lengthField]
  omega

/-- The four branches for the bytes are one. -/
theorem shiftBit_eq (r next : SpiCfg clkDiv nSlaves) (h : r.cntSclk < frameBits r.cmdReg) :
    (if r.cntSclk < 8 then shiftBit r next (r.cntSclk = 7 ∧ lengthField r.cmdReg = 0)
      else if 8 ≤ r.cntSclk ∧ r.cntSclk < 16 then
        shiftBit r next (r.cntSclk = 15 ∧ lengthField r.cmdReg = 1)
      else if 16 ≤ r.cntSclk ∧ r.cntSclk < 24 then
        shiftBit r next (r.cntSclk = 23 ∧ lengthField r.cmdReg = 2)
      else if 24 ≤ r.cntSclk ∧ r.cntSclk < 32 then
        shiftBit r next (r.cntSclk = 31)
      else next)
    = shiftBit r next (frameBits r.cmdReg = r.cntSclk + 1) := by
  have hfield : lengthField r.cmdReg < 4 := Nat.mod_lt _ (by decide)
  rw [frameBits] at h ⊢
  split_ifs
  · refine congrArg (shiftBit r next) (decide_eq_decide.mpr ?_)
    omega
  · refine congrArg (shiftBit r next) (decide_eq_decide.mpr ?_)
    omega
  · refine congrArg (shiftBit r next) (decide_eq_decide.mpr ?_)
    omega
  · refine congrArg (shiftBit r next) (decide_eq_decide.mpr ?_)
    omega
  · omega

section InFrame

variable {cs : BitVec nSlaves} {dataReg : BitVec 32} {cmdReg : BitVec 8}
  {sdi : Bool} {k c : ℕ} (tdata : BitVec 32) (tvalid : Bool) (cmd : BitVec 8)

/-- A clock within a period. -/
theorem posedge_inFrame (hc : c + 1 < 2 ^ clkDiv) :
    (inFrame clkDiv cs dataReg cmdReg sdi k c).posedge tdata tvalid cmd
      = inFrame clkDiv cs dataReg cmdReg sdi k (c + 1) := by
  have hbusy : (inFrame clkDiv cs dataReg cmdReg sdi k c).sAxisTready = false := rfl
  have hlast : ¬ (inFrame clkDiv cs dataReg cmdReg sdi k c).cntClk = 2 ^ clkDiv - 1 := by
    show ¬ c = _
    omega
  have hcnt : (c + 1) % 2 ^ clkDiv = c + 1 := Nat.mod_eq_of_lt hc
  rw [posedge, if_pos hbusy, if_neg hlast]
  split
  · rename_i hhalf
    have hhalf' : c = 2 ^ (clkDiv - 1) - 1 := hhalf
    have hpos : 0 < 2 ^ (clkDiv - 1) := Nat.two_pow_pos _
    refine SpiCfg.ext rfl ?_ rfl rfl rfl rfl hcnt rfl ?_ rfl
    · refine decide_eq_decide.mpr ?_
      omega
    · refine (decide_eq_false_iff_not.mpr ?_).symm
      omega
  · rename_i hhalf
    have hhalf' : ¬ c = 2 ^ (clkDiv - 1) - 1 := hhalf
    refine SpiCfg.ext rfl ?_ rfl rfl rfl rfl hcnt rfl ?_ rfl
    · refine decide_eq_decide.mpr ?_
      omega
    · refine decide_eq_decide.mpr ?_
      omega

theorem posedge_endOfPeriod :
    (inFrame clkDiv cs dataReg cmdReg sdi k (2 ^ clkDiv - 1)).posedge tdata tvalid cmd
      = (inFrame clkDiv cs dataReg cmdReg sdi k (2 ^ clkDiv - 1)).spiPosedge := by
  have hbusy : (inFrame clkDiv cs dataReg cmdReg sdi k (2 ^ clkDiv - 1)).sAxisTready = false := rfl
  have hlast : (inFrame clkDiv cs dataReg cmdReg sdi k (2 ^ clkDiv - 1)).cntClk
      = 2 ^ clkDiv - 1 := rfl
  rw [posedge, if_pos hbusy, if_pos hlast]

/-- Both halves of a period have the same length. -/
theorem two_pow_clkDiv (hdiv : 0 < clkDiv) : 2 ^ clkDiv = 2 * 2 ^ (clkDiv - 1) := by
  rw [← Nat.pow_succ', Nat.succ_eq_add_one, Nat.sub_add_cancel hdiv]

/-- At the end of a period `sclk` is about to fall. -/
theorem inFrame_sclkReg_endOfPeriod (hdiv : 0 < clkDiv) :
    (inFrame clkDiv cs dataReg cmdReg sdi k (2 ^ clkDiv - 1)).sclkReg = false := by
  have hhalf := two_pow_clkDiv hdiv
  have hpos : 0 < 2 ^ (clkDiv - 1) := Nat.two_pow_pos _
  refine decide_eq_false_iff_not.mpr ?_
  omega

/-- The end of a period with bits left: the next one is shifted out. -/
theorem posedge_nextBit (hdiv : 0 < clkDiv) (hk : k < frameBits cmdReg) :
    (inFrame clkDiv cs dataReg cmdReg sdi k (2 ^ clkDiv - 1)).posedge tdata tvalid cmd
      = inFrame clkDiv cs dataReg cmdReg sdi (k + 1) 0 := by
  have hend : (inFrame clkDiv cs dataReg cmdReg sdi k (2 ^ clkDiv - 1)).endSequence = false :=
    decide_eq_false_iff_not.mpr (Nat.not_le.mpr hk)
  have hbits := frameBits_le cmdReg
  have hpos : 0 < 2 ^ (clkDiv - 1) := Nat.two_pow_pos _
  rw [posedge_endOfPeriod, spiPosedge, if_pos hend, shiftBit_eq _ _ hk]
  refine SpiCfg.ext rfl ?_ ?_ rfl rfl rfl ?_ ?_ ?_ ?_
  · show (inFrame clkDiv cs dataReg cmdReg sdi k (2 ^ clkDiv - 1)).sclkReg = _
    rw [inFrame_sclkReg_endOfPeriod hdiv]
    refine (decide_eq_false_iff_not.mpr ?_).symm
    omega
  · show dataReg.getLsbD (31 - k) = if k + 1 = 0 then sdi else dataReg.getLsbD (32 - (k + 1))
    rw [if_neg (Nat.succ_ne_zero k), Nat.add_comm k 1, Nat.sub_add_eq]
  · show (2 ^ clkDiv - 1 + 1) % 2 ^ clkDiv = 0
    rw [Nat.sub_add_cancel (Nat.two_pow_pos _), Nat.mod_self]
  · show (k + 1) % 64 = k + 1
    omega
  · refine (decide_eq_true ?_).symm
    omega
  · show (if decide (frameBits cmdReg = k + 1) = true then true
      else (inFrame clkDiv cs dataReg cmdReg sdi k (2 ^ clkDiv - 1)).endSequence) = decide _
    rw [hend]
    by_cases hlast : frameBits cmdReg = k + 1
    · rw [if_pos (decide_eq_true hlast), decide_eq_true hlast.le]
    · rw [if_neg (by simpa using hlast), decide_eq_false (by omega)]

/-- The end of the last period: the core is ready again. -/
theorem posedge_lastPeriod :
    ((inFrame clkDiv cs dataReg cmdReg sdi (frameBits cmdReg) (2 ^ clkDiv - 1)).posedge
      tdata tvalid cmd).Idle := by
  have hend : ¬ (inFrame clkDiv cs dataReg cmdReg sdi (frameBits cmdReg)
      (2 ^ clkDiv - 1)).endSequence = false := by
    show ¬ decide (frameBits cmdReg ≤ frameBits cmdReg) = false
    rw [decide_eq_true le_rfl]
    exact Bool.true_eq_false_eq_False
  rw [posedge_endOfPeriod, spiPosedge, if_neg hend]
  exact ⟨rfl, rfl, rfl⟩

/-- A command is taken by an idle core. -/
theorem posedge_accept {r : SpiCfg clkDiv nSlaves} (h : r.Idle) :
    r.posedge tdata true cmd
      = inFrame clkDiv (select (BitVec.allOnes nSlaves) cmd) tdata cmd r.sdi 0 0 := by
  have hbusy : ¬ r.sAxisTready = false := by rw [h.ready]; exact Bool.true_eq_false_eq_False
  rw [posedge, if_neg hbusy, if_pos ⟨rfl, h.ready⟩, accept, h.deselected]
  refine SpiCfg.ext rfl rfl rfl rfl rfl rfl rfl rfl rfl ?_
  have hend : ¬ frameBits cmd ≤ 0 := by
    rw [frameBits]
    omega
  exact h.endSequence.trans (decide_eq_false hend).symm

/-- Otherwise it stays idle. -/
theorem posedge_idle {r : SpiCfg clkDiv nSlaves} (h : r.Idle) :
    (r.posedge tdata false cmd).Idle := by
  have hbusy : ¬ r.sAxisTready = false := by rw [h.ready]; exact Bool.true_eq_false_eq_False
  rw [posedge, if_neg hbusy, if_neg fun htvalid => Bool.noConfusion htvalid.1]
  exact ⟨h.ready, h.deselected, h.endSequence⟩

end InFrame

end SpiCfg

/-! ### From the outside -/

namespace SpiSlave

open SpiCfg

variable {clkDiv nSlaves : ℕ}

/-- The pins of the core. -/
def pins (o : SpiSlave nSlaves) (r : SpiCfg clkDiv nSlaves) : SpiSlave nSlaves :=
  o.observe r.cs r.sclk r.sdi

/-- The first `n` bits of a command's data. -/
def firstBits (dataReg : BitVec 32) (n : ℕ) : List Bool :=
  (List.range n).map fun i => dataReg.getLsbD (31 - i)

theorem firstBits_succ (dataReg : BitVec 32) (n : ℕ) :
    firstBits dataReg (n + 1) = firstBits dataReg n ++ [dataReg.getLsbD (31 - n)] := by
  rw [firstBits, List.range_succ, List.map_append]
  rfl

variable (clkDiv) in
/-- What has been seen when the core is `k` periods and `c` clocks into a frame. -/
def inFrame (cs : BitVec nSlaves) (dataReg : BitVec 32) (frames : List (SpiFrame nSlaves))
    (k c : ℕ) : SpiSlave nSlaves where
  sclk := decide (1 ≤ k ∧ 2 ^ (clkDiv - 1) ≤ c)
  current := some ⟨cs, firstBits dataReg (if 2 ^ (clkDiv - 1) ≤ c then k else k - 1)⟩
  frames := frames

variable {cs : BitVec nSlaves} {dataReg : BitVec 32} {cmdReg : BitVec 8} {sdi : Bool} {k c : ℕ}
  {frames : List (SpiFrame nSlaves)}

/-! The pins and what has been seen, by the halves of a period. -/

theorem sclk_low (hc : c < 2 ^ (clkDiv - 1)) :
    (SpiCfg.inFrame clkDiv cs dataReg cmdReg sdi k c).sclk = false :=
  decide_eq_false fun h => absurd h.2 (Nat.not_le.mpr hc)

theorem sclk_high (hk : 1 ≤ k) (hc : 2 ^ (clkDiv - 1) ≤ c) :
    (SpiCfg.inFrame clkDiv cs dataReg cmdReg sdi k c).sclk = true :=
  decide_eq_true ⟨hk, hc⟩

theorem sclk_first : (SpiCfg.inFrame clkDiv cs dataReg cmdReg sdi 0 c).sclk = false := by
  show decide (1 ≤ 0 ∧ 2 ^ (clkDiv - 1) ≤ c) = false
  exact decide_eq_false fun h => absurd h.1 (Nat.not_succ_le_zero 0)

theorem inFrame_low (hc : c < 2 ^ (clkDiv - 1)) :
    inFrame clkDiv cs dataReg frames k c
      = ⟨false, some ⟨cs, firstBits dataReg (k - 1)⟩, frames⟩ := by
  rw [inFrame, if_neg (Nat.not_le.mpr hc), decide_eq_false fun h => absurd h.2 (Nat.not_le.mpr hc)]

theorem inFrame_high (hk : 1 ≤ k) (hc : 2 ^ (clkDiv - 1) ≤ c) :
    inFrame clkDiv cs dataReg frames k c = ⟨true, some ⟨cs, firstBits dataReg k⟩, frames⟩ := by
  rw [inFrame, if_pos hc, decide_eq_true ⟨hk, hc⟩]

theorem inFrame_first :
    inFrame clkDiv cs dataReg frames 0 c = ⟨false, some ⟨cs, []⟩, frames⟩ := by
  rw [inFrame, decide_eq_false fun h => absurd h.1 (Nat.not_succ_le_zero 0), Nat.zero_sub, ite_self]
  rfl

/-- A bit is seen when `sclk` rises. -/
theorem observe_rise (hcs : cs ≠ BitVec.allOnes nSlaves) (frame : SpiFrame nSlaves) (sdi : Bool) :
    (⟨false, some frame, frames⟩ : SpiSlave nSlaves).observe cs true sdi
      = ⟨true, some ⟨frame.cs, frame.bits ++ [sdi]⟩, frames⟩ := by
  rw [observe, if_neg hcs]
  rfl

theorem observe_noRise (hcs : cs ≠ BitVec.allOnes nSlaves) (frame : SpiFrame nSlaves)
    {sclk sclk' : Bool} (hsclk : ¬ (sclk = false ∧ sclk' = true)) (sdi : Bool) :
    (⟨sclk, some frame, frames⟩ : SpiSlave nSlaves).observe cs sclk' sdi
      = ⟨sclk', some frame, frames⟩ := by
  rw [observe, if_neg hcs]
  dsimp only [Option.getD_some]
  rw [if_neg hsclk]

/-- A clock within a period. -/
theorem pins_inFrame (hcs : cs ≠ BitVec.allOnes nSlaves) (hk : k ≤ 32) :
    (inFrame clkDiv cs dataReg frames k c).pins
        (SpiCfg.inFrame clkDiv cs dataReg cmdReg sdi k (c + 1))
      = inFrame clkDiv cs dataReg frames k (c + 1) := by
  rcases Nat.eq_zero_or_pos k with rfl | hk1
  · rw [pins, sclk_first, inFrame_first, inFrame_first]
    exact observe_noRise hcs _ (fun h => Bool.noConfusion h.2) _
  · rcases Nat.lt_trichotomy (c + 1) (2 ^ (clkDiv - 1)) with hlow | hrise | hhigh
    · rw [pins, sclk_low hlow, inFrame_low hlow, inFrame_low (Nat.lt_of_succ_lt hlow)]
      exact observe_noRise hcs _ (fun h => Bool.noConfusion h.2) _
    · have hsdi : (SpiCfg.inFrame clkDiv cs dataReg cmdReg sdi k (c + 1)).sdi
          = dataReg.getLsbD (31 - (k - 1)) := by
        show (if k = 0 then sdi else dataReg.getLsbD (32 - k)) = _
        rw [if_neg hk1.ne', show 32 - k = 31 - (k - 1) by omega]
      rw [pins, sclk_high hk1 hrise.ge, inFrame_high hk1 hrise.ge,
        inFrame_low (by omega : c < 2 ^ (clkDiv - 1)), hsdi]
      refine (observe_rise hcs _ _).trans ?_
      rw [← firstBits_succ, Nat.sub_add_cancel hk1]
    · rw [pins, sclk_high hk1 hhigh.le, inFrame_high hk1 hhigh.le,
        inFrame_high hk1 (Nat.lt_succ_iff.mp hhigh)]
      exact observe_noRise hcs _ (fun h => Bool.noConfusion h.1) _

/-- The next period begins. -/
theorem pins_nextBit (hdiv : 0 < clkDiv) (hcs : cs ≠ BitVec.allOnes nSlaves) :
    (inFrame clkDiv cs dataReg frames k (2 ^ clkDiv - 1)).pins
        (SpiCfg.inFrame clkDiv cs dataReg cmdReg sdi (k + 1) 0)
      = inFrame clkDiv cs dataReg frames (k + 1) 0 := by
  have hhalf := two_pow_clkDiv hdiv
  have hpos : 0 < 2 ^ (clkDiv - 1) := Nat.two_pow_pos _
  rw [pins, sclk_low hpos, inFrame_low hpos, Nat.add_sub_cancel]
  rcases Nat.eq_zero_or_pos k with rfl | hk1
  · rw [inFrame_first]
    exact observe_noRise hcs _ (fun h => Bool.noConfusion h.2) _
  · rw [inFrame_high hk1 (by omega)]
    exact observe_noRise hcs _ (fun h => Bool.noConfusion h.2) _

/-- A frame begins. -/
theorem pins_accept {o : SpiSlave nSlaves} (ho : o.current = none)
    (hcs : cs ≠ BitVec.allOnes nSlaves) :
    o.pins (SpiCfg.inFrame clkDiv cs dataReg cmdReg sdi 0 0)
      = inFrame clkDiv cs dataReg o.frames 0 0 := by
  have hhigh : (SpiCfg.inFrame clkDiv cs dataReg cmdReg sdi 0 0).cs ≠ BitVec.allOnes nSlaves := hcs
  rw [pins, sclk_first, inFrame_first, observe, if_neg hhigh, ho]
  dsimp only [Option.getD_none]
  rw [if_neg fun h => Bool.noConfusion h.2]
  rfl

/-- A frame ends, with as many bits as there have been periods. -/
theorem pins_end (hdiv : 0 < clkDiv) (hk : 1 ≤ k) {r : SpiCfg clkDiv nSlaves} (hr : r.Idle) :
    (inFrame clkDiv cs dataReg frames k (2 ^ clkDiv - 1)).pins r
      = ⟨r.sclk, none, frames ++ [⟨cs, firstBits dataReg k⟩]⟩ := by
  have hhalf := two_pow_clkDiv hdiv
  have hpos : 0 < 2 ^ (clkDiv - 1) := Nat.two_pow_pos _
  rw [inFrame_high hk (by omega), pins, observe, if_pos hr.deselected]
  rfl

/-- Nothing is seen of an idle core. -/
theorem pins_idle {o : SpiSlave nSlaves} (ho : o.current = none) {r : SpiCfg clkDiv nSlaves}
    (hr : r.Idle) : o.pins r = ⟨r.sclk, none, o.frames⟩ := by
  rw [pins, observe, if_pos hr.deselected, ho, Option.toList_none, List.append_nil]

/-- A frame that begins does not end another one. -/
theorem frames_pins {o : SpiSlave nSlaves} (ho : o.current = none) (r : SpiCfg clkDiv nSlaves) :
    (o.pins r).frames = o.frames := by
  rw [pins, observe, ho]
  split
  · exact List.append_nil _
  · rfl

end SpiSlave
end KoheronSdk
