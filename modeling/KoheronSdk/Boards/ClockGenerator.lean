import Mathlib.Algebra.Order.Ring.Rat
import Mathlib.Tactic.NormNum
import KoheronSdk.Lib.Transition

/-!
# Configuring the clock generator

`ClockGenerator::configure` programs the dividers and the reference clock of the chip.  It
takes over its arguments and the frequencies they give while it is still checking them, and the
setters skip what is taken over already.

## Two records of one configuration

The fields of the driver are what the getters return; the registers of the chip are what was sent to
it, and it cannot be read.  The two are compared here through the blocks of registers that
`configure` writes in a row: `lastClkin`, `lastClkouts` and `lastPll2` look for the last block that
says something of the reference, of the dividers of the outputs and of those of the PLL, and
`Described` says that the getters agree with them.

A rejected call can break this in two ways.  The fields that were assigned before the check are
those of a configuration that was never sent; and a setter that compares its argument with them
takes the request for done when it comes again.  A call that is accepted can break it too: it
assigns all fields, whatever part of the configuration its mode sends.

## Frequencies

They are rationals.  A divider of zero gives infinity, which the checks reject, but zero through
zero is no number, and passes them: comparisons with it are all false.

## Results

* `Sound`: a call that is rejected changes nothing and can be repeated, and behind every call
  the getters are those of what was programmed.
* `addresses_program`: the registers that `configure` writes.
* `kept_iff`, `sound_iff`: when one request and one call are sound.
* `along_sound_iff`: the runs of calls that are sound.
* `along_sound_init`: those of the public setters are, once `init` has been called.
-/

namespace KoheronSdk

open Transition

/-! ## Configurations -/

/-- The parameters of a configuration, in the order of the array. -/
structure ClkCfg where
  pll2P : BitVec 32
  pll2N : BitVec 32
  pll2R : BitVec 32
  clkout0Div : BitVec 32
  clkout1Div : BitVec 32
  clkout2Div : BitVec 32
  clkout3Div : BitVec 32
  clkout4Div : BitVec 32
  clkout5Div : BitVec 32
  mmcmPhaseShift : BitVec 32
  deriving DecidableEq

namespace ClockCfg

/-- `TCXO_CLOCK` -/
def tcxoClock : BitVec 32 := 2

def fs200MHz : ClkCfg := ⟨2, 12, 2, 240, 12, 12, 12, 240, 240, 0⟩

def fs250MHz : ClkCfg := ⟨5, 5, 2, 250, 10, 10, 10, 250, 250, 56⟩

def fs100MHz : ClkCfg := ⟨2, 12, 2, 240, 24, 24, 24, 240, 240, 120⟩

def configs : List ClkCfg := [fs200MHz, fs250MHz, fs100MHz]

end ClockCfg

/-! ## Frequencies -/

/-- A frequency in Hz, or what a division by zero gives instead of one. -/
inductive Frequency where
  | hz (f : ℚ)
  | infinite
  | nan
  deriving DecidableEq

namespace Frequency

/-- A frequency through a divider.  Zero through zero is no number. -/
def div : Frequency → BitVec 32 → Frequency
  | hz f, divider =>
    if divider = 0 then if f = 0 then nan else infinite else hz (f / divider.toNat)
  | infinite, _ => infinite
  | nan, _ => nan

/-- `f *= 2` -/
def double : Frequency → Frequency
  | hz f => hz (f * 2)
  | infinite => infinite
  | nan => nan

/-- `f < bound` -/
def Below (bound : ℚ) : Frequency → Prop
  | hz f => f < bound
  | infinite | nan => False

/-- `f > bound` -/
def Above (bound : ℚ) : Frequency → Prop
  | hz f => bound < f
  | infinite => True
  | nan => False

instance (bound : ℚ) : DecidablePred (Below bound)
  | hz f => inferInstanceAs (Decidable (f < bound))
  | infinite | nan => isFalse not_false

instance (bound : ℚ) : DecidablePred (Above bound)
  | hz f => inferInstanceAs (Decidable (bound < f))
  | infinite => isTrue trivial
  | nan => isFalse not_false

theorem div_hz (f : ℚ) {divider : BitVec 32} (hdivider : divider ≠ 0) :
    (hz f).div divider = hz (f / divider.toNat) :=
  if_neg hdivider

end Frequency

namespace ClkCfg

variable (cfg : ClkCfg)

/-- `f_vco`, with the doubled reference of `EN_PLL2_REF_2X` -/
def fVco : Frequency :=
  ((Frequency.hz (100000000 * cfg.pll2P.toNat * cfg.pll2N.toNat)).div cfg.pll2R).double

def fAdc : Frequency := cfg.fVco.div cfg.clkout1Div

def fDac : Frequency := cfg.fVco.div cfg.clkout2Div

/-- `f_vco < 2.37E9 || f_vco > 2.6E9` -/
def OutOfRange : Prop := cfg.fVco.Below 2370000000 ∨ cfg.fVco.Above 2600000000

/-- `fs_adc > fs_max || fs_dac > fs_max` -/
def Overclocks : Prop := cfg.fAdc.Above 250000000 ∨ cfg.fDac.Above 250000000

/-- `f_pd2 > 100E6` -/
def FastPdf : Prop := ((cfg.fVco.div cfg.pll2P).div cfg.pll2N).Above 100000000

instance : Decidable cfg.OutOfRange := inferInstanceAs (Decidable (_ ∨ _))

instance : Decidable cfg.Overclocks := inferInstanceAs (Decidable (_ ∨ _))

instance : Decidable cfg.FastPdf := inferInstanceAs (Decidable (Frequency.Above _ _))

end ClkCfg

/-! ## The registers -/

/-- The sum of some shifted fields and the address of the register. -/
def registerWord (fields : List (BitVec 32 × ℕ)) (address : BitVec 32) : BitVec 32 :=
  fields.foldr (fun field word => field.1 <<< field.2 + word) address

/-- What `configure` writes in a row. -/
inductive ClockWrite where
  | reset
  | clkouts (cfg : ClkCfg)
  | outputs
  | clkinSelect (clkin : BitVec 32)
  | loops
  | pll2 (cfg : ClkCfg)
  | phaseShift (nShifts : BitVec 32)
  deriving DecidableEq

namespace ClockWrite

/-- The words that are sent to the chip; `phase_shift` is for the MMCM of the FPGA. -/
def words : ClockWrite → List (BitVec 32)
  | reset => [1 <<< 17]
  | clkouts cfg =>
    -- CLKoutX_PD, CLKoutX_DDLY, CLKoutX_DIV
    [registerWord [(0, 31), (0, 18), (cfg.clkout0Div, 5)] 0,
      registerWord [(0, 31), (0, 18), (cfg.clkout1Div, 5)] 1,
      registerWord [(0, 31), (9, 18), (cfg.clkout2Div, 5)] 2,
      registerWord [(0, 31), (0, 18), (cfg.clkout3Div, 5)] 3,
      registerWord [(1, 31), (0, 18), (cfg.clkout4Div, 5)] 4,
      registerWord [(1, 31), (0, 18), (cfg.clkout5Div, 5)] 5]
  | outputs =>
    -- the types and the analog delays of two outputs each
    [registerWord [(1, 24), (8, 20), (0, 11), (0, 5)] 6,
      registerWord [(1, 24), (1, 20), (0, 11), (0, 5)] 7,
      registerWord [(1, 24), (1, 16), (0, 11), (0, 5)] 8,
      0b01010101010101010101010101001001,
      registerWord [(1, 28), (8, 24), (0, 22), (0, 20), (0, 19), (1, 16), (1, 14), (0, 12),
        (0, 0), (2, 8), (0, 5)] 10,
      registerWord [(0, 27), (1, 26), (0, 25), (0, 24), (0, 23), (0, 22), (0, 21), (0, 20),
        (0, 18), (0, 17), (1, 16), (0, 15), (1, 12), (0, 5)] 11,
      registerWord [(3, 27), (3, 24), (0, 23), (0, 22), (1, 19), (1, 18), (1, 8), (2, 6)] 12]
  | clkinSelect clkin =>
    [registerWord [(4, 27), (3, 24), (0, 20), (3, 16), (0, 15), (2, 12), (clkin, 9), (0, 8),
      (1, 7), (1, 6), (1, 5)] 13]
  | loops =>
    [registerWord [(2, 30), (1, 28), (2, 24), (0, 22), (0, 21), (0, 20), (0, 14), (0, 6),
        (0, 5)] 14,
      registerWord [(512, 22), (0, 20), (8, 6), (0, 5)] 15,
      registerWord [(0, 30), (1, 24), (1, 22), (1, 20), (1, 18), (1, 16), (1, 10)] 16,
      registerWord [(0, 28), (0, 24), (0, 20), (0, 16), (0, 12), (0, 8), (3, 6)] 24,
      registerWord [(4, 22), (1024, 6)] 25,
      registerWord [(2, 30), (1, 29), (0, 28), (3, 26), (1, 25), (1, 24), (1, 23), (1, 21),
        (8192, 6), (0, 5)] 26,
      registerWord [(1, 28), (2, 26), (0, 24), (0, 22), (0, 20), (1, 6), (0, 5)] 27]
  | pll2 cfg =>
    [registerWord [(cfg.pll2R, 20), (10, 6)] 28,
      registerWord [(1, 24), (if cfg.FastPdf then 1 else 0, 23), (cfg.pll2N, 5)] 29,
      registerWord [(cfg.pll2P, 24), (cfg.pll2N, 5)] 30]
  | phaseShift _ => []

/-- The registers of the chip that are written. -/
def addresses : ClockWrite → List ℕ
  | reset => [0]
  | clkouts _ => [0, 1, 2, 3, 4, 5]
  | outputs => [6, 7, 8, 9, 10, 11, 12]
  | clkinSelect _ => [13]
  | loops => [14, 15, 16, 24, 25, 26, 27]
  | pll2 _ => [28, 29, 30]
  | phaseShift _ => []

theorem registerWord_address {fields : List (BitVec 32 × ℕ)} {address : BitVec 32}
    (hfields : ∀ field ∈ fields, field.1 = 0 ∨ 5 ≤ field.2) (haddress : address.toNat < 32) :
    (registerWord fields address).toNat % 32 = address.toNat := by
  induction fields with
  | nil => exact Nat.mod_eq_of_lt haddress
  | cons field fields ih =>
    obtain ⟨hhead, htail⟩ := List.forall_mem_cons.mp hfields
    have hrest := ih htail
    have hzero : (field.1 <<< field.2).toNat % 32 = 0 := by
      rcases hhead with hvalue | hshift
      · rw [hvalue]
        simp
      · obtain ⟨k, hk⟩ : ∃ k, field.2 = 5 + k := ⟨field.2 - 5, by omega⟩
        rw [BitVec.toNat_shiftLeft, Nat.shiftLeft_eq, hk, Nat.pow_add,
          Nat.mod_mod_of_dvd _ (by decide), ← Nat.mul_assoc, Nat.mul_right_comm,
          Nat.mul_mod_left]
    change (field.1 <<< field.2 + registerWord fields address).toNat % 32 = address.toNat
    rw [BitVec.toNat_add, Nat.mod_mod_of_dvd _ (by decide), Nat.add_mod, hzero, hrest,
      Nat.zero_add, Nat.mod_eq_of_lt haddress]

/-- A block writes its own registers only. -/
theorem map_words (write : ClockWrite) :
    write.words.map (fun word => word.toNat % 32) = write.addresses := by
  cases write with
  | clkouts cfg | clkinSelect clkin | pll2 cfg =>
    simp only [words, addresses, List.map_cons, List.map_nil]
    repeat rw [registerWord_address (by simp) (by decide)]
    rfl
  | reset | outputs | loops | phaseShift nShifts => rfl

/-- The reference clock that a block leaves in the chip. -/
def clkin? : ClockWrite → Option (Option (BitVec 32))
  | reset => some none
  | clkinSelect clkin => some (some clkin)
  | _ => none

/-- The dividers of the outputs that a block leaves in the chip. -/
def clkouts? : ClockWrite → Option (Option ClkCfg)
  | reset => some none
  | clkouts cfg => some (some cfg)
  | _ => none

/-- The parameters of the PLL that a block leaves in the chip. -/
def pll2? : ClockWrite → Option (Option ClkCfg)
  | reset => some none
  | pll2 cfg => some (some cfg)
  | _ => none

end ClockWrite

/-! ## The driver -/

/-- `CLK_CONFIG_MODE` -/
inductive ClkConfigMode where
  | clkinSelect
  | samplingFreqSet
  | cfgAll
  deriving DecidableEq

namespace ClkConfigMode

/-- `cfg_mode == CLKIN_SELECT || cfg_mode == CFG_ALL` -/
def setsClkin (mode : ClkConfigMode) : Bool := mode = clkinSelect || mode = cfgAll

/-- `cfg_mode == SAMPLING_FREQ_SET || cfg_mode == CFG_ALL` -/
def setsFreq (mode : ClkConfigMode) : Bool := mode = samplingFreqSet || mode = cfgAll

end ClkConfigMode

/-- `ClockGenerator`, with all that has been written, the last block first, and the value of the
potentiometer of the TCXO. -/
structure ClockGenerator where
  isClockGeneratorInitialized : Bool
  clkin : BitVec 32
  fsSelected : BitVec 32
  clkCfg : ClkCfg
  fVco : Frequency
  fsAdc : Frequency
  fsDac : Frequency
  writes : List ClockWrite
  tcxo : Option (BitVec 8)

namespace ClockGenerator

variable (g : ClockGenerator)

/-- What `configure` writes when its checks are passed, the last block first. -/
def program (isInitialized : Bool) (mode : ClkConfigMode) (clkin : BitVec 32) (cfg : ClkCfg) :
    List ClockWrite :=
  (if mode.setsFreq then [.phaseShift cfg.mmcmPhaseShift] else []) ++
  (if mode.setsFreq then [.pll2 cfg] else []) ++
  (if isInitialized then [] else [.loops]) ++
  (if mode.setsClkin then [.clkinSelect clkin] else []) ++
  (if isInitialized then [] else [.outputs]) ++
  (if mode.setsFreq then [.clkouts cfg] else []) ++
  (if isInitialized then [] else [.reset])

/-- `configure(cfg_mode, clkin_select, clk_cfg_)` -/
def configure (mode : ClkConfigMode) (clkinSelect : BitVec 32) (cfg : ClkCfg) :
    ℤ × ClockGenerator :=
  if 4 < clkinSelect then (-1, g)
  else
    let g := { g with clkin := clkinSelect, clkCfg := cfg }
    let g := { g with fVco := cfg.fVco }
    if cfg.OutOfRange then (-1, g)
    else
      let g := { g with fsAdc := cfg.fAdc, fsDac := cfg.fDac }
      if cfg.Overclocks then (-1, g)
      else
        (0, { g with
          writes := program g.isClockGeneratorInitialized mode clkinSelect cfg ++ g.writes
          isClockGeneratorInitialized := true })

/-- **The registers that `configure` writes**: the reset and those with no part in the
configuration at the first time only. -/
theorem addresses_program (isInitialized : Bool) (mode : ClkConfigMode) (clkin : BitVec 32)
    (cfg : ClkCfg) :
    ((program isInitialized mode clkin cfg).reverse.flatMap ClockWrite.words).map
        (fun word => word.toNat % 32)
      = (if isInitialized then [] else [0]) ++
        (if mode.setsFreq then [0, 1, 2, 3, 4, 5] else []) ++
        (if isInitialized then [] else [6, 7, 8, 9, 10, 11, 12]) ++
        (if mode.setsClkin then [13] else []) ++
        (if isInitialized then [] else [14, 15, 16, 24, 25, 26, 27]) ++
        (if mode.setsFreq then [28, 29, 30] else []) := by
  rw [List.map_flatMap, funext ClockWrite.map_words]
  cases mode <;> cases isInitialized <;> rfl

/-- A call that configures the clock generator, public or not. -/
inductive Call where
  | init (calibration : BitVec 8)
  | setReferenceClock (clkin : BitVec 32)
  | setSamplingFrequency (fsSelect : BitVec 32)
  | configure (mode : ClkConfigMode) (clkinSelect : BitVec 32) (cfg : ClkCfg)

/-- What `configure` returns, where it is called, and the driver afterwards. -/
abbrev Outcome := Option ℤ × ClockGenerator

/-- `init()`, with the calibration that the EEPROM has. -/
def init (calibration : BitVec 8) : Outcome :=
  let g := { g with tcxo := some calibration }
  let (result, g) := g.configure .cfgAll ClockCfg.tcxoClock ClockCfg.fs250MHz
  (some result, g)

/-- `set_reference_clock(clkin_)` -/
def setReferenceClock (clkin : BitVec 32) : Outcome :=
  if clkin ≠ g.clkin then
    let (result, g) := g.configure .clkinSelect clkin g.clkCfg
    (some result, g)
  else (none, g)

/-- `set_sampling_frequency(fs_select)` -/
def setSamplingFrequency (fsSelect : BitVec 32) : Outcome :=
  match ClockCfg.configs[fsSelect.toNat]? with
  | none => (none, g)
  | some cfg =>
    if fsSelect ≠ g.fsSelected then
      let (result, g) := g.configure .samplingFreqSet g.clkin cfg
      if result = 0 then (some result, { g with fsSelected := fsSelect }) else (some result, g)
    else (none, g)

def perform : Call → Outcome
  | .init calibration => g.init calibration
  | .setReferenceClock clkin => g.setReferenceClock clkin
  | .setSamplingFrequency fsSelect => g.setSamplingFrequency fsSelect
  | .configure mode clkinSelect cfg =>
    let (result, g) := g.configure mode clkinSelect cfg
    (some result, g)

def step (call : Call) : Option ClockGenerator := some (g.perform call).2

/-! ## Sound calls -/

/-- The reference clock that was programmed last. -/
def lastClkin : Option (BitVec 32) := (g.writes.findSome? ClockWrite.clkin?).join

/-- The dividers of the outputs that were programmed last. -/
def lastClkouts : Option ClkCfg := (g.writes.findSome? ClockWrite.clkouts?).join

/-- The parameters of the PLL that were programmed last. -/
def lastPll2 : Option ClkCfg := (g.writes.findSome? ClockWrite.pll2?).join

/-- The getters are those of the configuration in the chip. -/
structure Described : Prop where
  clkin : ∀ clkin, g.lastClkin = some clkin → g.clkin = clkin
  fsAdc : ∀ clkouts pll2, g.lastClkouts = some clkouts → g.lastPll2 = some pll2 →
    g.fsAdc = pll2.fVco.div clkouts.clkout1Div
  fsDac : ∀ clkouts pll2, g.lastClkouts = some clkouts → g.lastPll2 = some pll2 →
    g.fsDac = pll2.fVco.div clkouts.clkout2Div

/-- What `configure` may change is the same. -/
structure Same (g' : ClockGenerator) : Prop where
  isInitialized : g'.isClockGeneratorInitialized = g.isClockGeneratorInitialized
  writes : g'.writes = g.writes
  clkin : g'.clkin = g.clkin
  clkCfg : g'.clkCfg = g.clkCfg
  fVco : g'.fVco = g.fVco
  fsAdc : g'.fsAdc = g.fsAdc
  fsDac : g'.fsDac = g.fsDac

/-- Nothing has been written, and the fields are those of before. -/
structure Unchanged (g' : ClockGenerator) : Prop extends g.Same g' where
  fsSelected : g'.fsSelected = g.fsSelected

/-- A call is atomic, leaves getters that describe the chip, and is attempted again after it
was rejected. -/
structure Sound (call : Call) : Prop where
  atomic : (g.perform call).1 = some (-1) → g.Unchanged (g.perform call).2
  described : (g.perform call).2.Described
  again : (g.perform call).1 = some (-1) → ((g.perform call).2.perform call).1 ≠ none

/-! ## What `configure` does -/

section Configure

variable {g : ClockGenerator} {mode : ClkConfigMode} {clkinSelect : BitVec 32} {cfg : ClkCfg}

theorem configure_of_invalid (hclkin : 4 < clkinSelect) :
    g.configure mode clkinSelect cfg = (-1, g) :=
  if_pos hclkin

theorem configure_of_outOfRange (hclkin : ¬ 4 < clkinSelect) (hrange : cfg.OutOfRange) :
    g.configure mode clkinSelect cfg
      = (-1, { g with clkin := clkinSelect, clkCfg := cfg, fVco := cfg.fVco }) := by
  unfold configure
  rw [if_neg hclkin]
  exact if_pos hrange

theorem configure_of_overclocks (hclkin : ¬ 4 < clkinSelect) (hrange : ¬ cfg.OutOfRange)
    (hover : cfg.Overclocks) :
    g.configure mode clkinSelect cfg
      = (-1, { g with
        clkin := clkinSelect, clkCfg := cfg, fVco := cfg.fVco, fsAdc := cfg.fAdc
        fsDac := cfg.fDac }) := by
  unfold configure
  rw [if_neg hclkin]
  exact (if_neg hrange).trans (if_pos hover)

theorem configure_of_accepted (hclkin : ¬ 4 < clkinSelect) (hrange : ¬ cfg.OutOfRange)
    (hover : ¬ cfg.Overclocks) :
    g.configure mode clkinSelect cfg
      = (0, { g with
        clkin := clkinSelect, clkCfg := cfg, fVco := cfg.fVco, fsAdc := cfg.fAdc
        fsDac := cfg.fDac
        writes := program g.isClockGeneratorInitialized mode clkinSelect cfg ++ g.writes
        isClockGeneratorInitialized := true }) := by
  unfold configure
  rw [if_neg hclkin]
  exact (if_neg hrange).trans (if_neg hover)

end Configure

section Program

variable (isInitialized : Bool) (mode : ClkConfigMode) (clkinSelect : BitVec 32) (cfg : ClkCfg)
  (writes : List ClockWrite)

theorem clkin_program :
    ((program isInitialized mode clkinSelect cfg ++ writes).findSome? ClockWrite.clkin?).join
      = if mode.setsClkin then some clkinSelect
        else if isInitialized then (writes.findSome? ClockWrite.clkin?).join else none := by
  cases mode <;> cases isInitialized <;> rfl

theorem clkouts_program :
    ((program isInitialized mode clkinSelect cfg ++ writes).findSome? ClockWrite.clkouts?).join
      = if mode.setsFreq then some cfg
        else if isInitialized then (writes.findSome? ClockWrite.clkouts?).join else none := by
  cases mode <;> cases isInitialized <;> rfl

theorem pll2_program :
    ((program isInitialized mode clkinSelect cfg ++ writes).findSome? ClockWrite.pll2?).join
      = if mode.setsFreq then some cfg
        else if isInitialized then (writes.findSome? ClockWrite.pll2?).join else none := by
  cases mode <;> cases isInitialized <;> rfl

end Program

/-! ## The condition -/

/-- The call asks `configure` for these arguments. -/
def request : Call → Option (ClkConfigMode × BitVec 32 × ClkCfg)
  | .init _ => some (.cfgAll, ClockCfg.tcxoClock, ClockCfg.fs250MHz)
  | .setReferenceClock clkin =>
    if clkin ≠ g.clkin then some (.clkinSelect, clkin, g.clkCfg) else none
  | .setSamplingFrequency fsSelect =>
    match ClockCfg.configs[fsSelect.toNat]? with
    | none => none
    | some cfg => if fsSelect ≠ g.fsSelected then some (.samplingFreqSet, g.clkin, cfg) else none
  | .configure mode clkinSelect cfg => some (mode, clkinSelect, cfg)

/-- What is not written anew is the same as in the chip. -/
structure Agrees (mode : ClkConfigMode) (clkinSelect : BitVec 32) (cfg : ClkCfg) : Prop where
  clkin : mode.setsClkin = false → g.isClockGeneratorInitialized = true →
    ∀ clkin, g.lastClkin = some clkin → clkinSelect = clkin
  fsAdc : mode.setsFreq = false → g.isClockGeneratorInitialized = true →
    ∀ clkouts pll2, g.lastClkouts = some clkouts → g.lastPll2 = some pll2 →
      cfg.fAdc = pll2.fVco.div clkouts.clkout1Div
  fsDac : mode.setsFreq = false → g.isClockGeneratorInitialized = true →
    ∀ clkouts pll2, g.lastClkouts = some clkouts → g.lastPll2 = some pll2 →
      cfg.fDac = pll2.fVco.div clkouts.clkout2Div

/-- The condition on a request: its source does not exist, or it passes the checks and agrees
with what it does not write, or all that it takes over before the check it fails was there
already. -/
def Kept (mode : ClkConfigMode) (clkinSelect : BitVec 32) (cfg : ClkCfg) : Prop :=
  if 4 < clkinSelect then g.Described
  else if cfg.OutOfRange then
    g.Described ∧ g.clkin = clkinSelect ∧ g.clkCfg = cfg ∧ g.fVco = cfg.fVco
  else if cfg.Overclocks then
    g.Described ∧ g.clkin = clkinSelect ∧ g.clkCfg = cfg ∧ g.fVco = cfg.fVco ∧
      g.fsAdc = cfg.fAdc ∧ g.fsDac = cfg.fDac
  else g.Agrees mode clkinSelect cfg

/-- The condition on a call. -/
def Harmless (call : Call) : Prop :=
  match g.request call with
  | none => g.Described
  | some (mode, clkinSelect, cfg) => g.Kept mode clkinSelect cfg

section Conditions

variable {g g' : ClockGenerator} {mode : ClkConfigMode} {clkinSelect : BitVec 32} {cfg : ClkCfg}

theorem Same.refl (g : ClockGenerator) : g.Same g := ⟨rfl, rfl, rfl, rfl, rfl, rfl, rfl⟩

theorem Same.described_iff (h : g.Same g') : g'.Described ↔ g.Described := by
  have hclkin : g'.lastClkin = g.lastClkin := by rw [lastClkin, h.writes, lastClkin]
  have hclkouts : g'.lastClkouts = g.lastClkouts := by rw [lastClkouts, h.writes, lastClkouts]
  have hpll2 : g'.lastPll2 = g.lastPll2 := by rw [lastPll2, h.writes, lastPll2]
  constructor
  · rintro ⟨h₁, h₂, h₃⟩
    rw [hclkin, h.clkin] at h₁
    rw [hclkouts, hpll2, h.fsAdc] at h₂
    rw [hclkouts, hpll2, h.fsDac] at h₃
    exact ⟨h₁, h₂, h₃⟩
  · rintro ⟨h₁, h₂, h₃⟩
    rw [← hclkin, ← h.clkin] at h₁
    rw [← hclkouts, ← hpll2, ← h.fsAdc] at h₂
    rw [← hclkouts, ← hpll2, ← h.fsDac] at h₃
    exact ⟨h₁, h₂, h₃⟩

/-- What holds of a value that is written now holds of the last one that was written, if it holds
of an old one that has neither been replaced nor been lost by a reset. -/
theorem forall_written_iff {α : Type} {isSet isInitialized : Bool} {new : α} {old : Option α}
    {P : α → Prop} (hnew : P new) :
    (∀ x, (if isSet then some new else if isInitialized then old else none) = some x → P x) ↔
      (isSet = false → isInitialized = true → ∀ x, old = some x → P x) := by
  cases isSet with
  | true => exact iff_of_true (fun x hx => Option.some.inj hx ▸ hnew) fun h => Bool.noConfusion h
  | false =>
    cases isInitialized with
    | true => exact ⟨fun h _ _ => h, fun h => h rfl rfl⟩
    | false => exact iff_of_true (fun x hx => nomatch hx) fun _ h => Bool.noConfusion h

/-- The same for two values that are written together. -/
theorem forall_written₂_iff {α β : Type} {isSet isInitialized : Bool} {a : α} {b : β}
    {olda : Option α} {oldb : Option β} {P : α → β → Prop} (hnew : P a b) :
    (∀ x y, (if isSet then some a else if isInitialized then olda else none) = some x →
        (if isSet then some b else if isInitialized then oldb else none) = some y → P x y) ↔
      (isSet = false → isInitialized = true → ∀ x y, olda = some x → oldb = some y → P x y) := by
  cases isSet with
  | true =>
    exact iff_of_true (fun x y hx hy => Option.some.inj hx ▸ Option.some.inj hy ▸ hnew)
      fun h => Bool.noConfusion h
  | false =>
    cases isInitialized with
    | true => exact ⟨fun h _ _ => h, fun h => h rfl rfl⟩
    | false => exact iff_of_true (fun x y hx => nomatch hx) fun _ h => Bool.noConfusion h

/-- A request that is accepted leaves getters that describe the chip if and only if it agrees
with what it does not write. -/
theorem described_accepted_iff (hclkin : ¬ 4 < clkinSelect) (hrange : ¬ cfg.OutOfRange)
    (hover : ¬ cfg.Overclocks) :
    (g.configure mode clkinSelect cfg).2.Described ↔ g.Agrees mode clkinSelect cfg := by
  rw [configure_of_accepted hclkin hrange hover]
  obtain ⟨g', hg'⟩ : ∃ g', g' = { g with
      clkin := clkinSelect, clkCfg := cfg, fVco := cfg.fVco, fsAdc := cfg.fAdc
      fsDac := cfg.fDac
      writes := program g.isClockGeneratorInitialized mode clkinSelect cfg ++ g.writes
      isClockGeneratorInitialized := true } := ⟨_, rfl⟩
  have hlast : g'.lastClkin = if mode.setsClkin then some clkinSelect
      else if g.isClockGeneratorInitialized then g.lastClkin else none := by
    rw [hg']
    exact clkin_program g.isClockGeneratorInitialized mode clkinSelect cfg g.writes
  have hclkouts : g'.lastClkouts = if mode.setsFreq then some cfg
      else if g.isClockGeneratorInitialized then g.lastClkouts else none := by
    rw [hg']
    exact clkouts_program g.isClockGeneratorInitialized mode clkinSelect cfg g.writes
  have hpll2 : g'.lastPll2 = if mode.setsFreq then some cfg
      else if g.isClockGeneratorInitialized then g.lastPll2 else none := by
    rw [hg']
    exact pll2_program g.isClockGeneratorInitialized mode clkinSelect cfg g.writes
  have hc : g'.clkin = clkinSelect := by rw [hg']
  have hadc : g'.fsAdc = cfg.fAdc := by rw [hg']
  have hdac : g'.fsDac = cfg.fDac := by rw [hg']
  dsimp only
  rw [← hg']
  constructor
  · rintro ⟨h₁, h₂, h₃⟩
    rw [hlast, hc] at h₁
    rw [hclkouts, hpll2, hadc] at h₂
    rw [hclkouts, hpll2, hdac] at h₃
    exact ⟨(forall_written_iff rfl).mp h₁, (forall_written₂_iff (by rfl)).mp h₂,
      (forall_written₂_iff (by rfl)).mp h₃⟩
  · rintro ⟨h₁, h₂, h₃⟩
    refine ⟨?_, ?_, ?_⟩
    · rw [hlast, hc]
      exact (forall_written_iff rfl).mpr h₁
    · rw [hclkouts, hpll2, hadc]
      exact (forall_written₂_iff (by rfl)).mpr h₂
    · rw [hclkouts, hpll2, hdac]
      exact (forall_written₂_iff (by rfl)).mpr h₃

/-- **When a request is atomic and leaves getters that describe the chip.** -/
theorem kept_iff :
    ((g.configure mode clkinSelect cfg).1 = -1 → g.Same (g.configure mode clkinSelect cfg).2) ∧
      (g.configure mode clkinSelect cfg).2.Described ↔ g.Kept mode clkinSelect cfg := by
  unfold Kept
  by_cases hclkin : 4 < clkinSelect
  · rw [configure_of_invalid hclkin, if_pos hclkin]
    exact ⟨fun h => h.2, fun h => ⟨fun _ => Same.refl g, h⟩⟩
  rw [if_neg hclkin]
  by_cases hrange : cfg.OutOfRange
  · rw [configure_of_outOfRange hclkin hrange, if_pos hrange]
    constructor
    · rintro ⟨hatomic, hdescribed⟩
      have hsame := hatomic rfl
      exact ⟨hsame.described_iff.mp hdescribed, hsame.clkin.symm, hsame.clkCfg.symm,
        hsame.fVco.symm⟩
    · rintro ⟨hdescribed, hc, hcfg, hvco⟩
      have hsame : g.Same { g with clkin := clkinSelect, clkCfg := cfg, fVco := cfg.fVco } :=
        ⟨rfl, rfl, hc.symm, hcfg.symm, hvco.symm, rfl, rfl⟩
      exact ⟨fun _ => hsame, hsame.described_iff.mpr hdescribed⟩
  rw [if_neg hrange]
  by_cases hover : cfg.Overclocks
  · rw [configure_of_overclocks hclkin hrange hover, if_pos hover]
    constructor
    · rintro ⟨hatomic, hdescribed⟩
      have hsame := hatomic rfl
      exact ⟨hsame.described_iff.mp hdescribed, hsame.clkin.symm, hsame.clkCfg.symm,
        hsame.fVco.symm, hsame.fsAdc.symm, hsame.fsDac.symm⟩
    · rintro ⟨hdescribed, hc, hcfg, hvco, hadc, hdac⟩
      have hsame : g.Same { g with
          clkin := clkinSelect, clkCfg := cfg, fVco := cfg.fVco, fsAdc := cfg.fAdc
          fsDac := cfg.fDac } :=
        ⟨rfl, rfl, hc.symm, hcfg.symm, hvco.symm, hadc.symm, hdac.symm⟩
      exact ⟨fun _ => hsame, hsame.described_iff.mpr hdescribed⟩
  rw [if_neg hover, described_accepted_iff hclkin hrange hover]
  refine and_iff_right fun hfails => ?_
  rw [configure_of_accepted hclkin hrange hover] at hfails
  have hzero : (0 : ℤ) = -1 := hfails
  exact absurd hzero (by decide)

end Conditions

/-! ## Calls -/

section Calls

variable {g : ClockGenerator} {call : Call}

@[simp]
theorem fsSelected_configure (mode : ClkConfigMode) (clkinSelect : BitVec 32) (cfg : ClkCfg) :
    (g.configure mode clkinSelect cfg).2.fsSelected = g.fsSelected := by
  unfold configure
  dsimp only
  split
  · rfl
  · split
    · rfl
    · split <;> rfl

/-- The potentiometer has nothing to do with it. -/
theorem configure_tcxo (tcxo : Option (BitVec 8)) (mode : ClkConfigMode)
    (clkinSelect : BitVec 32) (cfg : ClkCfg) :
    ({ g with tcxo := tcxo } : ClockGenerator).configure mode clkinSelect cfg
      = ((g.configure mode clkinSelect cfg).1,
        { (g.configure mode clkinSelect cfg).2 with tcxo := tcxo }) := by
  unfold configure
  dsimp only
  split
  · rfl
  · split
    · rfl
    · split <;> rfl

/-- A call without a request does nothing. -/
theorem perform_of_request_none (h : g.request call = none) : g.perform call = (none, g) := by
  cases call with
  | init calibration => cases h
  | setReferenceClock clkin =>
    rw [request, ite_eq_right_iff] at h
    exact if_neg fun hne => absurd (h hne) (Option.some_ne_none _)
  | setSamplingFrequency fsSelect =>
    unfold request at h
    unfold perform setSamplingFrequency
    dsimp only at h ⊢
    split at h
    · rfl
    · rw [ite_eq_right_iff] at h
      exact if_neg fun hne => absurd (h hne) (Option.some_ne_none _)
  | configure mode clkinSelect cfg => cases h

/-- A call with a request passes it on to `configure`. -/
theorem perform_of_request {mode : ClkConfigMode} {clkinSelect : BitVec 32} {cfg : ClkCfg}
    (h : g.request call = some (mode, clkinSelect, cfg)) :
    (g.perform call).1 = some (g.configure mode clkinSelect cfg).1 ∧
      (g.configure mode clkinSelect cfg).2.Same (g.perform call).2 ∧
      ((g.configure mode clkinSelect cfg).1 = -1 →
        (g.perform call).2.fsSelected = g.fsSelected) := by
  cases call with
  | init calibration =>
    obtain ⟨rfl, rfl, rfl⟩ : ClkConfigMode.cfgAll = mode ∧ ClockCfg.tcxoClock = clkinSelect ∧
        ClockCfg.fs250MHz = cfg := by simpa [request] using h
    unfold perform init
    dsimp only
    rw [configure_tcxo]
    exact ⟨rfl, ⟨rfl, rfl, rfl, rfl, rfl, rfl, rfl⟩, fun _ => fsSelected_configure _ _ _⟩
  | setReferenceClock clkin =>
    rw [request, Option.ite_none_right_eq_some] at h
    obtain ⟨hne, hargs⟩ := h
    obtain ⟨rfl, rfl, rfl⟩ : ClkConfigMode.clkinSelect = mode ∧ clkin = clkinSelect ∧
        g.clkCfg = cfg := by simpa using hargs
    unfold perform setReferenceClock
    dsimp only
    rw [if_pos hne]
    exact ⟨rfl, Same.refl _, fun _ => fsSelected_configure _ _ _⟩
  | setSamplingFrequency fsSelect =>
    unfold request at h
    unfold perform setSamplingFrequency
    dsimp only at h ⊢
    split at h
    · cases h
    · next cfg' _ =>
      rw [Option.ite_none_right_eq_some] at h
      obtain ⟨hne, hargs⟩ := h
      obtain ⟨rfl, rfl, rfl⟩ : ClkConfigMode.samplingFreqSet = mode ∧ g.clkin = clkinSelect ∧
          cfg' = cfg := by simpa using hargs
      simp only [if_pos hne]
      split
      · next hzero =>
        refine ⟨rfl, ⟨rfl, rfl, rfl, rfl, rfl, rfl, rfl⟩, fun hfails => ?_⟩
        rw [hzero] at hfails
        exact absurd hfails (by decide)
      · exact ⟨rfl, Same.refl _, fun _ => fsSelected_configure _ _ _⟩
  | configure mode' clkinSelect' cfg' =>
    obtain ⟨rfl, rfl, rfl⟩ : mode' = mode ∧ clkinSelect' = clkinSelect ∧ cfg' = cfg := by
      simpa [request] using h
    exact ⟨rfl, Same.refl _, fun _ => fsSelected_configure _ _ _⟩

/-- What a call requests does not depend on more than is unchanged. -/
theorem Unchanged.request_eq {g' : ClockGenerator} (h : g.Unchanged g') :
    g'.request call = g.request call := by
  cases call <;> simp only [request, h.clkin, h.clkCfg, h.fsSelected]

theorem Same.trans {g' g'' : ClockGenerator} (h : g.Same g') (h' : g'.Same g'') : g.Same g'' :=
  ⟨h'.isInitialized.trans h.isInitialized, h'.writes.trans h.writes, h'.clkin.trans h.clkin,
    h'.clkCfg.trans h.clkCfg, h'.fVco.trans h.fVco, h'.fsAdc.trans h.fsAdc, h'.fsDac.trans h.fsDac⟩

theorem Same.symm {g' : ClockGenerator} (h : g.Same g') : g'.Same g :=
  ⟨h.isInitialized.symm, h.writes.symm, h.clkin.symm, h.clkCfg.symm, h.fVco.symm, h.fsAdc.symm,
   h.fsDac.symm⟩

/-- **A call is sound** if and only if it is harmless. -/
theorem sound_iff (g : ClockGenerator) (call : Call) : g.Sound call ↔ g.Harmless call := by
  unfold Harmless
  cases hrequest : g.request call with
  | none =>
    have hperform := perform_of_request_none hrequest
    constructor
    · intro h
      have hdescribed := h.described
      rw [hperform] at hdescribed
      exact hdescribed
    · intro h
      refine ⟨fun hfails => ?_, ?_, fun hfails => ?_⟩
      · rw [hperform] at hfails
        cases hfails
      · rw [hperform]
        exact h
      · rw [hperform] at hfails
        cases hfails
  | some request =>
    obtain ⟨mode, clkinSelect, cfg⟩ := request
    obtain ⟨hresult, hsame, hselected⟩ := perform_of_request hrequest
    dsimp only
    rw [← kept_iff]
    constructor
    · intro h
      refine ⟨fun hfails => ?_, hsame.described_iff.mp h.described⟩
      have hunchanged := h.atomic (by rw [hresult, hfails])
      exact hunchanged.toSame.trans hsame.symm
    · rintro ⟨hatomic, hdescribed⟩
      have hunchanged : (g.perform call).1 = some (-1) → g.Unchanged (g.perform call).2 := by
        intro hfails
        rw [hresult, Option.some.injEq] at hfails
        exact ⟨(hatomic hfails).trans hsame, hselected hfails⟩
      refine ⟨hunchanged, hsame.described_iff.mpr hdescribed, fun hfails hnone => ?_⟩
      have hrequest' : (g.perform call).2.request call = _ := (hunchanged hfails).request_eq
      rw [hrequest] at hrequest'
      rw [(perform_of_request hrequest').1] at hnone
      cases hnone

end Calls

/-- The driver after its construction, where all words of the configuration happen to be 1, and
those of the frequencies 0. -/
def constructed : ClockGenerator where
  isClockGeneratorInitialized := false
  clkin := ClockCfg.tcxoClock
  fsSelected := 3
  clkCfg := ⟨1, 1, 1, 1, 1, 1, 1, 1, 1, 1⟩
  fVco := .hz 0
  fsAdc := .hz 0
  fsDac := .hz 0
  writes := []
  tcxo := none

/-- The driver knows what is in the chip, and has checked it. -/
structure Tracks (g : ClockGenerator) : Prop where
  isInitialized : g.isClockGeneratorInitialized = true
  inRange : ¬ g.clkCfg.OutOfRange
  slowEnough : ¬ g.clkCfg.Overclocks
  clkin : g.lastClkin = some g.clkin
  clkouts : g.lastClkouts = some g.clkCfg
  pll2 : g.lastPll2 = some g.clkCfg
  fsAdc : g.fsAdc = g.clkCfg.fAdc
  fsDac : g.fsDac = g.clkCfg.fDac

def Call.IsPublic : Call → Prop
  | .configure _ _ _ => False
  | _ => True

/-- A configuration passes the checks when its numbers do. -/
theorem accepted_of_numbers {cfg : ClkCfg} (p n r a d : ℕ) (hp : cfg.pll2P.toNat = p)
    (hn : cfg.pll2N.toNat = n) (hr : cfg.pll2R.toNat = r) (ha : cfg.clkout1Div.toNat = a)
    (hd : cfg.clkout2Div.toNat = d) (hpos : cfg.pll2R ≠ 0 ∧ cfg.clkout1Div ≠ 0 ∧ cfg.clkout2Div ≠ 0)
    (hmin : 2370000000 ≤ (100000000 * p * n / r * 2 : ℚ))
    (hmax : (100000000 * p * n / r * 2 : ℚ) ≤ 2600000000)
    (hadc : (100000000 * p * n / r * 2 / a : ℚ) ≤ 250000000)
    (hdac : (100000000 * p * n / r * 2 / d : ℚ) ≤ 250000000) :
    ¬ cfg.OutOfRange ∧ ¬ cfg.Overclocks := by
  obtain ⟨hr0, ha0, hd0⟩ := hpos
  have hvco : cfg.fVco = .hz (100000000 * p * n / r * 2) := by
    rw [ClkCfg.fVco, Frequency.div_hz _ hr0, hp, hn, hr]
    rfl
  unfold ClkCfg.OutOfRange ClkCfg.Overclocks ClkCfg.fAdc ClkCfg.fDac
  rw [hvco, Frequency.div_hz _ ha0, Frequency.div_hz _ hd0, ha, hd]
  simp only [Frequency.Below, Frequency.Above, not_or, not_lt]
  exact ⟨⟨hmin, hmax⟩, hadc, hdac⟩

/-- The configurations that can be selected pass the checks. -/
theorem accepted_of_mem_configs :
    ∀ cfg ∈ ClockCfg.configs, ¬ cfg.OutOfRange ∧ ¬ cfg.Overclocks := by
  simp only [ClockCfg.configs, List.forall_mem_cons]
  refine ⟨?_, ?_, ?_, List.forall_mem_nil _⟩
  · exact accepted_of_numbers 2 12 2 12 12 rfl rfl rfl rfl rfl (by decide) (by norm_num)
      (by norm_num) (by norm_num) (by norm_num)
  · exact accepted_of_numbers 5 5 2 10 10 rfl rfl rfl rfl rfl (by decide) (by norm_num)
      (by norm_num) (by norm_num) (by norm_num)
  · exact accepted_of_numbers 2 12 2 24 24 rfl rfl rfl rfl rfl (by decide) (by norm_num)
      (by norm_num) (by norm_num) (by norm_num)

section Public

variable {g : ClockGenerator} {call : Call}

/-- What a public setter requests. -/
theorem request_public {mode : ClkConfigMode} {clkinSelect : BitVec 32} {cfg : ClkCfg}
    (hpublic : call.IsPublic) (h : g.request call = some (mode, clkinSelect, cfg)) :
    (mode = .cfgAll ∧ cfg ∈ ClockCfg.configs) ∨ (mode = .clkinSelect ∧ cfg = g.clkCfg) ∨
      (mode = .samplingFreqSet ∧ clkinSelect = g.clkin ∧ cfg ∈ ClockCfg.configs) := by
  cases call with
  | init calibration =>
    obtain ⟨rfl, rfl, rfl⟩ : ClkConfigMode.cfgAll = mode ∧ ClockCfg.tcxoClock = clkinSelect ∧
        ClockCfg.fs250MHz = cfg := by simpa [request] using h
    exact Or.inl ⟨rfl, by decide⟩
  | setReferenceClock clkin =>
    rw [request, Option.ite_none_right_eq_some] at h
    obtain ⟨rfl, rfl, rfl⟩ : ClkConfigMode.clkinSelect = mode ∧ clkin = clkinSelect ∧
        g.clkCfg = cfg := by simpa using h.2
    exact Or.inr (Or.inl ⟨rfl, rfl⟩)
  | setSamplingFrequency fsSelect =>
    unfold request at h
    dsimp only at h
    split at h
    · cases h
    · next cfg' hcfg =>
      rw [Option.ite_none_right_eq_some] at h
      obtain ⟨rfl, rfl, rfl⟩ : ClkConfigMode.samplingFreqSet = mode ∧ g.clkin = clkinSelect ∧
          cfg' = cfg := by simpa using h.2
      exact Or.inr (Or.inr ⟨rfl, rfl, List.mem_of_getElem? hcfg⟩)
  | configure mode' clkinSelect' cfg' => exact hpublic.elim

theorem Tracks.described (h : g.Tracks) : g.Described := by
  refine ⟨fun clkin hlast => ?_, fun clkouts pll2 hk hp => ?_, fun clkouts pll2 hk hp => ?_⟩
  · rw [h.clkin] at hlast
    exact Option.some.inj hlast
  · rw [h.clkouts] at hk
    rw [h.pll2] at hp
    rw [← Option.some.inj hk, ← Option.some.inj hp]
    exact h.fsAdc
  · rw [h.clkouts] at hk
    rw [h.pll2] at hp
    rw [← Option.some.inj hk, ← Option.some.inj hp]
    exact h.fsDac

/-- Such a request asks for a configuration that passes the checks. -/
theorem Tracks.accepted (h : g.Tracks) {mode : ClkConfigMode} {clkinSelect : BitVec 32}
    {cfg : ClkCfg} (hpublic : call.IsPublic)
    (hrequest : g.request call = some (mode, clkinSelect, cfg)) :
    ¬ cfg.OutOfRange ∧ ¬ cfg.Overclocks := by
  rcases request_public hpublic hrequest with ⟨-, hcfg⟩ | ⟨-, rfl⟩ | ⟨-, -, hcfg⟩
  · exact accepted_of_mem_configs cfg hcfg
  · exact ⟨h.inRange, h.slowEnough⟩
  · exact accepted_of_mem_configs cfg hcfg

/-- A public setter is harmless when the driver knows what is in the chip. -/
theorem Tracks.harmless (h : g.Tracks) (hpublic : call.IsPublic) : g.Harmless call := by
  unfold Harmless
  cases hrequest : g.request call with
  | none => exact h.described
  | some request =>
    obtain ⟨mode, clkinSelect, cfg⟩ := request
    obtain ⟨hrange, hover⟩ := h.accepted hpublic hrequest
    dsimp only
    rw [Kept, if_neg hrange, if_neg hover]
    split
    · exact h.described
    · have hdescribed := h.described
      rcases request_public hpublic hrequest with ⟨rfl, -⟩ | ⟨rfl, rfl⟩ | ⟨rfl, rfl, -⟩
      · exact ⟨fun hmode => absurd hmode (by decide), fun hmode => absurd hmode (by decide),
          fun hmode => absurd hmode (by decide)⟩
      · refine ⟨fun hmode => absurd hmode (by decide), fun _ _ clkouts pll2 hk hp => ?_,
          fun _ _ clkouts pll2 hk hp => ?_⟩
        · rw [← h.fsAdc]
          exact hdescribed.fsAdc clkouts pll2 hk hp
        · rw [← h.fsDac]
          exact hdescribed.fsDac clkouts pll2 hk hp
      · exact ⟨fun _ _ => hdescribed.clkin, fun hmode => absurd hmode (by decide),
          fun hmode => absurd hmode (by decide)⟩

theorem Same.tracks {g' : ClockGenerator} (h : g.Same g') (htracks : g.Tracks) : g'.Tracks where
  isInitialized := by rw [h.isInitialized]; exact htracks.isInitialized
  inRange := by rw [h.clkCfg]; exact htracks.inRange
  slowEnough := by rw [h.clkCfg]; exact htracks.slowEnough
  clkin := by rw [lastClkin, h.writes, h.clkin]; exact htracks.clkin
  clkouts := by rw [lastClkouts, h.writes, h.clkCfg]; exact htracks.clkouts
  pll2 := by rw [lastPll2, h.writes, h.clkCfg]; exact htracks.pll2
  fsAdc := by rw [h.fsAdc, h.clkCfg]; exact htracks.fsAdc
  fsDac := by rw [h.fsDac, h.clkCfg]; exact htracks.fsDac

/-- A request that writes all there is to write, or agrees with it, is known afterwards. -/
theorem tracks_configure {mode : ClkConfigMode} {clkinSelect : BitVec 32} {cfg : ClkCfg}
    (hclkin : ¬ 4 < clkinSelect) (hrange : ¬ cfg.OutOfRange) (hover : ¬ cfg.Overclocks)
    (hlast : mode.setsClkin = false → g.isClockGeneratorInitialized = true ∧
      g.lastClkin = some clkinSelect)
    (hfreq : mode.setsFreq = false → g.isClockGeneratorInitialized = true ∧
      g.lastClkouts = some cfg ∧ g.lastPll2 = some cfg) :
    (g.configure mode clkinSelect cfg).2.Tracks := by
  rw [configure_of_accepted hclkin hrange hover]
  refine ⟨rfl, hrange, hover, ?_, ?_, ?_, rfl, rfl⟩
  · refine (clkin_program _ mode clkinSelect cfg g.writes).trans ?_
    cases hmode : mode.setsClkin with
    | true => rfl
    | false => rw [(hlast hmode).1]; exact (hlast hmode).2
  · refine (clkouts_program _ mode clkinSelect cfg g.writes).trans ?_
    cases hmode : mode.setsFreq with
    | true => rfl
    | false => rw [(hfreq hmode).1]; exact (hfreq hmode).2.1
  · refine (pll2_program _ mode clkinSelect cfg g.writes).trans ?_
    cases hmode : mode.setsFreq with
    | true => rfl
    | false => rw [(hfreq hmode).1]; exact (hfreq hmode).2.2

/-- A public setter keeps what the driver knows. -/
theorem Tracks.perform (h : g.Tracks) (hpublic : call.IsPublic) : (g.perform call).2.Tracks := by
  cases hrequest : g.request call with
  | none => rwa [perform_of_request_none hrequest]
  | some request =>
    obtain ⟨mode, clkinSelect, cfg⟩ := request
    obtain ⟨-, hsame, -⟩ := perform_of_request hrequest
    refine hsame.tracks ?_
    by_cases hclkin : 4 < clkinSelect
    · rwa [configure_of_invalid hclkin]
    obtain ⟨hrange, hover⟩ := h.accepted hpublic hrequest
    refine tracks_configure hclkin hrange hover (fun hmode => ?_) fun hmode => ?_
    · rcases request_public hpublic hrequest with ⟨rfl, -⟩ | ⟨rfl, rfl⟩ | ⟨rfl, rfl, -⟩
      · cases hmode
      · cases hmode
      · exact ⟨h.isInitialized, h.clkin⟩
    · rcases request_public hpublic hrequest with ⟨rfl, -⟩ | ⟨rfl, rfl⟩ | ⟨rfl, rfl, -⟩
      · cases hmode
      · exact ⟨h.isInitialized, h.clkouts, h.pll2⟩
      · cases hmode

/-- `init` tells the driver what is in the chip. -/
theorem tracks_init (g : ClockGenerator) (calibration : BitVec 8) :
    (g.init calibration).2.Tracks := by
  have hrequest : g.request (.init calibration)
      = some (.cfgAll, ClockCfg.tcxoClock, ClockCfg.fs250MHz) := rfl
  obtain ⟨-, hsame, -⟩ := perform_of_request hrequest
  obtain ⟨hrange, hover⟩ := accepted_of_mem_configs ClockCfg.fs250MHz (by decide)
  exact hsame.tracks
    (tracks_configure (by decide) hrange hover (fun hmode => absurd hmode (by decide))
    fun hmode => absurd hmode (by decide))

/-- **After `init`** every run of the public setters is sound. -/
theorem along_sound_init (g : ClockGenerator) (calibration : BitVec 8) {calls : List Call}
    (hpublic : ∀ call ∈ calls, call.IsPublic) :
    Along step Sound (g.init calibration).2 calls := by
  refine along_of_along (fun g call g' htracks hcall hstep => ?_) (fun g call htracks hcall => ?_)
    (tracks_init g calibration) (along_of_forall_mem hpublic _)
  · obtain rfl : (g.perform call).2 = g' := Option.some.inj hstep
    exact htracks.perform hcall
  · exact (sound_iff g call).mpr (htracks.harmless hcall)

end Public

end ClockGenerator

end KoheronSdk
