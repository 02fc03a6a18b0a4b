import KoheronSdk.Context.MemoryMap
import KoheronSdk.Fpga.At93c46d

/-!
# The commands of the laser's EEPROM

The driver `Eeprom` of the server builds the word of `eeprom_ctl` from an instruction, an address
and data by additions, and nothing bounds its arguments.  The laser controller slices the word into
the inputs of `at93c46d_spi`.

The chip has 64 addresses, which take six bits of the command.  An address of 64 or more is
not refused: its upper bits are added to those of the opcode, and to read at 64 is to erase at 0.
Of data with more than 16 bits the upper ones are lost at the end of the word.  The lemmas about
the slices say what is on the wire for all arguments, and that it is the requested instruction
exactly if the arguments fit is read off them.

The word reaches the core through an AXI register, and is then on the inputs of the core for many
clocks.  The bit of `start` is set by a second write to the same word.  So a core
that is idle sees an edge and latches the command, and what it has latched is compared with the
request.

* `word`: what is written to `eeprom_ctl`; `toNat_cmd_word` and `toNat_data_word` are its slices.
* `instruction`: what the chip makes of a command.
* `reaches_iff_fits`: the calls that reach the chip as they are.
-/

namespace KoheronSdk

open Clocked

/-! ## The driver -/

namespace EepromInstr

/-- `// Write memory location` -/
def write : BitVec 32 := 1#32 <<< 2

/-- `// Reads data stored in memory at specified address` -/
def read : BitVec 32 := 2#32 <<< 2

/-- `// Erases memory location` -/
def erase : BitVec 32 := 3#32 <<< 2

/-- `// Disable all programming instructions` -/
def ewds : BitVec 32 := 0#32

def wral : BitVec 32 := 1#32

/-- `// Erase all memory locations` -/
def eral : BitVec 32 := 2#32

/-- `// Write Enable, must precede all programming modes` -/
def ewen : BitVec 32 := 3#32

end EepromInstr

namespace LaserEeprom

variable {range : ℕ}

/-- The calls of the driver. -/
inductive Call
  | read (addr : BitVec 32)
  | writeEnable
  | erase (addr : BitVec 32)
  | write (addr dataIn : BitVec 32)
  | eraseAll
  | writeAll (dataIn : BitVec 32)
  | eraseWriteDisable
  deriving DecidableEq

/-- The argument of `ctl.write<reg::eeprom_ctl>`. -/
def word : Call → BitVec 32
  | .read addr => (EepromInstr.read <<< 5) + (addr <<< 1)
  | .writeEnable => EepromInstr.ewen <<< 5
  | .erase addr => (EepromInstr.erase <<< 5) + (addr <<< 1)
  | .write addr dataIn => (dataIn <<< 16) + (EepromInstr.write <<< 5) + (addr <<< 1)
  | .eraseAll => EepromInstr.eral <<< 5
  | .writeAll dataIn => (dataIn <<< 16) + (EepromInstr.wral <<< 5)
  | .eraseWriteDisable => EepromInstr.ewds <<< 5

/-- The registers after `ctl.write<reg::eeprom_ctl>`. -/
def written (eepromCtl : Offset range) (call : Call) (m : Registers range) :
    Registers range :=
  m.store eepromCtl (word call)

/-- The registers after `ctl.set_bit<reg::eeprom_ctl, 0>`. -/
def started (eepromCtl : Offset range) (call : Call) (m : Registers range) :
    Registers range :=
  (written eepromCtl call m).setBit eepromCtl 0

/-- The inputs of the core: `get_slice_pin eeprom_ctl 8 1`, `31 16` and `0 0`. -/
def slices (eepromCtl : BitVec 32) (dout : Bool) : At93c46d.Input :=
  ⟨eepromCtl.extractLsb' 1 8, eepromCtl.extractLsb' 16 16, eepromCtl.getLsbD 0, dout⟩

/-! ## The chip -/

/-- The instructions of the chip. -/
inductive Instruction
  | read (addr : ℕ)
  | write (addr data : ℕ)
  | wral (data : ℕ)
  | erase (addr : ℕ)
  | ewen
  | eral
  | ewds
  deriving DecidableEq

/-- What a command is: the two tests of the core, and the other modes of the chip. -/
def instruction (cmd : BitVec 8) (data : BitVec 16) : Instruction :=
  if At93c46d.isRead cmd then .read (cmd.toNat % 64)
  else if At93c46d.isWrite cmd then
    if cmd.toNat / 64 = 1 then .write (cmd.toNat % 64) data.toNat else .wral data.toNat
  else if cmd.toNat / 64 = 3 then .erase (cmd.toNat % 64)
  else if cmd.toNat / 16 = 3 then .ewen
  else if cmd.toNat / 16 = 2 then .eral
  else .ewds

/-- What a call asks for. -/
def requested : Call → Instruction
  | .read addr => .read addr.toNat
  | .writeEnable => .ewen
  | .erase addr => .erase addr.toNat
  | .write addr dataIn => .write addr.toNat dataIn.toNat
  | .eraseAll => .eral
  | .writeAll dataIn => .wral dataIn.toNat
  | .eraseWriteDisable => .ewds

/-- There are 64 addresses, of 16 bits each. -/
def Fits : Instruction → Prop
  | .read addr => addr < 64
  | .write addr data => addr < 64 ∧ data < 2 ^ 16
  | .wral data => data < 2 ^ 16
  | .erase addr => addr < 64
  | .ewen => True
  | .eral => True
  | .ewds => True

/-- The chip has no others. -/
theorem fits_instruction (cmd : BitVec 8) (data : BitVec 16) : Fits (instruction cmd data) := by
  have haddr : cmd.toNat % 64 < 64 := Nat.mod_lt _ (by decide)
  unfold instruction
  split
  · exact haddr
  · split
    · split
      · exact ⟨haddr, data.isLt⟩
      · exact data.isLt
    · split
      · exact haddr
      · split
        · trivial
        · split <;> trivial

/-! ## The word -/

/-- The instruction with the address behind it, or that of all addresses. -/
def opcode : Call → ℕ
  | .read addr => 2 * 64 + addr.toNat
  | .writeEnable => 3 * 16
  | .erase addr => 3 * 64 + addr.toNat
  | .write addr _ => 64 + addr.toNat
  | .eraseAll => 2 * 16
  | .writeAll _ => 16
  | .eraseWriteDisable => 0

/-- The data of a call. -/
def dataOf : Call → ℕ
  | .read _ => 0
  | .writeEnable => 0
  | .erase _ => 0
  | .write _ dataIn => dataIn.toNat
  | .eraseAll => 0
  | .writeAll dataIn => dataIn.toNat
  | .eraseWriteDisable => 0

/-- The word is the sum of its fields, modulo 2^32. -/
theorem toNat_word (call : Call) :
    (word call).toNat = (2 ^ 16 * dataOf call + 2 * opcode call) % 2 ^ 32 := by
  cases call with
  | read addr =>
    rw [word, BitVec.toNat_add, BitVec.toNat_shiftLeft, BitVec.toNat_shiftLeft, dataOf, opcode,
      Nat.shiftLeft_eq, Nat.shiftLeft_eq, show EepromInstr.read.toNat = 8 from rfl]
    omega
  | writeEnable => rfl
  | erase addr =>
    rw [word, BitVec.toNat_add, BitVec.toNat_shiftLeft, BitVec.toNat_shiftLeft, dataOf, opcode,
      Nat.shiftLeft_eq, Nat.shiftLeft_eq, show EepromInstr.erase.toNat = 12 from rfl]
    omega
  | write addr dataIn =>
    rw [word, BitVec.toNat_add, BitVec.toNat_add, BitVec.toNat_shiftLeft, BitVec.toNat_shiftLeft,
      BitVec.toNat_shiftLeft, dataOf, opcode, Nat.shiftLeft_eq, Nat.shiftLeft_eq,
      Nat.shiftLeft_eq, show EepromInstr.write.toNat = 4 from rfl]
    omega
  | eraseAll => rfl
  | writeAll dataIn =>
    rw [word, BitVec.toNat_add, BitVec.toNat_shiftLeft, BitVec.toNat_shiftLeft, dataOf, opcode,
      Nat.shiftLeft_eq, Nat.shiftLeft_eq, show EepromInstr.wral.toNat = 1 from rfl]
    omega
  | eraseWriteDisable => rfl

/-- **The command on the wire:** what does not fit into the address is added to the opcode. -/
theorem toNat_cmd_word (call : Call) :
    ((word call).extractLsb' 1 8).toNat = opcode call % 2 ^ 8 := by
  rw [BitVec.extractLsb'_toNat, toNat_word, Nat.shiftRight_eq_div_pow]
  omega

/-- **The data on the wire:** what does not fit into the command is added to the data. -/
theorem toNat_data_word (call : Call) :
    ((word call).extractLsb' 16 16).toNat = (dataOf call + opcode call / 2 ^ 15) % 2 ^ 16 := by
  rw [BitVec.extractLsb'_toNat, toNat_word, Nat.shiftRight_eq_div_pow]
  omega

/-- The bit of `start` is free. -/
theorem start_word (call : Call) : (word call).getLsbD 0 = false := by
  rw [← BitVec.testBit_toNat, toNat_word, Nat.testBit_zero]
  refine decide_eq_false ?_
  omega

/-- The bit of `start` is set alone. -/
theorem slices_started (eepromCtl : Offset range) (call : Call) (m : Registers range)
    (dout : Bool) :
    slices (started eepromCtl call m eepromCtl) dout =
      { slices (word call) dout with start := true } := by
  have hword : started eepromCtl call m eepromCtl = word call ||| 1#32 := by
    unfold started Registers.setBit written Registers.store
    rw [Function.update_self, Function.update_self]
    rfl
  have hbit : ∀ i, (1#32).getLsbD i = decide (i = 0) := fun i => by
    rw [BitVec.getLsbD_one]
    grind
  have hslice : ∀ low width, 0 < low →
      (word call ||| 1#32).extractLsb' low width = (word call).extractLsb' low width := by
    intro low width hlow
    ext i hi
    rw [BitVec.getElem_extractLsb', BitVec.getElem_extractLsb', BitVec.getLsbD_or, hbit,
      decide_eq_false (by omega), Bool.or_false]
  have hstart : (word call ||| 1#32).getLsbD 0 = true := by
    rw [BitVec.getLsbD_or, hbit, decide_eq_true rfl, Bool.or_true]
  unfold slices
  rw [hword, hslice 1 8 (by decide), hslice 16 16 (by decide), hstart]

theorem slices_written (eepromCtl : Offset range) (call : Call) (m : Registers range)
    (dout : Bool) :
    slices (written eepromCtl call m eepromCtl) dout = slices (word call) dout := by
  unfold written Registers.store
  rw [Function.update_self]

/-- **The instruction on the wire is the requested one exactly if its arguments fit.** -/
theorem instruction_word_iff (call : Call) :
    instruction ((word call).extractLsb' 1 8) ((word call).extractLsb' 16 16) = requested call ↔
      Fits (requested call) := by
  constructor
  · intro heq
    rw [← heq]
    exact fits_instruction _ _
  · intro hfits
    have hcmd := toNat_cmd_word call
    have hdata := toNat_data_word call
    generalize (word call).extractLsb' 1 8 = cmd at hcmd ⊢
    generalize (word call).extractLsb' 16 16 = data at hdata ⊢
    cases call with
    | read addr =>
      replace hfits : addr.toNat < 64 := hfits
      replace hcmd : cmd.toNat = 128 + addr.toNat := by
        rw [hcmd, opcode]
        omega
      have hop : cmd.toNat / 64 = 2 := by omega
      have haddr : cmd.toNat % 64 = addr.toNat := by omega
      simp [instruction, At93c46d.isRead, hop, haddr, requested]
    | writeEnable =>
      replace hcmd : cmd.toNat = 48 := hcmd
      simp [instruction, At93c46d.isRead, At93c46d.isWrite, hcmd, requested]
    | erase addr =>
      replace hfits : addr.toNat < 64 := hfits
      replace hcmd : cmd.toNat = 192 + addr.toNat := by
        rw [hcmd, opcode]
        omega
      have hop : cmd.toNat / 64 = 3 := by omega
      have hall : cmd.toNat / 16 ≠ 1 := by omega
      have haddr : cmd.toNat % 64 = addr.toNat := by omega
      simp [instruction, At93c46d.isRead, At93c46d.isWrite, hop, hall, haddr, requested]
    | write addr dataIn =>
      obtain ⟨hfits, hwide⟩ : addr.toNat < 64 ∧ dataIn.toNat < 2 ^ 16 := hfits
      replace hcmd : cmd.toNat = 64 + addr.toNat := by
        rw [hcmd, opcode]
        omega
      replace hdata : data.toNat = dataIn.toNat := by
        rw [hdata, dataOf, opcode]
        omega
      have hop : cmd.toNat / 64 = 1 := by omega
      have haddr : cmd.toNat % 64 = addr.toNat := by omega
      simp [instruction, At93c46d.isRead, At93c46d.isWrite, hop, haddr, hdata, requested]
    | eraseAll =>
      replace hcmd : cmd.toNat = 32 := hcmd
      simp [instruction, At93c46d.isRead, At93c46d.isWrite, hcmd, requested]
    | writeAll dataIn =>
      replace hfits : dataIn.toNat < 2 ^ 16 := hfits
      replace hcmd : cmd.toNat = 16 := hcmd
      replace hdata : data.toNat = dataIn.toNat := by
        rw [hdata, dataOf, opcode]
        omega
      simp [instruction, At93c46d.isRead, At93c46d.isWrite, hcmd, hdata, requested]
    | eraseWriteDisable =>
      replace hcmd : cmd.toNat = 0 := hcmd
      simp [instruction, At93c46d.isRead, At93c46d.isWrite, hcmd, requested]

/-! ## At the core -/

/-- The core with the word on its inputs, for some clocks before its first bit is set and for one
behind. -/
def atCore (eepromCtl : Offset range) (call : Call) (m : Registers range) (r : At93c46d)
    (dout : ℕ → Bool) (n : ℕ) : At93c46d :=
  (trace At93c46d.posedge r
    (fun k => slices (written eepromCtl call m eepromCtl) (dout k)) (n + 1)).posedge
      (slices (started eepromCtl call m eepromCtl) (dout (n + 1)))

/-- A call reaches the chip as it is: a core that is idle begins a transfer, and has latched the
requested instruction. -/
def Reaches (call : Call) : Prop :=
  ∀ (range : ℕ) (eepromCtl : Offset range) (m : Registers range) (r : At93c46d) (dout : ℕ → Bool)
    (n : ℕ), r.cs = false →
    (atCore eepromCtl call m r dout n).cs = true ∧
      instruction (atCore eepromCtl call m r dout n).cmdReg
        (atCore eepromCtl call m r dout n).dataInReg = requested call

/-- A core that is idle and sees no `start` stays so. -/
theorem idle_trace {r : At93c46d} (hcs : r.cs = false) {x : ℕ → At93c46d.Input}
    (hx : ∀ k, (x k).start = false) (n : ℕ) :
    (trace At93c46d.posedge r x (n + 1)).cs = false ∧
      (trace At93c46d.posedge r x (n + 1)).startNext = false := by
  have hstep : ∀ s : At93c46d, s.cs = false → ∀ k,
      (s.posedge (x k)).cs = false ∧ (s.posedge (x k)).startNext = false := by
    intro s hs k
    unfold At93c46d.posedge At93c46d.latch
    rw [if_neg (by rw [hs]; exact Bool.false_ne_true),
      if_neg (by rw [hx]; exact fun hand => Bool.noConfusion hand.2)]
    exact ⟨hs, hx k⟩
  induction n with
  | zero => exact hstep r hcs 0
  | succ n ih => exact hstep _ ih.1 (n + 1)

/-- What the core latches. -/
theorem atCore_latches (eepromCtl : Offset range) (call : Call) (m : Registers range) {r : At93c46d}
    (hcs : r.cs = false) (dout : ℕ → Bool) (n : ℕ) :
    (atCore eepromCtl call m r dout n).cs = true ∧
      (atCore eepromCtl call m r dout n).cmdReg = (word call).extractLsb' 1 8 ∧
      (atCore eepromCtl call m r dout n).dataInReg = (word call).extractLsb' 16 16 := by
  obtain ⟨hidle, hnext⟩ := idle_trace hcs (x := fun k =>
    slices (written eepromCtl call m eepromCtl) (dout k)) (fun k => by
      rw [slices_written]
      exact start_word call) n
  rw [atCore, slices_started, At93c46d.posedge_of_start hidle hnext rfl]
  exact ⟨rfl, rfl, rfl⟩

/-- **The calls that reach the chip as they are** are those whose address and data fit. -/
theorem reaches_iff_fits (call : Call) : Reaches call ↔ Fits (requested call) := by
  rw [← instruction_word_iff]
  constructor
  · intro hreaches
    obtain ⟨-, heq⟩ := hreaches 4 ⟨0, Nat.dvd_zero 4, le_refl 4⟩ (fun _ => 0) At93c46d.powerUp
      (fun _ => false) 0 rfl
    obtain ⟨-, hcmd, hdata⟩ := atCore_latches (⟨0, Nat.dvd_zero 4, le_refl 4⟩ : Offset 4) call
      (fun _ => 0) (r := At93c46d.powerUp) rfl (fun _ => false) 0
    rwa [hcmd, hdata] at heq
  · intro heq range eepromCtl m r dout n hcs
    obtain ⟨hhigh, hcmd, hdata⟩ := atCore_latches eepromCtl call m hcs dout n
    rw [hcmd, hdata]
    exact ⟨hhigh, heq⟩

/-- A read behind the last address erases the first one. -/
theorem not_forall_reaches : ¬ ∀ call : Call, Reaches call := by
  intro h
  obtain ⟨-, heq⟩ := h (.read 64#32) 4 ⟨0, Nat.dvd_zero 4, le_refl 4⟩ (fun _ => 0) At93c46d.powerUp
    (fun _ => false) 0 rfl
  obtain ⟨-, hcmd, hdata⟩ := atCore_latches (⟨0, Nat.dvd_zero 4, le_refl 4⟩ : Offset 4)
    (.read 64#32)
    (fun _ => 0) (r := At93c46d.powerUp) rfl (fun _ => false) 0
  rw [hcmd, hdata] at heq
  have herase : instruction ((word (.read 64#32)).extractLsb' 1 8)
      ((word (.read 64#32)).extractLsb' 16 16) = .erase 0 := by decide
  rw [herase] at heq
  cases heq

/-- When `eeprom_ctl` is not written to in the meantime, what was latched is shifted out. -/
theorem shiftsOut_started {s : At93c46d} {eepromCtl : Offset range} {call : Call}
    {m : Registers range}
    {dout : ℕ → Bool} (hcs : s.cs = false) (hcount : s.cntSclk = 0) (hnext : s.startNext = false) :
    At93c46d.ShiftsOut s fun k => slices (started eepromCtl call m eepromCtl) (dout k) := by
  refine At93c46d.shiftsOut_of_steady ⟨hcs, hcount, hnext, ?_⟩ (fun _ => rfl) fun _ => rfl
  rw [slices_started]

end LaserEeprom

end KoheronSdk
