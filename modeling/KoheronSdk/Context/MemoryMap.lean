import Mathlib.Logic.Function.Basic
import KoheronSdk.Server.Tcp

/-!
# Writing the registers of a mapped range

`Memory` changes registers in place, by a load, an operation on bits and a store.  Two things make
this less harmless than it looks, and both have to do with the pointer type that the access goes
through.

## The width of an access

`set_bit`, `clear_bit` and `write_bit` access the register as a `uint32_t`; all others access it as
a `uintptr_t`.  On 32 bits this is the same.  On 64 bits the access takes in the register behind,
and it can fail where the narrow one does not: at the last register of the range it goes past the
mapping, and at an offset that is 4 modulo 8 it is not aligned, which the memory of a device does
not allow.  Registers are therefore those of a range with an end (`Offset range`), and an operation
has no result where its access faults.

The address of the range is one of a page, so that an address is aligned exactly where its offset
is.

## The width of a mask

A mask is complemented as a `uint32_t` and then widened, so that its upper half is zero.  An
operation that complements one zeroes the register behind; the others widen a mask that is to be
zero up there, and leave that register as it is.

## Results

* `modifyPtr_and_or`, `modifyPtr_or`, `modifyPtr_xor`: what an access through a `uintptr_t` does to
  the two registers.
* `runTime_eq_none_iff`: the accesses that fault.
* `runTime_eq`, `compileTime_eq`: what the ten operations come to.
* `isolated_iff`: when the addressed register is the only one that changes, and as it should.

The bit that `1U << index` sets is a matter of the processor from index 32 on (`Arch.oneShift`);
the results here are about indices below 32, and `Drivers/LedBlinker` uses the others.
-/

namespace KoheronSdk

/-! ## The registers -/

/-- The offset of a 32-bit register in a range of `range` bytes. -/
structure Offset (range : ℕ) where
  bytes : ℕ
  aligned : 4 ∣ bytes
  end_le : bytes + 4 ≤ range
  deriving DecidableEq

namespace Offset

variable {range : ℕ}

/-- Eight bytes can be accessed there: the address is aligned, and they are all mapped. -/
def Wide (offset : Offset range) : Prop := 8 ∣ offset.bytes ∧ offset.bytes + 8 ≤ range

instance (offset : Offset range) : Decidable offset.Wide :=
  inferInstanceAs (Decidable (_ ∧ _))

/-- The offset of the register behind. -/
def next (offset : Offset range) (h : offset.Wide) : Offset range :=
  ⟨offset.bytes + 4, Nat.dvd_add_self_right.mpr offset.aligned, h.2⟩

theorem next_ne (offset : Offset range) (h : offset.Wide) : offset.next h ≠ offset := by
  intro heq
  have hbytes : offset.bytes + 4 = offset.bytes := congrArg bytes heq
  omega

end Offset

/-- The contents of a mapped range. -/
abbrev Registers (range : ℕ) := Offset range → BitVec 32

/-- The bits of a `uintptr_t`. -/
def Arch.ptrBits : Arch → ℕ
  | .lp64 => 64
  | .ilp32 => 32

/-- `1U << index`, with the index in a register: `lsl` takes it modulo 32 on aarch64, and modulo
256 on arm, where 32 and more shift the bit out. -/
def Arch.oneShift : Arch → UInt32 → BitVec 32
  | .lp64, index => 1#32 <<< (index.toNat % 32)
  | .ilp32, index => 1#32 <<< (index.toNat % 256)

theorem Arch.oneShift_ofNat (arch : Arch) (index : Fin 32) :
    arch.oneShift (UInt32.ofNat index) = 1#32 <<< index.val := by
  have hindex : (UInt32.ofNat index).toNat = index.val :=
    Nat.mod_eq_of_lt (by have := index.isLt; omega)
  cases arch with
  | lp64 => rw [oneShift, hindex, Nat.mod_eq_of_lt index.isLt]
  | ilp32 => rw [oneShift, hindex, Nat.mod_eq_of_lt (by have := index.isLt; omega)]

namespace Registers

variable {range : ℕ}

/-- `*(volatile uintptr_t *) addr`, little endian -/
def loadPtr : (arch : Arch) → Registers range → Offset range → Option (BitVec arch.ptrBits)
  | .lp64, m, offset => if h : offset.Wide then some (m (offset.next h) ++ m offset) else none
  | .ilp32, m, offset => some (m offset)

/-- `*(volatile uintptr_t *) addr = value` -/
def storePtr : (arch : Arch) → Registers range → Offset range → BitVec arch.ptrBits →
    Option (Registers range)
  | .lp64, m, offset, value =>
    if h : offset.Wide then
      some (Function.update (Function.update m offset (value.extractLsb' 0 32)) (offset.next h)
        (value.extractLsb' 32 32))
    else none
  | .ilp32, m, offset, value => some (Function.update m offset value)

/-- `*(volatile uint32_t *) addr = value` -/
def store (m : Registers range) (offset : Offset range) (value : BitVec 32) : Registers range :=
  Function.update m offset value

/-! ## The operations -/

variable (arch : Arch) (offset : Offset range) (m : Registers range)

/-- `*(volatile uintptr_t *) addr = f(*(volatile uintptr_t *) addr)` -/
def modifyPtr (f : BitVec arch.ptrBits → BitVec arch.ptrBits) : Option (Registers range) := do
  let old ← m.loadPtr arch offset
  m.storePtr arch offset (f old)

/-- `write_mask<offset, mask>(value)` -/
def writeMask (mask value : BitVec 32) : Option (Registers range) :=
  m.modifyPtr arch offset fun old =>
    (old &&& (~~~mask).setWidth _) ||| (value &&& mask).setWidth _

/-- `write_reg_mask(offset, mask, value)` -/
def writeRegMask (mask value : BitVec 32) : Option (Registers range) :=
  m.modifyPtr arch offset fun old =>
    (old &&& (~~~mask).setWidth _) ||| (value &&& mask).setWidth _

/-- `set_bit<offset, index>()` -/
def setBit (index : Fin 32) : Registers range :=
  m.store offset (m offset ||| 1#32 <<< index.val)

/-- `set_bit_reg(offset, index)` -/
def setBitReg (index : UInt32) : Option (Registers range) :=
  m.modifyPtr arch offset fun old => old ||| (arch.oneShift index).setWidth _

/-- `clear_bit<offset, index>()` -/
def clearBit (index : Fin 32) : Registers range :=
  m.store offset (m offset &&& ~~~(1#32 <<< index.val))

/-- `clear_bit_reg(offset, index)` -/
def clearBitReg (index : UInt32) : Option (Registers range) :=
  m.modifyPtr arch offset fun old => old &&& (~~~(arch.oneShift index)).setWidth _

/-- `toggle_bit<offset, index>()` -/
def toggleBit (index : Fin 32) : Option (Registers range) :=
  m.modifyPtr arch offset fun old => old ^^^ (1#32 <<< index.val).setWidth _

/-- `toggle_bit_reg(offset, index)` -/
def toggleBitReg (index : UInt32) : Option (Registers range) :=
  m.modifyPtr arch offset fun old => old ^^^ (arch.oneShift index).setWidth _

/-- `write_bit<offset, index>(value)` -/
def writeBit (index : Fin 32) (value : Bool) : Registers range :=
  if value then m.setBit offset index else m.clearBit offset index

/-- `write_bit_reg(offset, index, value)` -/
def writeBitReg (index : UInt32) (value : Bool) : Option (Registers range) :=
  if value then m.setBitReg arch offset index else m.clearBitReg arch offset index

/-! ### What they come to -/

/-- An access through a `uintptr_t` does not fault. -/
def InReach : Prop := arch = .ilp32 ∨ offset.Wide

/-- The register behind is zeroed where it is in reach. -/
def zeroNext : Registers range :=
  match arch with
  | .lp64 => if h : offset.Wide then Function.update m (offset.next h) 0 else m
  | .ilp32 => m

section Halves

variable (x y : BitVec 32)

@[simp] theorem low_append : (x ++ y : BitVec 64).extractLsb' 0 32 = y :=
  BitVec.extractLsb'_append_eq_right

@[simp] theorem high_append : (x ++ y : BitVec 64).extractLsb' 32 32 = x :=
  BitVec.extractLsb'_append_eq_left

@[simp] theorem low_setWidth : (x.setWidth 64).extractLsb' 0 32 = x := by
  ext i hi
  simp [hi, Nat.lt_add_right 32 hi]

@[simp] theorem high_setWidth : (x.setWidth 64).extractLsb' 32 32 = 0 := by
  ext i hi
  simp

end Halves

variable {arch offset m}

theorem loadPtr_lp64 (h : offset.Wide) :
    m.loadPtr .lp64 offset = some (m (offset.next h) ++ m offset : BitVec 64) :=
  dif_pos h

theorem loadPtr_lp64_of_not (h : ¬ offset.Wide) : m.loadPtr .lp64 offset = none :=
  dif_neg h

theorem storePtr_lp64 (h : offset.Wide) (value : BitVec 64) :
    m.storePtr .lp64 offset value
      = some (Function.update (Function.update m offset (value.extractLsb' 0 32))
          (offset.next h) (value.extractLsb' 32 32)) :=
  dif_pos h

theorem modifyPtr_lp64 (h : offset.Wide) (f : BitVec 64 → BitVec 64) :
    m.modifyPtr .lp64 offset f
      = some (Function.update
          (Function.update m offset ((f (m (offset.next h) ++ m offset)).extractLsb' 0 32))
          (offset.next h) ((f (m (offset.next h) ++ m offset)).extractLsb' 32 32)) := by
  show (m.loadPtr .lp64 offset).bind (fun old => m.storePtr .lp64 offset (f old)) = _
  rw [loadPtr_lp64 h]
  exact storePtr_lp64 h _

theorem modifyPtr_eq_none_iff {f : BitVec arch.ptrBits → BitVec arch.ptrBits} :
    m.modifyPtr arch offset f = none ↔ ¬ InReach arch offset := by
  cases arch with
  | ilp32 => exact iff_of_false (Option.some_ne_none _) (not_not_intro (Or.inl rfl))
  | lp64 =>
    by_cases h : offset.Wide
    · have hsome := modifyPtr_lp64 (m := m) h f
      exact iff_of_false (Option.ne_none_iff_exists'.mpr ⟨_, hsome⟩) (not_not_intro (Or.inr h))
    · refine iff_of_true ?_ (not_or.mpr ⟨Arch.noConfusion, h⟩)
      show (m.loadPtr .lp64 offset).bind (fun old => m.storePtr .lp64 offset (f old)) = _
      rw [loadPtr_lp64_of_not h, Option.bind_none]

/-- An access that leaves the upper half alone changes one register. -/
theorem update_next_self (h : offset.Wide) (value : BitVec 32) :
    Function.update (Function.update m offset value) (offset.next h) (m (offset.next h))
      = Function.update m offset value := by
  rw [Function.update_comm (offset.next_ne h).symm, Function.update_eq_self]

/-- On 64 bits the bits that a mask keeps are all in the lower half. -/
theorem modifyPtr_and_or (hreach : InReach arch offset) (mask value : BitVec 32) :
    m.modifyPtr arch offset (fun old => (old &&& mask.setWidth _) ||| value.setWidth _)
      = some (Function.update (m.zeroNext arch offset) offset ((m offset &&& mask) ||| value)) := by
  cases arch with
  | lp64 =>
    have h : offset.Wide := hreach.resolve_left Arch.noConfusion
    show m.modifyPtr .lp64 offset (fun old : BitVec 64 =>
      (old &&& mask.setWidth 64) ||| value.setWidth 64) = _
    rw [modifyPtr_lp64 h, zeroNext, dif_pos h, Function.update_comm (offset.next_ne h)]
    simp [BitVec.extractLsb'_or, BitVec.extractLsb'_and]
  | ilp32 =>
    show some (Function.update m offset ((m offset &&& mask.setWidth 32) ||| value.setWidth 32)) = _
    rw [BitVec.setWidth_eq, BitVec.setWidth_eq]
    rfl

theorem modifyPtr_and (hreach : InReach arch offset) (mask : BitVec 32) :
    m.modifyPtr arch offset (fun old => old &&& mask.setWidth _)
      = some (Function.update (m.zeroNext arch offset) offset (m offset &&& mask)) := by
  simpa using modifyPtr_and_or (m := m) hreach mask 0

theorem modifyPtr_or (hreach : InReach arch offset) (value : BitVec 32) :
    m.modifyPtr arch offset (fun old => old ||| value.setWidth _)
      = some (Function.update m offset (m offset ||| value)) := by
  cases arch with
  | lp64 =>
    have h : offset.Wide := hreach.resolve_left Arch.noConfusion
    show m.modifyPtr .lp64 offset (fun old : BitVec 64 => old ||| value.setWidth 64) = _
    rw [modifyPtr_lp64 h]
    simp [BitVec.extractLsb'_or, update_next_self]
  | ilp32 =>
    show some (Function.update m offset (m offset ||| value.setWidth 32)) = _
    rw [BitVec.setWidth_eq]

theorem modifyPtr_xor (hreach : InReach arch offset) (value : BitVec 32) :
    m.modifyPtr arch offset (fun old => old ^^^ value.setWidth _)
      = some (Function.update m offset (m offset ^^^ value)) := by
  cases arch with
  | lp64 =>
    have h : offset.Wide := hreach.resolve_left Arch.noConfusion
    show m.modifyPtr .lp64 offset (fun old : BitVec 64 => old ^^^ value.setWidth 64) = _
    rw [modifyPtr_lp64 h]
    simp [BitVec.extractLsb'_xor, update_next_self]
  | ilp32 =>
    show some (Function.update m offset (m offset ^^^ value.setWidth 32)) = _
    rw [BitVec.setWidth_eq]

/-- The register behind is out of reach or zero already. -/
def NextZero (arch : Arch) (offset : Offset range) (m : Registers range) : Prop :=
  arch = .ilp32 ∨ ∃ h : offset.Wide, m (offset.next h) = 0

theorem update_zeroNext (hreach : InReach arch offset) (value : BitVec 32) :
    Function.update (m.zeroNext arch offset) offset value = Function.update m offset value ↔
      NextZero arch offset m := by
  cases arch with
  | lp64 =>
    have hwide : offset.Wide := hreach.resolve_left Arch.noConfusion
    rw [zeroNext, dif_pos hwide]
    constructor
    · intro h
      have hnext := congrFun h (offset.next hwide)
      rw [Function.update_of_ne (offset.next_ne hwide), Function.update_self,
        Function.update_of_ne (offset.next_ne hwide)] at hnext
      exact Or.inr ⟨hwide, hnext.symm⟩
    · rintro (h | ⟨_, h⟩)
      · exact absurd h Arch.noConfusion
      · rw [← h, Function.update_eq_self]
  | ilp32 => exact iff_of_true rfl (Or.inl rfl)

end Registers

/-! ## Which registers change -/

/-- A write that leaves some bits of its register alone. -/
inductive RegisterWrite where
  | mask (bits value : BitVec 32)
  | set (index : Fin 32)
  | clear (index : Fin 32)
  | toggle (index : Fin 32)
  | write (index : Fin 32) (value : Bool)
  deriving DecidableEq

namespace RegisterWrite

variable {range : ℕ}

/-- What becomes of bit `j`. -/
def bit : RegisterWrite → Fin 32 → Bool → Bool
  | .mask bits value, j, old => if bits[j] then value[j] else old
  | .set index, j, old => if j = index then true else old
  | .clear index, j, old => if j = index then false else old
  | .toggle index, j, old => if j = index then !old else old
  | .write index value, j, old => if j = index then value else old

/-- The variant with offset, mask and index in the template's arguments. -/
def compileTime :
    RegisterWrite → Arch → Offset range → Registers range → Option (Registers range)
  | .mask bits value, arch, offset, m => m.writeMask arch offset bits value
  | .set index, _, offset, m => some (m.setBit offset index)
  | .clear index, _, offset, m => some (m.clearBit offset index)
  | .toggle index, arch, offset, m => m.toggleBit arch offset index
  | .write index value, _, offset, m => some (m.writeBit offset index value)

/-- The variant that takes them as arguments. -/
def runTime : RegisterWrite → Arch → Offset range → Registers range → Option (Registers range)
  | .mask bits value, arch, offset, m => m.writeRegMask arch offset bits value
  | .set index, arch, offset, m => m.setBitReg arch offset (.ofNat index)
  | .clear index, arch, offset, m => m.clearBitReg arch offset (.ofNat index)
  | .toggle index, arch, offset, m => m.toggleBitReg arch offset (.ofNat index)
  | .write index value, arch, offset, m => m.writeBitReg arch offset (.ofNat index) value

/-- The addressed register is changed as the name says, and no other one. -/
structure Isolated (w : RegisterWrite) (offset : Offset range) (m m' : Registers range) :
    Prop where
  prescribed : ∀ j : Fin 32, (m' offset)[j] = w.bit j (m offset)[j]
  others : ∀ other, other ≠ offset → m' other = m other

/-- The new value of a register. -/
def value : RegisterWrite → BitVec 32 → BitVec 32
  | .mask bits value, r => (r &&& ~~~bits) ||| (value &&& bits)
  | .set index, r => r ||| 1#32 <<< index.val
  | .clear index, r => r &&& ~~~(1#32 <<< index.val)
  | .toggle index, r => r ^^^ 1#32 <<< index.val
  | .write index true, r => r ||| 1#32 <<< index.val
  | .write index false, r => r &&& ~~~(1#32 <<< index.val)

/-- A mask is complemented. -/
def complements : RegisterWrite → Bool
  | .mask .. | .clear _ => true
  | .write _ value => !value
  | .set _ | .toggle _ => false

theorem getElem_oneShift (index j : Fin 32) :
    (1#32 <<< index.val)[j.val] = decide (j = index) := by
  rw [BitVec.getElem_shiftLeft, BitVec.getElem_one, Bool.eq_iff_iff]
  simp only [Bool.and_eq_true, Bool.not_eq_true', decide_eq_false_iff_not, decide_eq_true_eq,
    Fin.ext_iff]
  omega

theorem getElem_or_oneShift (r : BitVec 32) (index j : Fin 32) :
    (r ||| 1#32 <<< index.val)[j.val] = if j = index then true else r[j.val] := by
  rw [BitVec.getElem_or, getElem_oneShift]
  by_cases h : j = index <;> simp [h]

theorem getElem_and_not_oneShift (r : BitVec 32) (index j : Fin 32) :
    (r &&& ~~~(1#32 <<< index.val))[j.val] = if j = index then false else r[j.val] := by
  rw [BitVec.getElem_and, BitVec.getElem_not, getElem_oneShift]
  by_cases h : j = index <;> simp [h]

theorem getElem_xor_oneShift (r : BitVec 32) (index j : Fin 32) :
    (r ^^^ 1#32 <<< index.val)[j.val] = if j = index then !r[j.val] else r[j.val] := by
  rw [BitVec.getElem_xor, getElem_oneShift]
  by_cases h : j = index <;> simp [h]

variable (w : RegisterWrite) (arch : Arch) (offset : Offset range) (m : Registers range)

theorem getElem_value (r : BitVec 32) (j : Fin 32) : (w.value r)[j] = w.bit j r[j] := by
  rw [Fin.getElem_fin, Fin.getElem_fin]
  cases w with
  | mask bits value =>
    rw [RegisterWrite.value, bit, BitVec.getElem_or, BitVec.getElem_and, BitVec.getElem_and,
      BitVec.getElem_not, Fin.getElem_fin, Fin.getElem_fin]
    cases bits[j.val] <;> simp
  | set index => exact getElem_or_oneShift r index j
  | clear index => exact getElem_and_not_oneShift r index j
  | toggle index => exact getElem_xor_oneShift r index j
  | write index value =>
    cases value with
    | true => exact getElem_or_oneShift r index j
    | false => exact getElem_and_not_oneShift r index j

theorem isolated_iff_eq {m' : Registers range} :
    w.Isolated offset m m' ↔ m' = Function.update m offset (w.value (m offset)) := by
  constructor
  · intro h
    have hself : m' offset = w.value (m offset) := by
      refine BitVec.eq_of_getElem_eq fun j hj => ?_
      exact (h.prescribed ⟨j, hj⟩).trans (w.getElem_value (m offset) ⟨j, hj⟩).symm
    exact Function.eq_update_iff.mpr ⟨hself, h.others⟩
  · rintro rfl
    constructor
    · intro j
      rw [Function.update_self, getElem_value]
    · exact fun other hother => Function.update_of_ne hother _ _

/-- At run time every access is one through a `uintptr_t`. -/
theorem runTime_eq_none_iff :
    w.runTime arch offset m = none ↔ ¬ Registers.InReach arch offset := by
  cases w with
  | write index value => cases value <;> exact Registers.modifyPtr_eq_none_iff
  | mask | set | clear | toggle => exact Registers.modifyPtr_eq_none_iff

variable {arch offset}

/-- At run time the register behind is zeroed whenever a mask is complemented. -/
theorem runTime_eq (hreach : Registers.InReach arch offset) : w.runTime arch offset m
    = some (Function.update (if w.complements then m.zeroNext arch offset else m) offset
        (w.value (m offset))) := by
  have hset : ∀ index : Fin 32, m.setBitReg arch offset (.ofNat index)
      = some (Function.update m offset (m offset ||| 1#32 <<< index.val)) := by
    intro index
    rw [← arch.oneShift_ofNat index]
    exact Registers.modifyPtr_or hreach _
  have hclear : ∀ index : Fin 32, m.clearBitReg arch offset (.ofNat index)
      = some (Function.update (m.zeroNext arch offset) offset
          (m offset &&& ~~~(1#32 <<< index.val))) := by
    intro index
    rw [← arch.oneShift_ofNat index]
    exact Registers.modifyPtr_and hreach _
  cases w with
  | mask bits value => exact Registers.modifyPtr_and_or hreach (~~~bits) (value &&& bits)
  | set index => exact hset index
  | clear index => exact hclear index
  | toggle index =>
    rw [value, ← arch.oneShift_ofNat index]
    exact Registers.modifyPtr_xor hreach _
  | write index value =>
    cases value with
    | true => exact hset index
    | false => exact hclear index

/-- At compile time it is, by `write_mask` alone. -/
theorem compileTime_eq (hreach : Registers.InReach arch offset)
    (h : w.complements = false ∨ m.NextZero arch offset) :
    w.compileTime arch offset m = some (Function.update m offset (w.value (m offset))) := by
  cases w with
  | mask bits value =>
    have hzero : Registers.NextZero arch offset m := h.resolve_left Bool.noConfusion
    rw [← (Registers.update_zeroNext hreach _).mpr hzero]
    exact Registers.modifyPtr_and_or hreach (~~~bits) (value &&& bits)
  | toggle index => exact Registers.modifyPtr_xor hreach (1#32 <<< index.val)
  | set index | clear index => rfl
  | write index value => cases value <;> rfl

variable (arch offset)

/-- Both variants change the addressed register only, and agree. -/
def Sound : Prop :=
  ∃ m', w.compileTime arch offset m = some m' ∧ w.runTime arch offset m = some m' ∧
    w.Isolated offset m m'

/-- **Both variants change the addressed register only**, and agree, on 32 bits and wherever the
eight bytes of a `uintptr_t` can be accessed and either no mask is complemented or the register
behind is zero. -/
theorem isolated_iff :
    w.Sound arch offset m ↔
      arch = .ilp32 ∨
        ∃ h : offset.Wide, w.complements = false ∨ m (offset.next h) = 0 := by
  constructor
  · rintro ⟨m', -, hrun, hisolated⟩
    have hreach : Registers.InReach arch offset := by
      by_contra hout
      rw [(w.runTime_eq_none_iff arch offset m).mpr hout] at hrun
      cases hrun
    rw [w.runTime_eq m hreach] at hrun
    obtain rfl := Option.some.inj hrun
    rw [isolated_iff_eq] at hisolated
    cases hcompl : w.complements with
    | false => exact hreach.imp_right fun hwide => ⟨hwide, Or.inl rfl⟩
    | true =>
      rw [hcompl, if_pos rfl, Registers.update_zeroNext hreach] at hisolated
      exact hisolated.imp_right fun ⟨hwide, hnext⟩ => ⟨hwide, Or.inr hnext⟩
  · intro h
    have hreach : Registers.InReach arch offset := h.imp_right Exists.choose
    have hzero : w.complements = false ∨ m.NextZero arch offset := by
      rcases h with h | ⟨hwide, hcompl | hnext⟩
      · exact Or.inr (Or.inl h)
      · exact Or.inl hcompl
      · exact Or.inr (Or.inr ⟨hwide, hnext⟩)
    refine ⟨_, w.compileTime_eq m hreach hzero, ?_, (w.isolated_iff_eq offset m).mpr rfl⟩
    rw [w.runTime_eq m hreach]
    cases hcompl : w.complements with
    | false => rw [if_neg Bool.false_ne_true]
    | true =>
      have hnext := hzero.resolve_left (hcompl ▸ Bool.noConfusion)
      rw [if_pos rfl, (Registers.update_zeroNext hreach _).mpr hnext]

/-- Clearing bit 0 of the first of two registers, on 64 bits and with all bits set, clears the
second one. -/
theorem not_isolated_clear :
    ¬ ∀ (range : ℕ) (w : RegisterWrite) (arch : Arch) (offset : Offset range)
      (m : Registers range), w.Sound arch offset m := by
  intro h
  have hwide : (⟨0, dvd_zero 4, by decide⟩ : Offset 8).Wide := by decide
  obtain ⟨m', -, hrun, hisolated⟩ := h 8 (.clear 0) .lp64 ⟨0, dvd_zero 4, by decide⟩
    fun _ => 0xFFFFFFFF
  rw [runTime_eq _ _ (Or.inr hwide)] at hrun
  obtain rfl := Option.some.inj hrun
  have hnext := hisolated.others ⟨4, dvd_rfl, by decide⟩ (by decide)
  revert hnext
  decide

end RegisterWrite
end KoheronSdk
