import Mathlib.Data.BitVec
import Mathlib.Data.Nat.Bitwise
import KoheronSdk.Context.MemoryMap

/-!
# Mapping the windows of `/dev/mem`

`Memory::open` maps a window from its address with the binary digits of `size - 1` cleared,
and adds these digits back to the virtual address it gets.  The mapping is `size` bytes long
all the same.

So if a digit was cleared, the mapping begins below the window and ends below its end, and the
last bytes of the last block are behind it.  The digits are not there to be cleared
exactly when offset and total size less one have none in common.  For a total size that is a power
of two this is alignment to the size, which is what the code has in mind; for three blocks it
is something else.

The address arithmetic is that of the source, at the width of a pointer of the host and with
the products of `uint32_t`.  That these products are those of the integers is part of the property,
and holds because a window ends below `2 ^ 32`.  The address that `mmap` returns is arbitrary but
for what it promises, and everything is said for all of these addresses.

* `mmapOffset_add_remainder`: the two halves always add up to the physical address.
* `addresses_iff`: no block ends behind the mapping exactly when nothing was cleared.
* `unshared_iff_dvd`: for a size that is a power of two, when the window is aligned to it.
-/

namespace KoheronSdk

/-- An entry of the memory of a configuration. -/
structure MemoryEntry where
  offset : ℕ
  range : ℕ
  nBlocks : ℕ
  offset_aligned : 4096 ∣ offset
  range_aligned : 4096 ∣ range
  range_pos : 0 < range
  nBlocks_pos : 0 < nBlocks
  end_lt : offset + range * nBlocks < 2 ^ 32

namespace MemoryEntry

variable (arch : Arch) (entry : MemoryEntry)

/-! ## The template parameters -/

/-- `mem::get_base_addr(id)` -/
def physAddr : BitVec arch.ptrBits := .ofNat _ entry.offset

/-- `mem::get_range(id)` -/
def blockSize : BitVec 32 := .ofNat _ entry.range

/-- `mem::get_n_blocks(id)` -/
def blocks : BitVec 32 := .ofNat _ entry.nBlocks

/-- `mem::get_total_size(id)` -/
def totalSize : BitVec 32 := entry.blockSize * entry.blocks

/-- The address `config.tcl` gives to a block. -/
def blockAddress (i : ℕ) : ℕ :=
  if entry.nBlocks = 1 then entry.offset else entry.offset + i * entry.range

/-! ## Opening the window -/

/-- `get_mmap_offset(phys_addr, size)` -/
def getMmapOffset (physAddr : BitVec arch.ptrBits) (size : BitVec 32) : BitVec arch.ptrBits :=
  physAddr &&& ~~~(size.setWidth _ - 1)

/-- What `mmap` promises of the address it returns: whole pages, off address zero. -/
structure Mapping where
  base : BitVec arch.ptrBits
  base_aligned : 4096 ∣ base.toNat
  base_pos : 0 < base.toNat
  end_le : base.toNat + entry.totalSize.toNat ≤ 2 ^ arch.ptrBits

variable {arch entry}

namespace Mapping

variable (mapped : Mapping arch entry)

/-- The physical address behind a virtual one. -/
def physical (va : BitVec arch.ptrBits) : Option ℕ :=
  if mapped.base.toNat ≤ va.toNat ∧ va.toNat < mapped.base.toNat + entry.totalSize.toNat then
    some ((getMmapOffset arch (entry.physAddr arch) entry.totalSize).toNat
      + (va.toNat - mapped.base.toNat))
  else none

/-- `base_address`, once `open` has succeeded -/
def baseAddress : BitVec arch.ptrBits :=
  mapped.base + (entry.physAddr arch &&& (entry.totalSize - 1).setWidth _)

/-- `get_ptr<T, offset>(block_idx)` -/
def getPtr (offset blockIdx : BitVec 32) : BitVec arch.ptrBits :=
  mapped.baseAddress + (entry.blockSize * blockIdx).setWidth _ + offset.setWidth _

/-- Where `set_ptr<T, offset>(data_ptr, buff_size, block_idx)` stores `data_ptr[i]`. -/
def setPtr (sizeofT : ℕ) (offset blockIdx i : BitVec 32) : BitVec arch.ptrBits :=
  let addr := mapped.baseAddress + (entry.blockSize * blockIdx).setWidth _ + offset.setWidth _
  addr + .ofNat _ sizeofT * i.setWidth _

end Mapping

/-! ## What is asked of the window -/

variable (arch entry)

/-- The products are those of the integers, and both accesses to a byte of a block reach
the address the block was given. -/
def Addresses : Prop :=
  entry.totalSize.toNat = entry.range * entry.nBlocks ∧
    ∀ (mapped : Mapping arch entry) (i b : ℕ), i < entry.nBlocks → b < entry.range →
      (entry.blockSize * .ofNat 32 i).toNat = entry.range * i ∧
      mapped.physical (mapped.getPtr (.ofNat 32 b) (.ofNat 32 i))
        = some (entry.blockAddress i + b) ∧
      ∀ sizeofT offset k : ℕ, offset + sizeofT * k = b → 0 < sizeofT →
        mapped.physical (mapped.setPtr sizeofT (.ofNat 32 offset) (.ofNat 32 i) (.ofNat 32 k))
          = some (entry.blockAddress i + b)

/-- The offset has no binary digit in common with the total size less one. -/
def Unshared : Prop :=
  entry.offset &&& (entry.range * entry.nBlocks - 1) = 0

instance : Decidable entry.Unshared :=
  inferInstanceAs (Decidable (_ = _))

/-! ## The products -/

theorem one_le_ptrBits : 32 ≤ arch.ptrBits := by
  cases arch <;> simp [Arch.ptrBits]

theorem two_pow_le : 2 ^ 32 ≤ 2 ^ arch.ptrBits :=
  Nat.pow_le_pow_right two_pos (one_le_ptrBits arch)

variable {arch entry}

theorem range_le_size (entry : MemoryEntry) : entry.range ≤ entry.range * entry.nBlocks :=
  Nat.le_mul_of_pos_right _ entry.nBlocks_pos

theorem block_end_le {i : ℕ} (hi : i < entry.nBlocks) :
    entry.range * i + entry.range ≤ entry.range * entry.nBlocks := by
  have h : entry.range * (i + 1) ≤ entry.range * entry.nBlocks := Nat.mul_le_mul_left _ hi
  rwa [Nat.mul_add_one] at h

theorem nBlocks_lt (entry : MemoryEntry) : entry.nBlocks < 2 ^ 32 := by
  have h := Nat.le_mul_of_pos_left entry.nBlocks entry.range_pos
  have hend := entry.end_lt
  omega

@[simp]
theorem toNat_blockSize : entry.blockSize.toNat = entry.range := by
  have h := entry.range_le_size
  have hend := entry.end_lt
  rw [blockSize, BitVec.toNat_ofNat, Nat.mod_eq_of_lt (by omega)]

@[simp]
theorem toNat_totalSize : entry.totalSize.toNat = entry.range * entry.nBlocks := by
  have hend := entry.end_lt
  rw [totalSize, BitVec.toNat_mul, toNat_blockSize, blocks, BitVec.toNat_ofNat,
    Nat.mod_eq_of_lt entry.nBlocks_lt, Nat.mod_eq_of_lt (by omega)]

@[simp]
theorem toNat_physAddr : (entry.physAddr arch).toNat = entry.offset := by
  have hend := entry.end_lt
  have hbits := two_pow_le arch
  rw [physAddr, BitVec.toNat_ofNat, Nat.mod_eq_of_lt (by omega)]

theorem toNat_ofNat_of_lt (entry : MemoryEntry) {k : ℕ}
    (hk : k < entry.range * entry.nBlocks) :
    (BitVec.ofNat 32 k).toNat = k := by
  have hend := entry.end_lt
  rw [BitVec.toNat_ofNat, Nat.mod_eq_of_lt (by omega)]

theorem toNat_setWidth_ofNat_of_lt (arch : Arch) (entry : MemoryEntry) {k : ℕ}
    (hk : k < entry.range * entry.nBlocks) :
    ((BitVec.ofNat 32 k).setWidth arch.ptrBits).toNat = k := by
  have hend := entry.end_lt
  have hbits := two_pow_le arch
  rw [BitVec.toNat_setWidth, entry.toNat_ofNat_of_lt hk, Nat.mod_eq_of_lt (by omega)]

theorem toNat_blockStart {i : ℕ} (hi : i < entry.nBlocks) :
    (entry.blockSize * .ofNat 32 i).toNat = entry.range * i := by
  have hend := entry.end_lt
  have hblock := block_end_le hi
  have hn := entry.nBlocks_lt
  have hindex : (BitVec.ofNat 32 i).toNat = i := by
    rw [BitVec.toNat_ofNat, Nat.mod_eq_of_lt (by omega)]
  rw [BitVec.toNat_mul, toNat_blockSize, hindex, Nat.mod_eq_of_lt (by omega)]

theorem blockAddress_eq {i : ℕ} (hi : i < entry.nBlocks) :
    entry.blockAddress i = entry.offset + entry.range * i := by
  unfold blockAddress
  split
  · next hone =>
    have hzero : i = 0 := by omega
    simp [hzero]
  · rw [Nat.mul_comm]

/-! ## The two halves of the physical address -/

theorem size_pos (entry : MemoryEntry) : 0 < entry.range * entry.nBlocks :=
  Nat.mul_pos entry.range_pos entry.nBlocks_pos

theorem toNat_setWidth_totalSize :
    (entry.totalSize.setWidth arch.ptrBits).toNat = entry.range * entry.nBlocks := by
  have hend := entry.end_lt
  have hbits := two_pow_le arch
  rw [BitVec.toNat_setWidth, toNat_totalSize, Nat.mod_eq_of_lt (by omega)]

theorem toNat_setWidth_sub_one :
    (entry.totalSize.setWidth arch.ptrBits - 1).toNat = entry.range * entry.nBlocks - 1 := by
  have hone : (1 : BitVec arch.ptrBits).toNat = 1 := by
    cases arch <;> rfl
  have hle : (1 : BitVec arch.ptrBits) ≤ entry.totalSize.setWidth arch.ptrBits := by
    rw [BitVec.le_def, toNat_setWidth_totalSize, hone]
    exact entry.size_pos
  rw [BitVec.toNat_sub_of_le hle, toNat_setWidth_totalSize, hone]

/-- It makes no difference where the mask is widened. -/
theorem setWidth_sub_one :
    (entry.totalSize - 1).setWidth arch.ptrBits = entry.totalSize.setWidth arch.ptrBits - 1 := by
  have hend := entry.end_lt
  have hbits := two_pow_le arch
  have hle : (1 : BitVec 32) ≤ entry.totalSize := by
    rw [BitVec.le_def, toNat_totalSize]
    exact entry.size_pos
  apply BitVec.eq_of_toNat_eq
  rw [toNat_setWidth_sub_one, BitVec.toNat_setWidth, BitVec.toNat_sub_of_le hle, toNat_totalSize]
  exact Nat.mod_eq_of_lt (by simp; omega)

/-- What `open` adds to the address of the mapping. -/
def remainder (entry : MemoryEntry) : ℕ :=
  entry.offset &&& (entry.range * entry.nBlocks - 1)

theorem toNat_and_mask (arch : Arch) (entry : MemoryEntry) :
    (entry.physAddr arch &&& (entry.totalSize - 1).setWidth _).toNat = entry.remainder := by
  rw [BitVec.toNat_and, toNat_physAddr, setWidth_sub_one, toNat_setWidth_sub_one, remainder]

theorem mmapOffset_add_remainder (arch : Arch) (entry : MemoryEntry) :
    (getMmapOffset arch (entry.physAddr arch) entry.totalSize).toNat + entry.remainder
      = entry.offset := by
  have hdisjoint : getMmapOffset arch (entry.physAddr arch) entry.totalSize
      &&& (entry.physAddr arch &&& (entry.totalSize - 1).setWidth _) = 0#_ := by
    rw [getMmapOffset, setWidth_sub_one]
    ext k hk
    simp only [BitVec.getElem_and, BitVec.getElem_not, BitVec.getElem_zero]
    grind
  have hjoin : getMmapOffset arch (entry.physAddr arch) entry.totalSize
      ||| (entry.physAddr arch &&& (entry.totalSize - 1).setWidth _) = entry.physAddr arch := by
    rw [getMmapOffset, setWidth_sub_one]
    ext k hk
    simp only [BitVec.getElem_and, BitVec.getElem_not, BitVec.getElem_or]
    grind
  rw [← entry.toNat_and_mask arch, ← BitVec.toNat_add_of_and_eq_zero hdisjoint,
    BitVec.add_eq_or_of_and_eq_zero _ _ hdisjoint, hjoin, toNat_physAddr]

theorem remainder_le_offset (entry : MemoryEntry) : entry.remainder ≤ entry.offset :=
  Nat.and_le_left

theorem remainder_lt (entry : MemoryEntry) : entry.remainder < entry.range * entry.nBlocks := by
  have hle : entry.remainder ≤ entry.range * entry.nBlocks - 1 := Nat.and_le_right
  have hpos := entry.size_pos
  omega

/-! ## The virtual addresses -/

namespace Mapping

variable (mapped : Mapping arch entry)

theorem toNat_baseAddress :
    mapped.baseAddress.toNat = mapped.base.toNat + entry.remainder := by
  have hend := mapped.end_le
  have hrem := entry.remainder_lt
  rw [toNat_totalSize] at hend
  rw [baseAddress, BitVec.toNat_add, toNat_and_mask, Nat.mod_eq_of_lt (by omega)]

/-- `set_ptr` stores at the address `get_ptr` returns for the same byte. -/
theorem setPtr_eq_getPtr {sizeofT offset k b : ℕ} (blockIdx : BitVec 32)
    (hb : offset + sizeofT * k = b) (hpos : 0 < sizeofT) (hlt : b < entry.range) :
    mapped.setPtr sizeofT (.ofNat 32 offset) blockIdx (.ofNat 32 k)
      = mapped.getPtr (.ofNat 32 b) blockIdx := by
  have hk : k ≤ sizeofT * k := Nat.le_mul_of_pos_left k hpos
  have hsize := entry.range_le_size
  have hoffset := entry.toNat_setWidth_ofNat_of_lt arch (k := offset) (by omega)
  have hindex := entry.toNat_setWidth_ofNat_of_lt arch (k := k) (by omega)
  have hbyte := entry.toNat_setWidth_ofNat_of_lt arch (k := b) (by omega)
  have hsum : (BitVec.ofNat 32 offset).setWidth arch.ptrBits
      + BitVec.ofNat arch.ptrBits sizeofT * (BitVec.ofNat 32 k).setWidth arch.ptrBits
        = (BitVec.ofNat 32 b).setWidth arch.ptrBits := by
    apply BitVec.eq_of_toNat_eq
    rw [BitVec.toNat_add, BitVec.toNat_mul, hoffset, hindex, hbyte, BitVec.toNat_ofNat,
      Nat.add_mod, Nat.mod_mod, Nat.mod_mul_mod, ← Nat.add_mod, hb, ← hbyte]
    exact Nat.mod_eq_of_lt (BitVec.isLt _)
  rw [setPtr, getPtr, BitVec.add_assoc, hsum]

/-- The address of a byte, where nothing wraps. -/
theorem toNat_getPtr {i b : ℕ} (hi : i < entry.nBlocks) (hb : b < entry.range)
    (hroom : mapped.base.toNat + entry.remainder + entry.range * entry.nBlocks
      ≤ 2 ^ arch.ptrBits) :
    (mapped.getPtr (.ofNat 32 b) (.ofNat 32 i)).toNat
      = mapped.base.toNat + entry.remainder + (entry.range * i + b) := by
  have hblock := block_end_le hi
  have hbits := two_pow_le arch
  have hend := entry.end_lt
  have hstart : ((entry.blockSize * .ofNat 32 i).setWidth arch.ptrBits).toNat
      = entry.range * i := by
    rw [BitVec.toNat_setWidth, toNat_blockStart hi, Nat.mod_eq_of_lt (by omega)]
  have hbyte := entry.toNat_setWidth_ofNat_of_lt arch (k := b) (by omega)
  rw [getPtr, BitVec.toNat_add, BitVec.toNat_add, toNat_baseAddress, hstart, hbyte,
    Nat.mod_add_mod, Nat.mod_eq_of_lt (by omega), Nat.add_assoc]

/-- Inside the mapping the physical address is always the right one. -/
theorem physical_eq {va : BitVec arch.ptrBits} {k : ℕ}
    (hva : va.toNat = mapped.base.toNat + entry.remainder + k) :
    mapped.physical va
      = if entry.remainder + k < entry.range * entry.nBlocks then some (entry.offset + k)
        else none := by
  have hsum := entry.mmapOffset_add_remainder arch
  unfold physical
  rw [hva, toNat_totalSize]
  by_cases hk : entry.remainder + k < entry.range * entry.nBlocks
  · rw [if_pos hk, if_pos (by omega)]
    congr 1
    omega
  · rw [if_neg hk, if_neg (by omega)]

end Mapping

/-! ## When the blocks are addressed -/

theorem addresses_of_unshared (h : entry.Unshared) : entry.Addresses arch := by
  have hrem : entry.remainder = 0 := h
  refine ⟨toNat_totalSize, fun mapped i b hi hb => ?_⟩
  have hblock := block_end_le hi
  have hend := mapped.end_le
  rw [toNat_totalSize] at hend
  have hva := mapped.toNat_getPtr hi hb (by omega)
  have hphysical : mapped.physical (mapped.getPtr (.ofNat 32 b) (.ofNat 32 i))
      = some (entry.blockAddress i + b) := by
    rw [mapped.physical_eq hva, if_pos (by omega), blockAddress_eq hi, Nat.add_assoc]
  refine ⟨toNat_blockStart hi, hphysical, fun sizeofT offset k hsum hpos => ?_⟩
  rw [mapped.setPtr_eq_getPtr _ hsum hpos hb]
  exact hphysical

/-- The mapping at the lowest address it can have. -/
def lowest (entry : MemoryEntry) (arch : Arch) : Mapping arch entry where
  base := .ofNat _ 4096
  base_aligned := by cases arch <;> decide
  base_pos := by cases arch <;> decide
  end_le := by
    have hbase : (BitVec.ofNat arch.ptrBits 4096).toNat = 4096 := by cases arch <;> rfl
    have hbits := two_pow_le arch
    have hend := entry.end_lt
    have hpages : 4096 ∣ entry.range * entry.nBlocks := Dvd.dvd.mul_right entry.range_aligned _
    rw [hbase, toNat_totalSize]
    omega

theorem toNat_base_lowest (arch : Arch) (entry : MemoryEntry) :
    (entry.lowest arch).base.toNat = 4096 := by
  cases arch <;> rfl

/-- The last byte of the last block lies behind the mapping by what was cleared. -/
theorem unshared_of_addresses (h : entry.Addresses arch) : entry.Unshared := by
  by_contra hshared
  have hrem : entry.remainder ≠ 0 := hshared
  have hrange := entry.range_pos
  have hblocks := entry.nBlocks_pos
  have hbits := two_pow_le arch
  have hend := entry.end_lt
  have hoffset := entry.offset_aligned
  have hpages : 4096 ∣ entry.range * entry.nBlocks := Dvd.dvd.mul_right entry.range_aligned _
  have hle := entry.remainder_le_offset
  have hbase := entry.toNat_base_lowest arch
  have hlast : entry.nBlocks - 1 < entry.nBlocks := by omega
  have hbyte : entry.range - 1 < entry.range := by omega
  obtain ⟨-, hphysical, -⟩ := h.2 (entry.lowest arch) _ _ hlast hbyte
  have hva := (entry.lowest arch).toNat_getPtr hlast hbyte (by omega)
  have hsize : entry.range * (entry.nBlocks - 1) + entry.range
      = entry.range * entry.nBlocks := by
    rw [← Nat.mul_add_one, Nat.sub_add_cancel hblocks]
  rw [(entry.lowest arch).physical_eq hva, if_neg (by omega)] at hphysical
  cases hphysical

/-- Every byte of every block is addressed rightly if and only if the offset has no digit in
common with the total size less one. -/
theorem addresses_iff (arch : Arch) (entry : MemoryEntry) :
    entry.Addresses arch ↔ entry.Unshared :=
  ⟨unshared_of_addresses, addresses_of_unshared⟩

/-- A window whose size is a power of two has to be aligned to its size. -/
theorem unshared_iff_dvd {k : ℕ} (hsize : entry.range * entry.nBlocks = 2 ^ k) :
    entry.Unshared ↔ entry.range * entry.nBlocks ∣ entry.offset := by
  rw [Unshared, hsize, Nat.and_two_pow_sub_one_eq_mod]
  exact (Nat.dvd_iff_mod_eq_zero).symm

/-- Three pages behind the third page of their twelve kilobytes. -/
def threeBlocks : MemoryEntry where
  offset := 0x40003000
  range := 0x1000
  nBlocks := 3
  offset_aligned := by decide
  range_aligned := by decide
  range_pos := by decide
  nBlocks_pos := by decide
  end_lt := by decide

theorem not_forall_addresses :
    ¬ ∀ (arch : Arch) (entry : MemoryEntry), entry.Addresses arch := by
  intro h
  have hunshared := unshared_of_addresses (h .ilp32 threeBlocks)
  exact absurd hunshared (by decide)

end MemoryEntry

end KoheronSdk
