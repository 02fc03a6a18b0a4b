import Mathlib.Algebra.Order.Ring.Int
import KoheronSdk.Boards.Eeprom

/-!
# The pages of the EEPROM

`Eeprom::write` cuts its data into packets of a page, from the begin of the data on, while the chip
wraps around at the end of its own pages.

If the offset is that of a page, the packets are the pages of the chip.  If it is not, each
packet but a short one crosses the end of a page, and what is behind the end goes to the
begin of the same page, over what was there.  The packet counts as written, so the call
returns the number of bytes, and a read of the range gives something else.

The range is that of the two template parameters: an `int32_t` offset, which is a `uint32_t` where
it is used, and an array.  The assertion about them lets a negative offset through.  So besides
the pages the condition says that the range is one of the chip.

Read and write are those of `Boards/Eeprom`, run here by one thread, on a bus with any answers.
What the loop over the packets needs is `PagesFit`; where a byte of a packet goes, whether the
packet fits or not, is `pageAddress`.

* `bus`: the transfers of one call, with any answers.
* `WritesThenReads`: what a write and a read of the same range are for.
* `writesThenReads_iff`: the ranges that they are right for.
-/

namespace KoheronSdk

open Effects

namespace Eeprom

/-! ## One call for itself -/

/-- The chip and the bus, with any answers of the bus to each transfer. -/
def bus : Handler Transfer (fun _ => Answer) Chip Empty where
  stop _ _ := none
  ok e chip answer := ∃ results, answer = (chip.transfer e results).1
  next e chip answer :=
    match e with
    | .write buffer => if answer.ret = -1 then chip else chip.write buffer
    | .read _ => { chip with pointer := (chip.pointer + answer.bytes.length) % size }

section Bus

variable {chip : Chip} {answer : Answer}

theorem bus_next_write (buffer : List UInt8) (chip : Chip) (answer : Answer) :
    bus.next (.write buffer) chip answer
      = if answer.ret = -1 then chip else chip.write buffer := rfl

/-- A transfer to the chip fails or is complete. -/
theorem bus_write {buffer : List UInt8} (h : bus.ok (.write buffer) chip answer) :
    (answer.ret = -1 ∧ bus.next (.write buffer) chip answer = chip) ∨
      (answer.ret = (buffer.length : ℤ) ∧
        bus.next (.write buffer) chip answer = chip.write buffer) := by
  obtain ⟨results, rfl⟩ := h
  rw [bus_next_write]
  cases results with
  | error => exact Or.inl ⟨rfl, rfl⟩
  | acknowledged results =>
    have hret : (chip.transfer (.write buffer) (.acknowledged results)).1.ret = buffer.length := rfl
    exact Or.inr ⟨hret, if_neg (by omega)⟩

/-- A complete transfer from the chip gives the bytes from the pointer on. -/
theorem bus_read {start nBytes : ℕ} (hpointer : chip.pointer = start % size)
    (h : bus.ok (.read nBytes) chip answer) (hret : answer.ret = (nBytes : ℤ)) :
    answer.bytes = (List.range nBytes).map fun i => chip.mem ((start + i) % size) := by
  obtain ⟨results, rfl⟩ := h
  cases results with
  | error =>
    have hneg : (-1 : ℤ) = nBytes := hret
    omega
  | acknowledged results =>
    exact chip.readLoop_bytes results start nBytes [] (Nat.zero_le _) rfl hpointer hret

/-- `__write` fails without having written, or has written once. -/
theorem wp_writeRetrying (buffer : List UInt8) (left : ℕ) (chip : Chip) :
    bus.wp (writeRetrying buffer left) (Result.OnRet fun err chip' =>
      (err = -1 ∧ chip' = chip) ∨ (err = buffer.length ∧ chip' = chip.write buffer)) chip := by
  induction left with
  | zero => exact Or.inl ⟨rfl, rfl⟩
  | succ left ih =>
    have hperform : bus.wp (Prog.perform (.write buffer)) (Result.OnRet
        fun (answer : Answer) chip' => (answer.ret = -1 ∧ chip' = chip) ∨
          (answer.ret = (buffer.length : ℤ) ∧ chip' = chip.write buffer)) chip :=
      fun answer hok => bus_write hok
    refine bus.wp_bind_onRet hperform ?_
    rintro answer chip' (⟨hret, rfl⟩ | ⟨hret, rfl⟩)
    · rw [if_neg (not_not_intro hret)]
      exact ih
    · have hne : answer.ret ≠ -1 := by omega
      rw [if_pos hne]
      exact Or.inr ⟨hret, rfl⟩

/-- A program that begins with `__write`, when the chip takes the first transfer. -/
theorem of_wp_writeRetrying {α : Type} {buffer : List UInt8} {f : ℤ → I2c α}
    {post : Result Empty Chip α → Prop}
    (h : bus.wp (writeRetrying buffer maxRetries >>= f) post chip) :
    bus.wp (f buffer.length) post (chip.write buffer) := by
  rw [show maxRetries = 4 + 1 from rfl, writeRetrying_succ_bind] at h
  have hacknowledged := h ⟨buffer.length, []⟩ ⟨.acknowledged [], rfl⟩
  have hne : ¬ ((buffer.length : ℤ) = -1) := by omega
  rw [bus_next_write] at hacknowledged
  dsimp only at hacknowledged
  rwa [if_neg hne, if_neg hne] at hacknowledged

end Bus

/-! ## A write -/

section Write

variable {offset : ℕ} {data : List UInt8}

theorem stored_append (mem : ℕ → UInt8) (offset : ℕ) (data data' : List UInt8) :
    stored (stored mem offset data) (offset + data.length) data'
      = stored mem offset (data ++ data') := by
  induction data generalizing mem offset with
  | nil => rw [stored_nil, List.length_nil, Nat.add_zero, List.nil_append]
  | cons byte data ih =>
    rw [List.cons_append, stored_cons, stored_cons, ← ih, List.length_cons, Nat.add_right_comm,
      Nat.add_assoc]

/-- The next packet is stored behind what has been stored. -/
theorem stored_packetAt (mem : ℕ → UInt8) (offset : ℕ) {data : List UInt8} {bytesWritten : ℕ}
    (hle : bytesWritten ≤ data.length) :
    stored (stored mem offset (data.take bytesWritten)) (offset + bytesWritten)
        (packetAt data bytesWritten)
      = stored mem offset
        (data.take (bytesWritten + min pageSize (data.length - bytesWritten))) := by
  have hlength : (data.take bytesWritten).length = bytesWritten := List.length_take_of_le hle
  have happend := stored_append mem offset (data.take bytesWritten) (packetAt data bytesWritten)
  rw [hlength] at happend
  rw [happend, packetAt, List.take_add]

/-- Each packet fits into a page of the chip. -/
def PagesFit (offset nBytes : ℕ) : Prop :=
  offset % pageSize = 0 ∨ offset % pageSize + nBytes ≤ pageSize

/-- **A write whose packets fit into the pages stores its data.** -/
theorem wp_writeLoop (hrange : offset + data.length ≤ size) (hfit : PagesFit offset data.length)
    (mem : ℕ → UInt8) {bytesWritten : ℕ}
    (hwhole : pageSize ∣ bytesWritten ∨ data.length ≤ bytesWritten)
    (chip : Chip) (hmem : chip.mem = stored mem offset (data.take bytesWritten)) :
    bus.wp (writeLoop offset data bytesWritten) (Result.OnRet fun ret chip' =>
      ret.1 = data.length → chip'.mem = stored mem offset data) chip := by
  induction hleft : data.length - bytesWritten using Nat.strongRecOn
    generalizing bytesWritten chip with
  | ind left ih =>
    rw [writeLoop]
    split
    · rename_i hlt
      have hlength := length_packetAt data bytesWritten
      have hpage : (offset + bytesWritten) % pageSize + (packetAt data bytesWritten).length
          ≤ pageSize := by
        have hdvd := hwhole.resolve_right (by omega)
        rw [hlength]
        rcases hfit with haligned | hone
        · rw [Nat.add_mod, haligned, Nat.mod_eq_zero_of_dvd hdvd]
          simp only [pageSize]
          omega
        · -- all is in the first packet
          obtain ⟨k, rfl⟩ := hdvd
          simp only [pageSize] at hone hlt ⊢
          omega
      have hpacket : bus.wp (writePacket (offset + bytesWritten) (packetAt data bytesWritten))
          (Result.OnRet fun ret chip' => ¬ ret < 0 → chip'.mem = stored chip.mem
            (offset + bytesWritten) (packetAt data bytesWritten)) chip := by
        refine bus.wp_bind_onRet (wp_writeRetrying _ _ chip) ?_
        rintro err chip' (⟨rfl, rfl⟩ | ⟨rfl, rfl⟩)
        · rw [if_pos (by omega)]
          exact fun hneg => absurd (by decide) hneg
        · split
          · exact fun hneg => absurd (by decide) hneg
          · exact fun _ => chip.write_packet_mem (by omega) hpage
      refine bus.wp_bind_onRet hpacket fun ret chip' hchip' => ?_
      split
      · intro hret
        have hneg : (-1 : ℤ) = data.length := hret
        omega
      · rename_i hret
        refine ih _ ?_ ?_ chip' ?_ rfl
        · simp only [pageSize] at hlt ⊢
          omega
        · have hdvd := hwhole.resolve_right (by omega)
          rcases Nat.lt_or_ge (data.length - bytesWritten) pageSize with hless | hmore
          · exact Or.inr (by omega)
          · exact Or.inl (by
              rw [Nat.min_eq_left hmore]
              exact Nat.dvd_add hdvd (dvd_refl _))
        · rw [hchip' hret, hmem, stored_packetAt mem offset (Nat.le_of_lt hlt)]
    · rename_i hdone
      intro _
      rw [hmem, List.take_of_length_le (by omega)]

end Write

/-! ## A read -/

/-- The chip takes the address modulo its size. -/
theorem address_mod (offset : ℕ) :
    ((UInt8.ofNat (offset >>> 8)).toNat * 256 + (UInt8.ofNat offset).toNat) % size
      = offset % size := by
  simp only [UInt8.toNat_ofNat', Nat.shiftRight_eq_div_pow, size]
  omega

theorem Chip.write_packet (chip : Chip) (offset : ℕ) (packet : List UInt8) :
    chip.write (addressBytes offset ++ packet)
      = packet.foldl storeByte { chip with pointer := offset % size } := by
  show packet.foldl storeByte { chip with pointer := _ } = _
  rw [address_mod]

/-- What is read from an address, one byte after another. -/
def Chip.from (chip : Chip) (offset nBytes : ℕ) : List UInt8 :=
  (List.range nBytes).map fun i => chip.mem ((offset + i) % size)

section Read

variable {chip : Chip} {offset nBytes : ℕ}

/-- **A read gives the bytes from its address on.** -/
theorem wp_read (chip : Chip) (offset nBytes : ℕ) :
    bus.wp (read offset nBytes) (Result.OnRet fun ret _ =>
      ret.1 = nBytes → ret.2 = chip.from offset nBytes) chip := by
  have hfail : ∀ bytes : List UInt8,
      ((-1 : ℤ), bytes).1 = nBytes → bytes = chip.from offset nBytes :=
    fun bytes hret => absurd hret (by show ¬ (-1 : ℤ) = nBytes; omega)
  refine bus.wp_bind_onRet (wp_writeRetrying (addressBytes offset) maxRetries chip) ?_
  rintro err chip' (⟨rfl, rfl⟩ | ⟨rfl, rfl⟩)
  · rw [if_pos (by decide)]
    exact hfail []
  · have hlength : ((addressBytes offset).length : ℤ) = 2 := rfl
    rw [if_neg (not_not_intro hlength)]
    have hsent : chip.write (addressBytes offset) = { chip with pointer := offset % size } :=
      chip.write_packet offset []
    rw [hsent]
    intro answer hok
    show bus.wp (if answer.ret ≠ nBytes then pure (-1, answer.bytes)
      else pure ((nBytes : ℤ), answer.bytes)) _ _
    split
    · exact hfail answer.bytes
    · rename_i hret
      intro _
      exact @bus_read { chip with pointer := offset % size } _ offset nBytes rfl hok
        (of_not_not hret)

/-- A transfer that gives all bytes at once. -/
theorem Chip.ret_readLoop (chip : Chip) (nBytes : ℕ) :
    (chip.readLoop nBytes [] [(nBytes : ℤ)]).1.ret = nBytes := by
  have hlength : ((chip.read nBytes).1).length = nBytes := by
    rw [Chip.read, List.length_map, List.length_range]
  unfold readLoop readLoop
  rcases Nat.eq_zero_or_pos nBytes with rfl | hpos
  · rfl
  · have hzero : ¬ (nBytes : ℤ) = 0 := by omega
    have hneg : ¬ (nBytes : ℤ) < 0 := by omega
    have hmin : min (nBytes : ℤ).toNat (nBytes - ([] : List UInt8).length) = nBytes := by
      rw [Int.toNat_natCast, List.length_nil, Nat.sub_zero, Nat.min_self]
    have hlt : ([] : List UInt8).length < nBytes := hpos
    rw [if_pos hlt, if_neg hzero, if_neg hneg, hmin]
    dsimp only
    rw [List.nil_append, if_neg (by omega)]
    exact congrArg Int.ofNat hlength

/-- And it does so when the chip answers. -/
theorem of_wp_read {P : List UInt8 → Prop} (h : bus.wp (read offset nBytes)
    (Result.OnRet fun ret _ => ret.1 = nBytes → P ret.2) chip) : P (chip.from offset nBytes) := by
  have hread := bus.wp_and h (wp_read chip offset nBytes)
  rw [read_eq] at hread
  obtain ⟨hP, hfrom⟩ : _ ∧ _ := by
    have hafter := of_wp_writeRetrying hread
    have hlength : ((addressBytes offset).length : ℤ) = 2 := rfl
    rw [readAfter, if_neg (not_not_intro hlength)] at hafter
    have hanswer := hafter _ ⟨.acknowledged [(nBytes : ℤ)], rfl⟩
    have hret : ((chip.write (addressBytes offset)).transfer (.read nBytes)
        (.acknowledged [(nBytes : ℤ)])).1.ret = nBytes := Chip.ret_readLoop _ nBytes
    change bus.wp (if _ ≠ (nBytes : ℤ) then _ else _) _ _ at hanswer
    rw [if_neg (not_not_intro hret)] at hanswer
    exact hanswer
  rw [← hfrom rfl]
  exact hP rfl

end Read

/-! ## Where the bytes of a write go -/

section Packets

variable {chip : Chip} {offset : ℕ} {data : List UInt8}

/-- The chip after all packets from one on have been taken. -/
def Chip.taken (chip : Chip) (offset : ℕ) (data : List UInt8) (bytesWritten : ℕ) : Chip :=
  if bytesWritten < data.length then
    (chip.write (addressBytes (offset + bytesWritten) ++ packetAt data bytesWritten)).taken offset
      data (bytesWritten + min pageSize (data.length - bytesWritten))
  else chip
termination_by data.length - bytesWritten
decreasing_by simp only [pageSize]; omega

/-- A write whose packets the chip takes one after another. -/
theorem of_wp_writeLoop {post : Result Empty Chip (ℤ × List UInt8) → Prop} (bytesWritten : ℕ)
    (h : bus.wp (writeLoop offset data bytesWritten) post chip) :
    post (.ret (data.length, []) (chip.taken offset data bytesWritten)) := by
  induction hleft : data.length - bytesWritten using Nat.strongRecOn
    generalizing bytesWritten chip with
  | ind left ih =>
    rw [Chip.taken]
    split
    · rename_i hlt
      refine ih _ ?_ _ ?_ rfl
      · simp only [pageSize] at hlt ⊢
        omega
      · rw [writeLoop_eq, Phase.storingFrom, if_pos hlt] at h
        have hafter := of_wp_writeRetrying h
        have hlength : ((addressBytes (offset + bytesWritten)
            ++ packetAt data bytesWritten).length : ℤ)
            = (packetAt data bytesWritten).length + 2 := by
          rw [List.length_append, Int.natCast_add, Int.add_comm]
          rfl
        rwa [writeAfter, if_neg (not_not_intro hlength)] at hafter
    · rename_i hdone
      rw [writeLoop, if_neg hdone] at h
      exact h

/-- The address at which a byte behind another one in a packet is stored. -/
def pageAddress (start i : ℕ) : ℕ := start / pageSize * pageSize + (start + i) % pageSize

/-- Ones stay, and are stored at all addresses that a packet of ones reaches. -/
theorem foldl_storeByte_ones (packet : List UInt8) (hones : ∀ byte ∈ packet, byte = 1)
    (chip : Chip) :
    (∀ a, chip.mem a = 1 → (packet.foldl Chip.storeByte chip).mem a = 1) ∧
      ∀ i < packet.length,
        (packet.foldl Chip.storeByte chip).mem (pageAddress chip.pointer i) = 1 := by
  induction packet generalizing chip with
  | nil => exact ⟨fun _ h => h, fun i hi => absurd hi (Nat.not_lt_zero i)⟩
  | cons byte packet ih =>
    obtain ⟨hbyte, hrest⟩ := List.forall_mem_cons.mp hones
    obtain ⟨hstay, hreach⟩ := ih hrest (chip.storeByte byte)
    have hmem : ∀ a, chip.mem a = 1 ∨ a = chip.pointer → (chip.storeByte byte).mem a = 1 := by
      intro a ha
      show Function.update chip.mem chip.pointer byte a = 1
      by_cases heq : a = chip.pointer
      · rw [heq, Function.update_self, hbyte]
      · rw [Function.update_of_ne heq]
        exact ha.resolve_right heq
    refine ⟨fun a ha => hstay a (hmem a (Or.inl ha)), fun i hi => ?_⟩
    cases i with
    | zero =>
      refine hstay _ (hmem _ (Or.inr ?_))
      simp only [pageAddress, pageSize]
      omega
    | succ i =>
      have hnext : pageAddress chip.pointer (i + 1)
          = pageAddress (chip.storeByte byte).pointer i := by
        show _ = pageAddress (chip.pointer / pageSize * pageSize
          + (chip.pointer + 1) % pageSize) i
        simp only [pageAddress, pageSize]
        omega
      rw [hnext]
      exact hreach i (Nat.lt_of_succ_lt_succ hi)

/-- **The addresses that a write reaches:** each byte is stored in the page in which its packet
begins. -/
theorem taken_ones (hones : ∀ byte ∈ data, byte = 1) {bytesWritten : ℕ}
    (hwhole : pageSize ∣ bytesWritten ∨ data.length ≤ bytesWritten) (chip : Chip) :
    (∀ a, chip.mem a = 1 → (chip.taken offset data bytesWritten).mem a = 1) ∧
      ∀ i, bytesWritten ≤ i → i < data.length → (chip.taken offset data bytesWritten).mem
        (pageAddress ((offset + i / pageSize * pageSize) % size) (i % pageSize)) = 1 := by
  induction hleft : data.length - bytesWritten using Nat.strongRecOn
    generalizing bytesWritten chip with
  | ind left ih =>
    rw [Chip.taken]
    split
    · rename_i hlt
      have hdvd := hwhole.resolve_right (by omega)
      have hlength := length_packetAt data bytesWritten
      have hpacket : ∀ byte ∈ packetAt data bytesWritten, byte = 1 := fun byte hbyte =>
        hones byte (List.mem_of_mem_drop (List.mem_of_mem_take hbyte))
      have hnext : pageSize ∣ bytesWritten + min pageSize (data.length - bytesWritten) ∨
          data.length ≤ bytesWritten + min pageSize (data.length - bytesWritten) := by
        rcases Nat.lt_or_ge (data.length - bytesWritten) pageSize with hless | hmore
        · exact Or.inr (by omega)
        · refine Or.inl ?_
          rw [Nat.min_eq_left hmore]
          exact Nat.dvd_add hdvd (dvd_refl _)
      rw [Chip.write_packet]
      obtain ⟨hstay, hreach⟩ := foldl_storeByte_ones (packetAt data bytesWritten) hpacket
        { chip with pointer := (offset + bytesWritten) % size }
      obtain ⟨hstay', hreach'⟩ := ih _ (by simp only [pageSize] at hlt ⊢; omega) hnext
        ((packetAt data bytesWritten).foldl Chip.storeByte
          { chip with pointer := (offset + bytesWritten) % size }) rfl
      refine ⟨fun a ha => hstay' a (hstay a ha), fun i hi hin => ?_⟩
      rcases Nat.lt_or_ge i (bytesWritten + min pageSize (data.length - bytesWritten))
        with hbefore | hbehind
      · -- the byte is in this packet
        have hbegin : i / pageSize * pageSize = bytesWritten := by
          obtain ⟨k, rfl⟩ := hdvd
          simp only [pageSize] at hi hbefore ⊢
          omega
        have hwithin : i % pageSize < (packetAt data bytesWritten).length := by
          have hsplit := Nat.div_add_mod i pageSize
          rw [Nat.mul_comm] at hsplit
          omega
        rw [hbegin]
        exact hstay' _ (hreach _ hwithin)
      · exact hreach' i hbehind hin
    · rename_i hdone
      exact ⟨fun _ h => h, fun i hi hin => absurd hin (by omega)⟩

end Packets

/-! ## Writing, then reading -/

section WriteRead

/-- An `int32_t` offset where it is used as a `uint32_t`. -/
def word32 (offset : ℤ) : ℕ := (offset % 2 ^ 32).toNat

/-- `static_assert(offset + n_bytes <= EEPROM_SIZE)`, for an offset and an array that have their
types. -/
structure Accepted (offset : ℤ) (nBytes : ℕ) : Prop where
  offset_ge : -2 ^ 31 ≤ offset
  offset_lt : offset < 2 ^ 31
  nBytes_lt : nBytes < 2 ^ 32
  bound : (word32 offset + nBytes) % 2 ^ 32 ≤ size

/-- What a write and a read of a range are for, whatever the chip holds, whatever is written and
however the bus answers: a write that returns the number of bytes leaves the bytes outside the range
as they are, and a read behind it that returns this number gives back what was written. -/
def WritesThenReads (offset : ℤ) (nBytes : ℕ) : Prop :=
  ∀ (chip : Chip) (data : List UInt8), data.length = nBytes →
    bus.wp (write (word32 offset) data) (Result.OnRet fun ret chip' => ret.1 = nBytes →
      (∀ a < size, ¬ (offset ≤ a ∧ (a : ℤ) < offset + nBytes) → chip'.mem a = chip.mem a) ∧
      bus.wp (read (word32 offset) nBytes) (Result.OnRet fun ret' _ =>
        ret'.1 = nBytes → ret'.2 = data) chip') chip

/-- The range is one of the chip, and does not cross a page unless it begins with one. -/
structure Paged (offset : ℤ) (nBytes : ℕ) : Prop where
  nonneg : 0 ≤ offset
  bound : offset + nBytes ≤ size
  fits : offset % pageSize = 0 ∨ offset % pageSize + nBytes ≤ pageSize

variable {offset : ℤ} {nBytes : ℕ}

theorem writesThenReads_of_paged (h : Paged offset nBytes) : WritesThenReads offset nBytes := by
  obtain ⟨hnonneg, hbound, hfits⟩ := h
  obtain ⟨start, rfl⟩ := Int.eq_ofNat_of_zero_le hnonneg
  have hstart : word32 start = start := by
    simp only [word32, size] at hbound ⊢
    omega
  have hrange : start + nBytes ≤ size := by omega
  rw [WritesThenReads, hstart]
  rintro chip data rfl
  have hfit : PagesFit start data.length := by
    simp only [PagesFit, pageSize] at hfits ⊢
    omega
  refine bus.wp_mono ?_ (wp_writeLoop hrange hfit chip.mem (Or.inl (Nat.dvd_zero _)) chip
    (stored_nil _ _).symm)
  rintro (⟨ret, chip'⟩ | ⟨stop, chip'⟩) hmem
  · intro hret
    replace hmem : chip'.mem = stored chip.mem start data := hmem hret
    refine ⟨fun a ha hout => ?_, ?_⟩
    · rw [hmem]
      exact stored_of_not_mem (by omega)
    · refine bus.wp_mono ?_ (wp_read chip' start data.length)
      rintro (⟨ret', chip''⟩ | ⟨stop, chip''⟩) hread
      · intro hret'
        rw [hread hret', Chip.from]
        refine List.ext_getElem (by rw [List.length_map, List.length_range]) fun i hi hi' => ?_
        rw [List.getElem_map, List.getElem_range, Nat.mod_eq_of_lt (by omega), hmem,
          stored_of_mem (by omega)]
        simp only [Nat.add_sub_cancel_left]
      · trivial
  · trivial

/-- What follows when the chip answers. -/
theorem WritesThenReads.taken (h : WritesThenReads offset nBytes) (chip : Chip) {data : List UInt8}
    (hlength : data.length = nBytes) :
    (∀ a < size, ¬ (offset ≤ a ∧ (a : ℤ) < offset + nBytes) →
      (chip.taken (word32 offset) data 0).mem a = chip.mem a) ∧
    (chip.taken (word32 offset) data 0).from (word32 offset) nBytes = data := by
  obtain ⟨hout, hread⟩ := of_wp_writeLoop 0 (h chip data hlength) (congrArg _ hlength)
  exact ⟨hout, of_wp_read (P := fun bytes => bytes = data) hread⟩

/-- More than the chip can hold is not read back. -/
theorem WritesThenReads.le_size (h : WritesThenReads offset nBytes) : nBytes ≤ size := by
  by_contra hlarge
  obtain ⟨n, rfl⟩ : ∃ n, nBytes = n + 1 := ⟨nBytes - 1, by simp only [size] at hlarge; omega⟩
  have hlength : (0 :: List.replicate n (1 : UInt8)).length = n + 1 := by
    rw [List.length_cons, List.length_replicate]
  -- the byte at the offset is read again behind the last one of the chip
  have hread := (h.taken ⟨fun _ => 0, 0⟩ hlength).2
  have hfirst := congrArg (fun bytes => bytes[0]?) hread
  have hagain := congrArg (fun bytes => bytes[size]?) hread
  have hlt : size < n + 1 := by omega
  have hsize : size = 8191 + 1 := rfl
  simp only [Chip.from, List.getElem?_map, List.getElem?_range (Nat.succ_pos n),
    List.getElem?_range hlt, Option.map_some, Nat.add_zero, Nat.add_mod_right,
    List.getElem?_cons_zero] at hfirst hagain
  rw [hfirst] at hagain
  rw [hsize, List.getElem?_cons_succ, List.getElem?_replicate, if_pos (by omega)] at hagain
  cases hagain

/-- A byte that is stored outside the range is not left as it was. -/
theorem WritesThenReads.reached (h : WritesThenReads offset nBytes) {i : ℕ} (hi : i < nBytes)
    {a : ℕ} (ha : pageAddress ((word32 offset + i / pageSize * pageSize) % size) (i % pageSize) = a)
    (hsize : a < size) : offset ≤ a ∧ (a : ℤ) < offset + nBytes := by
  by_contra hout
  have hlength : (List.replicate nBytes (1 : UInt8)).length = nBytes := List.length_replicate
  have hsame := (h.taken ⟨fun _ => 0, 0⟩ hlength).1 a hsize hout
  have hones : ∀ byte ∈ List.replicate nBytes (1 : UInt8), byte = 1 := fun _ hbyte =>
    List.eq_of_mem_replicate hbyte
  have hone := (@taken_ones (word32 offset) _ hones _ (Or.inl (Nat.dvd_zero pageSize))
    ⟨fun _ => 0, 0⟩).2 i (Nat.zero_le i) (hlength.symm ▸ hi)
  rw [ha, hsame] at hone
  cases hone

/-- **A write and a read are right exactly if no packet crosses a page.** -/
theorem writesThenReads_iff (h : Accepted offset nBytes) :
    WritesThenReads offset nBytes ↔ Paged offset nBytes := by
  constructor
  · intro hright
    obtain ⟨hge, hlt, -, hbound⟩ := h
    have hle := hright.le_size
    have hnonneg : 0 ≤ offset := by
      by_contra hneg
      -- the last byte in front of 0 is stored at the end of the chip
      have hmany : -offset ≤ nBytes := by
        simp only [word32, size] at hbound hle
        omega
      have hreach := hright.reached (i := (-offset - 1).toNat) (a := size - 1) (by omega) (by
        simp only [pageAddress, word32, pageSize, size]
        omega) (by decide)
      simp only [size] at hreach hle
      omega
    have hstart : word32 offset = offset.toNat := by
      simp only [word32]
      omega
    have hrange : offset + nBytes ≤ size := by
      simp only [word32, size] at hbound hle ⊢
      omega
    refine ⟨hnonneg, hrange, ?_⟩
    by_contra hcross
    -- the byte behind the end of the first page is stored at its begin
    have hreach := hright.reached (i := pageSize - offset.toNat % pageSize)
      (a := offset.toNat / pageSize * pageSize) (by
        simp only [pageSize] at hcross ⊢
        omega) (by
        simp only [pageAddress, hstart, pageSize, size] at hcross hrange ⊢
        omega) (by
        simp only [pageSize, size] at hcross hrange ⊢
        omega)
    simp only [pageSize] at hreach hcross
    omega
  · exact writesThenReads_of_paged

/-- An array of 32 bytes in the middle of a page. -/
theorem writesThenReads_crossing_iff : WritesThenReads 16 32 ↔ Paged 16 32 :=
  writesThenReads_iff ⟨by decide, by decide, by decide, by decide⟩

theorem not_forall_writesThenReads : ¬ ∀ offset nBytes, Accepted offset nBytes →
    WritesThenReads offset nBytes := by
  intro h
  have hright := h 16 32 ⟨by decide, by decide, by decide, by decide⟩
  have hreach := hright.reached (i := 16) (a := 0) (by decide) (by decide) (by decide)
  exact absurd hreach.1 (by decide)

end WriteRead

end Eeprom

end KoheronSdk
