import KoheronSdk.Generator.Signature

/-!
# Buffers and commands

`Buffer` and `Command` of `commands.hpp`.  A buffer is memory with a position; all
its readers take the bytes from the position on and move the position behind them.

Nothing in them looks at the length of the buffer, so the memory is a function on
all offsets, and what lies behind the buffer is part of it.  A vector whose byte count is larger
than the payload is therefore read from behind it, and it can be said that it is.  What
a buffer holds before it is written to is arbitrary, and stays where nothing is written:
a payload that is shorter than the last one has the rest of that one behind it.

The readers are compared with the wire format once.  `Buffer.Holds` says that some bytes lie at the
position, and then `deserialize`, `extractArray`, `toVector` and `toString` return what
`ArgType.read` makes of these bytes, and leave the position behind them.  The parsers of
the two transports use these lemmas and do not look into a buffer again.

* `Buffer.deserialize`, `Buffer.extractArray`, `Buffer.toVector`, `Buffer.toString`.
* `Buffer.Holds`: some bytes lie at the position.
* `Command`, `Command.HeaderIs`: a command, and what its header says.
-/

namespace KoheronSdk

/-! ## Several scalars at once -/

/-- The values of `deserialize<Tp...>`: every type is extracted behind the ones
before it. -/
def extractAll : List ScalarType → List UInt8 → List ScalarVal
  | [], _ => []
  | t :: ts, buff => Server.extract t buff :: extractAll ts (buff.drop t.size)

@[simp] theorem requiredBufferSize_nil : requiredBufferSize [] = 0 := rfl

@[simp] theorem requiredBufferSize_cons (t : ScalarType) (ts : List ScalarType) :
    requiredBufferSize (t :: ts) = t.size + requiredBufferSize ts := by
  simp [requiredBufferSize]

@[simp] theorem length_extractAll (ts : List ScalarType) (buff : List UInt8) :
    (extractAll ts buff).length = ts.length := by
  induction ts generalizing buff with
  | nil => rfl
  | cons t ts ih => rw [extractAll, List.length_cons, List.length_cons, ih]

/-- `extract` looks at the bytes of its type only. -/
theorem Server.extract_take {t : ScalarType} {n : ℕ} (h : t.size ≤ n) (buff : List UInt8) :
    Server.extract t (buff.take n) = Server.extract t buff := by
  have hbyte : ∀ i, i < n → byteAt (buff.take n) i = byteAt buff i := by
    intro i hi
    rw [byteAt, byteAt, List.getD_eq_getElem?_getD, List.getD_eq_getElem?_getD,
      List.getElem?_take_of_lt hi]
  have hbyte' : ∀ k i, k + i < n → byteAt ((buff.take n).drop k) i = byteAt (buff.drop k) i := by
    intro k i hi
    rw [byteAt, byteAt, List.getD_eq_getElem?_getD, List.getD_eq_getElem?_getD,
      List.getElem?_drop, List.getElem?_drop, List.getElem?_take_of_lt hi]
  cases t <;> simp only [ScalarType.size] at h <;>
    simp (disch := omega) only [Server.extract, extractBool, extractU16, extractU32, extractU64,
      List.drop_drop, hbyte, hbyte']

theorem extractU32_take {n : ℕ} (h : 4 ≤ n) (buff : List UInt8) :
    extractU32 (buff.take n) = extractU32 buff :=
  congrArg (fun v => match v with | .uint32 n => n | _ => 0)
    (Server.extract_take (t := .uint32) h buff)

theorem extractAll_take {ts : List ScalarType} {n : ℕ} (h : requiredBufferSize ts ≤ n)
    (buff : List UInt8) : extractAll ts (buff.take n) = extractAll ts buff := by
  induction ts generalizing n buff with
  | nil => rfl
  | cons t ts ih =>
    rw [requiredBufferSize_cons] at h
    rw [extractAll, extractAll, Server.extract_take (by omega), List.drop_take, ih (by omega)]

/-- A pack of scalars is its scalars, one after the other. -/
theorem readArgs_scalars (ts : List ScalarType) (bs : List UInt8) :
    readArgs (ts.map .scalar) bs =
      if requiredBufferSize ts ≤ bs.length then
        some ((extractAll ts bs).map .scalar, bs.drop (requiredBufferSize ts))
      else none := by
  induction ts generalizing bs with
  | nil => simp [readArgs, extractAll]
  | cons t ts ih =>
    rw [List.map_cons, readArgs, ArgType.read, requiredBufferSize_cons]
    by_cases ht : t.size ≤ bs.length
    · rw [if_pos ht]
      simp only [ih, List.length_drop, List.drop_drop]
      by_cases hts : t.size + requiredBufferSize ts ≤ bs.length
      · rw [if_pos (by omega), if_pos hts]
        rfl
      · rw [if_neg (by omega), if_neg hts]
    · rw [if_neg ht, if_neg (by omega)]

/-! ## Buffers -/

/-- `Buffer<len>` -/
structure Buffer where
  data : ℕ → UInt8
  position : ℕ

namespace Buffer

/-- The `n` bytes from `begin()` on. -/
def bytes (b : Buffer) (n : ℕ) : List UInt8 := (List.range n).map fun i => b.data (b.position + i)

/-- `position += n` -/
def skip (b : Buffer) (n : ℕ) : Buffer := { b with position := b.position + n }

/-- `deserialize<Tp...>()` -/
def deserialize (b : Buffer) (ts : List ScalarType) : List ScalarVal × Buffer :=
  (extractAll ts (b.bytes (requiredBufferSize ts)), b.skip (requiredBufferSize ts))

/-- `std::get<0>(deserialize<uint32_t>())` -/
def deserializeU32 (b : Buffer) : ℕ × Buffer := ((extractU32 (b.bytes 4)).toNat, b.skip 4)

/-- `extract_array<T, N>()` -/
def extractArray (b : Buffer) (t : ScalarType) (n : ℕ) : List ScalarVal × Buffer :=
  (ofMemOf t n (b.bytes (n * t.size)), b.skip (n * t.size))

/-- `to_vector(vec, length)` -/
def toVector (b : Buffer) (t : ScalarType) (length : ℕ) : List ScalarVal × Buffer :=
  (ofMemOf t length (b.bytes (length * t.size)), b.skip (length * t.size))

/-- `to_string(str, length)` -/
def toString (b : Buffer) (length : ℕ) : List UInt8 × Buffer := (b.bytes length, b.skip length)

/-- `bs` written over the start of memory `mem`. -/
def overlay (bs : List UInt8) (mem : ℕ → UInt8) : ℕ → UInt8 := fun i => bs.getD i (mem i)

/-- The bytes at the position are `bs`. -/
def Holds (b : Buffer) (bs : List UInt8) : Prop := b.bytes bs.length = bs

@[simp] theorem length_bytes (b : Buffer) (n : ℕ) : (b.bytes n).length = n := by
  rw [bytes, List.length_map, List.length_range]

@[simp] theorem position_skip (b : Buffer) (n : ℕ) : (b.skip n).position = b.position + n := rfl

@[simp] theorem data_skip (b : Buffer) (n : ℕ) : (b.skip n).data = b.data := rfl

theorem skip_skip (b : Buffer) (n m : ℕ) : (b.skip n).skip m = b.skip (n + m) := by
  rw [skip, skip, skip, Nat.add_assoc]

theorem bytes_add (b : Buffer) (n m : ℕ) : b.bytes (n + m) = b.bytes n ++ (b.skip n).bytes m := by
  simp only [bytes, List.range_add, List.map_append, List.map_map, skip]
  congr 1
  exact List.map_congr_left fun i _ => by simp [Nat.add_assoc]

theorem Holds.bytes_eq {b : Buffer} {bs : List UInt8} (h : b.Holds bs) {n : ℕ}
    (hn : n ≤ bs.length) : b.bytes n = bs.take n := by
  obtain ⟨m, hm⟩ := Nat.exists_eq_add_of_le hn
  have hb : b.bytes bs.length = b.bytes n ++ (b.skip n).bytes m := by rw [hm, bytes_add]
  rw [← h, hb, List.take_left' (length_bytes b n)]

theorem Holds.skip {b : Buffer} {bs : List UInt8} (h : b.Holds bs) {n : ℕ}
    (hn : n ≤ bs.length) : (b.skip n).Holds (bs.drop n) := by
  obtain ⟨m, hm⟩ := Nat.exists_eq_add_of_le hn
  have hb : b.bytes bs.length = b.bytes n ++ (b.skip n).bytes m := by rw [hm, bytes_add]
  have hdrop : bs.drop n = (b.skip n).bytes m := by
    rw [← h, hb, List.drop_left' (length_bytes b n)]
  rw [Holds, hdrop, length_bytes]

/-- Memory that was filled holds what it was filled with. -/
theorem holds_overlay (bs : List UInt8) (mem : ℕ → UInt8) : Holds ⟨overlay bs mem, 0⟩ bs := by
  refine List.ext_getElem (length_bytes _ _) fun i hi hi' => ?_
  simp [bytes, overlay, hi']

end Buffer

/-! ## Commands -/

/-- `Command::HEADER_SIZE` -/
def headerSize : ℕ := 8

/-- `Command::HEADER_START`: the first 4 bytes are reserved. -/
def headerStart : ℕ := 4

/-- `Command` -/
structure Command where
  driver : ℕ
  operation : ℕ
  header : Buffer
  payload : Buffer

namespace Command

/-- `Command cmd;`: the buffers are not initialised, and the ids are set before
they are used. -/
def uninitialized (mem : ℕ → UInt8) : Command where
  driver := 0
  operation := 0
  header := ⟨mem, headerStart⟩
  payload := ⟨fun i => mem (headerSize + i), 0⟩

/-- `cmd.header.deserialize<uint16_t, uint16_t>()`, into `driver` and `operation`. -/
def decodeHeader (cmd : Command) : Command :=
  { cmd with
    driver := (extractU16 (cmd.header.bytes 4)).toNat
    operation := (extractU16 ((cmd.header.bytes 4).drop 2)).toNat
    header := cmd.header.skip 4 }

/-- The first 8 bytes of the header are `bs`. -/
def HeaderIs (cmd : Command) (bs : List UInt8) : Prop :=
  bs.length = headerSize ∧ cmd.header.position = headerStart ∧
    Buffer.Holds ⟨cmd.header.data, 0⟩ bs

theorem HeaderIs.decodeHeader_eq {cmd : Command} {bs : List UInt8} (h : cmd.HeaderIs bs) :
    cmd.decodeHeader.driver = (extractU16 (bs.drop 4)).toNat ∧
      cmd.decodeHeader.operation = (extractU16 (bs.drop 6)).toNat := by
  obtain ⟨hlen, hpos, hholds⟩ := h
  have hskip := hholds.skip (n := headerStart) (by rw [hlen]; decide)
  have hbuf : Buffer.skip ⟨cmd.header.data, 0⟩ headerStart = cmd.header := by
    rw [Buffer.skip, Nat.zero_add, ← hpos]
  have hbytes : cmd.header.bytes 4 = bs.drop 4 := by
    rw [← hbuf, hskip.bytes_eq (by rw [List.length_drop, hlen]; decide)]
    exact List.take_of_length_le (by rw [List.length_drop, hlen]; decide)
  simp only [decodeHeader, hbytes, List.drop_drop, Nat.reduceAdd, and_self]

@[simp] theorem payload_decodeHeader (cmd : Command) : cmd.decodeHeader.payload = cmd.payload := rfl

end Command

/-- The ids of a header are the ones it was built with. -/
theorem extractU16_header (classId funcId : UInt16) :
    (extractU16 ((header classId funcId).drop 4)) = classId ∧
      (extractU16 ((header classId funcId).drop 6)) = funcId := by
  have hclass : (header classId funcId).drop 4 = appendU16 classId ++ appendU16 funcId := rfl
  have hfunc : (header classId funcId).drop 6 = appendU16 funcId ++ [] := by
    rw [List.append_nil]; rfl
  rw [hclass, hfunc, extractU16_appendU16, extractU16_appendU16]
  exact ⟨rfl, rfl⟩

end KoheronSdk
