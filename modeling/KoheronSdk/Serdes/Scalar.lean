import KoheronSdk.Lib.ByteOrder

/-!
# Scalars and their bytes

The scalar types that can cross the network, their values, and the three places
where a value becomes bytes or bytes a value:

* `Server.append` / `Server.extract`, from `serializer_deserializer.hpp`;
* `Client.append` / `Client.extract`, the client's own copy in
  `koheron-client.hpp`, which has no overload for `std::complex`;
* `ScalarVal.mem` / `ScalarType.ofMem`, the object representation in the memory of
  a little-endian host, which is what `std::array` and `std::vector` are sent as.

So one number may be sent in either byte order: alone it goes out most significant byte first, and
as an element of a container the way it lies in memory.

The overloads of the source shift, mask and put together byte by byte.  They are written
out here as they are, and a lemma for each of them says which bytes of `Lib/ByteOrder` these
are.  What is proved later is about those bytes, so that a change of one overload is felt in
its lemma and nowhere else.

A `float` or a `double` is its bit pattern: the code copies it to an integer of the same width
and back, and nothing here depends on the number that it stands for.  A `bool` is a byte, and
`extract<bool>` takes none but 1 for `true`.
-/

namespace KoheronSdk

open ByteOrder

/-! ## Types and values -/

/-- The scalar types of an operation's arguments and return value. -/
inductive ScalarType where
  | bool | uint8 | int8 | uint16 | int16 | uint32 | int32 | uint64 | int64
  | float | double | complexFloat | complexDouble
  deriving DecidableEq, Repr

/-- `sizeof(T)`, which is also `size_of<T>` in both copies of the serializer. -/
def ScalarType.size : ScalarType → ℕ
  | .bool | .uint8 | .int8 => 1
  | .uint16 | .int16 => 2
  | .uint32 | .int32 | .float => 4
  | .uint64 | .int64 | .double | .complexFloat => 8
  | .complexDouble => 16

/-- `std::is_scalar<T>`: the fixed-width types, and not `std::complex`. -/
def ScalarType.isScalar : ScalarType → Bool
  | .complexFloat | .complexDouble => false
  | _ => true

/-- A scalar value; floating-point values are their bit patterns. -/
inductive ScalarVal where
  | bool (v : Bool)
  | uint8 (v : UInt8)
  | int8 (v : Int8)
  | uint16 (v : UInt16)
  | int16 (v : Int16)
  | uint32 (v : UInt32)
  | int32 (v : Int32)
  | uint64 (v : UInt64)
  | int64 (v : Int64)
  | float (bits : UInt32)
  | double (bits : UInt64)
  | complexFloat (re im : UInt32)
  | complexDouble (re im : UInt64)
  deriving DecidableEq, Repr

/-- The type of a value. -/
def ScalarVal.type : ScalarVal → ScalarType
  | .bool _ => .bool
  | .uint8 _ => .uint8
  | .int8 _ => .int8
  | .uint16 _ => .uint16
  | .int16 _ => .int16
  | .uint32 _ => .uint32
  | .int32 _ => .int32
  | .uint64 _ => .uint64
  | .int64 _ => .int64
  | .float _ => .float
  | .double _ => .double
  | .complexFloat _ _ => .complexFloat
  | .complexDouble _ _ => .complexDouble

theorem ScalarType.size_pos (t : ScalarType) : 0 < t.size := by
  cases t <;> decide

theorem ScalarType.size_le (t : ScalarType) : t.size ≤ 16 := by
  cases t <;> decide

/-! ## Unsigned integers, most significant byte first

`buff[i]` is `at buff i`; bytes outside the buffer are never asked for. -/

/-- `buff[i]` -/
def byteAt (buff : List UInt8) (i : ℕ) : UInt8 := buff.getD i 0

def appendU16 (value : UInt16) : List UInt8 := [(value >>> 8).toUInt8, value.toUInt8]

def extractU16 (buff : List UInt8) : UInt16 :=
  (byteAt buff 1).toUInt16 + ((byteAt buff 0).toUInt16 <<< 8)

def appendU32 (value : UInt32) : List UInt8 :=
  [(value >>> 24).toUInt8, (value >>> 16).toUInt8, (value >>> 8).toUInt8, value.toUInt8]

def extractU32 (buff : List UInt8) : UInt32 :=
  (byteAt buff 3).toUInt32 + ((byteAt buff 2).toUInt32 <<< 8)
    + ((byteAt buff 1).toUInt32 <<< 16) + ((byteAt buff 0).toUInt32 <<< 24)

def appendU64 (value : UInt64) : List UInt8 :=
  appendU32 (value >>> 32).toUInt32 ++ appendU32 value.toUInt32

def extractU64 (buff : List UInt8) : UInt64 :=
  (extractU32 (buff.drop 4)).toUInt64 + ((extractU32 buff).toUInt64 <<< 32)

/-- `extract<bool>`: exactly the byte 1 is `true`. -/
def extractBool (buff : List UInt8) : Bool := byteAt buff 0 == 1

/-- `append<bool>` -/
def appendBool (value : Bool) : List UInt8 := if value then [1] else [0]

theorem appendU16_eq (v : UInt16) : appendU16 v = be 2 v.toNat := by
  have h : v.toNat < 65536 := v.toNat_lt
  simp only [appendU16, be_succ, be_zero, List.cons.injEq, and_true]
  refine ⟨UInt8.toNat_inj.mp ?_, UInt8.toNat_inj.mp ?_⟩ <;> simp [Nat.shiftRight_eq_div_pow]

theorem appendU32_eq (v : UInt32) : appendU32 v = be 4 v.toNat := by
  simp only [appendU32, be_succ, be_zero, List.cons.injEq, and_true]
  refine ⟨UInt8.toNat_inj.mp ?_, UInt8.toNat_inj.mp ?_, UInt8.toNat_inj.mp ?_,
    UInt8.toNat_inj.mp ?_⟩ <;> simp [Nat.shiftRight_eq_div_pow]

theorem appendU64_eq (v : UInt64) : appendU64 v = be 8 v.toNat := by
  have h : v.toNat < 2 ^ 64 := v.toNat_lt
  rw [appendU64, appendU32_eq, appendU32_eq]
  simp only [be_succ, be_zero, List.cons_append, List.nil_append, List.cons.injEq, and_true]
  refine ⟨?_, ?_, ?_, ?_, ?_, ?_, ?_, ?_⟩ <;> apply UInt8.toNat_inj.mp <;>
    simp [Nat.shiftRight_eq_div_pow] <;> omega

theorem toNat_extractU16 (a b : UInt8) (rest : List UInt8) :
    (extractU16 (a :: b :: rest)).toNat = ofBe [a, b] := by
  have ha := a.toNat_lt
  have hb := b.toNat_lt
  simp [extractU16, byteAt, ofBe_cons, Nat.shiftLeft_eq]
  omega

theorem toNat_extractU32 (a b c d : UInt8) (rest : List UInt8) :
    (extractU32 (a :: b :: c :: d :: rest)).toNat = ofBe [a, b, c, d] := by
  have ha := a.toNat_lt
  have hb := b.toNat_lt
  have hc := c.toNat_lt
  have hd := d.toNat_lt
  simp [extractU32, byteAt, ofBe_cons, Nat.shiftLeft_eq]
  omega

@[simp] theorem length_appendU16 (v : UInt16) : (appendU16 v).length = 2 := rfl

@[simp] theorem length_appendU32 (v : UInt32) : (appendU32 v).length = 4 := rfl

@[simp] theorem length_appendU64 (v : UInt64) : (appendU64 v).length = 8 := rfl

@[simp] theorem extractU16_appendU16 (v : UInt16) (rest : List UInt8) :
    extractU16 (appendU16 v ++ rest) = v := by
  apply UInt16.toNat_inj.mp
  calc (extractU16 (appendU16 v ++ rest)).toNat = ofBe (appendU16 v) :=
        toNat_extractU16 _ _ rest
    _ = v.toNat := by rw [appendU16_eq, ofBe_be_of_lt v.toNat_lt]

@[simp] theorem extractU32_appendU32 (v : UInt32) (rest : List UInt8) :
    extractU32 (appendU32 v ++ rest) = v := by
  apply UInt32.toNat_inj.mp
  calc (extractU32 (appendU32 v ++ rest)).toNat = ofBe (appendU32 v) :=
        toNat_extractU32 _ _ _ _ rest
    _ = v.toNat := by rw [appendU32_eq, ofBe_be_of_lt v.toNat_lt]

@[simp] theorem extractU64_appendU64 (v : UInt64) (rest : List UInt8) :
    extractU64 (appendU64 v ++ rest) = v := by
  have hlow : (appendU64 v ++ rest).drop 4 = appendU32 v.toUInt32 ++ rest := rfl
  have hhigh : extractU32 (appendU64 v ++ rest) = (v >>> 32).toUInt32 := by
    rw [appendU64, List.append_assoc, extractU32_appendU32]
  rw [extractU64, hlow, hhigh, extractU32_appendU32]
  have hv : v.toNat < 2 ^ 64 := v.toNat_lt
  apply UInt64.toNat_inj.mp
  simp [Nat.shiftRight_eq_div_pow, Nat.shiftLeft_eq]
  omega

@[simp] theorem extractBool_appendBool (v : Bool) (rest : List UInt8) :
    extractBool (appendBool v ++ rest) = v := by
  cases v <;> rfl

/-! ## The server's copy -/

namespace Server

/-- `koheron::append<Tp>`: the bytes written at `buff`. -/
def append : ScalarVal → List UInt8
  | .bool v => appendBool v
  | .uint8 v => [v]
  | .int8 v => [v.toUInt8]
  | .uint16 v => appendU16 v
  | .int16 v => appendU16 v.toUInt16
  | .uint32 v => appendU32 v
  | .int32 v => appendU32 v.toUInt32
  | .uint64 v => appendU64 v
  | .int64 v => appendU64 v.toUInt64
  | .float bits => appendU32 bits
  | .double bits => appendU64 bits
  | .complexFloat re im => appendU32 re ++ appendU32 im
  | .complexDouble re im => appendU64 re ++ appendU64 im

/-- `koheron::extract<Tp>` -/
def extract (t : ScalarType) (buff : List UInt8) : ScalarVal :=
  match t with
  | .bool => .bool (extractBool buff)
  | .uint8 => .uint8 (byteAt buff 0)
  | .int8 => .int8 (byteAt buff 0).toInt8
  | .uint16 => .uint16 (extractU16 buff)
  | .int16 => .int16 (extractU16 buff).toInt16
  | .uint32 => .uint32 (extractU32 buff)
  | .int32 => .int32 (extractU32 buff).toInt32
  | .uint64 => .uint64 (extractU64 buff)
  | .int64 => .int64 (extractU64 buff).toInt64
  | .float => .float (extractU32 buff)
  | .double => .double (extractU64 buff)
  | .complexFloat => .complexFloat (extractU32 buff) (extractU32 (buff.drop 4))
  | .complexDouble => .complexDouble (extractU64 buff) (extractU64 (buff.drop 8))

@[simp] theorem length_append (v : ScalarVal) : (append v).length = v.type.size := by
  cases v with
  | bool v => cases v <;> rfl
  | _ => rfl

@[simp] theorem type_extract (t : ScalarType) (buff : List UInt8) : (extract t buff).type = t := by
  cases t <;> rfl

/-- `extract` undoes `append`, whatever follows. -/
theorem extract_append (v : ScalarVal) (rest : List UInt8) :
    extract v.type (append v ++ rest) = v := by
  cases v with
  | complexFloat re im =>
    have hdrop : (appendU32 re ++ appendU32 im ++ rest).drop 4 = appendU32 im ++ rest := rfl
    simp only [ScalarVal.type, extract, append, hdrop, extractU32_appendU32]
    rw [List.append_assoc, extractU32_appendU32]
  | complexDouble re im =>
    have hdrop : (appendU64 re ++ appendU64 im ++ rest).drop 8 = appendU64 im ++ rest := rfl
    simp only [ScalarVal.type, extract, append, hdrop, extractU64_appendU64]
    rw [List.append_assoc, extractU64_appendU64]
  | _ => simp [ScalarVal.type, extract, append, byteAt]

end Server

/-! ## Integers -/

/-- The number that an integer is. -/
def ScalarVal.int? : ScalarVal → Option ℤ
  | .uint8 v => some v.toNat
  | .int8 v => some v.toInt
  | .uint16 v => some v.toNat
  | .int16 v => some v.toInt
  | .uint32 v => some v.toNat
  | .int32 v => some v.toInt
  | .uint64 v => some v.toNat
  | .int64 v => some v.toInt
  | _ => none

/-- A number in two's complement is its bits up to a multiple. -/
theorem toInt_eq_add {w : ℕ} (x : BitVec w) : ∃ k : ℤ, x.toInt = x.toNat + 2 ^ w * k := by
  rw [BitVec.toInt_eq_toNat_cond]
  split
  · exact ⟨0, by ring⟩
  · exact ⟨-1, by push_cast; ring⟩

/-- **An integer is appended as its low bytes.** -/
theorem Server.append_of_int? {v : ScalarVal} {n : ℤ} (h : v.int? = some n) :
    append v = beInt v.type.size n := by
  cases v with
  | uint8 v =>
    obtain rfl : (v.toNat : ℤ) = n := Option.some.inj h
    exact (be_one v).symm.trans (beInt_natCast 1 v.toNat).symm
  | int8 v =>
    obtain rfl : v.toInt = n := Option.some.inj h
    obtain ⟨k, hk⟩ := toInt_eq_add v.toBitVec
    exact (be_one v.toUInt8).symm.trans (beInt_eq hk).symm
  | uint16 v =>
    obtain rfl : (v.toNat : ℤ) = n := Option.some.inj h
    exact (appendU16_eq v).trans (beInt_natCast 2 v.toNat).symm
  | int16 v =>
    obtain rfl : v.toInt = n := Option.some.inj h
    obtain ⟨k, hk⟩ := toInt_eq_add v.toBitVec
    exact (appendU16_eq v.toUInt16).trans (beInt_eq hk).symm
  | uint32 v =>
    obtain rfl : (v.toNat : ℤ) = n := Option.some.inj h
    exact (appendU32_eq v).trans (beInt_natCast 4 v.toNat).symm
  | int32 v =>
    obtain rfl : v.toInt = n := Option.some.inj h
    obtain ⟨k, hk⟩ := toInt_eq_add v.toBitVec
    exact (appendU32_eq v.toUInt32).trans (beInt_eq hk).symm
  | uint64 v =>
    obtain rfl : (v.toNat : ℤ) = n := Option.some.inj h
    exact (appendU64_eq v).trans (beInt_natCast 8 v.toNat).symm
  | int64 v =>
    obtain rfl : v.toInt = n := Option.some.inj h
    obtain ⟨k, hk⟩ := toInt_eq_add v.toBitVec
    exact (appendU64_eq v.toUInt64).trans (beInt_eq hk).symm
  | _ => cases h

/-! ## The client's copy -/

namespace Client

/-- `serdes::append<Tp>`; there is none for `std::complex`. -/
def append : ScalarVal → Option (List UInt8)
  | .bool v => some (appendBool v)
  | .uint8 v => some [v]
  | .int8 v => some [v.toUInt8]
  | .uint16 v => some (appendU16 v)
  | .int16 v => some (appendU16 v.toUInt16)
  | .uint32 v => some (appendU32 v)
  | .int32 v => some (appendU32 v.toUInt32)
  | .uint64 v => some (appendU64 v)
  | .int64 v => some (appendU64 v.toUInt64)
  | .float bits => some (appendU32 bits)
  | .double bits => some (appendU64 bits)
  | .complexFloat _ _ | .complexDouble _ _ => none

/-- `serdes::extract<Tp>`; there is none for `std::complex`. -/
def extract (t : ScalarType) (buff : List UInt8) : Option ScalarVal :=
  match t with
  | .bool => some (.bool (extractBool buff))
  | .uint8 => some (.uint8 (byteAt buff 0))
  | .int8 => some (.int8 (byteAt buff 0).toInt8)
  | .uint16 => some (.uint16 (extractU16 buff))
  | .int16 => some (.int16 (extractU16 buff).toInt16)
  | .uint32 => some (.uint32 (extractU32 buff))
  | .int32 => some (.int32 (extractU32 buff).toInt32)
  | .uint64 => some (.uint64 (extractU64 buff))
  | .int64 => some (.int64 (extractU64 buff).toInt64)
  | .float => some (.float (extractU32 buff))
  | .double => some (.double (extractU64 buff))
  | .complexFloat | .complexDouble => none

/-- On the scalars it has overloads for, the client writes what the server writes. -/
theorem append_eq (v : ScalarVal) (h : v.type.isScalar = true) :
    append v = some (Server.append v) := by
  cases v <;> first | rfl | cases h

/-- On the scalars it has overloads for, the client reads what the server reads. -/
theorem extract_eq {t : ScalarType} (h : t.isScalar = true) (buff : List UInt8) :
    extract t buff = some (Server.extract t buff) := by
  cases t <;> first | rfl | cases h

end Client

/-! ## Object representation -/

/-- The bytes of the value in the memory of a little-endian host. -/
def ScalarVal.mem : ScalarVal → List UInt8
  | .bool v => [if v then 1 else 0]
  | .uint8 v => le 1 v.toNat
  | .int8 v => le 1 v.toUInt8.toNat
  | .uint16 v => le 2 v.toNat
  | .int16 v => le 2 v.toUInt16.toNat
  | .uint32 v => le 4 v.toNat
  | .int32 v => le 4 v.toUInt32.toNat
  | .uint64 v => le 8 v.toNat
  | .int64 v => le 8 v.toUInt64.toNat
  | .float bits => le 4 bits.toNat
  | .double bits => le 8 bits.toNat
  | .complexFloat re im => le 4 re.toNat ++ le 4 im.toNat
  | .complexDouble re im => le 8 re.toNat ++ le 8 im.toNat

/-- The value that the bytes represent in the memory of a little-endian host. -/
def ScalarType.ofMem (t : ScalarType) (bs : List UInt8) : ScalarVal :=
  match t with
  | .bool => .bool (byteAt bs 0 != 0)
  | .uint8 => .uint8 (UInt8.ofNat (ofLe bs))
  | .int8 => .int8 (UInt8.ofNat (ofLe bs)).toInt8
  | .uint16 => .uint16 (UInt16.ofNat (ofLe bs))
  | .int16 => .int16 (UInt16.ofNat (ofLe bs)).toInt16
  | .uint32 => .uint32 (UInt32.ofNat (ofLe bs))
  | .int32 => .int32 (UInt32.ofNat (ofLe bs)).toInt32
  | .uint64 => .uint64 (UInt64.ofNat (ofLe bs))
  | .int64 => .int64 (UInt64.ofNat (ofLe bs)).toInt64
  | .float => .float (UInt32.ofNat (ofLe bs))
  | .double => .double (UInt64.ofNat (ofLe bs))
  | .complexFloat =>
    .complexFloat (UInt32.ofNat (ofLe (bs.take 4))) (UInt32.ofNat (ofLe (bs.drop 4)))
  | .complexDouble =>
    .complexDouble (UInt64.ofNat (ofLe (bs.take 8))) (UInt64.ofNat (ofLe (bs.drop 8)))

@[simp] theorem ScalarVal.length_mem (v : ScalarVal) : v.mem.length = v.type.size := by
  cases v <;> simp [ScalarVal.mem, ScalarVal.type, ScalarType.size]

@[simp] theorem ScalarType.type_ofMem (t : ScalarType) (bs : List UInt8) :
    (t.ofMem bs).type = t := by
  cases t <;> rfl

@[simp] theorem ofLe_le_uint8 (v : UInt8) : ofLe (le 1 v.toNat) = v.toNat :=
  ofLe_le_of_lt v.toNat_lt

@[simp] theorem ofLe_le_uint16 (v : UInt16) : ofLe (le 2 v.toNat) = v.toNat :=
  ofLe_le_of_lt v.toNat_lt

@[simp] theorem ofLe_le_uint32 (v : UInt32) : ofLe (le 4 v.toNat) = v.toNat :=
  ofLe_le_of_lt v.toNat_lt

@[simp] theorem ofLe_le_uint64 (v : UInt64) : ofLe (le 8 v.toNat) = v.toNat :=
  ofLe_le_of_lt v.toNat_lt

/-- Storing a value and loading it gives the value. -/
theorem ScalarVal.ofMem_mem (v : ScalarVal) : v.type.ofMem v.mem = v := by
  cases v with
  | bool v => cases v <;> rfl
  | _ => simp [ScalarVal.mem, ScalarVal.type, ScalarType.ofMem]

/-- The bytes of consecutive elements. -/
def memOf (vs : List ScalarVal) : List UInt8 := vs.flatMap ScalarVal.mem

/-- `n` consecutive elements of type `t`. -/
def ofMemOf (t : ScalarType) : ℕ → List UInt8 → List ScalarVal
  | 0, _ => []
  | n + 1, bs => t.ofMem (bs.take t.size) :: ofMemOf t n (bs.drop t.size)

@[simp] theorem length_ofMemOf (t : ScalarType) (n : ℕ) (bs : List UInt8) :
    (ofMemOf t n bs).length = n := by
  induction n generalizing bs with
  | zero => rfl
  | succ n ih => rw [ofMemOf, List.length_cons, ih]

theorem type_of_mem_ofMemOf {t : ScalarType} {n : ℕ} {bs : List UInt8} {v : ScalarVal}
    (h : v ∈ ofMemOf t n bs) : v.type = t := by
  induction n generalizing bs with
  | zero => simp [ofMemOf] at h
  | succ n ih =>
    rw [ofMemOf, List.mem_cons] at h
    rcases h with rfl | h
    · exact t.type_ofMem _
    · exact ih h

theorem length_memOf {t : ScalarType} {vs : List ScalarVal} (h : ∀ v ∈ vs, v.type = t) :
    (memOf vs).length = vs.length * t.size := by
  induction vs with
  | nil => simp [memOf]
  | cons v vs ih =>
    have hv : v.type = t := h v (List.mem_cons_self ..)
    have ih' := ih fun u hu => h u (List.mem_cons_of_mem v hu)
    rw [memOf] at ih' ⊢
    rw [List.flatMap_cons, List.length_append, ih', ScalarVal.length_mem, hv, List.length_cons]
    ring

/-- Storing elements and loading them gives the elements. -/
theorem ofMemOf_memOf {t : ScalarType} {vs : List ScalarVal} (h : ∀ v ∈ vs, v.type = t) :
    ofMemOf t vs.length (memOf vs) = vs := by
  induction vs with
  | nil => rfl
  | cons v vs ih =>
    have hv : v.type = t := h v (List.mem_cons_self ..)
    have hlen : v.mem.length = t.size := by rw [ScalarVal.length_mem, hv]
    have ih' := ih fun u hu => h u (List.mem_cons_of_mem v hu)
    rw [List.length_cons, ofMemOf, memOf, List.flatMap_cons, List.take_left' hlen,
      List.drop_left' hlen, ← hv, v.ofMem_mem, hv]
    exact congrArg (v :: ·) ih'

end KoheronSdk
