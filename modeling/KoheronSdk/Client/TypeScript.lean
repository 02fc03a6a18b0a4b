import KoheronSdk.Client.TypeStrings
import KoheronSdk.Server.Decoding

/-!
# The TypeScript client's commands

`Command` of `koheron.ts`, and what a WebSocket session makes of its data.  The numbers are
pushed one by one into an array that becomes a `Uint8Array`, a typed array is sent as the
buffer behind it, and a string as its UTF-16 code units.  An exception is `none`; so is a
parameter of another kind than its type, which JavaScript would convert to something.

## Two ways to go wrong

`appendString` pushes code units, of which the `Uint8Array` keeps the low bytes, and counts as
many bytes.  In ASCII this is the text; for anything else the server gets other characters, but as
many as the length says, so that the arguments behind the string are not touched.

`appendArray` and `appendVector` send `array.buffer`.  A typed array is a view of a buffer, from an
offset on and of a length, and need not show all of it.  A view that does not is sent with the bytes
before and behind it, and all arguments behind are moved.

## The conditions

Each of the two conditions is exact as long as the other one holds.  Where both fail at once it
depends on the bytes themselves what is read, since surplus bytes of a view can take the place of
the bytes that a text should have had.  A view in the last place may have bytes behind it that
nobody reads; so the second equivalence asks that the data ends with the arguments.

* `TypeScript.command`: the bytes of a command.
* `TypeScript.MeanAll`: the values that the parameters stand for.
* `command_decodes`: when the views cover their buffers, a command decodes to its
  parameters if and only if the strings are in ASCII; when these are, if and only if the
  views cover their buffers.
-/

namespace KoheronSdk

open Effects ByteOrder

namespace TypeScript

/-! ## Values -/

/-- A number: an integer, or any other one. -/
inductive Number where
  | int (v : ℤ)
  | float (f : Float)

/-- What the bitwise operators work on. -/
def Number.toInt32 : Number → ℤ
  | .int v => v.bmod (2 ^ 32)
  | .float f => if f.isFinite then f.toInt64.toInt.bmod (2 ^ 32) else 0

/-- The number as it is stored in a floating-point array. -/
def Number.toFloat : Number → Float
  | .int v => Float.ofInt v
  | .float f => f

/-- A view of the elements of a buffer, on a little-endian host. -/
structure TypedArray where
  type : ScalarType
  buffer : List UInt8
  byteOffset : ℕ
  length : ℕ
  fits : byteOffset + length * type.size ≤ buffer.length

/-- The elements of a view. -/
def TypedArray.elements (a : TypedArray) : List ScalarVal :=
  ofMemOf a.type a.length ((a.buffer.drop a.byteOffset).take (a.length * a.type.size))

/-- A parameter of a command; a string is its code units. -/
inductive Value where
  | number (n : Number)
  | bool (b : Bool)
  | string (units : List UInt16)
  | view (a : TypedArray)

/-- The parameter, as a number. -/
def Value.number? : Value → Option Number
  | .number n => some n
  | .bool b => some (.int (if b then 1 else 0))
  | _ => none

/-- What `if (param)` makes of it. -/
def Value.truth : Value → Bool
  | .number (.int v) => v != 0
  | .number (.float f) => f != 0 && !f.isNaN
  | .bool b => b
  | .string units => !units.isEmpty
  | .view _ => true

/-! ## Encoding -/

/-- `buffer.push((value >> shift) & 0xff)`, for some shifts. -/
def pushBytes (shifts : List ℕ) (value : Number) : List ℕ :=
  shifts.map fun shift : ℕ => (value.toInt32 >>> shift % 256).toNat

def appendInt8 : Number → List ℕ := pushBytes [0]

def appendUint8 : Number → List ℕ := pushBytes [0]

def appendInt16 : Number → List ℕ := pushBytes [8, 0]

def appendUint16 : Number → List ℕ := pushBytes [8, 0]

def appendInt32 : Number → List ℕ := pushBytes [24, 16, 8, 0]

def appendUint32 : Number → List ℕ := pushBytes [24, 16, 8, 0]

/-- `floatToBytes` -/
def floatToBytes (f : Number) : Number := .int f.toFloat.toFloat32.toBits.toNat

def appendFloat32 (value : Number) : List ℕ := appendUint32 (floatToBytes value)

/-- `appendFloat64`: first the word at 4, then the word at 0. -/
def appendFloat64 (value : Number) : List ℕ :=
  let bits := value.toFloat.toBits
  appendUint32 (.int (bits >>> 32).toUInt32.toNat) ++ appendUint32 (.int bits.toUInt32.toNat)

/-- `appendArray`: all of `array.buffer`. -/
def appendArray (array : TypedArray) : List ℕ := array.buffer.map UInt8.toNat

/-- `appendVector`: all of `array.buffer`, behind its length. -/
def appendVector (array : TypedArray) : List ℕ :=
  appendUint32 (.int array.buffer.length) ++ array.buffer.map UInt8.toNat

/-- `appendString`: the code units, behind their number. -/
def appendString (str : List UInt16) : List ℕ :=
  appendUint32 (.int str.length) ++ str.map UInt16.toNat

/-- The characters that `trim()` removes. -/
def space (c : Char) : Bool :=
  c.toNat ∈ [0x09, 0x0A, 0x0B, 0x0C, 0x0D, 0x20, 0xA0, 0x1680, 0x2028, 0x2029, 0x202F, 0x205F,
    0x3000, 0xFEFF] || (0x2000 ≤ c.toNat && c.toNat ≤ 0x200A)

def isStdArray (type : Str) : Bool :=
  strip space ((split '<' type).headD []) = "std::array".toList

def isStdVector (type : Str) : Bool :=
  strip space ((split '<' type).headD []) = "std::vector".toList

def isStdString (type : Str) : Bool := strip space type = "std::string".toList

/-- The cases of `buildPayload` for one argument. -/
def buildArg (type : Str) (param : Value) : Option (List ℕ) :=
  if type = "uint8_t".toList then param.number?.map appendUint8
  else if type = "int8_t".toList then param.number?.map appendInt8
  else if type = "uint16_t".toList then param.number?.map appendUint16
  else if type = "int16_t".toList then param.number?.map appendInt16
  else if type = "uint32_t".toList then param.number?.map appendUint32
  else if type = "int32_t".toList then param.number?.map appendInt32
  else if type = "float".toList then param.number?.map appendFloat32
  else if type = "double".toList then param.number?.map appendFloat64
  else if type = "bool".toList then
    if param.truth then some (appendUint8 (.int 1)) else some (appendUint8 (.int 0))
  else if isStdArray type then
    match param with
    | .view a => some (appendArray a)
    | _ => none
  else if isStdVector type then
    match param with
    | .view a => some (appendVector a)
    | _ => none
  else if isStdString type then
    match param with
    | .string units => some (appendString units)
    | _ => none
  else none

/-- `buildPayload` -/
def buildPayload : List Str → List Value → Option (List ℕ)
  | [], _ => some []
  | _ :: _, [] => none
  | type :: args, param :: params => do
    let pushed ← buildArg type param
    let payload ← buildPayload args params
    return pushed ++ payload

/-- `new Uint8Array(array)` -/
def uint8Array (array : List ℕ) : List UInt8 := array.map UInt8.ofNat

/-- `Command`: the data of the `CmdMessage`. -/
def command (devId cmdId : Number) (args : List Str) (params : List Value) :
    Option (List UInt8) :=
  let buffer := appendUint32 (.int 0) ++ appendUint16 devId ++ appendUint16 cmdId
  if args.length = 0 then some (uint8Array buffer)
  else if args.length ≠ params.length then none
  else (buildPayload args params).map fun payload => uint8Array (buffer ++ payload)

/-! ## Text -/

/-- The unit begins a surrogate pair. -/
def isHigh (u : UInt16) : Bool := 0xD800 ≤ u.toNat && u.toNat < 0xDC00

/-- The unit ends a surrogate pair. -/
def isLow (u : UInt16) : Bool := 0xDC00 ≤ u.toNat && u.toNat < 0xE000

/-- A unit that is not in a pair: a character, or U+FFFD for half a pair. -/
def encodeUnit (u : UInt16) : List UInt8 :=
  if isHigh u || isLow u then [0xEF, 0xBF, 0xBD] else String.utf8EncodeChar (Char.ofNat u.toNat)

/-- The character of a pair. -/
def encodePair (u v : UInt16) : List UInt8 :=
  String.utf8EncodeChar
    (Char.ofNat (0x10000 + (u.toNat - 0xD800) * 0x400 + (v.toNat - 0xDC00)))

/-- A string in UTF-8. -/
def utf8 : List UInt16 → List UInt8
  | [] => []
  | [u] => encodeUnit u
  | u :: v :: us =>
    if isHigh u && isLow v then encodePair u v ++ utf8 us else encodeUnit u ++ utf8 (v :: us)

/-! ## What the values mean -/

/-- `param`, where a scalar of the value's type is wanted, stands for the value. -/
def Value.MeansScalar (param : Value) : ScalarVal → Prop
  | .bool b => param.number? ≠ none ∧ param.truth = b
  | .float bits => ∃ n, param.number? = some n ∧ bits = n.toFloat.toFloat32.toBits
  | .double bits => ∃ n, param.number? = some n ∧ bits = n.toFloat.toBits
  | v => ∃ n, param.number? = some (.int n) ∧ v.int? = some n

/-- `param`, where an argument of the type is wanted, stands for the value. -/
def Value.Means (param : Value) : ArgType → ArgVal → Prop
  | .scalar t, .scalar v => v.type = t ∧ param.MeansScalar v
  | .array t n, .array vs => ∃ a, param = .view a ∧ a.type = t ∧ a.length = n ∧ a.elements = vs
  | .vector t, .vector vs => ∃ a, param = .view a ∧ a.type = t ∧ a.elements = vs
  | .string, .string bytes => ∃ units, param = .string units ∧ utf8 units = bytes
  | _, _ => False

/-- The parameters, one for each type, stand for the values. -/
def MeanAll : List Value → List ArgType → List ArgVal → Prop
  | [], [], [] => True
  | param :: params, t :: ts, v :: vals => param.Means t v ∧ MeanAll params ts vals
  | _, _, _ => False

/-- A view shows all of its buffer. -/
def Value.Covers : Value → Prop
  | .view a => a.byteOffset = 0 ∧ a.length * a.type.size = a.buffer.length
  | _ => True

/-- A string is in ASCII. -/
def Value.Ascii : Value → Prop
  | .string units => ∀ u ∈ units, u.toNat < 128
  | _ => True

/-! ## Numbers -/

@[simp] theorem uint8Array_append (xs ys : List ℕ) :
    uint8Array (xs ++ ys) = uint8Array xs ++ uint8Array ys := List.map_append

theorem uint8Array_toNat (bytes : List UInt8) : uint8Array (bytes.map UInt8.toNat) = bytes := by
  rw [uint8Array, List.map_map]
  exact List.map_id'' (fun b => UInt8.ofNat_toNat) bytes

/-- The shifts for so many bytes. -/
def shifts (w : ℕ) : List ℕ := (List.range w).reverse.map (8 * ·)

/-- An integer is pushed as its low bytes. -/
theorem uint8Array_pushBytes {w : ℕ} (hw : w ≤ 4) (n : ℤ) :
    uint8Array (pushBytes (shifts w) (.int n)) = beInt w n := by
  obtain ⟨k, hk⟩ : ∃ k : ℤ, (Number.int n).toInt32 = n + 2 ^ 32 * k := by
    refine ⟨-n.bdiv (2 ^ 32), ?_⟩
    rw [mul_neg, ← sub_eq_add_neg]
    exact Int.bmod_eq_self_sub_mul_bdiv n (2 ^ 32)
  have hsplit : (2 : ℤ) ^ 32 = 256 ^ w * 256 ^ (4 - w) := by
    rw [← pow_add, Nat.add_sub_cancel' hw]
    norm_num
  calc uint8Array (pushBytes (shifts w) (.int n)) = beInt w (Number.int n).toInt32 := by
        simp only [uint8Array, pushBytes, shifts, beInt, List.map_map]
        rfl
    _ = beInt w n := by rw [hk, hsplit, mul_assoc, beInt_add_mul]

/-- The word of a count, as the server would append it. -/
theorem uint8Array_appendUint32 (n : ℕ) :
    uint8Array (appendUint32 (.int n)) = appendU32 (UInt32.ofNat n) := by
  have hmod : (n : ℤ) = ((UInt32.ofNat n).toNat : ℕ) + 256 ^ 4 * ((n / 2 ^ 32 : ℕ) : ℤ) := by
    rw [UInt32.toNat_ofNat']
    omega
  rw [appendU32_eq, ← beInt_eq hmod]
  exact uint8Array_pushBytes (Nat.le_refl 4) n

/-! ## Strings -/

theorem toNat_ofNat {n : ℕ} (h : n.isValidChar) : (Char.ofNat n).toNat = n := by
  rw [Char.ofNat, dif_pos h]
  rfl

/-- A unit by itself is one byte if and only if it is in ASCII. -/
theorem length_encodeUnit (u : UInt16) :
    1 ≤ (encodeUnit u).length ∧ ((encodeUnit u).length = 1 ↔ u.toNat < 128) := by
  have hlt := u.toNat_lt
  unfold encodeUnit
  split
  · rename_i h
    simp only [isHigh, isLow, Bool.or_eq_true, Bool.and_eq_true, decide_eq_true_eq] at h
    refine ⟨by decide, fun h3 => absurd h3 (by decide), fun hascii => ?_⟩
    omega
  · rename_i h
    simp only [isHigh, isLow, Bool.or_eq_true, Bool.and_eq_true, decide_eq_true_eq] at h
    have hvalid : u.toNat.isValidChar := by
      rw [Nat.isValidChar]
      omega
    rw [String.length_utf8EncodeChar]
    refine ⟨(Char.ofNat u.toNat).utf8Size_pos, ?_⟩
    rw [utf8Size_eq_one_iff, toNat_ofNat hvalid]

/-- A pair is more than two bytes. -/
theorem length_encodePair {u v : UInt16} (h : (isHigh u && isLow v) = true) :
    2 < (encodePair u v).length := by
  simp only [isHigh, isLow, Bool.and_eq_true, decide_eq_true_eq] at h
  have hvalid : (0x10000 + (u.toNat - 0xD800) * 0x400 + (v.toNat - 0xDC00)).isValidChar := by
    rw [Nat.isValidChar]
    omega
  obtain ⟨c, hc⟩ :
      ∃ c, Char.ofNat (0x10000 + (u.toNat - 0xD800) * 0x400 + (v.toNat - 0xDC00)) = c :=
    ⟨_, rfl⟩
  have hval : 0x10000 ≤ c.toNat := by
    rw [← hc, toNat_ofNat hvalid]
    omega
  have hnot : ∀ m : UInt32, m.toNat < 0x10000 → ¬ c.val ≤ m := by
    intro m hm hle
    have h := UInt32.le_iff_toNat_le.mp hle
    change c.toNat ≤ m.toNat at h
    omega
  rw [encodePair, String.length_utf8EncodeChar, hc, Char.utf8Size]
  rw [if_neg (hnot _ (by decide)), if_neg (hnot _ (by decide)), if_neg (hnot _ (by decide))]
  decide

/-- There are as many bytes as units if and only if all are in ASCII. -/
theorem length_utf8 (units : List UInt16) :
    units.length ≤ (utf8 units).length ∧
      ((utf8 units).length = units.length ↔ ∀ u ∈ units, u.toNat < 128) := by
  induction units using utf8.induct with
  | case1 => simp [utf8]
  | case2 u =>
    obtain ⟨hpos, hone⟩ := length_encodeUnit u
    rw [utf8, List.length_singleton, List.forall_mem_singleton]
    exact ⟨hpos, hone⟩
  | case3 u v us hpair ih =>
    have hlen := length_encodePair hpair
    have hhigh : ¬ u.toNat < 128 := by
      simp only [isHigh, isLow, Bool.and_eq_true, decide_eq_true_eq] at hpair
      omega
    rw [utf8, if_pos hpair, List.length_append, List.length_cons, List.length_cons]
    refine ⟨by omega, fun h => ?_, fun h => absurd (h u (List.mem_cons_self ..)) hhigh⟩
    omega
  | case4 u v us hpair ih =>
    obtain ⟨hpos, hone⟩ := length_encodeUnit u
    rw [utf8, if_neg hpair, List.length_append, List.length_cons, List.forall_mem_cons, ← hone,
      ← ih.2]
    omega

/-- In ASCII the units are the bytes. -/
theorem utf8_of_ascii {units : List UInt16} (h : ∀ u ∈ units, u.toNat < 128) :
    utf8 units = uint8Array (units.map UInt16.toNat) := by
  have hunit : ∀ u : UInt16, u.toNat < 128 → encodeUnit u = [UInt8.ofNat u.toNat] := by
    intro u hu
    have hvalid : u.toNat.isValidChar := Or.inl (by omega)
    have hsurrogate : ¬ (isHigh u || isLow u) = true := by
      simp only [isHigh, isLow, Bool.or_eq_true, Bool.and_eq_true, decide_eq_true_eq]
      omega
    have hsize : (Char.ofNat u.toNat).utf8Size = 1 := by
      rwa [utf8Size_eq_one_iff, toNat_ofNat hvalid]
    rw [encodeUnit, if_neg hsurrogate, String.utf8EncodeChar_eq_singleton hsize]
    refine congrArg (fun b => [b]) (UInt8.toNat_inj.mp ?_)
    have hval : (Char.ofNat u.toNat).val.toNat = u.toNat := toNat_ofNat hvalid
    rw [UInt32.toNat_toUInt8, hval, UInt8.toNat_ofNat']
  induction units using utf8.induct with
  | case1 => rfl
  | case2 u => exact hunit u (h u (List.mem_cons_self ..))
  | case3 u v us hpair ih =>
    have hu := h u (List.mem_cons_self ..)
    simp only [isHigh, isLow, Bool.and_eq_true, decide_eq_true_eq] at hpair
    omega
  | case4 u v us hpair ih =>
    obtain ⟨hu, hus⟩ := List.forall_mem_cons.mp h
    rw [utf8, if_neg hpair, hunit u hu, ih hus]
    rfl

/-! ## What is written -/

/-- The bytes that a parameter becomes, where it stands for the value. -/
def Value.written : Value → ArgVal → List UInt8
  | .view a, .array _ => a.buffer
  | .view a, .vector _ => appendU32 (UInt32.ofNat a.buffer.length) ++ a.buffer
  | .string units, .string _ =>
    appendU32 (UInt32.ofNat units.length) ++ uint8Array (units.map UInt16.toNat)
  | _, v => v.wire

theorem buildArg_scalar {name : String} {v : ScalarVal} (hname : (name, v.type) ∈ scalarNames)
    {param : Value} (hmeans : param.MeansScalar v) {pushed : List ℕ}
    (hpushed : buildArg name.toList param = some pushed) :
    uint8Array pushed = Server.append v := by
  -- the cases of the integers differ in the size only
  have hint : (∃ n, param.number? = some (.int n) ∧ v.int? = some n) → v.type.size ≤ 4 →
      param.number?.map (pushBytes (shifts v.type.size)) = some pushed →
      uint8Array pushed = Server.append v := by
    rintro ⟨n, hparam, hn⟩ hsize h
    rw [hparam, Option.map_some] at h
    rw [← Option.some.inj h, uint8Array_pushBytes hsize, Server.append_of_int? hn]
  cases v with
  | bool b =>
    simp [scalarNames, ScalarVal.type] at hname
    subst hname
    have hb : param.truth = b := hmeans.2
    have h : (if param.truth then some (appendUint8 (.int 1)) else some (appendUint8 (.int 0)))
        = some pushed := hpushed
    rw [hb] at h
    cases b <;> rw [← Option.some.inj h] <;> rfl
  | uint8 v | int8 v | uint16 v | int16 v | uint32 v | int32 v =>
    simp [scalarNames, ScalarVal.type] at hname
    subst hname
    exact hint hmeans (by simp [ScalarVal.type, ScalarType.size]) hpushed
  | uint64 v | int64 v =>
    simp [scalarNames, ScalarVal.type] at hname
    subst hname
    cases hpushed
  | float bits =>
    simp [scalarNames, ScalarVal.type] at hname
    subst hname
    obtain ⟨n, hparam, rfl⟩ := hmeans
    have h : param.number?.map appendFloat32 = some pushed := hpushed
    rw [hparam, Option.map_some] at h
    rw [← Option.some.inj h, appendFloat32, floatToBytes, uint8Array_appendUint32,
      UInt32.ofNat_toNat]
    rfl
  | double bits =>
    simp [scalarNames, ScalarVal.type] at hname
    subst hname
    obtain ⟨n, hparam, rfl⟩ := hmeans
    have h : param.number?.map appendFloat64 = some pushed := hpushed
    rw [hparam, Option.map_some] at h
    rw [← Option.some.inj h, appendFloat64, uint8Array_append, uint8Array_appendUint32,
      uint8Array_appendUint32, UInt32.ofNat_toNat, UInt32.ofNat_toNat]
    rfl
  | complexFloat re im | complexDouble re im => simp [scalarNames, ScalarVal.type] at hname

/-- What is in front of the bracket tells the containers apart. -/
theorem isStd_base (inner : Str) :
    isStdArray ("std::array".toList ++ '<' :: inner) = true ∧
      isStdArray ("std::vector".toList ++ '<' :: inner) = false ∧
      isStdVector ("std::vector".toList ++ '<' :: inner) = true := by
  have hhead : ∀ base : Str, '<' ∉ base → (split '<' (base ++ '<' :: inner)).headD [] = base := by
    intro base hbase
    rw [split_append hbase, List.headD_cons]
  rw [isStdArray, isStdArray, isStdVector, hhead _ (by decide), hhead _ (by decide)]
  decide

/-- The string of a container is none of the other types. -/
theorem buildArg_container {s : Str} (h : '<' ∈ s) (a : TypedArray) :
    buildArg s (.view a) =
      if isStdArray s then some (appendArray a)
      else if isStdVector s then some (appendVector a)
      else none := by
  have hne : ∀ name : Str, '<' ∉ name → ¬ s = name := by
    rintro name hname rfl
    exact hname h
  unfold buildArg
  rw [if_neg (hne _ (by decide)), if_neg (hne _ (by decide)), if_neg (hne _ (by decide)),
    if_neg (hne _ (by decide)), if_neg (hne _ (by decide)), if_neg (hne _ (by decide)),
    if_neg (hne _ (by decide)), if_neg (hne _ (by decide)), if_neg (hne _ (by decide))]
  simp only [ite_self]

/-- **What a parameter becomes.** -/
theorem uint8Array_buildArg {s : Str} {t : ArgType} (hs : Spells [] s t) {param : Value}
    {v : ArgVal} (hmeans : param.Means t v) {pushed : List ℕ}
    (hpushed : buildArg s param = some pushed) : uint8Array pushed = param.written v := by
  cases hs with
  | scalar hname =>
    cases v with
    | scalar v =>
      obtain ⟨rfl, hmeans⟩ := hmeans
      cases param <;> exact buildArg_scalar hname hmeans hpushed
    | _ => exact hmeans.elim
  | array hname hdigits =>
    cases v with
    | array vs =>
      obtain ⟨a, rfl, -⟩ := hmeans
      rw [buildArg_container (List.mem_append_right _ (List.mem_cons_self ..)), List.nil_append,
        if_pos (isStd_base _).1] at hpushed
      rw [← Option.some.inj hpushed]
      exact uint8Array_toNat a.buffer
    | _ => exact hmeans.elim
  | vector hname =>
    cases v with
    | vector vs =>
      obtain ⟨a, rfl, -⟩ := hmeans
      obtain ⟨-, harray, hvector⟩ := isStd_base _
      rw [buildArg_container (List.mem_append_right _ (List.mem_cons_self ..)), List.nil_append,
        if_neg (Bool.not_eq_true _ ▸ harray), if_pos hvector] at hpushed
      rw [← Option.some.inj hpushed, appendVector, uint8Array_append, uint8Array_appendUint32,
        uint8Array_toNat]
      rfl
    | _ => exact hmeans.elim
  | string =>
    cases v with
    | string bytes =>
      obtain ⟨units, rfl, -⟩ := hmeans
      have h : some (appendString units) = some pushed := hpushed
      rw [← Option.some.inj h, appendString, uint8Array_append, uint8Array_appendUint32]
      rfl
    | _ => exact hmeans.elim

/-! ## What is read -/

/-- A parameter that stands for a scalar is neither a view nor a string. -/
theorem Value.MeansScalar.number {param : Value} {v : ScalarVal} (h : param.MeansScalar v) :
    param.number? ≠ none := by
  have hsome : ∀ n, param.number? = some n → param.number? ≠ none := by
    intro n hn
    rw [hn]
    exact Option.some_ne_none n
  cases v with
  | bool b => exact h.1
  | _ =>
    obtain ⟨n, hn, -⟩ := h
    exact hsome _ hn

/-- A parameter that stands for a value is read as that value, if it is a view that covers
its buffer or a string in ASCII. -/
theorem read_written {t : ArgType} {param : Value} {v : ArgVal} (hmeans : param.Means t v)
    (hcovers : param.Covers) (hascii : param.Ascii) (hsize : (param.written v).length < 2 ^ 31)
    (rest : List UInt8) : t.read (param.written v ++ rest) = some (v, rest) := by
  cases t with
  | scalar t =>
    cases v with
    | scalar v =>
      have hwritten : param.written (.scalar v) = (ArgVal.scalar v).wire := by cases param <;> rfl
      have htype : (ArgVal.scalar v).HasType (.scalar t) := hmeans.1
      rw [hwritten]
      exact ArgVal.read_wire htype trivial rest
    | _ => exact hmeans.elim
  | array t n =>
    cases v with
    | array vs =>
      obtain ⟨a, rfl, rfl, rfl, rfl⟩ := hmeans
      obtain ⟨hoffset, hlength⟩ := hcovers
      change (ArgType.array a.type a.length).read (a.buffer ++ rest) = _
      rw [ArgType.read, hlength, if_pos (by rw [List.length_append]; omega), List.take_left,
        List.drop_left, TypedArray.elements, hoffset, List.drop_zero, hlength, List.take_length]
    | _ => exact hmeans.elim
  | vector t =>
    cases v with
    | vector vs =>
      obtain ⟨a, rfl, rfl, rfl⟩ := hmeans
      obtain ⟨hoffset, hlength⟩ := hcovers
      have hcount : a.buffer.length < 2 ^ 31 := by
        simp only [Value.written, List.length_append, length_appendU32] at hsize
        omega
      have hdrop : (appendU32 (UInt32.ofNat a.buffer.length) ++ (a.buffer ++ rest)).drop 4
          = a.buffer ++ rest := List.drop_left' (length_appendU32 _)
      have helem : elemCount a.type (appendU32 (UInt32.ofNat a.buffer.length) ++
          (a.buffer ++ rest)) = a.length := by
        rw [elemCount, toNat_extractU32_count hcount, ← hlength,
          Nat.mul_div_cancel _ a.type.size_pos]
      rw [Value.written, List.append_assoc]
      simp only [ArgType.read, helem]
      rw [if_pos (by simp [hlength]), ← List.drop_drop, hdrop, hlength, List.take_left,
        List.drop_left, TypedArray.elements, hoffset, List.drop_zero, hlength, List.take_length]
    | _ => exact hmeans.elim
  | string =>
    cases v with
    | string bytes =>
      obtain ⟨units, rfl, rfl⟩ := hmeans
      have hlen : (utf8 units).length = units.length := (length_utf8 units).2.mpr hascii
      have hwritten : (Value.string units).written (.string (utf8 units))
          = (ArgVal.string (utf8 units)).wire := by
        rw [ArgVal.wire, hlen, utf8_of_ascii hascii]
        rfl
      have hcounted : (ArgVal.string (utf8 units)).Counted := by
        rw [hwritten, ArgVal.wire, List.length_append] at hsize
        exact Nat.lt_of_le_of_lt (Nat.le_add_left _ _) hsize
      have htype : (ArgVal.string (utf8 units)).HasType .string := trivial
      rw [hwritten]
      exact ArgVal.read_wire htype hcounted rest
    | _ => exact hmeans.elim

/-- More is written than the value has, unless the views cover their buffers. -/
theorem length_written {t : ArgType} {param : Value} {v : ArgVal} (hmeans : param.Means t v)
    (hascii : param.Ascii) : v.wire.length ≤ (param.written v).length ∧
      ((param.written v).length = v.wire.length → param.Covers) := by
  have helements : ∀ a : TypedArray, (memOf a.elements).length = a.length * a.type.size := by
    intro a
    rw [TypedArray.elements, length_memOf fun u hu => type_of_mem_ofMemOf hu, length_ofMemOf]
  have hcovers : ∀ a : TypedArray, a.buffer.length = a.length * a.type.size →
      (Value.view a).Covers := by
    intro a h
    have hfits := a.fits
    exact ⟨by omega, h.symm⟩
  cases t with
  | scalar t =>
    cases v with
    | scalar v =>
      have hwritten : param.written (.scalar v) = (ArgVal.scalar v).wire := by cases param <;> rfl
      rw [hwritten]
      refine ⟨Nat.le_refl _, fun _ => ?_⟩
      cases param with
      | view a => exact absurd rfl hmeans.2.number
      | _ => trivial
    | _ => exact hmeans.elim
  | array t n =>
    cases v with
    | array vs =>
      obtain ⟨a, rfl, rfl, rfl, rfl⟩ := hmeans
      have hfits := a.fits
      rw [Value.written, ArgVal.wire, helements]
      exact ⟨by omega, hcovers a⟩
    | _ => exact hmeans.elim
  | vector t =>
    cases v with
    | vector vs =>
      obtain ⟨a, rfl, rfl, rfl⟩ := hmeans
      have hfits := a.fits
      rw [Value.written, ArgVal.wire, List.length_append, List.length_append, helements,
        length_appendU32, length_appendU32]
      exact ⟨by omega, fun h => hcovers a (by omega)⟩
    | _ => exact hmeans.elim
  | string =>
    cases v with
    | string bytes =>
      obtain ⟨units, rfl, rfl⟩ := hmeans
      have hlen : (utf8 units).length = units.length := (length_utf8 units).2.mpr hascii
      rw [Value.written, ArgVal.wire, List.length_append, List.length_append, length_appendU32,
        length_appendU32, hlen, uint8Array, List.length_map, List.length_map]
      exact ⟨Nat.le_refl _, fun _ => trivial⟩
    | _ => exact hmeans.elim

/-- A string that is read as its text is in ASCII. -/
theorem ascii_of_read {t : ArgType} {param : Value} {v : ArgVal} (hmeans : param.Means t v)
    (hsize : (param.written v).length < 2 ^ 31) {more rest : List UInt8}
    (hread : t.read (param.written v ++ more) = some (v, rest)) : param.Ascii := by
  cases param with
  | string units =>
    cases t with
    | scalar t =>
      cases v with
      | scalar v => exact absurd rfl hmeans.2.number
      | _ => exact hmeans.elim
    | array t n =>
      cases v with
      | array vs =>
        obtain ⟨a, hview, -⟩ := hmeans
        cases hview
      | _ => exact hmeans.elim
    | vector t =>
      cases v with
      | vector vs =>
        obtain ⟨a, hview, -⟩ := hmeans
        cases hview
      | _ => exact hmeans.elim
    | string =>
      cases v with
      | string bytes =>
        obtain ⟨_, heq, rfl⟩ := hmeans
        obtain rfl : units = _ := Value.string.inj heq
        rw [Value.written, List.length_append, uint8Array, List.length_map, List.length_map]
          at hsize
        rw [Value.written, List.append_assoc] at hread
        simp only [ArgType.read, Option.ite_none_right_eq_some, Option.some.injEq, Prod.mk.injEq,
          ArgVal.string.injEq,
          toNat_extractU32_count (Nat.lt_of_le_of_lt (Nat.le_add_left _ _) hsize)]
          at hread
        obtain ⟨hroom, htake, -⟩ := hread
        refine (length_utf8 units).2.mp ?_
        rw [← htake, List.length_take, List.length_drop]
        omega
      | _ => exact hmeans.elim
  | _ => trivial

/-! ## A payload -/

/-- The bytes that the parameters become. -/
def writtenAll (params : List Value) (vals : List ArgVal) : List UInt8 :=
  (params.zipWith Value.written vals).flatten

/-- **What a payload is.** -/
theorem uint8Array_buildPayload {args : List Str} {ts : List ArgType} {params : List Value}
    {vals : List ArgVal} (hspells : List.Forall₂ (Spells []) args ts)
    (hmeans : MeanAll params ts vals) {pushed : List ℕ}
    (hpushed : buildPayload args params = some pushed) :
    uint8Array pushed = writtenAll params vals := by
  induction hspells generalizing params vals pushed with
  | nil =>
    match params, vals, hmeans with
    | [], [], _ =>
      rw [← Option.some.inj hpushed]
      rfl
  | @cons s t args ts hs _ ih =>
    match params, vals, hmeans with
    | param :: params, v :: vals, ⟨hmeans, hmeans'⟩ =>
      simp only [buildPayload, Option.bind_eq_bind, Option.bind_eq_some_iff, Option.pure_def]
        at hpushed
      obtain ⟨first, hfirst, others, hothers, hpushed⟩ := hpushed
      rw [← Option.some.inj hpushed, uint8Array_append, uint8Array_buildArg hs hmeans hfirst,
        ih hmeans' hothers]
      rfl

section Payload

variable {params : List Value} {ts : List ArgType} {vals : List ArgVal}

/-- With views that cover their buffers and strings in ASCII the payload is read as the
values. -/
theorem readArgs_writtenAll (hmeans : MeanAll params ts vals) (hcovers : ∀ p ∈ params, p.Covers)
    (hascii : ∀ p ∈ params, p.Ascii) (hsize : (writtenAll params vals).length < 2 ^ 31) :
    readArgs ts (writtenAll params vals) = some (vals, []) := by
  induction params generalizing ts vals with
  | nil =>
    match ts, vals, hmeans with
    | [], [], _ => rfl
  | cons param params ih =>
    match ts, vals, hmeans with
    | t :: ts, v :: vals, ⟨hmeans, hmeans'⟩ =>
      obtain ⟨hcover, hcovers⟩ := List.forall_mem_cons.mp hcovers
      obtain ⟨hasc, hascii⟩ := List.forall_mem_cons.mp hascii
      change (param.written v ++ writtenAll params vals).length < 2 ^ 31 at hsize
      rw [List.length_append] at hsize
      have hfirst := read_written hmeans hcover hasc (by omega) (writtenAll params vals)
      exact readArgs_cons.mpr ⟨v, _, vals, hfirst, ih hmeans' hcovers hascii (by omega), rfl⟩

/-- With strings in ASCII a payload of the length of the values has views that cover their
buffers. -/
theorem length_writtenAll (hmeans : MeanAll params ts vals) (hascii : ∀ p ∈ params, p.Ascii) :
    (wireArgs vals).length ≤ (writtenAll params vals).length ∧
      ((writtenAll params vals).length = (wireArgs vals).length → ∀ p ∈ params, p.Covers) := by
  induction params generalizing ts vals with
  | nil =>
    match ts, vals, hmeans with
    | [], [], _ => exact ⟨Nat.le_refl _, fun _ => List.forall_mem_nil _⟩
  | cons param params ih =>
    match ts, vals, hmeans with
    | t :: ts, v :: vals, ⟨hmeans, hmeans'⟩ =>
      obtain ⟨hasc, hascii⟩ := List.forall_mem_cons.mp hascii
      obtain ⟨hle, hcover⟩ := length_written hmeans hasc
      obtain ⟨hle', hcovers⟩ := ih hmeans' hascii
      change _ ≤ (param.written v ++ writtenAll params vals).length ∧
        ((param.written v ++ writtenAll params vals).length = _ → _)
      rw [wireArgs_cons, List.length_append, List.length_append]
      refine ⟨by omega, fun h => List.forall_mem_cons.mpr ⟨hcover (by omega), hcovers (by omega)⟩⟩

/-- With views that cover their buffers a payload that is read as the values has strings in
ASCII, whatever is behind it. -/
theorem ascii_of_readArgs (hmeans : MeanAll params ts vals) (hcovers : ∀ p ∈ params, p.Covers)
    (hsize : (writtenAll params vals).length < 2 ^ 31) {more rest : List UInt8}
    (hread : readArgs ts (writtenAll params vals ++ more) = some (vals, rest)) :
    ∀ p ∈ params, p.Ascii := by
  induction params generalizing ts vals with
  | nil => exact List.forall_mem_nil _
  | cons param params ih =>
    match ts, vals, hmeans with
    | t :: ts, v :: vals, ⟨hmeans, hmeans'⟩ =>
      obtain ⟨hcover, hcovers⟩ := List.forall_mem_cons.mp hcovers
      change (param.written v ++ writtenAll params vals).length < 2 ^ 31 at hsize
      rw [List.length_append] at hsize
      change readArgs (t :: ts) (param.written v ++ writtenAll params vals ++ more) = _ at hread
      rw [List.append_assoc] at hread
      obtain ⟨v', mid, vs, hv, hvs, heq⟩ := readArgs_cons.mp hread
      obtain ⟨rfl, rfl⟩ := List.cons.inj heq
      have hasc : param.Ascii := ascii_of_read hmeans (by omega) hv
      -- the first parameter has been read to its end
      rw [read_written hmeans hcover hasc (by omega), Option.some.injEq, Prod.mk.injEq] at hv
      rw [← hv.2] at hvs
      exact List.forall_mem_cons.mpr ⟨hasc, ih hmeans' hcovers (by omega) hvs⟩

end Payload

/-- The header of a command is the one of the server. -/
theorem uint8Array_header (driverId opId : UInt16) :
    uint8Array (appendUint32 (.int 0) ++ appendUint16 (.int driverId.toNat) ++
      appendUint16 (.int opId.toNat)) = header driverId opId := by
  have hid : ∀ v : UInt16, uint8Array (appendUint16 (.int v.toNat)) = appendU16 v := by
    intro v
    rw [appendU16_eq, ← beInt_natCast]
    exact uint8Array_pushBytes (w := 2) (by decide) _
  rw [uint8Array_append, uint8Array_append, hid, hid]
  rfl

/-- A command is its header and what its parameters become. -/
theorem command_eq {args : List Str} {ts : List ArgType} {params : List Value}
    {vals : List ArgVal} (hspells : List.Forall₂ (Spells []) args ts)
    (hmeans : MeanAll params ts vals) {driverId opId : UInt16} {data : List UInt8}
    (hdata : command (.int driverId.toNat) (.int opId.toNat) args params = some data) :
    data = header driverId opId ++ writtenAll params vals := by
  unfold command at hdata
  dsimp only at hdata
  split at hdata
  · rename_i hnil
    obtain rfl : args = [] := List.length_eq_zero_iff.mp hnil
    cases hspells
    rw [← Option.some.inj hdata, uint8Array_header]
    match params, vals, hmeans with
    | [], [], _ => exact (List.append_nil _).symm
  · split at hdata
    · cases hdata
    · obtain ⟨pushed, hpushed, hdata⟩ := Option.map_eq_some_iff.mp hdata
      rw [← hdata, uint8Array_append, uint8Array_header,
        uint8Array_buildPayload hspells hmeans hpushed]

end TypeScript

/-! ## A command -/

section Command

open TypeScript

variable {args : List Str} {op : Operation} {params : List Value} {vals : List ArgVal}

/-- **A command of the TypeScript client**, sent as one binary frame.  When all views cover
their buffers, it is decoded to its parameters if and only if all strings are in ASCII.
When all strings are in ASCII, it is decoded to its parameters, to the end of the data, if
and only if all views cover their buffers. -/
theorem command_decodes (drivers : List Driver) (arch : Arch)
    (hspells : List.Forall₂ (Spells []) args op.types) (hmeans : MeanAll params op.types vals)
    {driverId opId : UInt16} {data : List UInt8}
    (hdata : command (.int driverId.toNat) (.int opId.toNat) args params = some data)
    (hlen : data.length ≤ 262088) :
    ∃ payload, data = header driverId opId ++ payload ∧
      ((∀ p ∈ params, p.Covers) →
        ((∀ (cmd : Command) (w : View), w.held = some driverId.toNat → cmd.payload.position = 0 →
          cmd.payload.Holds payload → ∀ pick, (session drivers .any).Allows pick →
            ∃ k, MessageDecodes op opId.toNat vals k ((session drivers .any).exec pick 0
              (parser arch .websock driverId.toNat opId.toNat op.packs cmd) w)) ↔
          ∀ p ∈ params, p.Ascii)) ∧
      ((∀ p ∈ params, p.Ascii) →
        ((∀ (cmd : Command) (w : View), w.held = some driverId.toNat → cmd.payload.position = 0 →
          cmd.payload.Holds payload → ∀ pick, (session drivers .any).Allows pick →
            MessageDecodes op opId.toNat vals payload.length ((session drivers .any).exec pick 0
              (parser arch .websock driverId.toNat opId.toNat op.packs cmd) w)) ↔
          ∀ p ∈ params, p.Covers)) := by
  have hpayload := command_eq hspells hmeans hdata
  have hsize : (writtenAll params vals).length ≤ 262080 := by
    rw [hpayload, List.length_append, length_header] at hlen
    omega
  have hmessage := @parser_message_iff op _ vals drivers arch driverId.toNat opId.toNat hsize
  refine ⟨_, hpayload, fun hcovers => ⟨fun hrun => ?_, fun hascii => ?_⟩,
    fun hascii => ⟨fun hrun => ?_, fun hcovers => ?_⟩⟩
  · obtain ⟨more, rest, hread⟩ := exists_readArgs_of_message drivers arch driverId.toNat
      opId.toNat hrun
    exact ascii_of_readArgs hmeans hcovers (by omega) hread
  · intro cmd w hheld hpos hholds pick hpick
    exact ⟨_, hmessage.mpr (readArgs_writtenAll hmeans hcovers hascii (by omega)) cmd w hheld
      hpos hholds pick hpick⟩
  · have hlength := length_eq_of_readArgs (hmessage.mp hrun)
    rw [List.length_nil, Nat.add_zero] at hlength
    exact (length_writtenAll hmeans hascii).2 hlength
  · exact hmessage.mpr (readArgs_writtenAll hmeans hcovers hascii (by omega))

/-- The types of `probeSet`, as strings. -/
def TypeScript.probeCmdArgs : List Str :=
  ["uint32_t".toList, "bool".toList, "std::vector<uint16_t>".toList, "std::string".toList,
    "std::array<int8_t, 2>".toList]

/-- Parameters for `probeSet`, with a text to try. -/
def TypeScript.probeParams (units : List UInt16) : List Value :=
  [.number (.int 5), .bool true, .view ⟨.uint16, [7, 0], 0, 1, by decide⟩, .string units,
    .view ⟨.int8, [1, 255], 0, 2, by decide⟩]

/-- What the parameters stand for. -/
def TypeScript.probeVals (bytes : List UInt8) : List ArgVal :=
  [.scalar (.uint32 5), .scalar (.bool true), .vector [.uint16 7], .string bytes,
    .array [.int8 1, .int8 (-1)]]

theorem TypeScript.probe_spells :
    List.Forall₂ (Spells []) TypeScript.probeCmdArgs probeSet.types := by
  have huint32 : ("uint32_t", ScalarType.uint32) ∈ scalarNames := by decide
  have hbool : ("bool", ScalarType.bool) ∈ scalarNames := by decide
  have huint16 : ("uint16_t", ScalarType.uint16) ∈ elementNames := by decide
  have hint8 : ("int8_t", ScalarType.int8) ∈ elementNames := by decide
  have htwo : decimal ['2'] = some 2 := by decide
  exact .cons (.scalar huint32) (.cons (.scalar hbool) (.cons (.vector huint16)
    (.cons .string (.cons (.array hint8 htwo) .nil))))

theorem TypeScript.probe_meanAll (units : List UInt16) :
    MeanAll (TypeScript.probeParams units) probeSet.types (TypeScript.probeVals (utf8 units)) :=
  ⟨⟨rfl, 5, rfl, rfl⟩, ⟨rfl, by decide, rfl⟩, ⟨_, rfl, rfl, rfl⟩, ⟨units, rfl, rfl⟩,
    ⟨_, rfl, rfl, rfl, rfl⟩, trivial⟩

theorem TypeScript.probe_covers (units : List UInt16) :
    ∀ p ∈ TypeScript.probeParams units, p.Covers := by
  simp only [TypeScript.probeParams, List.forall_mem_cons]
  exact ⟨trivial, trivial, ⟨rfl, rfl⟩, trivial, ⟨rfl, rfl⟩, List.forall_mem_nil _⟩

/-- Views that cover their buffers and a text in ASCII go through. -/
theorem command_decodes_probe :
    ∃ payload,
      [0, 0, 0, 0, 0, 2, 0, 0, 0, 0, 0, 5, 1, 0, 0, 0, 2, 7, 0, 0, 0, 0, 2, 72, 105, 1, 255]
        = header 2 0 ++ payload ∧
      ∀ (cmd : Command) (w : View), w.held = some 2 → cmd.payload.position = 0 →
        cmd.payload.Holds payload → ∀ pick, (session probeDrivers .any).Allows pick →
          MessageDecodes probeSet 0 (TypeScript.probeVals (utf8 [72, 105])) payload.length
            ((session probeDrivers .any).exec pick 0
              (parser .lp64 .websock 2 0 probeSet.packs cmd) w) := by
  have hdata : command (.int (2 : UInt16).toNat) (.int (0 : UInt16).toNat) TypeScript.probeCmdArgs
      (TypeScript.probeParams [72, 105]) = some [0, 0, 0, 0, 0, 2, 0, 0, 0, 0, 0, 5, 1, 0, 0, 0, 2,
        7, 0, 0, 0, 0, 2, 72, 105, 1, 255] := by decide
  have htext : ∀ u ∈ ([72, 105] : List UInt16), u.toNat < 128 :=
    List.forall_mem_cons.mpr ⟨by decide, List.forall_mem_singleton.mpr (by decide)⟩
  obtain ⟨payload, hpayload, -, hiff⟩ := command_decodes probeDrivers .lp64
    TypeScript.probe_spells (TypeScript.probe_meanAll [72, 105]) hdata (by decide)
  refine ⟨payload, hpayload, (hiff ?_).mpr (TypeScript.probe_covers [72, 105])⟩
  simp only [TypeScript.probeParams, List.forall_mem_cons]
  exact ⟨trivial, trivial, trivial, htext, trivial, List.forall_mem_nil _⟩

/-- A text that is not in ASCII does not: the server gets the low byte of each unit. -/
theorem command_not_decodes :
    ∃ payload, command (.int 2) (.int 0) TypeScript.probeCmdArgs (TypeScript.probeParams [0xE9])
        = some (header 2 0 ++ payload) ∧
      ¬ ∀ (cmd : Command) (w : View), w.held = some 2 → cmd.payload.position = 0 →
        cmd.payload.Holds payload → ∀ pick, (session probeDrivers .any).Allows pick →
          ∃ k, MessageDecodes probeSet 0 (TypeScript.probeVals (utf8 [0xE9])) k
            ((session probeDrivers .any).exec pick 0
              (parser .lp64 .websock 2 0 probeSet.packs cmd) w) := by
  refine ⟨writtenAll (TypeScript.probeParams [0xE9]) (TypeScript.probeVals (utf8 [0xE9])),
    by decide, ?_⟩
  intro h
  obtain ⟨more, rest, hread⟩ := exists_readArgs_of_message probeDrivers .lp64 2 0 h
  have hascii := ascii_of_readArgs (TypeScript.probe_meanAll [0xE9])
    (TypeScript.probe_covers [0xE9]) (by decide) hread
  simp only [TypeScript.probeParams, List.forall_mem_cons] at hascii
  have htext : ∀ u ∈ ([0xE9] : List UInt16), u.toNat < 128 := hascii.2.2.2.1
  exact absurd (htext 0xE9 (List.mem_singleton_self _)) (by decide)

end Command

end KoheronSdk
