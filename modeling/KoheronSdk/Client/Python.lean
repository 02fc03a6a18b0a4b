import Mathlib.Tactic.IntervalCases
import KoheronSdk.Client.TypeStrings
import KoheronSdk.Server.Decoding

/-!
# The Python client's commands

`make_command` of `koheron.py`, and what a TCP session makes of its bytes.  The encoder
goes by the type strings of the server and by the Python values it is given: numbers,
numpy arrays and strings.  An exception is `none`.

## Values and what they stand for

Python converts freely.  A `bool` argument is tested for truth, an integer argument is shifted and
masked, so that it may be negative or too large, and `append` writes its low bytes.  Whether the
server gets the right value can therefore only be asked where a value stands for one of the type:
`PyVal.Means` says which, and leaves out what no type has.  A string is its code points, and
`str.encode()` is UTF-8.

## What goes wrong

Three kinds of arguments are encoded without an exception and decoded as something else
(`Faithful`).  The length in front of a string is that of its characters, not of its bytes.  The
bytes of an integer array without dimensions are so many zeros, for `bytearray` takes it for a
number.  And `append_array` compares the length of the first dimension with the type, but sends all
elements.  The condition is exact: an unfaithful argument has other bytes, and what is read of these
bytes is not what was meant, or does not end with them.

* `Python.makeCommand`: the bytes of a command.
* `Python.MeanAll`: the values that the arguments stand for.
* `Python.Faithful`: the arguments whose bytes the server takes for what they are.
* `makeCommand_decodes_iff`: a command decodes to its arguments if and only if they all
  are faithful and no size is in the way.
-/

namespace KoheronSdk

open Effects ByteOrder

namespace Python

/-! ## Values -/

/-- A code point of a `str`. -/
abbrev CodePoint := Fin 0x110000

/-- A numpy array in native byte order: its element type, its shape, and its elements in
C order. -/
structure NdArray where
  dtype : ScalarType
  shape : List ℕ
  data : List ScalarVal
  length_data : data.length = shape.prod
  type_data : ∀ v ∈ data, v.type = dtype

/-- An argument of a command. -/
inductive PyVal where
  | int (v : ℤ)
  | float (f : Float)
  | bool (b : Bool)
  | str (s : List CodePoint)
  | array (a : NdArray)

/-- What `value >> k` and `& 0xff` work on. -/
def PyVal.asInt : PyVal → Option ℤ
  | .int v => some v
  | .bool b => some (if b then 1 else 0)
  | _ => none

/-- What `struct.pack` takes for a `float`. -/
def PyVal.asFloat : PyVal → Option Float
  | .float f => some f
  | .int v => if (Float.ofInt v).isFinite then some (Float.ofInt v) else none
  | .bool b => some (if b then 1 else 0)
  | _ => none

/-- What `if value:` makes of a number or a string. -/
def PyVal.truth : PyVal → Option Bool
  | .int v => some (v != 0)
  | .float f => some (f != 0)
  | .bool b => some b
  | .str s => some !s.isEmpty
  | .array _ => none

/-- `str.encode()` for one code point; a surrogate cannot be encoded. -/
def CodePoint.encode (c : CodePoint) : Option (List UInt8) :=
  if h : c.val.isValidChar then some (String.utf8EncodeChar (Char.ofNatAux c.val h)) else none

/-- `str.encode()` -/
def encode : List CodePoint → Option (List UInt8)
  | [] => some []
  | c :: cs => do
    let bytes ← CodePoint.encode c
    let rest ← encode cs
    return bytes ++ rest

/-- `bytearray(array)`: the memory of the elements, but an integer array without
dimensions is taken for a number, and makes so many zero bytes. -/
def NdArray.bytearray (a : NdArray) : Option (List UInt8) :=
  match a.shape, a.data with
  | [], [v] =>
    match v.int? with
    | some n => if 0 ≤ n ∧ n < 2 ^ 63 then some (List.replicate n.toNat 0) else none
    | none => some (memOf a.data)
  | _, _ => some (memOf a.data)

/-! ## Encoding -/

/-- `append(buff, value, size)`, whose loop is `beInt`. -/
def append (value : ℤ) (size : ℕ) : List UInt8 :=
  if size ≤ 4 then beInt size value
  else if size = 8 then beInt 4 (value >>> (32 : ℕ)) ++ beInt 4 value
  else []

/-- The characters that `str.strip()` removes. -/
def space (c : Char) : Bool :=
  c.toNat ∈ [0x09, 0x0A, 0x0B, 0x0C, 0x0D, 0x1C, 0x1D, 0x1E, 0x1F, 0x20, 0x85, 0xA0, 0x1680,
    0x2028, 0x2029, 0x202F, 0x205F, 0x3000] || (0x2000 ≤ c.toNat && c.toNat ≤ 0x200A)

/-- `is_std_array` -/
def isStdArray (type : Str) : Bool :=
  let baseType := strip space ((split '<' type).headD [])
  baseType = "std::array".toList || baseType = "const std::array".toList

/-- `is_std_vector` -/
def isStdVector (type : Str) : Bool :=
  let baseType := strip space ((split '<' type).headD [])
  baseType = "std::vector".toList || baseType = "const std::vector".toList

/-- `is_std_string` -/
def isStdString (type : Str) : Bool :=
  let baseType := strip space ((split '&' type).headD [])
  baseType = "std::string".toList || baseType = "const std::string".toList

/-- `get_std_array_params` -/
def getStdArrayParams (type : Str) : Option (Str × Str) := do
  let inner ← (split '>' (← (split '<' type)[1]?))[0]?
  let t ← (split ',' inner)[0]?
  let n ← (split ',' inner)[1]?
  return (strip space t, strip space ((split 'u' n).headD []))

/-- `get_std_vector_params` -/
def getStdVectorParams (type : Str) : Option Str := do
  let inner ← (split '>' (← (split '<' type)[1]?))[0]?
  return strip space ((split ',' inner).headD [])

/-- `cpp_to_np_types`, with the element type for the name that numpy gives it. -/
def cppToNpTypes (t : Str) : Option ScalarType :=
  (elementNames.find? fun p => p.1.toList = t).map Prod.snd

/-- `append_vector` -/
def appendVector (array : NdArray) (t : Str) : Option (List UInt8) := do
  let dtype ← cppToNpTypes t
  if dtype ≠ array.dtype then none
  else
    let arrBytes ← array.bytearray
    return append arrBytes.length 4 ++ arrBytes

/-- `append_array`; `len(array)` is the first dimension. -/
def appendArray (array : NdArray) (params : Str × Str) : Option (List UInt8) := do
  let n ← decimal params.2
  let len ← array.shape.head?
  if n ≠ len then none
  else
    let dtype ← cppToNpTypes params.1
    if dtype ≠ array.dtype then none
    else array.bytearray

/-- `float_to_bits`: the bits of a 32-bit float, as a signed number. -/
def floatToBits (f : Float) : Option ℤ :=
  if f.isFinite && f.toFloat32.isInf then none else some f.toFloat32.toBits.toInt32.toInt

/-- `double_to_bits` -/
def doubleToBits (d : Float) : ℤ := d.toBits.toInt64.toInt

/-- The branch of `build_payload` for one argument. -/
def buildArg (type : Str) (arg : PyVal) : Option (List UInt8) :=
  if type = "uint8_t".toList ∨ type = "int8_t".toList then
    arg.asInt.map (append · 1)
  else if type = "uint16_t".toList ∨ type = "int16_t".toList then
    arg.asInt.map (append · 2)
  else if type = "uint32_t".toList ∨ type = "int32_t".toList then
    arg.asInt.map (append · 4)
  else if type = "uint64_t".toList ∨ type = "int64_t".toList then
    arg.asInt.map (append · 8)
  else if type = "float".toList then do
    return append (← floatToBits (← arg.asFloat)) 4
  else if type = "double".toList then do
    return append (doubleToBits (← arg.asFloat)) 8
  else if type = "bool".toList then do
    if ← arg.truth then return append 1 1 else return append 0 1
  else if isStdArray type then
    match arg with
    | .array a => (getStdArrayParams type).bind (appendArray a)
    | _ => none
  else if isStdVector type then
    match arg with
    | .array a => (getStdVectorParams type).bind (appendVector a)
    | _ => none
  else if isStdString type then
    match arg with
    | .str s => (encode s).map (append s.length 4 ++ ·)
    | _ => none
  else none

/-- `build_payload` -/
def buildPayload : List Str → List PyVal → Option (List UInt8)
  | [], [] => some []
  | type :: cmdArgs, arg :: args => do
    let bytes ← buildArg type arg
    let payload ← buildPayload cmdArgs args
    return bytes ++ payload
  | _, _ => none

/-- `make_command`; without a list of types there are 8 bytes of zeros, as many as
`append` writes for the size 8. -/
def makeCommand (driverId opId : ℤ) (rest : Option (List Str × List PyVal)) :
    Option (List UInt8) := do
  let buff := append 0 4 ++ append driverId 2 ++ append opId 2
  match rest with
  | some (cmdArgs, args) => return buff ++ (← buildPayload cmdArgs args)
  | none => return buff ++ append 0 8

/-! ## Numbers -/

/-- Eight bytes are four and four. -/
theorem append_eq {size : ℕ} (h : size = 1 ∨ size = 2 ∨ size = 4 ∨ size = 8) (value : ℤ) :
    append value size = beInt size value := by
  rcases h with rfl | rfl | rfl | rfl
  · rfl
  · rfl
  · rfl
  · exact (beInt_add value 4 4).symm

/-- A number goes as the server would append it. -/
theorem append_of_int? {v : ScalarVal} {n : ℤ} (h : v.int? = some n)
    (hsize : v.type.size = 1 ∨ v.type.size = 2 ∨ v.type.size = 4 ∨ v.type.size = 8) :
    append n v.type.size = Server.append v := by
  rw [append_eq hsize, Server.append_of_int? h]

/-- A count goes as the server would append it. -/
theorem append_count (n : ℕ) : append n 4 = appendU32 (UInt32.ofNat n) := by
  have hmod : (n : ℤ) = ((UInt32.ofNat n).toNat : ℕ) + 256 ^ 4 * ((n / 2 ^ 32 : ℕ) : ℤ) := by
    rw [UInt32.toNat_ofNat']
    omega
  rw [append_eq (Or.inr (Or.inr (Or.inl rfl))), appendU32_eq]
  exact beInt_eq hmod

/-! ## What the values mean -/

/-- `arg`, where a scalar of the value's type is wanted, stands for the value. -/
def PyVal.MeansScalar (arg : PyVal) : ScalarVal → Prop
  | .bool b => arg.truth = some b
  | .float bits => ∃ f, arg.asFloat = some f ∧ bits = f.toFloat32.toBits
  | .double bits => ∃ f, arg.asFloat = some f ∧ bits = f.toBits
  | v => ∃ n, arg.asInt = some n ∧ v.int? = some n

/-- `arg`, where an argument of the type is wanted, stands for the value. -/
def PyVal.Means (arg : PyVal) : ArgType → ArgVal → Prop
  | .scalar t, .scalar v => v.type = t ∧ arg.MeansScalar v
  | .array t _, .array vs | .vector t, .vector vs =>
    ∃ a, arg = .array a ∧ a.dtype = t ∧ a.data = vs
  | .string, .string bytes => ∃ s, arg = .str s ∧ encode s = some bytes
  | _, _ => False

/-- The arguments, one for each type, stand for the values. -/
def MeanAll : List PyVal → List ArgType → List ArgVal → Prop
  | [], [], [] => True
  | arg :: args, t :: ts, v :: vals => arg.Means t v ∧ MeanAll args ts vals
  | _, _, _ => False

/-- What may stand in front of a type. -/
def qualifiers : List Str := [[], "const ".toList]

/-- The server's string for the type, or the same with `const`. -/
def Qualified (s : Str) (t : ArgType) : Prop := ∃ qualifier ∈ qualifiers, Spells qualifier s t

/-- The bytes of the argument are what the server expects for its value. -/
def Faithful : ArgType → PyVal → Prop
  | .array _ n, .array a => a.data.length = n
  | .vector t, .array a =>
    ¬ (a.shape = [] ∧ ∃ v ∈ a.data, v.int? ≠ none) ∧ a.data.length * t.size < 2 ^ 31
  | .string, .str s => (∀ c ∈ s, c.val < 128) ∧ s.length < 2 ^ 31
  | _, _ => True

/-! ## What is written -/

theorem buildArg_scalar {name : String} {v : ScalarVal} (hname : (name, v.type) ∈ scalarNames)
    {qualifier : Str} (hqualifier : qualifier ∈ qualifiers) {arg : PyVal}
    (hmeans : arg.MeansScalar v) {bytes : List UInt8}
    (hbytes : buildArg (qualifier ++ name.toList) arg = some bytes) :
    bytes = Server.append v := by
  -- no scalar is taken with `const`
  have hnone : ∀ p ∈ scalarNames, buildArg ("const ".toList ++ p.1.toList) arg = none := by
    simp only [scalarNames, List.forall_mem_cons]
    exact ⟨rfl, rfl, rfl, rfl, rfl, rfl, rfl, rfl, rfl, rfl, rfl, List.forall_mem_nil _⟩
  obtain rfl : qualifier = [] := by
    rcases List.mem_cons.mp hqualifier with h | h
    · exact h
    · rw [List.mem_singleton.mp h, hnone _ hname] at hbytes
      cases hbytes
  rw [List.nil_append] at hbytes
  -- the branches of the integers differ in the size only
  have hint : (∃ n, arg.asInt = some n ∧ v.int? = some n) →
      (v.type.size = 1 ∨ v.type.size = 2 ∨ v.type.size = 4 ∨ v.type.size = 8) →
      arg.asInt.map (append · v.type.size) = some bytes → bytes = Server.append v := by
    rintro ⟨n, harg, hn⟩ hsize h
    rw [harg, Option.map_some, append_of_int? hn hsize] at h
    exact (Option.some.inj h).symm
  cases v with
  | bool b =>
    simp [scalarNames, ScalarVal.type] at hname
    subst hname
    have hb : arg.truth = some b := hmeans
    have h : (arg.truth.bind fun b => if b then some (append 1 1) else some (append 0 1))
        = some bytes := hbytes
    rw [hb] at h
    cases b <;> exact (Option.some.inj h).symm
  | uint8 v | int8 v | uint16 v | int16 v | uint32 v | int32 v | uint64 v | int64 v =>
    simp [scalarNames, ScalarVal.type] at hname
    subst hname
    exact hint hmeans (by simp [ScalarVal.type, ScalarType.size]) hbytes
  | float bits =>
    simp [scalarNames, ScalarVal.type] at hname
    subst hname
    obtain ⟨f, harg, rfl⟩ := hmeans
    have h : ((arg.asFloat.bind fun f => (floatToBits f).bind fun n => some (append n 4)))
        = some bytes := hbytes
    rw [harg, Option.bind_some] at h
    obtain ⟨n, hn, h⟩ := Option.bind_eq_some_iff.mp h
    rw [floatToBits, Option.ite_none_left_eq_some] at hn
    have hv : (ScalarVal.int32 f.toFloat32.toBits.toInt32).int? = some n := hn.2
    exact (Option.some.inj h).symm.trans
      (append_of_int? hv (by simp [ScalarVal.type, ScalarType.size]))
  | double bits =>
    simp [scalarNames, ScalarVal.type] at hname
    subst hname
    obtain ⟨f, harg, rfl⟩ := hmeans
    have h : (arg.asFloat.bind fun f => some (append (doubleToBits f) 8)) = some bytes := hbytes
    rw [harg, Option.bind_some] at h
    have hv : (ScalarVal.int64 f.toBits.toInt64).int? = some (doubleToBits f) := rfl
    exact (Option.some.inj h).symm.trans
      (append_of_int? hv (by simp [ScalarVal.type, ScalarType.size]))
  | complexFloat re im | complexDouble re im => simp [scalarNames, ScalarVal.type] at hname

/-- The string of a container is none of the other types. -/
theorem buildArg_container {s : Str} (h : '<' ∈ s) (arg : PyVal) :
    buildArg s arg =
      if isStdArray s then
        match arg with
        | .array a => (getStdArrayParams s).bind (appendArray a)
        | _ => none
      else if isStdVector s then
        match arg with
        | .array a => (getStdVectorParams s).bind (appendVector a)
        | _ => none
      else if isStdString s then
        match arg with
        | .str s => (encode s).map (append s.length 4 ++ ·)
        | _ => none
      else none := by
  have hne : ∀ name : Str, '<' ∉ name → ¬ s = name := by
    rintro name hname rfl
    exact hname h
  unfold buildArg
  rw [if_neg (not_or_intro (hne _ (by decide)) (hne _ (by decide))),
    if_neg (not_or_intro (hne _ (by decide)) (hne _ (by decide))),
    if_neg (not_or_intro (hne _ (by decide)) (hne _ (by decide))),
    if_neg (not_or_intro (hne _ (by decide)) (hne _ (by decide))),
    if_neg (hne _ (by decide)), if_neg (hne _ (by decide)), if_neg (hne _ (by decide))]

theorem strip_elementName {name : String} {t : ScalarType} (h : (name, t) ∈ elementNames) :
    strip space name.toList = name.toList := by
  have hall : ∀ p ∈ elementNames, strip space p.1.toList = p.1.toList := by decide
  exact hall (name, t) h

theorem cppToNpTypes_elementName {name : String} {t : ScalarType} (h : (name, t) ∈ elementNames) :
    cppToNpTypes name.toList = some t := by
  have hall : ∀ p ∈ elementNames, cppToNpTypes p.1.toList = some p.2 := by decide
  exact hall (name, t) h

theorem space_of_isDigit {c : Char} (h : c.isDigit = true) : space c = false := by
  obtain ⟨hlo, hhi⟩ : 48 ≤ c.toNat ∧ c.toNat ≤ 57 := by
    rw [Char.isDigit, Bool.and_eq_true, decide_eq_true_eq, decide_eq_true_eq] at h
    exact h
  unfold space
  generalize c.toNat = n at hlo hhi
  interval_cases n <;> rfl

/-- The memory of the array, unless it is taken for a number. -/
theorem NdArray.bytearray_eq {a : NdArray} {bytes : List UInt8} (h : a.bytearray = some bytes) :
    bytes = memOf a.data ∨
      a.shape = [] ∧ ∃ v n, a.data = [v] ∧ v.int? = some n ∧ bytes = List.replicate n.toNat 0 := by
  unfold bytearray at h
  split at h
  · rename_i v hshape hdata
    split at h
    · rename_i n hn
      rw [Option.ite_none_right_eq_some] at h
      exact Or.inr ⟨hshape, v, n, hdata, hn, (Option.some.inj h.2).symm⟩
    · exact Or.inl (Option.some.inj h).symm
  · exact Or.inl (Option.some.inj h).symm

/-- What is in front of the bracket tells the containers apart. -/
theorem isStd_base {qualifier : Str} (h : qualifier ∈ qualifiers) (inner : Str) :
    ('<' ∉ qualifier ++ "std::array".toList ∧
      isStdArray (qualifier ++ "std::array".toList ++ '<' :: inner) = true) ∧
    '<' ∉ qualifier ++ "std::vector".toList ∧
      isStdArray (qualifier ++ "std::vector".toList ++ '<' :: inner) = false ∧
      isStdVector (qualifier ++ "std::vector".toList ++ '<' :: inner) = true := by
  have hopen : '<' ∉ qualifier ++ "std::array".toList ∧
      '<' ∉ qualifier ++ "std::vector".toList := by
    revert qualifier
    decide
  have hhead : ∀ base : Str, '<' ∉ base → (split '<' (base ++ '<' :: inner)).headD [] = base := by
    intro base hbase
    rw [split_append hbase, List.headD_cons]
  rw [isStdArray, isStdArray, isStdVector, hhead _ hopen.1, hhead _ hopen.2]
  revert qualifier
  decide

theorem buildArg_array {qualifier : Str} (hqualifier : qualifier ∈ qualifiers) {name : String}
    {a : NdArray} {digits : Str} {n : ℕ} (hname : (name, a.dtype) ∈ elementNames)
    (hdigits : decimal digits = some n) {bytes : List UInt8}
    (hbytes : buildArg (qualifier ++ "std::array".toList ++
      '<' :: (name.toList ++ ',' :: ' ' :: digits ++ ['>'])) (.array a) = some bytes) :
    bytes = memOf a.data := by
  obtain ⟨⟨hopen, harray⟩, -⟩ :=
    isStd_base hqualifier (name.toList ++ ',' :: ' ' :: digits ++ ['>'])
  obtain ⟨hsplit, hclose, hcomma⟩ := split_array hname hdigits hopen
  have hu : 'u' ∉ ' ' :: digits := by
    intro hmem
    rcases List.mem_cons.mp hmem with h | h
    · exact absurd h (by decide)
    · exact notMem_of_decimal hdigits (by decide) h
  have hstrip : strip space (' ' :: digits) = digits := by
    rw [strip_cons (by decide)]
    exact strip_eq_self fun c hc => space_of_isDigit (isDigit_of_decimal hdigits c hc)
  have hparams : getStdArrayParams (qualifier ++ "std::array".toList ++
      '<' :: (name.toList ++ ',' :: ' ' :: digits ++ ['>'])) = some (name.toList, digits) := by
    simp only [getStdArrayParams, hsplit, List.getElem?_cons_succ, List.getElem?_cons_zero,
      Option.bind_eq_bind, Option.bind_some, hclose, hcomma, split_of_notMem hu,
      List.headD_cons, hstrip, strip_elementName hname, Option.pure_def]
  rw [buildArg_container (List.mem_append_right _ (List.mem_cons_self ..)), if_pos harray] at hbytes
  have h : (getStdArrayParams (qualifier ++ "std::array".toList ++
      '<' :: (name.toList ++ ',' :: ' ' :: digits ++ ['>']))).bind (appendArray a)
        = some bytes := hbytes
  rw [hparams, Option.bind_some] at h
  simp only [appendArray, hdigits, cppToNpTypes_elementName hname, Option.bind_eq_bind,
    Option.bind_some, ne_eq, not_true_eq_false, if_false] at h
  obtain ⟨len, hlen, h⟩ := Option.bind_eq_some_iff.mp h
  rw [Option.ite_none_left_eq_some] at h
  rcases a.bytearray_eq h.2 with hmem | ⟨hshape, -⟩
  · exact hmem
  · rw [hshape] at hlen
    cases hlen

theorem buildArg_vector {qualifier : Str} (hqualifier : qualifier ∈ qualifiers) {name : String}
    {a : NdArray} (hname : (name, a.dtype) ∈ elementNames) {bytes : List UInt8}
    (hbytes : buildArg (qualifier ++ "std::vector".toList ++ '<' :: (name.toList ++ ['>']))
      (.array a) = some bytes) :
    ∃ arrBytes, a.bytearray = some arrBytes ∧
      bytes = appendU32 (UInt32.ofNat arrBytes.length) ++ arrBytes := by
  obtain ⟨-, hopen, harray, hvector⟩ := isStd_base hqualifier (name.toList ++ ['>'])
  obtain ⟨hsplit, hclose, hcomma⟩ := split_vector hname hopen
  have hparams : getStdVectorParams (qualifier ++ "std::vector".toList ++
      '<' :: (name.toList ++ ['>'])) = some name.toList := by
    simp only [getStdVectorParams, hsplit, List.getElem?_cons_succ, List.getElem?_cons_zero,
      Option.bind_eq_bind, Option.bind_some, hclose, hcomma, List.headD_cons,
      strip_elementName hname, Option.pure_def]
  rw [buildArg_container (List.mem_append_right _ (List.mem_cons_self ..)),
    if_neg (Bool.not_eq_true _ ▸ harray), if_pos hvector] at hbytes
  have h : (getStdVectorParams (qualifier ++ "std::vector".toList ++
      '<' :: (name.toList ++ ['>']))).bind (appendVector a) = some bytes := hbytes
  rw [hparams, Option.bind_some] at h
  simp only [appendVector, cppToNpTypes_elementName hname, Option.bind_eq_bind,
    Option.bind_some, ne_eq, not_true_eq_false, if_false] at h
  obtain ⟨arrBytes, harr, h⟩ := Option.bind_eq_some_iff.mp h
  refine ⟨arrBytes, harr, ?_⟩
  rw [← append_count]
  exact (Option.some.inj h).symm

theorem buildArg_string {qualifier : Str} (hqualifier : qualifier ∈ qualifiers)
    {s : List CodePoint} {u : List UInt8} (hu : encode s = some u) {bytes : List UInt8}
    (hbytes : buildArg (qualifier ++ "std::string".toList) (.str s) = some bytes) :
    bytes = appendU32 (UInt32.ofNat s.length) ++ u := by
  have h : (encode s).map (append s.length 4 ++ ·) = some bytes := by
    simp only [qualifiers, List.mem_cons, List.not_mem_nil, or_false] at hqualifier
    rcases hqualifier with rfl | rfl <;> exact hbytes
  rw [hu, Option.map_some, append_count] at h
  exact (Option.some.inj h).symm

/-! ## What is read -/

/-- An encoded character is one byte if and only if it is in ASCII. -/
theorem CodePoint.length_encode {c : CodePoint} {bytes : List UInt8}
    (h : CodePoint.encode c = some bytes) :
    1 ≤ bytes.length ∧ (bytes.length = 1 ↔ c.val < 128) := by
  rw [CodePoint.encode, Option.dite_none_right_eq_some] at h
  obtain ⟨hvalid, h⟩ := h
  obtain ⟨ch, hch⟩ : ∃ ch, Char.ofNatAux c.val hvalid = ch := ⟨_, rfl⟩
  have hval : ch.toNat = c.val := by rw [← hch]; rfl
  rw [hch] at h
  rw [← Option.some.inj h, String.length_utf8EncodeChar, ← hval]
  exact ⟨ch.utf8Size_pos, utf8Size_eq_one_iff ch⟩

/-- There are as many bytes as characters if and only if all are in ASCII. -/
theorem length_encode {s : List CodePoint} {bytes : List UInt8} (h : encode s = some bytes) :
    s.length ≤ bytes.length ∧ (bytes.length = s.length ↔ ∀ c ∈ s, c.val < 128) := by
  induction s generalizing bytes with
  | nil =>
    rw [← Option.some.inj h]
    simp
  | cons c cs ih =>
    simp only [encode, Option.bind_eq_bind, Option.bind_eq_some_iff, Option.pure_def] at h
    obtain ⟨first, hfirst, rest, hrest, h⟩ := h
    obtain ⟨hpos, hone⟩ := CodePoint.length_encode hfirst
    obtain ⟨hle, hiff⟩ := ih hrest
    rw [← Option.some.inj h, List.length_append, List.length_cons, List.forall_mem_cons, ← hone,
      ← hiff]
    omega

/-- Zero bytes are no number but 0. -/
theorem int?_ofMem_zero {t : ScalarType} {n : ℤ}
    (h : (t.ofMem (List.replicate t.size 0)).int? = some n) : n = 0 := by
  cases t <;> first | exact (Option.some.inj h).symm | cases h

/-- As many zero bytes as a number says are not read as that number. -/
theorem read_zeros_ne {v : ScalarVal} {n : ℤ} (hv : v.int? = some n) (tail rest : List UInt8) :
    (ArgType.vector v.type).read
      (appendU32 (UInt32.ofNat n.toNat) ++ List.replicate n.toNat 0 ++ tail)
        ≠ some (.vector [v], rest) := by
  intro hread
  obtain ⟨bs, hbs⟩ : ∃ bs, appendU32 (UInt32.ofNat n.toNat) ++ List.replicate n.toNat 0 ++ tail
      = bs := ⟨_, rfl⟩
  have hdrop : bs.drop 4 = List.replicate n.toNat 0 ++ tail := by
    rw [← hbs, List.append_assoc]
    exact List.drop_left' (length_appendU32 _)
  have hcount : (extractU32 bs).toNat ≤ n.toNat := by
    rw [← hbs, List.append_assoc, extractU32_appendU32, UInt32.toNat_ofNat']
    exact Nat.mod_le _ _
  rw [hbs] at hread
  simp only [ArgType.read, Option.ite_none_right_eq_some, Option.some.injEq, Prod.mk.injEq,
    ArgVal.vector.injEq, hdrop] at hread
  obtain ⟨-, hvs, -⟩ := hread
  have hone : elemCount v.type bs = 1 := by
    have h := congrArg List.length hvs
    rwa [length_ofMemOf, List.length_singleton] at h
  have hsize : v.type.size ≤ n.toNat := by
    have h := Nat.div_mul_le_self (extractU32 bs).toNat v.type.size
    rw [← elemCount, hone, Nat.one_mul] at h
    omega
  rw [hone, Nat.one_mul, ofMemOf, ofMemOf, List.take_take, Nat.min_self,
    List.take_append_of_le_length (by rwa [List.length_replicate]), List.take_replicate,
    Nat.min_eq_left hsize] at hvs
  have hzero : n = 0 := int?_ofMem_zero ((List.cons.inj hvs).1 ▸ hv)
  have hpos := v.type.size_pos
  rw [hzero] at hsize
  omega

/-- A faithful argument is written as its value. -/
theorem wire_of_faithful {qualifier : Str} (hqualifier : qualifier ∈ qualifiers) {s : Str}
    {t : ArgType} (hs : Spells qualifier s t) {arg : PyVal} {v : ArgVal} (hmeans : arg.Means t v)
    {bytes : List UInt8} (hbytes : buildArg s arg = some bytes) (hfaithful : Faithful t arg) :
    bytes = v.wire ∧ v.HasType t ∧ v.Counted := by
  cases hs with
  | scalar hname =>
    cases v with
    | scalar v =>
      obtain ⟨rfl, hmeans⟩ := hmeans
      exact ⟨buildArg_scalar hname hqualifier hmeans hbytes, rfl, trivial⟩
    | _ => exact hmeans.elim
  | array hname hdigits =>
    cases v with
    | array vs =>
      obtain ⟨a, rfl, rfl, rfl⟩ := hmeans
      exact ⟨buildArg_array hqualifier hname hdigits hbytes, ⟨hfaithful, a.type_data⟩, trivial⟩
    | _ => exact hmeans.elim
  | vector hname =>
    cases v with
    | vector vs =>
      obtain ⟨a, rfl, rfl, rfl⟩ := hmeans
      obtain ⟨arrBytes, harr, rfl⟩ := buildArg_vector hqualifier hname hbytes
      obtain ⟨hshape, hsize⟩ := hfaithful
      have hmem : arrBytes = memOf a.data := by
        rcases a.bytearray_eq harr with hmem | ⟨hnil, v, n, hdata, hv, -⟩
        · exact hmem
        · refine absurd ⟨hnil, v, ?_, ?_⟩ hshape
          · rw [hdata]
            exact List.mem_singleton_self v
          · rw [hv]
            exact Option.some_ne_none n
      have hcounted : (memOf a.data).length < 2 ^ 31 := by rwa [length_memOf a.type_data]
      exact ⟨by rw [hmem, ArgVal.wire], a.type_data, hcounted⟩
    | _ => exact hmeans.elim
  | string =>
    cases v with
    | string u =>
      obtain ⟨cs, rfl, hu⟩ := hmeans
      obtain ⟨hascii, hsize⟩ := hfaithful
      have hlen : u.length = cs.length := (length_encode hu).2.mpr hascii
      have hcounted : u.length < 2 ^ 31 := by rwa [hlen]
      exact ⟨by rw [buildArg_string hqualifier hu hbytes, ArgVal.wire, hlen], trivial, hcounted⟩
    | _ => exact hmeans.elim

/-- Only a faithful argument is read as its value. -/
theorem faithful_of_read {qualifier : Str} (hqualifier : qualifier ∈ qualifiers) {s : Str}
    {t : ArgType} (hs : Spells qualifier s t) {arg : PyVal} {v : ArgVal} (hmeans : arg.Means t v)
    {bytes : List UInt8} (hbytes : buildArg s arg = some bytes) {tail rest : List UInt8}
    (hread : t.read (bytes ++ tail) = some (v, rest)) (hcounted : v.Counted) : Faithful t arg := by
  cases hs with
  | scalar hname => trivial
  | array hname hdigits =>
    cases v with
    | array vs =>
      obtain ⟨a, rfl, rfl, rfl⟩ := hmeans
      exact (ArgType.hasType_of_read hread).1
    | _ => exact hmeans.elim
  | vector hname =>
    cases v with
    | vector vs =>
      obtain ⟨a, rfl, rfl, rfl⟩ := hmeans
      obtain ⟨arrBytes, harr, rfl⟩ := buildArg_vector hqualifier hname hbytes
      have hsize : (memOf a.data).length < 2 ^ 31 := hcounted
      rw [length_memOf a.type_data] at hsize
      refine ⟨?_, hsize⟩
      rintro ⟨hnil, v, hv, hint⟩
      have hone : a.data = [v] := by
        obtain ⟨u, hu⟩ := List.length_eq_one_iff.mp (a.length_data.trans (by rw [hnil]; rfl))
        rw [hu] at hv ⊢
        rw [List.mem_singleton.mp hv]
      obtain ⟨n, hn⟩ := Option.ne_none_iff_exists'.mp hint
      -- the number is taken for the count
      have hzeros : arrBytes = List.replicate n.toNat 0 := by
        rw [NdArray.bytearray, hnil, hone] at harr
        simp only [hn, Option.ite_none_right_eq_some] at harr
        exact (Option.some.inj harr.2).symm
      have htype : v.type = a.dtype := a.type_data v hv
      rw [hone, hzeros, List.length_replicate, ← htype] at hread
      exact read_zeros_ne hn tail rest hread
    | _ => exact hmeans.elim
  | string =>
    cases v with
    | string u =>
      obtain ⟨cs, rfl, hu⟩ := hmeans
      have hsize : u.length < 2 ^ 31 := hcounted
      obtain ⟨hle, hiff⟩ := length_encode hu
      rw [buildArg_string hqualifier hu hbytes, List.append_assoc] at hread
      simp only [ArgType.read, Option.ite_none_right_eq_some, Option.some.injEq, Prod.mk.injEq,
        ArgVal.string.injEq, toNat_extractU32_count (Nat.lt_of_le_of_lt hle hsize),
        List.length_append] at hread
      obtain ⟨hroom, htake, -⟩ := hread
      have hlen : cs.length = u.length := by
        have h := congrArg List.length htake
        rw [List.length_take, List.length_drop, List.length_append, List.length_append] at h
        omega
      exact ⟨hiff.mp hlen.symm, Nat.lt_of_le_of_lt hle hsize⟩
    | _ => exact hmeans.elim

/-! ## A payload -/

/-- **What a payload spells.**  It is read as the values meant, with none left over, if and
only if every argument is faithful. -/
theorem readArgs_buildPayload_iff {cmdArgs : List Str} {ts : List ArgType} {args : List PyVal}
    {vals : List ArgVal} (hspells : List.Forall₂ Qualified cmdArgs ts)
    (hmeans : MeanAll args ts vals) {payload : List UInt8}
    (hpayload : buildPayload cmdArgs args = some payload) :
    (readArgs ts payload = some (vals, []) ∧ ∀ v ∈ vals, v.Counted) ↔
      List.Forall₂ Faithful ts args := by
  induction hspells generalizing args vals payload with
  | nil =>
    match args, vals, hmeans with
    | [], [], _ =>
      rw [← Option.some.inj hpayload]
      exact ⟨fun _ => .nil, fun _ => ⟨rfl, List.forall_mem_nil _⟩⟩
  | @cons s t cmdArgs ts hs _ ih =>
    match args, vals, hmeans with
    | arg :: args, v :: vals, ⟨hmeans, hmeans'⟩ =>
      obtain ⟨qualifier, hqualifier, hs⟩ := hs
      simp only [buildPayload, Option.bind_eq_bind, Option.bind_eq_some_iff, Option.pure_def]
        at hpayload
      obtain ⟨bytes, hbytes, payload', hpayload', hpayload⟩ := hpayload
      obtain rfl : bytes ++ payload' = payload := Option.some.inj hpayload
      -- a faithful argument is read off the front
      have hfront : Faithful t arg → v.Counted ∧
          (readArgs (t :: ts) (bytes ++ payload') = some (v :: vals, []) ↔
            readArgs ts payload' = some (vals, [])) := by
        intro hfaithful
        obtain ⟨rfl, htype, hcounted⟩ := wire_of_faithful hqualifier hs hmeans hbytes hfaithful
        refine ⟨hcounted, ?_⟩
        have hv := ArgVal.read_wire htype hcounted payload'
        constructor
        · intro h
          obtain ⟨v', mid, vs, hv', hvs, heq⟩ := readArgs_cons.mp h
          obtain ⟨rfl, rfl⟩ := List.cons.inj heq
          rw [hv, Option.some.injEq, Prod.mk.injEq] at hv'
          rw [hv'.2]
          exact hvs
        · intro h
          exact readArgs_cons.mpr ⟨v, payload', vals, hv, h, rfl⟩
      rw [List.forall_mem_cons, List.forall₂_cons]
      constructor
      · rintro ⟨hread, hcounted, hcounteds⟩
        have hfaithful : Faithful t arg := by
          obtain ⟨v', mid, vs, hv, -, heq⟩ := readArgs_cons.mp hread
          obtain ⟨rfl, -⟩ := List.cons.inj heq
          exact faithful_of_read hqualifier hs hmeans hbytes hv hcounted
        exact ⟨hfaithful, (ih hmeans' hpayload').mp ⟨(hfront hfaithful).2.mp hread, hcounteds⟩⟩
      · rintro ⟨hfaithful, hfaithfuls⟩
        obtain ⟨hread, hcounteds⟩ := (ih hmeans' hpayload').mpr hfaithfuls
        obtain ⟨hcounted, hiff⟩ := hfront hfaithful
        exact ⟨hiff.mpr hread, hcounted, hcounteds⟩

/-- The header of a command is the one of the server. -/
theorem append_header (driverId opId : UInt16) :
    append 0 4 ++ append driverId.toNat 2 ++ append opId.toNat 2 = header driverId opId := by
  have hid : ∀ v : UInt16, append v.toNat 2 = appendU16 v := by
    intro v
    rw [append_eq (Or.inr (Or.inl rfl)), beInt_natCast, appendU16_eq]
  rw [header, hid, hid]
  rfl

end Python

/-! ## A command -/

section Command

open Python

variable {cmdArgs : List Str} {op : Operation} {args : List PyVal} {vals : List ArgVal}

/-- **A command of the Python client decodes to its arguments** on a TCP session, and
consumes exactly its own bytes, if and only if every string is in ASCII, no vector is an
integer array without dimensions, every array has as many elements as its type, and no size
is in the way. -/
theorem makeCommand_decodes_iff (drivers : List Driver) (arch : Arch) {type : SockType}
    (htype : type ≠ .websock) (hspells : List.Forall₂ Qualified cmdArgs op.types)
    (hmeans : MeanAll args op.types vals) {driverId opId : UInt16} {buff : List UInt8}
    (hbuff : makeCommand driverId.toNat opId.toNat (some (cmdArgs, args)) = some buff) :
    (∃ payload, buff = header driverId opId ++ payload ∧
      ∀ (cmd : Command) (w : View) (rest : List UInt8), w.held = some driverId.toNat →
        w.input = payload ++ rest → ∀ pick, (session drivers .any).Allows pick →
          StreamDecodes op opId.toNat vals payload.length w ((session drivers .any).exec pick 0
            (parser arch type driverId.toNat opId.toNat op.packs cmd) w)) ↔
      (∀ p ∈ op.packs, ¬ toInt p.fixedBytes < 0) ∧ List.Forall₂ Faithful op.types args := by
  simp only [makeCommand, Option.bind_eq_bind, Option.bind_eq_some_iff, Option.pure_def,
    append_header] at hbuff
  obtain ⟨payload, hpayload, hbuff⟩ := hbuff
  have hdecodes := @parser_stream_iff type op payload vals drivers arch driverId.toNat opId.toNat
    htype
  rw [← readArgs_buildPayload_iff hspells hmeans hpayload]
  constructor
  · rintro ⟨payload', hsplit, hrun⟩
    obtain rfl : payload = payload' := by
      rw [← Option.some.inj hbuff] at hsplit
      exact List.append_cancel_left hsplit
    obtain ⟨hread, hfixed, hcounted⟩ := hdecodes.mp hrun
    exact ⟨hfixed, hread, hcounted⟩
  · rintro ⟨hfixed, hread, hcounted⟩
    exact ⟨payload, (Option.some.inj hbuff).symm, hdecodes.mpr ⟨hread, hfixed, hcounted⟩⟩

/-- Without a list of types there are zeros that no operation without arguments takes. -/
theorem makeCommand_untyped (drivers : List Driver) (arch : Arch) {type : SockType}
    (htype : type ≠ .websock) (hop : op.types = []) (driverId opId : UInt16) :
    ∃ payload, makeCommand driverId.toNat opId.toNat none = some (header driverId opId ++ payload) ∧
      ¬ ∀ (cmd : Command) (w : View) (rest : List UInt8), w.held = some driverId.toNat →
        w.input = payload ++ rest → ∀ pick, (session drivers .any).Allows pick →
          StreamDecodes op opId.toNat [] payload.length w ((session drivers .any).exec pick 0
            (parser arch type driverId.toNat opId.toNat op.packs cmd) w) := by
  refine ⟨append 0 8, ?_, ?_⟩
  · rw [makeCommand, append_header]
    rfl
  · intro h
    have hread := ((parser_stream_iff drivers arch driverId.toNat opId.toNat htype).mp h).1
    rw [hop] at hread
    cases hread

/-- The types of `probeSet`, as strings. -/
def probeCmdArgs : List Str :=
  ["uint32_t".toList, "bool".toList, "std::vector<uint16_t>".toList, "const std::string".toList,
    "std::array<int8_t, 2>".toList]

/-- Arguments for `probeSet`, with a text to try. -/
def probeArgs (s : List CodePoint) : List PyVal :=
  [.int 5, .bool true, .array ⟨.uint16, [1], [.uint16 7], rfl, by decide⟩, .str s,
    .array ⟨.int8, [2], [.int8 1, .int8 (-1)], rfl, by decide⟩]

/-- What the arguments stand for. -/
def probeVals (bytes : List UInt8) : List ArgVal :=
  [.scalar (.uint32 5), .scalar (.bool true), .vector [.uint16 7], .string bytes,
    .array [.int8 1, .int8 (-1)]]

theorem probe_qualified : List.Forall₂ Qualified probeCmdArgs probeSet.types := by
  have huint32 : ("uint32_t", ScalarType.uint32) ∈ scalarNames := by decide
  have hbool : ("bool", ScalarType.bool) ∈ scalarNames := by decide
  have huint16 : ("uint16_t", ScalarType.uint16) ∈ elementNames := by decide
  have hint8 : ("int8_t", ScalarType.int8) ∈ elementNames := by decide
  have htwo : decimal ['2'] = some 2 := by decide
  have hnil : ([] : Str) ∈ qualifiers := by decide
  exact .cons ⟨[], hnil, .scalar huint32⟩ (.cons ⟨[], hnil, .scalar hbool⟩
    (.cons ⟨[], hnil, .vector huint16⟩ (.cons ⟨"const ".toList, by decide, .string⟩
      (.cons ⟨[], hnil, .array hint8 htwo⟩ .nil))))

theorem probe_meanAll {s : List CodePoint} {bytes : List UInt8} (h : encode s = some bytes) :
    MeanAll (probeArgs s) probeSet.types (probeVals bytes) :=
  ⟨⟨rfl, 5, rfl, rfl⟩, ⟨rfl, rfl⟩, ⟨_, rfl, rfl, rfl⟩, ⟨s, rfl, h⟩, ⟨_, rfl, rfl, rfl⟩, trivial⟩

theorem probe_ascii : ∀ c ∈ ([72, 105] : List CodePoint), c.val < 128 :=
  List.forall_mem_cons.mpr
    ⟨of_decide_eq_true rfl, List.forall_mem_singleton.mpr (of_decide_eq_true rfl)⟩

/-- A text in ASCII goes through. -/
theorem makeCommand_decodes_probe :
    ∃ payload,
      [0, 0, 0, 0, 0, 2, 0, 0, 0, 0, 0, 5, 1, 0, 0, 0, 2, 7, 0, 0, 0, 0, 2, 72, 105, 1, 255]
        = header 2 0 ++ payload ∧
      ∀ (cmd : Command) (w : View) (rest : List UInt8), w.held = some 2 →
        w.input = payload ++ rest → ∀ pick, (session probeDrivers .any).Allows pick →
          StreamDecodes probeSet 0 (probeVals [72, 105]) payload.length w
            ((session probeDrivers .any).exec pick 0
              (parser .lp64 .tcp 2 0 probeSet.packs cmd) w) :=
  (makeCommand_decodes_iff probeDrivers .lp64 (by decide) probe_qualified
    (probe_meanAll (s := [72, 105]) (by decide)) (by decide)).mpr
      ⟨by decide, .cons trivial (.cons trivial (.cons ⟨by decide, by decide⟩
        (.cons ⟨probe_ascii, by decide⟩ (.cons rfl .nil))))⟩

/-- A text that is not in ASCII does not: the count is of characters, the bytes are more. -/
theorem makeCommand_not_decodes :
    MeanAll (probeArgs [0xE9]) probeSet.types (probeVals [0xC3, 0xA9]) ∧
      ∃ payload, makeCommand 2 0 (some (probeCmdArgs, probeArgs [0xE9]))
          = some (header 2 0 ++ payload) ∧
        ¬ ∀ (cmd : Command) (w : View) (rest : List UInt8), w.held = some 2 →
          w.input = payload ++ rest → ∀ pick, (session probeDrivers .any).Allows pick →
            StreamDecodes probeSet 0 (probeVals [0xC3, 0xA9]) payload.length w
              ((session probeDrivers .any).exec pick 0
                (parser .lp64 .tcp 2 0 probeSet.packs cmd) w) := by
  refine ⟨probe_meanAll (by decide),
    [0, 0, 0, 5, 1, 0, 0, 0, 2, 7, 0, 0, 0, 0, 1, 0xC3, 0xA9, 1, 255], by decide, ?_⟩
  intro h
  exact absurd ((parser_stream_iff probeDrivers .lp64 2 0 (by decide)).mp h).1 (by decide)

end Command

end KoheronSdk
