import KoheronSdk.Serdes.Wire

/-!
# The command serializer

`DynamicSerializer<1024>` exists twice, in `koheron-client.hpp` for the commands
and in `serializer_deserializer.hpp` for the replies.  The two copies differ in
the scalars that have an `append` overload and in what they accept beside scalars
and containers, so the common text is one definition over `append`.

## Two buffers

The bytes of a command come together in `buffer`, but scalars wait in `scal_data` until
something else comes, which has room for `SCALAR_PACK_LEN` bytes.  At no time is
what has been serialised in one place: it is `buffer` with `scal_data` behind it.  This is the
invariant of the recursion over the arguments (`CommandSerializer.bytes`), and each step is one
lemma about what it adds to it.

`append` writes behind `scal_data` without looking at its end.  More than 1024 bytes of scalars in
a row would run over; the model has no value then, and `ScalarRunsFit` is what a command must
fulfil.  For a reply the return type decides, and the code asserts it.

## Results

* `CommandSerializer`: the buffer, and the scalars waiting in `scal_data`.
* `buildCommand`: header, arguments, and the last scalars.
* `buildCommand_eq`: it writes the header and the wire format of the arguments,
  as long as no run of scalars overruns `scal_data`.
* `RetVal`, `Server.buildReply`: the server's replies are commands too.
-/

namespace KoheronSdk

open ByteOrder

/-- `SCALAR_PACK_LEN`, the size of `scal_data`. -/
def scalarPackLen : ℕ := 1024

/-- The state of a serializer: the bytes in `buffer`, and the `scal_size` bytes
written to `scal_data` since the last dump. -/
structure CommandSerializer where
  buffer : List UInt8
  scalData : List UInt8

namespace CommandSerializer

/-- `append`: `none` when it would write past the end of `scal_data`. -/
def append (s : CommandSerializer) (bytes : List UInt8) : Option CommandSerializer :=
  if s.scalData.length + bytes.length ≤ scalarPackLen then
    some { s with scalData := s.scalData ++ bytes }
  else none

/-- `dump_scalar_pack` -/
def dumpScalarPack (s : CommandSerializer) : CommandSerializer :=
  if s.scalData.length > 0 then { buffer := s.buffer ++ s.scalData, scalData := [] } else s

/-- `dump_container_to_buffer`: the byte count is a `uint32_t`, and the bytes
copied are as many as it says. -/
def dumpContainerToBuffer (s : CommandSerializer) (data : List UInt8) : CommandSerializer :=
  let nBytes := UInt32.ofNat data.length
  { s with buffer := s.buffer ++ appendU32 nBytes ++ data.take nBytes.toNat }

/-- `dump_array_to_buffer` -/
def dumpArrayToBuffer (s : CommandSerializer) (data : List UInt8) : CommandSerializer :=
  { s with buffer := s.buffer ++ data }

/-- `command_serializer`, with `appendScalar` the overloads of `append`. -/
def commandSerializer (appendScalar : ScalarVal → Option (List UInt8)) :
    CommandSerializer → List ArgVal → Option CommandSerializer
  | s, [] => some s
  | s, .scalar v :: args => do
    let bytes ← appendScalar v
    let s ← s.append bytes
    commandSerializer appendScalar s args
  | s, .array vs :: args =>
    commandSerializer appendScalar (s.dumpScalarPack.dumpArrayToBuffer (memOf vs)) args
  | s, .vector vs :: args =>
    commandSerializer appendScalar (s.dumpScalarPack.dumpContainerToBuffer (memOf vs)) args
  | s, .string bytes :: args =>
    commandSerializer appendScalar (s.dumpScalarPack.dumpContainerToBuffer bytes) args

end CommandSerializer

open CommandSerializer

/-- `serialize(0U, class_id, func_id)` -/
def header (classId funcId : UInt16) : List UInt8 :=
  appendU32 0 ++ appendU16 classId ++ appendU16 funcId

@[simp] theorem length_header (classId funcId : UInt16) : (header classId funcId).length = 8 := rfl

/-- `build_command<class_id, func_id>` -/
def buildCommand (appendScalar : ScalarVal → Option (List UInt8)) (classId funcId : UInt16)
    (args : List ArgVal) : Option (List UInt8) := do
  let s ← commandSerializer appendScalar ⟨header classId funcId, []⟩ args
  return s.dumpScalarPack.buffer

/-- The client's `build_command`. -/
def Client.buildCommand (classId funcId : UInt16) (args : List ArgVal) : Option (List UInt8) :=
  KoheronSdk.buildCommand Client.append classId funcId args

/-! ## What is written -/

/-- No run of consecutive scalars is longer than `scal_data`; `pending` bytes are
already in it. -/
def ScalarRunsFit (pending : ℕ) : List ArgVal → Prop
  | [] => True
  | .scalar v :: args => pending + v.type.size ≤ scalarPackLen ∧
      ScalarRunsFit (pending + v.type.size) args
  | .array _ :: args | .vector _ :: args | .string _ :: args => ScalarRunsFit 0 args

instance decidableScalarRunsFit : (pending : ℕ) → (args : List ArgVal) →
    Decidable (ScalarRunsFit pending args)
  | _, [] => isTrue trivial
  | pending, .scalar v :: args =>
    have := decidableScalarRunsFit (pending + v.type.size) args
    inferInstanceAs (Decidable (_ ∧ _))
  | _, .array _ :: args | _, .vector _ :: args | _, .string _ :: args =>
    decidableScalarRunsFit 0 args

/-- The scalars of the list have an `append` overload, which writes what the
server's does. -/
def Appendable (appendScalar : ScalarVal → Option (List UInt8)) (args : List ArgVal) : Prop :=
  ∀ v, .scalar v ∈ args → appendScalar v = some (Server.append v)

/-- What the serializer holds, in order. -/
def CommandSerializer.bytes (s : CommandSerializer) : List UInt8 := s.buffer ++ s.scalData

@[simp] theorem CommandSerializer.bytes_dumpScalarPack (s : CommandSerializer) :
    s.dumpScalarPack.bytes = s.bytes := by
  unfold dumpScalarPack bytes
  split <;> simp

@[simp] theorem CommandSerializer.scalData_dumpScalarPack (s : CommandSerializer) :
    s.dumpScalarPack.scalData = [] := by
  unfold dumpScalarPack
  split
  · rfl
  · exact List.length_eq_zero_iff.mp (by omega)

theorem CommandSerializer.buffer_dumpScalarPack (s : CommandSerializer) :
    s.dumpScalarPack.buffer = s.bytes := by
  have h := s.bytes_dumpScalarPack
  rwa [bytes, scalData_dumpScalarPack, List.append_nil] at h

theorem CommandSerializer.bytes_dumpContainer (s : CommandSerializer) {data : List UInt8}
    (h : data.length < 2 ^ 32) :
    (s.dumpScalarPack.dumpContainerToBuffer data).bytes
      = s.bytes ++ (appendU32 (UInt32.ofNat data.length) ++ data) := by
  have hn : (UInt32.ofNat data.length).toNat = data.length := by
    rw [UInt32.toNat_ofNat']
    exact Nat.mod_eq_of_lt h
  simp [bytes, dumpContainerToBuffer, buffer_dumpScalarPack, hn]

/-- **The serializer writes the wire format.**  The invariant is that `buffer`
followed by `scal_data` is what has been written so far. -/
theorem commandSerializer_eq {appendScalar : ScalarVal → Option (List UInt8)} :
    ∀ {args : List ArgVal} {s : CommandSerializer}, Appendable appendScalar args →
      ScalarRunsFit s.scalData.length args → (∀ a ∈ args, a.data.length < 2 ^ 32) →
      ∃ s', commandSerializer appendScalar s args = some s' ∧ s'.bytes = s.bytes ++ wireArgs args
  | [], s, _, _, _ => ⟨s, rfl, by simp⟩
  | a :: args, s, happ, hfit, hlength => by
    have happ' : Appendable appendScalar args := fun v hv => happ v (List.mem_cons_of_mem a hv)
    have hlength' : ∀ b ∈ args, b.data.length < 2 ^ 32 := fun b hb =>
      hlength b (List.mem_cons_of_mem a hb)
    have ha : a.data.length < 2 ^ 32 := hlength a (List.mem_cons_self ..)
    cases a with
    | scalar v =>
      obtain ⟨hle, hrest⟩ := hfit
      have hv : appendScalar v = some (Server.append v) := happ v (List.mem_cons_self ..)
      have hs : s.append (Server.append v)
          = some { s with scalData := s.scalData ++ Server.append v } := by
        rw [CommandSerializer.append, if_pos (by rwa [Server.length_append])]
      have hfit' : ScalarRunsFit (s.scalData ++ Server.append v).length args := by
        rwa [List.length_append, Server.length_append]
      obtain ⟨s', hrun, hbytes⟩ := commandSerializer_eq
        (s := { s with scalData := s.scalData ++ Server.append v }) happ' hfit' hlength'
      refine ⟨s', ?_, ?_⟩
      · simp only [commandSerializer, hv, hs, Option.bind_eq_bind, Option.bind_some]
        exact hrun
      · rw [hbytes, wireArgs_cons, ArgVal.wire]
        simp [CommandSerializer.bytes]
    | array vs =>
      have hfit' : ScalarRunsFit 0 args := hfit
      obtain ⟨s', hrun, hbytes⟩ := commandSerializer_eq
        (s := s.dumpScalarPack.dumpArrayToBuffer (memOf vs)) happ'
        (by simpa [dumpArrayToBuffer] using hfit') hlength'
      refine ⟨s', hrun, ?_⟩
      rw [hbytes, wireArgs_cons, ArgVal.wire]
      simp [CommandSerializer.bytes, dumpArrayToBuffer, buffer_dumpScalarPack]
    | vector vs =>
      have hlen : (memOf vs).length < 2 ^ 32 := ha
      have hfit' : ScalarRunsFit 0 args := hfit
      obtain ⟨s', hrun, hbytes⟩ := commandSerializer_eq
        (s := s.dumpScalarPack.dumpContainerToBuffer (memOf vs)) happ'
        (by simpa [dumpContainerToBuffer] using hfit') hlength'
      refine ⟨s', hrun, ?_⟩
      rw [hbytes, s.bytes_dumpContainer hlen, wireArgs_cons, ArgVal.wire]
      simp
    | string bytes =>
      have hlen : bytes.length < 2 ^ 32 := ha
      have hfit' : ScalarRunsFit 0 args := hfit
      obtain ⟨s', hrun, hbytes⟩ := commandSerializer_eq
        (s := s.dumpScalarPack.dumpContainerToBuffer bytes) happ'
        (by simpa [dumpContainerToBuffer] using hfit') hlength'
      refine ⟨s', hrun, ?_⟩
      rw [hbytes, s.bytes_dumpContainer hlen, wireArgs_cons, ArgVal.wire]
      simp

/-- A command is its header and the wire format of its arguments. -/
theorem buildCommand_eq {appendScalar : ScalarVal → Option (List UInt8)} (classId funcId : UInt16)
    {args : List ArgVal} (happ : Appendable appendScalar args) (hfit : ScalarRunsFit 0 args)
    (hlength : ∀ a ∈ args, a.data.length < 2 ^ 32) :
    buildCommand appendScalar classId funcId args
      = some (header classId funcId ++ wireArgs args) := by
  obtain ⟨s, hrun, hbytes⟩ := commandSerializer_eq (s := ⟨header classId funcId, []⟩) happ
    (by simpa using hfit) hlength
  rw [buildCommand, hrun]
  simp only [Option.bind_eq_bind, Option.bind_some]
  rw [buffer_dumpScalarPack, hbytes]
  simp [CommandSerializer.bytes]

/-- The client can append the scalars that are `std::is_scalar`. -/
theorem Client.appendable {args : List ArgVal}
    (h : ∀ v, .scalar v ∈ args → v.type.isScalar = true) : Appendable Client.append args :=
  fun v hv => Client.append_eq v (h v hv)

/-- The server can append every scalar. -/
theorem Server.appendable (args : List ArgVal) : Appendable (some ∘ Server.append) args :=
  fun _ _ => rfl

/-! ## Replies -/

/-- A type that an operation can return. -/
inductive RetType where
  | void
  | scalar (t : ScalarType)
  | tuple (ts : List ScalarType)
  | array (t : ScalarType) (n : ℕ)
  | vector (t : ScalarType)
  | string
  | cString
  deriving DecidableEq, Repr

/-- A returned value; a C string is the bytes before its terminating zero. -/
inductive RetVal where
  | void
  | scalar (v : ScalarVal)
  | tuple (vs : List ScalarVal)
  | array (vs : List ScalarVal)
  | vector (vs : List ScalarVal)
  | string (bytes : List UInt8)
  | cString (bytes : List UInt8)
  deriving DecidableEq, Repr

/-- The value is one of the type. -/
def RetVal.HasType : RetVal → RetType → Prop
  | .void, .void => True
  | .scalar v, .scalar t => v.type = t
  | .tuple vs, .tuple ts => vs.map ScalarVal.type = ts
  | .array vs, .array t n => vs.length = n ∧ ∀ v ∈ vs, v.type = t
  | .vector vs, .vector t => ∀ v ∈ vs, v.type = t
  | .string _, .string => True
  | .cString bytes, .cString => 0 ∉ bytes
  | _, _ => False

/-- The arguments `build_command` serializes for a returned value: a tuple is
unpacked, a C string is copied into a `std::string`. -/
def RetVal.args : RetVal → List ArgVal
  | .void => []
  | .scalar v => [.scalar v]
  | .tuple vs => vs.map .scalar
  | .array vs => [.array vs]
  | .vector vs => [.vector vs]
  | .string bytes => [.string bytes]
  | .cString bytes => [.string bytes]

/-- The server's `build_command`, as `Session::send` calls it. -/
def Server.buildReply (classId funcId : UInt16) (v : RetVal) : Option (List UInt8) :=
  buildCommand (some ∘ Server.append) classId funcId v.args

/-- The bytes of a scalar or a tuple, which all wait in `scal_data`. -/
def RetType.scalarBytes : RetType → ℕ
  | .scalar t => t.size
  | .tuple ts => (ts.map ScalarType.size).sum
  | _ => 0

/-- The arguments of a returned value fit in `scal_data` when its type does. -/
theorem RetVal.scalarRunsFit {v : RetVal} {t : RetType} (ht : v.HasType t)
    (hfits : t.scalarBytes ≤ scalarPackLen) : ScalarRunsFit 0 v.args := by
  have htuple : ∀ (vs : List ScalarVal) (pending : ℕ),
      pending + ((vs.map ScalarVal.type).map ScalarType.size).sum ≤ scalarPackLen →
        ScalarRunsFit pending (vs.map .scalar) := by
    intro vs
    induction vs with
    | nil => exact fun _ _ => trivial
    | cons v vs ih =>
      intro pending h
      simp only [List.map_cons, List.sum_cons] at h
      exact ⟨by omega, ih _ (by omega)⟩
  cases v with
  | void => trivial
  | scalar v =>
    cases t with
    | scalar t =>
      obtain rfl : v.type = t := ht
      exact ⟨by simpa [RetType.scalarBytes] using hfits, trivial⟩
    | _ => exact ht.elim
  | tuple vs =>
    cases t with
    | tuple ts =>
      obtain rfl : vs.map ScalarVal.type = ts := ht
      exact htuple vs 0 (by simpa [RetType.scalarBytes] using hfits)
    | _ => exact ht.elim
  | _ => trivial

/-- The serializer fails on scalars only. -/
theorem exists_commandSerializer {appendScalar : ScalarVal → Option (List UInt8)}
    {args : List ArgVal} {s : CommandSerializer} (happ : Appendable appendScalar args)
    (hfit : ScalarRunsFit s.scalData.length args) :
    ∃ s', commandSerializer appendScalar s args = some s' := by
  induction args generalizing s with
  | nil => exact ⟨s, rfl⟩
  | cons a args ih =>
    have happ' : Appendable appendScalar args := fun v hv => happ v (List.mem_cons_of_mem a hv)
    cases a with
    | scalar v =>
      have hv : appendScalar v = some (Server.append v) := happ v (List.mem_cons_self ..)
      have hs : s.append (Server.append v)
          = some { s with scalData := s.scalData ++ Server.append v } := by
        rw [CommandSerializer.append, if_pos (by rw [Server.length_append]; exact hfit.1)]
      have hfit' : ScalarRunsFit (s.scalData ++ Server.append v).length args := by
        rw [List.length_append, Server.length_append]; exact hfit.2
      obtain ⟨s', hs'⟩ := ih (s := { s with scalData := s.scalData ++ Server.append v }) happ' hfit'
      refine ⟨s', ?_⟩
      simp only [commandSerializer, hv, hs, Option.bind_eq_bind, Option.bind_some]
      exact hs'
    | array vs =>
      have hrest : ScalarRunsFit 0 args := hfit
      exact ih happ' (by simpa [dumpArrayToBuffer] using hrest)
    | vector vs =>
      have hrest : ScalarRunsFit 0 args := hfit
      exact ih happ' (by simpa [dumpContainerToBuffer] using hrest)
    | string bytes =>
      have hrest : ScalarRunsFit 0 args := hfit
      exact ih happ' (by simpa [dumpContainerToBuffer] using hrest)

/-- Every value of a type that fits can be sent. -/
theorem Server.exists_buildReply {v : RetVal} {t : RetType} (ht : v.HasType t)
    (hfits : t.scalarBytes ≤ scalarPackLen) (classId funcId : UInt16) :
    ∃ sendBuffer, Server.buildReply classId funcId v = some sendBuffer := by
  obtain ⟨s, hs⟩ := exists_commandSerializer (s := ⟨header classId funcId, []⟩)
    (Server.appendable v.args) (v.scalarRunsFit ht hfits)
  refine ⟨s.dumpScalarPack.buffer, ?_⟩
  rw [Server.buildReply, buildCommand, hs]
  rfl

end KoheronSdk
