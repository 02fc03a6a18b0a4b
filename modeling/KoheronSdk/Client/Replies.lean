import KoheronSdk.Server.Session

/-!
# Replies at the client

The receiving half of the client: `recv_all` and the `command_deserializer` overloads,
one for each kind of return type, which take the reply apart that the server's
`DynamicSerializer` put together.

`command_deserializer` receives a reply in one or in two parts.  A scalar or a tuple comes with the
header at once, in as many bytes as its type has; for a container the header comes with the length,
and the content is received then.  The header has to name the operation that was called
(`check_returned_header`), which is an assertion and ends the program otherwise.

Sizes are `int`s.  `recv_all` is asked for a number of bytes as an `int`, so that an array of
2^31 bytes, or a container with so many, cannot be received; what an array has is known from its
type, and `RetType.Receivable` says which types can come at all.

The round trip is proved for one reply and whatever follows it on the stream, so that a list of
replies is an induction in which each leaves exactly the next ones.

* `wp_recvAll`: `recv_all` does not depend on how the stream is cut.
* `wp_commandDeserializer`: one reply comes back as the value that was sent.
* `recvReplies_replies`: so does a sequence of replies, one after the other.
-/

namespace KoheronSdk

open Effects

namespace Client

/-! ## The code -/

/-- The loop of `recv_all`, with the bytes that are in the buffer; both errors are
exceptions. -/
def recvLoop (nBytes : ℕ) : ℕ → List UInt8 → Program (List UInt8)
  | 0, got => do
    if got.length < nBytes then outOfFuel
    return got
  | fuel + 1, got => do
    if got.length < nBytes then
      match ← read (nBytes - got.length) with
      | .zero => do
        throw
        return got
      | .negative => do
        throw
        return got
      | .bytes bs => recvLoop nBytes fuel (got ++ bs)
    else return got

/-- `recv_all`, which leaves the bytes in `rcv_buffer`.  A negative size is a huge one
for `resize()`. -/
@[irreducible] def recvAll (nBytes : ℤ) : Program (List UInt8) := do
  if nBytes < 0 then throw
  recvLoop nBytes.toNat nBytes.toNat []

/-- `serdes::deserialize<0, Tp...>`; `none` where an overload is missing. -/
def deserialize : List ScalarType → List UInt8 → Option (List ScalarVal)
  | [], _ => some []
  | t :: ts, buff => do
    let v ← extract t buff
    let vals ← deserialize ts (buff.drop t.size)
    return v :: vals

/-- The assertions of `check_returned_header`. -/
def checkReturnedHeader (lastClassId lastFuncId : UInt16) (rcvBuffer : List UInt8) :
    Program Unit := do
  if ¬ (extractU32 rcvBuffer = 0 ∧ extractU16 (rcvBuffer.drop 4) = lastClassId ∧
      extractU16 (rcvBuffer.drop 6) = lastFuncId) then throw

/-- `header_size` -/
def headerSize : ℕ := requiredBufferSize [.uint32, .uint16, .uint16]

/-- `get_payload_dynamic`, which leaves the payload in `rcv_buffer`. -/
def getPayloadDynamic (lastClassId lastFuncId : UInt16) : Program (List UInt8) := do
  let rcvBuffer ← recvAll (toInt (requiredBufferSize [.uint32, .uint16, .uint16, .uint32]))
  checkReturnedHeader lastClassId lastFuncId rcvBuffer
  recvAll (toInt (extractU32 (rcvBuffer.drop headerSize)).toNat)

/-- `command_deserializer` for scalars and for tuples of scalars, which receive them in
the same way. -/
def recvScalars (lastClassId lastFuncId : UInt16) (ts : List ScalarType) :
    Program (List ScalarVal) := do
  let rcvBuffer ← recvAll (toInt (requiredBufferSize (.uint32 :: .uint16 :: .uint16 :: ts)))
  checkReturnedHeader lastClassId lastFuncId rcvBuffer
  match deserialize ts (rcvBuffer.drop headerSize) with
  | none => do
    throw
    return []
  | some vals => return vals

/-- `command_deserializer`, for the type that the operation returns.  A C string comes
as a `std::string`, and nothing comes for `void`. -/
def commandDeserializer (lastClassId lastFuncId : UInt16) : RetType → Program RetVal
  | .void => return .void
  | .scalar t => do
    match ← recvScalars lastClassId lastFuncId [t] with
    | v :: _ => return .scalar v
    | [] => return .void
  | .tuple ts => do
    let vals ← recvScalars lastClassId lastFuncId ts
    return .tuple vals
  | .array t n => do
    let rcvBuffer ← recvAll (toInt (headerSize + n * t.size : ℕ))
    checkReturnedHeader lastClassId lastFuncId rcvBuffer
    return .array (ofMemOf t n (rcvBuffer.drop headerSize))
  | .vector t => do
    let rcvBuffer ← getPayloadDynamic lastClassId lastFuncId
    return .vector (ofMemOf t (rcvBuffer.length / t.size) rcvBuffer)
  | .string | .cString => do
    let rcvBuffer ← getPayloadDynamic lastClassId lastFuncId
    return .string rcvBuffer

end Client

/-! ## `recv_all` -/

section Rules

variable {drivers : List Driver} {env : Env} {w : View}

theorem wp_recvLoop {nBytes fuel : ℕ} {got : List UInt8} (hgot : got.length ≤ nBytes)
    (hfuel : nBytes - got.length ≤ fuel) (hn : nBytes - got.length ≤ w.input.length)
    {post : Result Stop View (List UInt8) → Prop}
    (hpost : post (.ret (got ++ w.input.take (nBytes - got.length))
      (w.advance (nBytes - got.length)))) :
    (session drivers env).wp (Client.recvLoop nBytes fuel got) post w := by
  induction fuel generalizing got w with
  | zero =>
    have hlen : got.length = nBytes := by omega
    rw [hlen, Nat.sub_self, List.take_zero, List.append_nil] at hpost
    rw [Client.recvLoop, if_neg (by omega)]
    exact hpost
  | succ fuel ih =>
    by_cases hlt : got.length < nBytes
    · have hin : w.input ≠ [] := by
        intro h
        rw [h, List.length_nil] at hn
        omega
      rw [Client.recvLoop, if_pos hlt, Handler.wp_bind, wp_read (by omega) hin]
      intro bs hne hlen hpre
      have hbs : 0 < bs.length := List.length_pos_of_ne_nil hne
      obtain ⟨rest, hrest⟩ := hpre
      have hin' : (w.advance bs.length).input = rest := by
        rw [View.input_advance, ← hrest, List.drop_left]
      have hcount : nBytes - (got ++ bs).length = nBytes - got.length - bs.length := by
        rw [List.length_append]
        omega
      refine ih (by rw [List.length_append]; omega) (by omega) ?_ ?_
      · rw [hin', hcount]
        rw [← hrest, List.length_append] at hn
        omega
      · rw [← hrest, List.take_append, List.take_of_length_le hlen, ← List.append_assoc] at hpost
        rw [hin', hcount, View.advance_advance, Nat.add_sub_cancel' hlen]
        exact hpost
    · have hlen : got.length = nBytes := by omega
      rw [hlen, Nat.sub_self, List.take_zero, List.append_nil] at hpost
      rw [Client.recvLoop, if_neg hlt]
      exact hpost

/-- **`recv_all` does not depend on how the stream is cut.** -/
theorem wp_recvAll {nBytes : ℕ} (hn : nBytes ≤ w.input.length)
    {post : Result Stop View (List UInt8) → Prop}
    (hpost : post (.ret (w.input.take nBytes) (w.advance nBytes))) :
    (session drivers env).wp (Client.recvAll nBytes) post w := by
  have hpos : ¬ (nBytes : ℤ) < 0 := by omega
  rw [Client.recvAll, if_neg hpos, Int.toNat_natCast]
  exact wp_recvLoop (Nat.zero_le _) (Nat.sub_le _ _) hn hpost

/-- Some bytes that come next are received. -/
theorem wp_recvAll_append {bs more : List UInt8} (hin : w.input = bs ++ more)
    {post : Result Stop View (List UInt8) → Prop}
    (hpost : post (.ret bs (w.advance bs.length))) :
    (session drivers env).wp (Client.recvAll bs.length) post w := by
  refine wp_recvAll ?_ ?_
  · rw [hin, List.length_append]
    exact Nat.le_add_right _ _
  · rw [hin, List.take_left]
    exact hpost

/-- The header of a reply is the one that is expected. -/
theorem checkReturnedHeader_header (classId funcId : UInt16) (rest : List UInt8) :
    Client.checkReturnedHeader classId funcId (header classId funcId ++ rest) = pure () := by
  have hreserved : extractU32 (header classId funcId ++ rest) = 0 := by
    rw [header, List.append_assoc, List.append_assoc, extractU32_appendU32]
  have hclass : extractU16 ((header classId funcId ++ rest).drop 4) = classId := by
    have hdrop : (header classId funcId ++ rest).drop 4
        = appendU16 classId ++ (appendU16 funcId ++ rest) := rfl
    rw [hdrop, extractU16_appendU16]
  have hfunc : extractU16 ((header classId funcId ++ rest).drop 6) = funcId := by
    have hdrop : (header classId funcId ++ rest).drop 6 = appendU16 funcId ++ rest := rfl
    rw [hdrop, extractU16_appendU16]
  rw [Client.checkReturnedHeader, if_neg (not_not.mpr ⟨hreserved, hclass, hfunc⟩)]

/-! ## One reply -/

/-- The client extracts what the server appended. -/
theorem clientDeserialize_append {vs : List ScalarVal} (hvs : ∀ v ∈ vs, v.type.isScalar = true)
    (rest : List UInt8) :
    Client.deserialize (vs.map ScalarVal.type) (wireArgs (vs.map .scalar) ++ rest) = some vs := by
  induction vs with
  | nil => rfl
  | cons v vs ih =>
    have hv : v.type.isScalar = true := hvs v (List.mem_cons_self ..)
    have hdrop : (Server.append v ++ (wireArgs (vs.map .scalar) ++ rest)).drop v.type.size
        = wireArgs (vs.map .scalar) ++ rest := List.drop_left' (Server.length_append v)
    have ih' := ih fun u hu => hvs u (List.mem_cons_of_mem v hu)
    rw [List.map_cons, List.map_cons, wireArgs_cons, ArgVal.wire, List.append_assoc,
      Client.deserialize, Client.extract_eq hv, Server.extract_append, hdrop, ih']
    rfl

theorem length_wireArgs_scalars (vs : List ScalarVal) :
    (wireArgs (vs.map .scalar)).length = requiredBufferSize (vs.map ScalarVal.type) := by
  induction vs with
  | nil => rfl
  | cons v vs ih =>
    rw [List.map_cons, List.map_cons, wireArgs_cons, ArgVal.wire, List.length_append,
      Server.length_append, ih, requiredBufferSize_cons]

theorem wp_recvScalars {classId funcId : UInt16} {vs : List ScalarVal} {more : List UInt8}
    (hvs : ∀ v ∈ vs, v.type.isScalar = true)
    (hfits : requiredBufferSize (vs.map ScalarVal.type) ≤ scalarPackLen)
    (hin : w.input = header classId funcId ++ wireArgs (vs.map .scalar) ++ more)
    {post : Result Stop View (List ScalarVal) → Prop}
    (hpost : post (.ret vs
      (w.advance (header classId funcId ++ wireArgs (vs.map .scalar)).length))) :
    (session drivers env).wp
      (Client.recvScalars classId funcId (vs.map ScalarVal.type)) post w := by
  have hsize : toInt (requiredBufferSize
      (.uint32 :: .uint16 :: .uint16 :: vs.map ScalarVal.type))
        = (header classId funcId ++ wireArgs (vs.map .scalar)).length := by
    have hlen : requiredBufferSize (.uint32 :: .uint16 :: .uint16 :: vs.map ScalarVal.type)
        = (header classId funcId ++ wireArgs (vs.map .scalar)).length := by
      rw [List.length_append, length_header, length_wireArgs_scalars, requiredBufferSize_cons,
        requiredBufferSize_cons, requiredBufferSize_cons]
      simp only [ScalarType.size]
      omega
    rw [scalarPackLen] at hfits
    rw [hlen]
    exact toInt_of_lt (by rw [List.length_append, length_header, length_wireArgs_scalars]; omega)
  have hdrop : (header classId funcId ++ wireArgs (vs.map .scalar)).drop Client.headerSize
      = wireArgs (vs.map .scalar) ++ [] := by
    rw [List.append_nil]
    exact List.drop_left' rfl
  rw [Client.recvScalars, Handler.wp_bind, hsize]
  refine wp_recvAll_append hin ?_
  rw [Handler.andThen_ret, checkReturnedHeader_header, pure_bind, hdrop,
    clientDeserialize_append hvs]
  exact hpost

theorem wp_getPayloadDynamic {classId funcId : UInt16} {data more : List UInt8}
    (hsmall : data.length < 2 ^ 31)
    (hin : w.input = header classId funcId ++
      (appendU32 (UInt32.ofNat data.length) ++ data) ++ more)
    {post : Result Stop View (List UInt8) → Prop}
    (hpost : post (.ret data (w.advance (header classId funcId ++
      (appendU32 (UInt32.ofNat data.length) ++ data)).length))) :
    (session drivers env).wp (Client.getPayloadDynamic classId funcId) post w := by
  have hsize : toInt (requiredBufferSize [.uint32, .uint16, .uint16, .uint32])
      = (header classId funcId ++ appendU32 (UInt32.ofNat data.length)).length := rfl
  have hdrop : (header classId funcId ++ appendU32 (UInt32.ofNat data.length)).drop
      Client.headerSize = appendU32 (UInt32.ofNat data.length) ++ [] := by
    rw [List.append_nil]
    exact List.drop_left' rfl
  rw [Client.getPayloadDynamic, Handler.wp_bind, hsize]
  have hin' : w.input = (header classId funcId ++ appendU32 (UInt32.ofNat data.length))
      ++ (data ++ more) := by
    rw [hin]
    simp only [List.append_assoc]
  refine wp_recvAll_append hin' ?_
  rw [Handler.andThen_ret, checkReturnedHeader_header, pure_bind, hdrop,
    toNat_extractU32_count hsmall, toInt_of_lt hsmall]
  have hrest : (w.advance (header classId funcId ++
      appendU32 (UInt32.ofNat data.length)).length).input = data ++ more := by
    rw [View.input_advance, hin', List.drop_left]
  refine wp_recvAll_append hrest ?_
  rw [View.advance_advance, ← List.length_append, List.append_assoc]
  exact hpost

/-- What a returned value is for the client: a C string is received as a `std::string`. -/
def RetVal.received : RetVal → RetVal
  | .cString bytes => .string bytes
  | v => v

/-- The client has an overload for the type, and the size it asks `recv_all` for is an
`int`. -/
def RetType.Receivable : RetType → Prop
  | .void => False
  | .scalar t => t.isScalar = true
  | .tuple ts => 2 ≤ ts.length ∧ ∀ t ∈ ts, t.isScalar = true
  | .array t n => headerSize + n * t.size < 2 ^ 31
  | .vector _ | .string | .cString => True

/-- A returned value is one argument for the serializer, or the elements of a tuple. -/
theorem RetVal.length_wireArgs_lt {v : RetVal} {t : RetType} (hty : v.HasType t)
    (hfits : t.scalarBytes ≤ scalarPackLen) (hsmall : ∀ a ∈ v.args, a.Small) :
    (wireArgs v.args).length < 2 ^ 31 + 4 := by
  have hscalars : ∀ vs : List ScalarVal,
      requiredBufferSize (vs.map ScalarVal.type) ≤ scalarPackLen →
        (wireArgs (vs.map .scalar)).length < 2 ^ 31 + 4 := by
    intro vs hvs
    rw [length_wireArgs_scalars]
    rw [scalarPackLen] at hvs
    omega
  cases v with
  | void => exact Nat.succ_pos _
  | scalar v =>
    cases t with
    | scalar t =>
      obtain rfl : v.type = t := hty
      exact hscalars [v] (by simpa [RetType.scalarBytes] using hfits)
    | _ => exact hty.elim
  | tuple vs =>
    cases t with
    | tuple ts =>
      obtain rfl : vs.map ScalarVal.type = ts := hty
      exact hscalars vs hfits
    | _ => exact hty.elim
  | array vs =>
    have hlen : (memOf vs).length < 2 ^ 31 := hsmall _ (List.mem_singleton_self _)
    simp only [RetVal.args, wireArgs_cons, wireArgs_nil, ArgVal.wire, List.append_nil]
    omega
  | vector vs =>
    have hlen : (memOf vs).length < 2 ^ 31 := hsmall _ (List.mem_singleton_self _)
    simp only [RetVal.args, wireArgs_cons, wireArgs_nil, ArgVal.wire, List.append_nil,
      List.length_append, length_appendU32]
    omega
  | string bytes | cString bytes =>
    have hlen : bytes.length < 2 ^ 31 := hsmall _ (List.mem_singleton_self _)
    simp only [RetVal.args, wireArgs_cons, wireArgs_nil, ArgVal.wire, List.append_nil,
      List.length_append, length_appendU32]
    omega

/-- A reply: the ids of the operation, the type it returns, and what it returned. -/
structure Reply where
  classId : UInt16
  funcId : UInt16
  type : RetType
  value : RetVal

namespace Reply

/-- What `Session::send` offers to `write()`. -/
def stream (r : Reply) : Option (List UInt8) :=
  (Server.buildReply r.classId r.funcId r.value).map Session.offered

/-- The value is one of the type, a scalar or a tuple fits in `scal_data`, and the content
of a container is below 2^31 bytes. -/
structure WellFormed (r : Reply) : Prop where
  hasType : r.value.HasType r.type
  receivable : r.type.Receivable
  fits : r.type.scalarBytes ≤ scalarPackLen
  small : ∀ a ∈ r.value.args, a.Small

theorem WellFormed.buildReply {r : Reply} (h : r.WellFormed) :
    Server.buildReply r.classId r.funcId r.value
      = some (header r.classId r.funcId ++ wireArgs r.value.args) :=
  buildCommand_eq r.classId r.funcId (Server.appendable _) (r.value.scalarRunsFit h.hasType h.fits)
    fun a ha => (h.small a ha).length_lt

/-- A returned value is one argument for the serializer, or the elements of a tuple. -/
theorem WellFormed.length_wireArgs {r : Reply} (h : r.WellFormed) :
    (wireArgs r.value.args).length < 2 ^ 31 + 4 :=
  r.value.length_wireArgs_lt h.hasType h.fits h.small

/-- A reply is a header and the wire format of the value. -/
theorem WellFormed.stream_eq {r : Reply} (h : r.WellFormed) :
    r.stream = some (header r.classId r.funcId ++ wireArgs r.value.args) := by
  have hlen : (header r.classId r.funcId ++ wireArgs r.value.args).length < 2 ^ 32 := by
    have := h.length_wireArgs
    rw [List.length_append, length_header]
    omega
  rw [stream, h.buildReply, Option.map_some, Session.offered, Nat.mod_eq_of_lt hlen,
    List.take_length]

end Reply

/-- **A reply comes back as the value that was sent**, and what follows it stays on the
stream. -/
theorem wp_commandDeserializer {classId funcId : UInt16} {v : RetVal} {t : RetType}
    (hty : v.HasType t) (hrec : t.Receivable) (hfits : t.scalarBytes ≤ scalarPackLen)
    (hsmall : ∀ a ∈ v.args, a.Small) {more : List UInt8}
    (hin : w.input = header classId funcId ++ wireArgs v.args ++ more)
    {post : Result Stop View RetVal → Prop}
    (hpost : post (.ret v.received
      (w.advance (header classId funcId ++ wireArgs v.args).length))) :
    (session drivers env).wp (Client.commandDeserializer classId funcId t) post w := by
  -- the shapes of the value and of its type are the same
  cases v with
  | void =>
    cases t with
    | void => exact False.elim hrec
    | _ => exact False.elim hty
  | scalar v =>
    cases t with
    | scalar t =>
      obtain rfl : v.type = t := hty
      have hsize : requiredBufferSize ([v].map ScalarVal.type) ≤ scalarPackLen := by
        simpa [RetType.scalarBytes] using hfits
      rw [Client.commandDeserializer, Handler.wp_bind]
      exact wp_recvScalars (List.forall_mem_singleton.mpr hrec) hsize hin hpost
    | _ => exact False.elim hty
  | tuple vs =>
    cases t with
    | tuple ts =>
      obtain rfl : vs.map ScalarVal.type = ts := hty
      have hscalar : ∀ v ∈ vs, v.type.isScalar = true :=
        fun v hv => hrec.2 _ (List.mem_map_of_mem hv)
      rw [Client.commandDeserializer, Handler.wp_bind]
      exact wp_recvScalars hscalar hfits hin hpost
    | _ => exact False.elim hty
  | array vs =>
    cases t with
    | array t n =>
      obtain ⟨rfl, hvs⟩ : vs.length = n ∧ ∀ v ∈ vs, v.type = t := hty
      have hbytes : wireArgs (RetVal.array vs).args = memOf vs := by
        simp [RetVal.args, ArgVal.wire]
      have hsize : toInt (Client.headerSize + vs.length * t.size : ℕ)
          = (header classId funcId ++ wireArgs (RetVal.array vs).args).length := by
        rw [hbytes, List.length_append, length_header, length_memOf hvs]
        exact toInt_of_lt hrec
      have hdrop : (header classId funcId ++ wireArgs (RetVal.array vs).args).drop
          Client.headerSize = memOf vs := by
        rw [hbytes]
        exact List.drop_left' rfl
      rw [Client.commandDeserializer, Handler.wp_bind, hsize]
      refine wp_recvAll_append hin ?_
      rw [Handler.andThen_ret, checkReturnedHeader_header, pure_bind, hdrop, ofMemOf_memOf hvs]
      exact hpost
    | _ => exact False.elim hty
  | vector vs =>
    cases t with
    | vector t =>
      have hvs : ∀ v ∈ vs, v.type = t := hty
      have hlen : (memOf vs).length < 2 ^ 31 := hsmall _ (List.mem_singleton_self _)
      have hbytes : wireArgs (RetVal.vector vs).args
          = appendU32 (UInt32.ofNat (memOf vs).length) ++ memOf vs := by
        simp [RetVal.args, ArgVal.wire]
      rw [hbytes] at hin hpost
      rw [Client.commandDeserializer, Handler.wp_bind]
      refine wp_getPayloadDynamic hlen hin ?_
      rw [Handler.andThen_ret, length_memOf hvs, Nat.mul_div_cancel _ t.size_pos,
        ofMemOf_memOf hvs]
      exact hpost
    | _ => exact False.elim hty
  | string bytes | cString bytes =>
    have hlen : bytes.length < 2 ^ 31 := hsmall _ (List.mem_singleton_self _)
    have hbytes : wireArgs [ArgVal.string bytes]
        = appendU32 (UInt32.ofNat bytes.length) ++ bytes := by
      simp [ArgVal.wire]
    cases t with
    | string | cString =>
      simp only [RetVal.args, hbytes] at hin hpost
      rw [Client.commandDeserializer, Handler.wp_bind]
      exact wp_getPayloadDynamic hlen hin hpost
    | _ => exact False.elim hty

/-! ## A list of replies -/

/-- Receive the replies to a list of operations, each with its ids and the type that it
returns. -/
def Client.recvReplies : List (UInt16 × UInt16 × RetType) → Program (List RetVal)
  | [] => return []
  | (classId, funcId, type) :: operations => do
    let v ← commandDeserializer classId funcId type
    let vs ← recvReplies operations
    return v :: vs

/-- What the client knows of a reply before it has come. -/
def Reply.expected (r : Reply) : UInt16 × UInt16 × RetType := (r.classId, r.funcId, r.type)

/-- The bytes of the replies to a list of operations. -/
def replyStream : List Reply → Option (List UInt8)
  | [] => some []
  | r :: replies => do
    let bs ← r.stream
    let rest ← replyStream replies
    return bs ++ rest

/-- The replies are on the stream, and the rest of it is left when they have been received. -/
theorem wp_recvReplies {replies : List Reply} (h : ∀ r ∈ replies, r.WellFormed) :
    ∃ bs, replyStream replies = some bs ∧ ∀ (w : View) (more : List UInt8),
      w.input = bs ++ more →
        (session drivers env).wp (Client.recvReplies (replies.map Reply.expected))
          (· = .ret (replies.map fun r => r.value.received) (w.advance bs.length)) w := by
  induction replies with
  | nil => exact ⟨[], rfl, fun w more _ => rfl⟩
  | cons r replies ih =>
    have hr : r.WellFormed := h r (List.mem_cons_self ..)
    obtain ⟨bs, hbs, hrest⟩ := ih fun q hq => h q (List.mem_cons_of_mem r hq)
    refine ⟨header r.classId r.funcId ++ wireArgs r.value.args ++ bs, ?_, ?_⟩
    · rw [replyStream, hr.stream_eq, hbs]
      rfl
    · intro w more hin
      rw [List.map_cons, Reply.expected, Client.recvReplies, Handler.wp_bind]
      refine wp_commandDeserializer hr.hasType hr.receivable hr.fits hr.small
        (hin.trans (List.append_assoc ..)) ?_
      rw [Handler.andThen_ret, Handler.wp_bind]
      have hin' : (w.advance (header r.classId r.funcId ++ wireArgs r.value.args).length).input
          = bs ++ more := by
        rw [View.input_advance, hin, List.append_assoc, List.drop_left]
      refine Handler.wp_mono _ ?_ (hrest _ more hin')
      rintro _ rfl
      rw [Handler.andThen_ret, Handler.wp_pure, View.advance_advance, ← List.length_append,
        List.map_cons]

end Rules

/-- **Replies round-trip.**  However the stream is cut, the client receives the values
that were sent, and takes the bytes of the replies from the stream and no others. -/
theorem recvReplies_replies {replies : List Reply} (h : ∀ r ∈ replies, r.WellFormed)
    (more : List UInt8) (ending : Ending) :
    ∃ bs, replyStream replies = some bs ∧ ∀ pick, (session [] .any).Allows pick →
      (session [] .any).exec pick 0 (Client.recvReplies (replies.map Reply.expected))
          (View.start (bs ++ more) ending)
        = .ret (replies.map fun r => r.value.received)
            ((View.start (bs ++ more) ending).advance bs.length) := by
  have hrecv : ∃ bs, replyStream replies = some bs ∧ ∀ (w : View) (more : List UInt8),
      w.input = bs ++ more →
        (session [] .any).wp (Client.recvReplies (replies.map Reply.expected))
          (· = .ret (replies.map fun r => r.value.received) (w.advance bs.length)) w :=
    wp_recvReplies h
  obtain ⟨bs, hbs, hwp⟩ := hrecv
  exact ⟨bs, hbs, fun pick hpick => (session [] .any).wp_exec hpick (hwp _ more rfl) 0⟩

/-- A reply of every kind. -/
def probeReplies : List Reply :=
  [⟨2, 1, .scalar .uint32, .scalar (.uint32 7)⟩,
   ⟨2, 2, .tuple [.float, .int8], .tuple [.float 0x7FC00000, .int8 (-1)]⟩,
   ⟨3, 0, .array .int16 2, .array [.int16 1, .int16 (-2)]⟩,
   ⟨3, 1, .vector .complexDouble, .vector [.complexDouble 1 2]⟩,
   ⟨1, 1, .string, .string [123, 125]⟩,
   ⟨1, 0, .cString, .cString [48, 46, 50]⟩]

theorem recvReplies_probeReplies :
    ∃ bs, replyStream probeReplies = some bs ∧ ∀ pick, (session [] .any).Allows pick →
      (session [] .any).exec pick 0 (Client.recvReplies (probeReplies.map Reply.expected))
          (View.start (bs ++ [0, 0, 0]) .waiting)
        = .ret (probeReplies.map fun r => r.value.received)
            ((View.start (bs ++ [0, 0, 0]) .waiting).advance bs.length) := by
  refine recvReplies_replies (fun r hr => ?_) [0, 0, 0] .waiting
  simp only [probeReplies, List.mem_cons, List.not_mem_nil, or_false] at hr
  rcases hr with rfl | rfl | rfl | rfl | rfl | rfl <;>
    exact ⟨by simp [RetVal.HasType, ScalarVal.type],
      by simp [RetType.Receivable, ScalarType.isScalar, ScalarType.size, headerSize], by decide,
      by simp [RetVal.args, ArgVal.Small, ArgVal.data, memOf, ScalarVal.type, ScalarType.size]⟩

/-! ## Arrays that are too large -/

/-- The reply of an operation that returns `n` zero bytes in an array. -/
def zeros (n : ℕ) : Reply where
  classId := 2
  funcId := 0
  type := .array .uint8 n
  value := .array (List.replicate n (.uint8 0))

theorem zeros_hasType (n : ℕ) : (zeros n).value.HasType (zeros n).type :=
  ⟨List.length_replicate, fun v hv => by rw [List.eq_of_mem_replicate hv]; rfl⟩

theorem length_memOf_zeros (n : ℕ) :
    (memOf (List.replicate n (ScalarVal.uint8 0))).length = n := by
  have hty : ∀ v ∈ List.replicate n (ScalarVal.uint8 0), v.type = .uint8 :=
    (zeros_hasType n).2
  rw [length_memOf hty, List.length_replicate, ScalarType.size, Nat.mul_one]

/-- `recv_all` is asked for a size that is negative as an `int`, and throws before it
receives anything. -/
theorem wp_commandDeserializer_zeros {drivers : List Driver} {env : Env} {w : View} {n : ℕ}
    (hlow : 2 ^ 31 ≤ n + 8) (hhigh : n + 8 < 2 ^ 32) {post : Result Stop View RetVal → Prop} :
    (session drivers env).wp
        (Client.commandDeserializer (zeros n).classId (zeros n).funcId (zeros n).type) post w ↔
      post (.halt .terminated w) := by
  have hneg : toInt (Client.headerSize + n * ScalarType.uint8.size : ℕ) < 0 := by
    have hsize : Client.headerSize + n * ScalarType.uint8.size = n + 8 := by
      rw [ScalarType.size, Nat.mul_one, Nat.add_comm]
      rfl
    rw [hsize, toInt, Int.bmod_def]
    split <;> omega
  rw [zeros, Client.commandDeserializer, Client.recvAll, if_pos hneg, Handler.wp_bind,
    Handler.wp_bind, wp_throw]
  rfl

theorem stream_zeros {n : ℕ} (hlow : n < 2 ^ 31) :
    ∃ bs, (zeros n).stream = some bs ∧ bs.length = n + 8 := by
  have hsmall : ∀ a ∈ (zeros n).value.args, a.Small := by
    intro a ha
    rw [List.mem_singleton.mp ha, ArgVal.Small, ArgVal.data, length_memOf_zeros]
    exact hlow
  have hfits : (zeros n).type.scalarBytes ≤ scalarPackLen := Nat.zero_le _
  have hbuf : Server.buildReply (zeros n).classId (zeros n).funcId (zeros n).value
      = some (header 2 0 ++ wireArgs (zeros n).value.args) :=
    buildCommand_eq 2 0 (Server.appendable _)
      ((zeros n).value.scalarRunsFit (zeros_hasType n) hfits)
      fun a ha => (hsmall a ha).length_lt
  have hlen : (header 2 0 ++ wireArgs (zeros n).value.args).length = n + 8 := by
    simp only [zeros, RetVal.args, wireArgs_cons, wireArgs_nil, ArgVal.wire, List.append_nil,
      List.length_append, length_header, length_memOf_zeros]
    exact Nat.add_comm ..
  refine ⟨_, ?_, hlen⟩
  rw [Reply.stream, hbuf, Option.map_some, Session.offered, hlen,
    Nat.mod_eq_of_lt (by omega), ← hlen, List.take_length]

/-- A reply of 2^31 bytes is sent, but it cannot be received. -/
theorem not_received_of_large_array :
    ∃ bs, (zeros (2 ^ 31 - 8)).stream = some bs ∧ bs.length = 2 ^ 31 ∧
      ∀ pick, (session [] .any).Allows pick → ∀ ending,
        ((session [] .any).exec pick 0
          (Client.commandDeserializer (zeros (2 ^ 31 - 8)).classId (zeros (2 ^ 31 - 8)).funcId
            (zeros (2 ^ 31 - 8)).type) (View.start bs ending)).stop? = some .terminated := by
  obtain ⟨n, hn⟩ : ∃ n, n = 2 ^ 31 - 8 := ⟨_, rfl⟩
  rw [← hn]
  obtain ⟨bs, hbs, hlen⟩ := stream_zeros (n := n) (by omega)
  refine ⟨bs, hbs, by omega, fun pick hpick ending => ?_⟩
  have hwp : (session [] .any).wp
      (Client.commandDeserializer (zeros n).classId (zeros n).funcId (zeros n).type)
      (fun r => r.stop? = some .terminated) (View.start bs ending) :=
    (wp_commandDeserializer_zeros (by omega) (by omega)).mpr rfl
  exact (session [] .any).wp_exec hpick hwp 0

end KoheronSdk
