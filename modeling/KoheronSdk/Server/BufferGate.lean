import KoheronSdk.Client.Python
import KoheronSdk.Client.TypeScript
import KoheronSdk.Server.Receiving

/-!
# The size check of the generated parser

For an operation without vectors and strings the generator asserts that the arguments fit in
`CMD_PAYLOAD_BUFFER_LEN`.  A WebSocket takes the arguments together with the header of the
command, and from a buffer whose last 56 bytes `read_header` keeps free.

## The sum

The assertion is a text, a sum over the packs in which a scalar pack stands with the number of bytes
that its scalars are received with, and an array with the product of its length and the size of an
element.  `reqBuffSize` is the value of this text.  That it is the size of the arguments is an
induction on the packs; that it is what a client sends has to be shown for each client, since each
builds a command in its own way (`ClientSends`).  A view of the browser that does not show all of
its buffer, or a Python array of another length than the type has, makes other commands; these are
not considered here.

## The limits

The limit of a frame is 8 + 262080 bytes, not 262144, and there is one size below it that is given
up as well: arguments of 16368 bytes make a frame of 16384, the level at which `read_n_bytes`
reports an overflow of another buffer (`Server/Receiving`).  The assertion knows neither.

* `reqBuffSize_buildArgsPacks`: the asserted sum is the size of the arguments.
* `ClientSends.length_eq`: every client sends as many bytes behind the header.
* `gateMatches_iff`: the sizes for which the command is received as well.
-/

namespace KoheronSdk

open Effects ByteOrder WebSocketFrame

/-! ## The sum -/

/-- The bytes of an argument, where they depend on its type only. -/
def ArgType.fixedSize : ArgType → ℕ
  | .scalar t => t.size
  | .array t n => n * t.size
  | .vector _ | .string => 0

/-- Neither a vector nor a string. -/
def ArgType.IsFixed : ArgType → Prop
  | .scalar _ | .array _ _ => True
  | .vector _ | .string => False

/-- The size of the arguments of an operation without vectors and strings. -/
def argsSize (ts : List ArgType) : ℕ := (ts.map ArgType.fixedSize).sum

@[simp]
theorem argsSize_cons (t : ArgType) (ts : List ArgType) :
    argsSize (t :: ts) = t.fixedSize + argsSize ts := by
  rw [argsSize, List.map_cons, List.sum_cons, argsSize]

@[simp]
theorem requiredBufferSize_append (ts us : List ScalarType) :
    requiredBufferSize (ts ++ us) = requiredBufferSize ts + requiredBufferSize us := by
  simp [requiredBufferSize]

@[simp]
theorem reqBuffSize_append (packs more : List Pack) :
    reqBuffSize (packs ++ more) = reqBuffSize packs + reqBuffSize more := by
  induction packs with
  | nil => rw [List.nil_append, reqBuffSize, Nat.zero_add]
  | cons p packs ih => cases p <;> simp only [List.cons_append, reqBuffSize, ih, Nat.add_assoc]

theorem reqBuffSize_flushScalars (packs : List Pack) (argsList : List (String × ScalarType)) :
    reqBuffSize (flushScalars packs argsList)
      = reqBuffSize packs + requiredBufferSize (argsList.map Prod.snd) := by
  unfold flushScalars
  split
  · rw [reqBuffSize_append]
    rfl
  · have hnil : argsList = [] := List.length_eq_zero_iff.mp (by omega)
    rw [hnil]
    rfl

/-- The packs, the waiting scalars and the arguments to come always have the same size. -/
theorem reqBuffSize_buildArgsPacksLoop (arguments : List Arg) (packs : List Pack)
    (argsList : List (String × ScalarType)) (hasVector : Bool) :
    reqBuffSize (buildArgsPacksLoop packs argsList hasVector arguments).1
      = reqBuffSize packs + requiredBufferSize (argsList.map Prod.snd)
        + argsSize (arguments.map Arg.type) := by
  induction arguments generalizing packs argsList hasVector with
  | nil => exact reqBuffSize_flushScalars packs argsList
  | cons arg rest ih =>
    obtain ⟨name, type⟩ := arg
    have hnil : requiredBufferSize (([] : List (String × ScalarType)).map Prod.snd) = 0 := rfl
    cases type with
    | scalar t =>
      have hone : requiredBufferSize [t] = t.size := Nat.add_zero _
      rw [buildArgsPacksLoop, ih, List.map_append, requiredBufferSize_append]
      simp only [List.map_cons, List.map_nil, hone, argsSize_cons, ArgType.fixedSize]
      omega
    | array t n | vector t | string =>
      rw [buildArgsPacksLoop, ih, hnil, reqBuffSize_append, reqBuffSize_flushScalars,
        List.map_cons, argsSize_cons]
      simp only [reqBuffSize, ArgType.fixedSize]
      omega

/-- **The asserted sum is the size of the arguments.** -/
theorem reqBuffSize_buildArgsPacks (arguments : List Arg) :
    reqBuffSize (buildArgsPacks arguments).1 = argsSize (arguments.map Arg.type) := by
  rw [buildArgsPacks, reqBuffSize_buildArgsPacksLoop]
  simp [reqBuffSize, requiredBufferSize]

/-! ## What a client sends -/

/-- A value of a type of fixed size is written with the size of the type. -/
theorem ArgVal.HasType.length_wire {v : ArgVal} {t : ArgType} (ht : v.HasType t)
    (hfixed : t.IsFixed) : v.wire.length = t.fixedSize := by
  cases t with
  | scalar t =>
    cases v with
    | scalar v =>
      obtain rfl : v.type = t := ht
      exact Server.length_append v
    | _ => exact ht.elim
  | array t n =>
    cases v with
    | array vs => rw [ArgVal.wire, length_memOf ht.2, ht.1, ArgType.fixedSize]
    | _ => exact ht.elim
  | vector t => exact hfixed.elim
  | string => exact hfixed.elim

theorem length_wireArgs_of_hasType {vals : List ArgVal} {ts : List ArgType}
    (ht : List.Forall₂ ArgVal.HasType vals ts) (hfixed : ∀ t ∈ ts, t.IsFixed) :
    (wireArgs vals).length = argsSize ts := by
  induction ht with
  | nil => rfl
  | cons hv _ ih =>
    obtain ⟨hhead, htail⟩ := List.forall_mem_cons.mp hfixed
    rw [wireArgs_cons, List.length_append, hv.length_wire hhead, ih htail, argsSize_cons]

/-- A command for an operation with these argument types, as one of the clients makes it or
as the wire format has it; the views of the browser show all of their buffers, and the arrays
of Python have the length of their types. -/
inductive ClientSends (ts : List ArgType) (driverId opId : UInt16) : List UInt8 → Prop
  | wire {vals : List ArgVal} (ht : List.Forall₂ ArgVal.HasType vals ts) :
    ClientSends ts driverId opId (header driverId opId ++ wireArgs vals)
  | cpp {vals : List ArgVal} {bytes : List UInt8} (ht : List.Forall₂ ArgVal.HasType vals ts)
    (h : Client.buildCommand driverId opId vals = some bytes) : ClientSends ts driverId opId bytes
  | python {cmdArgs : List Str} {args : List Python.PyVal} {vals : List ArgVal}
    {buff : List UInt8} (hspells : List.Forall₂ Python.Qualified cmdArgs ts)
    (hmeans : Python.MeanAll args ts vals) (hfaithful : List.Forall₂ Python.Faithful ts args)
    (h : Python.makeCommand driverId.toNat opId.toNat (some (cmdArgs, args)) = some buff) :
    ClientSends ts driverId opId buff
  | typeScript {cmdArgs : List Str} {params : List TypeScript.Value} {vals : List ArgVal}
    {data : List UInt8} (hspells : List.Forall₂ (Spells []) cmdArgs ts)
    (hmeans : TypeScript.MeanAll params ts vals) (hcovers : ∀ p ∈ params, p.Covers)
    (h : TypeScript.command (.int driverId.toNat) (.int opId.toNat) cmdArgs params = some data) :
    ClientSends ts driverId opId data

theorem Client.length_append {v : ScalarVal} {bytes : List UInt8}
    (h : Client.append v = some bytes) : bytes.length = v.type.size := by
  cases v with
  | complexFloat re im | complexDouble re im => cases h
  | _ =>
    rw [Client.append_eq _ rfl] at h
    rw [← Option.some.inj h, Server.length_append]

/-- The client's serializer adds the bytes of the arguments. -/
theorem Client.length_commandSerializer {vals : List ArgVal} {ts : List ArgType}
    (ht : List.Forall₂ ArgVal.HasType vals ts) (hfixed : ∀ t ∈ ts, t.IsFixed)
    {s s' : CommandSerializer}
    (h : CommandSerializer.commandSerializer Client.append s vals = some s') :
    s'.bytes.length = s.bytes.length + argsSize ts := by
  induction ht generalizing s with
  | nil =>
    obtain rfl : s = s' := Option.some.inj h
    rfl
  | @cons v t vals ts hv _ ih =>
    obtain ⟨hhead, htail⟩ := List.forall_mem_cons.mp hfixed
    have hwire := hv.length_wire hhead
    rw [argsSize_cons, ← hwire]
    cases v with
    | scalar v =>
      simp only [CommandSerializer.commandSerializer, Option.bind_eq_bind,
        Option.bind_eq_some_iff] at h
      obtain ⟨bytes, hbytes, s₁, hs₁, h⟩ := h
      rw [CommandSerializer.append, Option.ite_none_right_eq_some] at hs₁
      rw [ih htail h, ← Option.some.inj hs₁.2, ArgVal.wire, Server.length_append,
        ← Client.length_append hbytes]
      simp only [CommandSerializer.bytes, List.length_append]
      omega
    | array vs =>
      rw [ih htail h, ArgVal.wire]
      simp only [CommandSerializer.bytes, CommandSerializer.dumpArrayToBuffer,
        CommandSerializer.scalData_dumpScalarPack, CommandSerializer.buffer_dumpScalarPack,
        List.length_append, List.length_nil]
      omega
    | vector vs =>
      cases t with
      | vector t => exact hhead.elim
      | _ => exact hv.elim
    | string bytes =>
      cases t with
      | string => exact hhead.elim
      | _ => exact hv.elim

/-- Faithful arguments are written as their values. -/
theorem Python.buildPayload_eq {cmdArgs : List Str} {ts : List ArgType} {args : List PyVal}
    {vals : List ArgVal} (hspells : List.Forall₂ Qualified cmdArgs ts)
    (hmeans : MeanAll args ts vals) (hfaithful : List.Forall₂ Faithful ts args)
    {payload : List UInt8} (h : buildPayload cmdArgs args = some payload) :
    payload = wireArgs vals ∧ List.Forall₂ ArgVal.HasType vals ts := by
  induction hspells generalizing args vals payload with
  | nil =>
    match args, vals, hmeans with
    | [], [], _ => exact ⟨(Option.some.inj h).symm, .nil⟩
  | @cons s t cmdArgs ts hs _ ih =>
    match args, vals, hmeans with
    | arg :: args, v :: vals, ⟨hmeans, hmeans'⟩ =>
      obtain ⟨qualifier, hqualifier, hs⟩ := hs
      obtain ⟨hhead, htail⟩ := List.forall₂_cons.mp hfaithful
      simp only [buildPayload, Option.bind_eq_bind, Option.bind_eq_some_iff, Option.pure_def] at h
      obtain ⟨bytes, hbytes, payload', hpayload', h⟩ := h
      obtain ⟨rfl, htype, -⟩ := wire_of_faithful hqualifier hs hmeans hbytes hhead
      obtain ⟨rfl, htypes⟩ := ih hmeans' htail hpayload'
      exact ⟨(Option.some.inj h).symm, .cons htype htypes⟩

/-- A view that covers its buffer is written with the size of its type. -/
theorem TypeScript.length_written_of_covers {t : ArgType} {param : Value} {v : ArgVal}
    (hmeans : param.Means t v) (hcovers : param.Covers) (hfixed : t.IsFixed) :
    (param.written v).length = t.fixedSize := by
  cases t with
  | scalar t =>
    cases v with
    | scalar v =>
      have hwritten : param.written (.scalar v) = (ArgVal.scalar v).wire := by cases param <;> rfl
      rw [hwritten, ArgVal.wire, Server.length_append, hmeans.1, ArgType.fixedSize]
    | _ => exact hmeans.elim
  | array t n =>
    cases v with
    | array vs =>
      obtain ⟨a, rfl, rfl, rfl, rfl⟩ := hmeans
      exact hcovers.2.symm
    | _ => exact hmeans.elim
  | vector t => exact hfixed.elim
  | string => exact hfixed.elim

theorem TypeScript.length_writtenAll_of_covers {params : List Value} {ts : List ArgType}
    {vals : List ArgVal} (hmeans : MeanAll params ts vals) (hcovers : ∀ p ∈ params, p.Covers)
    (hfixed : ∀ t ∈ ts, t.IsFixed) : (writtenAll params vals).length = argsSize ts := by
  induction params generalizing ts vals with
  | nil =>
    match ts, vals, hmeans with
    | [], [], _ => rfl
  | cons param params ih =>
    match ts, vals, hmeans with
    | t :: ts, v :: vals, ⟨hmeans, hmeans'⟩ =>
      obtain ⟨hcover, hcovers⟩ := List.forall_mem_cons.mp hcovers
      obtain ⟨hhead, htail⟩ := List.forall_mem_cons.mp hfixed
      change (param.written v ++ writtenAll params vals).length = _
      rw [List.length_append, length_written_of_covers hmeans hcover hhead,
        ih hmeans' hcovers htail, argsSize_cons]

/-- **Every client sends the size of the arguments** behind the header. -/
theorem ClientSends.length_eq {ts : List ArgType} (hfixed : ∀ t ∈ ts, t.IsFixed)
    {driverId opId : UInt16} {data : List UInt8} (h : ClientSends ts driverId opId data) :
    data.length = headerSize + argsSize ts := by
  cases h with
  | wire ht =>
    rw [List.length_append, length_header, length_wireArgs_of_hasType ht hfixed, headerSize]
  | cpp ht h =>
    simp only [Client.buildCommand, buildCommand, Option.bind_eq_bind, Option.bind_eq_some_iff,
      Option.pure_def] at h
    obtain ⟨s, hs, h⟩ := h
    have hlen := Client.length_commandSerializer ht hfixed hs
    rw [← Option.some.inj h, CommandSerializer.buffer_dumpScalarPack, hlen]
    rfl
  | python hspells hmeans hfaithful h =>
    simp only [Python.makeCommand, Option.bind_eq_bind, Option.bind_eq_some_iff, Option.pure_def,
      Python.append_header] at h
    obtain ⟨payload, hpayload, h⟩ := h
    obtain ⟨rfl, ht⟩ := Python.buildPayload_eq hspells hmeans hfaithful hpayload
    rw [← Option.some.inj h, List.length_append, length_header,
      length_wireArgs_of_hasType ht hfixed, headerSize]
  | typeScript hspells hmeans hcovers h =>
    rw [TypeScript.command_eq hspells hmeans h, List.length_append, length_header,
      TypeScript.length_writtenAll_of_covers hmeans hcovers hfixed, headerSize]

/-- There are values of every type. -/
theorem exists_hasType (ts : List ArgType) : ∃ vals, List.Forall₂ ArgVal.HasType vals ts := by
  induction ts with
  | nil => exact ⟨[], .nil⟩
  | cons t ts ih =>
    obtain ⟨vals, hvals⟩ := ih
    cases t with
    | scalar t => exact ⟨.scalar (t.ofMem []) :: vals, .cons (t.type_ofMem []) hvals⟩
    | array t n =>
      exact ⟨.array (ofMemOf t n []) :: vals,
        .cons ⟨length_ofMemOf t n [], fun v hv => type_of_mem_ofMemOf hv⟩ hvals⟩
    | vector t => exact ⟨.vector [] :: vals, .cons (List.forall_mem_nil _) hvals⟩
    | string => exact ⟨.string [] :: vals, .cons trivial hvals⟩

/-! ## What a WebSocket takes -/

/-- `read_header` takes the frame, whatever is behind it and however it is cut. -/
def HeaderAccepted (drivers : List Driver) (f : ClientFrame) : Prop :=
  ∀ (ws : WebSocket) (fuel : ℕ) (more : List UInt8) (ending : Ending), ws.readStrLen = 0 →
    ws.connectionClosed = false → 0 < fuel → ∀ pick, (session drivers .any).Allows pick →
      ∃ ws', (session drivers .any).exec pick 0 (WebSocket.readHeader fuel ws)
        (View.start (f.encode ++ more) ending)
          = .ret (0, ws') ((View.start (f.encode ++ more) ending).advance f.header.length)

/-- `receive_cmd` takes the frame and leaves the command that is in it. -/
def Delivered (drivers : List Driver) (f : ClientFrame) : Prop :=
  ∀ (ws : WebSocket) (fuel : ℕ) (more : List UInt8) (ending : Ending) (mem : ℕ → UInt8),
    ws.connectionClosed = false → 0 < fuel → ∀ pick, (session drivers .any).Allows pick →
      ∃ ws' cmd, (session drivers .any).exec pick 0
        (ws.receiveCmd fuel (Command.uninitialized mem)) (View.start (f.encode ++ more) ending)
          = .ret (f.payload.length, ws', cmd)
            ((View.start (f.encode ++ more) ending).advance f.encode.length) ∧
        Received f (f.payload.length, cmd)

/-- A command has the size that the generator asserts, and goes through in one frame. -/
def GateMatches (drivers : List Driver) (arguments : List Arg) : Prop :=
  ∀ (driverId opId : UInt16) (data : List UInt8),
    ClientSends (arguments.map Arg.type) driverId opId data →
      data.length = headerSize + reqBuffSize (buildArgsPacks arguments).1 ∧
      ∀ f : ClientFrame, f.payload = data → HeaderAccepted drivers f ∧ Delivered drivers f

theorem headerAccepted (drivers : List Driver) {f : ClientFrame} (hf : Acceptable f) :
    HeaderAccepted drivers f := by
  intro ws fuel more ending hempty hopen hfuel pick hpick
  have hrun : (session drivers .any).wp (WebSocket.readHeader fuel ws)
      (fun r => ∃ ws', r = .ret (0, ws')
        ((View.start (f.encode ++ more) ending).advance f.header.length))
      (View.start (f.encode ++ more) ending) :=
    wp_readHeader hfuel hf rfl hempty hopen ⟨_, rfl⟩
  exact (session drivers .any).wp_exec hpick hrun 0

theorem delivered_of_ne (drivers : List Driver) {f : ClientFrame} (hf : Acceptable f)
    (hlen : f.payload.length ≠ 16376) : Delivered drivers f := by
  intro ws fuel more ending mem hopen hfuel pick hpick
  have hrun : (session drivers .any).wp (ws.receiveCmd fuel (Command.uninitialized mem))
      (fun r => ∃ ws' cmd, r = .ret (f.payload.length, ws', cmd)
          ((View.start (f.encode ++ more) ending).advance f.encode.length) ∧
        Received f (f.payload.length, cmd))
      (View.start (f.encode ++ more) ending) :=
    wp_receiveCmd hfuel hf rfl hopen rfl rfl hlen
      fun ws' cmd _ hreceived => ⟨ws', cmd, rfl, hreceived⟩
  exact (session drivers .any).wp_exec hpick hrun 0

/-- A frame that is given up is not delivered. -/
theorem Delivered.not_fails {drivers : List Driver} {f : ClientFrame} (h : Delivered drivers f)
    (hfails : (session drivers .any).wp
      (probeWebSocket.receiveCmd 1 (Command.uninitialized fun _ => 0))
      (fun r => ∃ ws' cmd w', r = .ret (-1, ws', cmd) w') (View.start (f.encode ++ []) .eof)) :
    False := by
  have hrun := (session drivers .any).wp_exec (eager_allows_any drivers) hfails 0
  obtain ⟨ws', cmd', hret, -⟩ := h probeWebSocket 1 [] .eof (fun _ => 0) rfl Nat.one_pos
    (eager drivers) (eager_allows_any drivers)
  obtain ⟨ws₁, cmd₁, w₁, hret₁⟩ := hrun
  rw [hret] at hret₁
  have hsize := congrArg Prod.fst (Result.ret.inj hret₁).1
  simp only at hsize
  omega

/-- What is delivered is within the limit, and does not fill the buffer to the wrong one. -/
theorem Delivered.size {drivers : List Driver} {f : ClientFrame} (h : Delivered drivers f)
    (hmin : headerSize ≤ f.payload.length) (hmax : f.payload.length < 2 ^ 63) :
    f.payload.length ≤ websockReadStrLen - 56 ∧ f.payload.length ≠ 16376 := by
  by_contra hsize
  by_cases hle : f.payload.length ≤ websockReadStrLen - 56
  · have hbad : f.payload.length = 16376 := by
      by_contra hne
      exact hsize ⟨hle, hne⟩
    exact h.not_fails
      (wp_receiveCmd_fails Nat.one_pos ⟨hmin, hle⟩ rfl rfl hbad fun ws' => ⟨ws', _, _, rfl⟩)
  · exact h.not_fails
      (wp_receiveCmd_tooLarge Nat.one_pos hmax (by omega) rfl rfl fun ws' => ⟨ws', _, _, rfl⟩)

/-! ## The gate -/

section Gate

variable {drivers : List Driver} {arguments : List Arg}

theorem size_of_gateMatches (hfixed : ∀ t ∈ arguments.map Arg.type, t.IsFixed)
    (hassert : reqBuffSize (buildArgsPacks arguments).1 ≤ cmdPayloadBufferLen)
    (h : GateMatches drivers arguments) :
    argsSize (arguments.map Arg.type) ≤ websockReadStrLen - 64 ∧
      argsSize (arguments.map Arg.type) ≠ 16368 := by
  obtain ⟨vals, hvals⟩ := exists_hasType (arguments.map Arg.type)
  have hsends : ClientSends (arguments.map Arg.type) 0 0 (header 0 0 ++ wireArgs vals) :=
    .wire hvals
  obtain ⟨-, hframes⟩ := h 0 0 _ hsends
  have hsize := hsends.length_eq hfixed
  rw [reqBuffSize_buildArgsPacks, cmdPayloadBufferLen] at hassert
  obtain ⟨f, hpayload⟩ : ∃ f : ClientFrame, f.payload = header 0 0 ++ wireArgs vals :=
    ⟨⟨0, .binary, fun _ => 0, _⟩, rfl⟩
  have hdelivered := (hframes f hpayload).2.size
  rw [hpayload, hsize, headerSize, websockReadStrLen] at hdelivered
  rw [websockReadStrLen]
  have hlimits := hdelivered (by omega) (by omega)
  omega

theorem gateMatches_of_size (hfixed : ∀ t ∈ arguments.map Arg.type, t.IsFixed)
    (hle : argsSize (arguments.map Arg.type) ≤ websockReadStrLen - 64)
    (hne : argsSize (arguments.map Arg.type) ≠ 16368) : GateMatches drivers arguments := by
  intro driverId opId data hdata
  have hsize := hdata.length_eq hfixed
  rw [websockReadStrLen] at hle
  rw [reqBuffSize_buildArgsPacks]
  refine ⟨hsize, fun f hf => ?_⟩
  rw [← hf, headerSize] at hsize
  have haccept : Acceptable f := ⟨by omega, by rw [websockReadStrLen]; omega⟩
  exact ⟨headerAccepted drivers haccept, delivered_of_ne drivers haccept (by omega)⟩

/-- **When the gate matches.**  An operation without vectors and strings that passes the
assertion has its commands received over a WebSocket if and only if its arguments take at most
`WEBSOCK_READ_STR_LEN - 64` bytes, and not 16368. -/
theorem gateMatches_iff (drivers : List Driver)
    (hfixed : ∀ t ∈ arguments.map Arg.type, t.IsFixed)
    (hassert : reqBuffSize (buildArgsPacks arguments).1 ≤ cmdPayloadBufferLen) :
    GateMatches drivers arguments ↔
      argsSize (arguments.map Arg.type) ≤ websockReadStrLen - 64 ∧
        argsSize (arguments.map Arg.type) ≠ 16368 :=
  ⟨size_of_gateMatches hfixed hassert, fun h => gateMatches_of_size hfixed h.1 h.2⟩

end Gate

/-- An array and two scalars. -/
def probeFixed : List Arg :=
  [⟨"a", .array .uint16 4⟩, ⟨"b", .scalar .uint32⟩, ⟨"c", .scalar .bool⟩]

theorem isFixed_probeFixed : ∀ t ∈ probeFixed.map Arg.type, t.IsFixed :=
  List.forall_mem_cons.mpr ⟨trivial, List.forall_mem_cons.mpr
    ⟨trivial, List.forall_mem_singleton.mpr trivial⟩⟩

theorem gateMatches_probeFixed : GateMatches probeDrivers probeFixed :=
  (gateMatches_iff probeDrivers isFixed_probeFixed (by decide)).mpr ⟨by decide, by decide⟩

/-- An array that is as large as the payload buffer. -/
def largestArray : List Arg := [⟨"data", .array .uint8 262144⟩]

theorem not_forall_gateMatches :
    ¬ ∀ (drivers : List Driver) (arguments : List Arg),
      (∀ t ∈ arguments.map Arg.type, t.IsFixed) →
      reqBuffSize (buildArgsPacks arguments).1 ≤ cmdPayloadBufferLen →
        GateMatches drivers arguments := by
  intro h
  have hfixed : ∀ t ∈ largestArray.map Arg.type, t.IsFixed :=
    List.forall_mem_singleton.mpr trivial
  have hassert : reqBuffSize (buildArgsPacks largestArray).1 ≤ cmdPayloadBufferLen := by decide
  have hsize := (size_of_gateMatches hfixed hassert (h probeDrivers largestArray hfixed hassert)).1
  exact absurd hsize (by decide)

end KoheronSdk
