import KoheronSdk.Server.Parsing

/-!
# One command of a stream session

Rules for the stages that a command on a TCP or Unix socket goes through, put
together to rules for one round of the session's loop: one for a command that is
executed (`wp_serve_known`), one for a command that is rejected
(`wp_serve_unknown`), one for a driver id that no driver has
(`wp_serve_outOfBounds`), and one for the end of the stream (`wp_serve_end`).

Between two rounds the view is at rest: no mutex is held and no operation runs.

The rules are equivalences, `wp` of a round is what has to hold behind it.  So they serve both
directions of a result: that a session does what it is to do, and that it does what it is not to do
where a condition fails.  They are about surroundings in which no exit signal is raised; what
becomes of the reply is left open, and the session that goes on behind it may have been
closed.

A round for a driver id that is too large has an ending of its own.  The recursion of
`execute_driver` over the drivers has no instance for it, the `assert` that would stop it is not
there under `NDEBUG`, and what follows is undefined.

* `View.AtRest`: between two commands.
* `Message`: a command as it lies on the stream, whatever it names.
* `wp_serve_known`, `wp_serve_unknown`, `wp_serve_outOfBounds`, `wp_serve_end`: one round.
-/

namespace KoheronSdk

open Effects

/-- Between two commands. -/
structure View.AtRest (w : View) : Prop where
  held : w.held = none
  args : w.args = fun _ _ => none
  calling : w.calling = none

theorem View.AtRest.unlocked_locked {w : View} (h : w.AtRest) (driver : ℕ) (s : ArgStructs) :
    (w.locked driver s).unlocked = w := by
  obtain ⟨input, ending, consumed, held, args, calling, trace⟩ := w
  obtain ⟨h1, h2, h3⟩ := h
  simp only [View.unlocked, View.locked, View.mk.injEq, true_and, and_true]
  exact ⟨h1.symm, h2.symm⟩

theorem View.AtRest.advance {w : View} (h : w.AtRest) (n : ℕ) : (w.advance n).AtRest :=
  ⟨h.held, h.args, h.calling⟩

theorem View.AtRest.log {w : View} (h : w.AtRest) (e : Event) : (w.log e).AtRest :=
  ⟨h.held, h.args, h.calling⟩

section Rules

variable {drivers : List Driver} {env : Env} {w : View} {arch : Arch} {s : Session}

/-! ## Reading the header -/

/-- The command once its header has been read. -/
def Command.withHeader (cmd : Command) (bs : List UInt8) : Command :=
  { cmd with header := ⟨Buffer.overlay bs cmd.header.data, cmd.header.position⟩ }

theorem withHeader_headerIs (mem : ℕ → UInt8) {bs : List UInt8} (h : bs.length = headerSize) :
    ((Command.uninitialized mem).withHeader bs).HeaderIs bs :=
  ⟨h, rfl, Buffer.holds_overlay bs mem⟩

theorem wp_readCommand_of_le (htype : s.type ≠ .websock) {fuel : ℕ} {cmd : Command}
    (h : headerSize ≤ w.input.length)
    {post : Result Stop View (ℤ × Session × Command) → Prop} :
    (session drivers env).wp (s.readCommand fuel cmd) post w ↔
      post (.ret (headerSize, s, (cmd.withHeader (w.input.take headerSize)).decodeHeader)
        ((w.advance headerSize).log (.header
          (cmd.withHeader (w.input.take headerSize)).decodeHeader.driver
          (cmd.withHeader (w.input.take headerSize)).decodeHeader.operation
          (w.consumed + headerSize)))) := by
  have hprog : s.readCommand fuel cmd = Tcp.readCommand cmd >>= fun p => pure (p.1, s, p.2) := by
    unfold Session.readCommand
    cases hs : s.type with
    | websock => exact absurd hs htype
    | _ => rfl
  have h8 : toInt headerSize = headerSize := rfl
  have hpos : ¬ (headerSize : ℤ) = 0 ∧ ¬ (headerSize : ℤ) < 0 := by decide
  rw [hprog, Handler.wp_bind, Tcp.readCommand, Handler.wp_bind, wp_rcvNBytes_of_le h]
  simp only [Handler.andThen_ret, h8, if_neg hpos.1, if_neg hpos.2]
  rw [Handler.wp_bind, wp_received]
  rfl

theorem wp_readCommand_nil (htype : s.type ≠ .websock) {fuel : ℕ} {cmd : Command}
    (h : w.input.length < headerSize)
    {post : Result Stop View (ℤ × Session × Command) → Prop} :
    (session drivers env).wp (s.readCommand fuel cmd) post w ↔
      match w.ending with
      | .eof => post (.ret (0, s, cmd.withHeader w.input) (w.advance w.input.length))
      | .error => post (.ret (-1, s, cmd.withHeader w.input) (w.advance w.input.length))
      | .waiting => post (.halt .blocked (w.advance w.input.length)) := by
  have hprog : s.readCommand fuel cmd = Tcp.readCommand cmd >>= fun p => pure (p.1, s, p.2) := by
    unfold Session.readCommand
    cases hs : s.type with
    | websock => exact absurd hs htype
    | _ => rfl
  rw [hprog, Handler.wp_bind, Tcp.readCommand, Handler.wp_bind, wp_rcvNBytes_of_lt h]
  cases w.ending <;> simp [Command.withHeader]

/-! ## Sending the reply -/

theorem Session.length_offered_lt (sendBuffer : List UInt8) :
    (Session.offered sendBuffer).length < 2 ^ 32 := by
  rw [Session.offered, List.length_take]
  have := Nat.mod_lt sendBuffer.length (show 0 < 2 ^ 32 by decide)
  omega

/-- `Session<TCP>::write` returns 0 exactly when `::write` did. -/
theorem Tcp.writeResult_eq_zero {n : ℤ} {len : ℕ} (hn : -1 ≤ n) (hle : n ≤ len)
    (hlen : len < 2 ^ 32) : Tcp.writeResult len n = 0 ↔ n = 0 := by
  have hint : toInt n = 0 ↔ n = 0 := by
    unfold toInt
    rw [Int.bmod_def]
    split <;> omega
  unfold Tcp.writeResult
  constructor
  · intro h
    by_contra hne
    have hne' : ¬ toInt n = 0 := fun h0 => hne (hint.mp h0)
    simp only [if_neg hne'] at h
    split_ifs at h with h1 h2
    · exact hne' ((not_not.mp h2).trans h)
  · rintro rfl
    rfl

theorem wp_send_stream (htype : s.type ≠ .websock) {classId funcId : ℕ} {v : RetVal}
    {sendBuffer : List UInt8}
    (hbuf : Server.buildReply (UInt16.ofNat classId) (UInt16.ofNat funcId) v = some sendBuffer)
    {post : Result Stop View (ℤ × Session) → Prop} :
    (session drivers env).wp (s.send classId funcId v) post w ↔
      ∀ n : ℤ, -1 ≤ n → n ≤ (Session.offered sendBuffer).length →
        env.write (Session.offered sendBuffer) n →
        post (.ret (Tcp.writeResult (Session.offered sendBuffer).length n,
            if n = 0 then { s with closed := true } else s)
          (w.log (.wrote s.id (Session.offered sendBuffer) n))) := by
  have hprog : s.write sendBuffer = do
      let n ← Tcp.write s.id (Session.offered sendBuffer)
      return (n, s) := by
    unfold Session.write
    cases hs : s.type with
    | websock => exact absurd hs htype
    | _ => rfl
  rw [Session.send, hbuf]
  simp only [hprog]
  rw [Handler.wp_bind, Handler.wp_bind, Tcp.write, Handler.wp_bind, wp_write]
  refine forall_congr' fun n => imp_congr_right fun hn => imp_congr_right fun hle =>
    imp_congr_right fun _ => ?_
  have hzero := Tcp.writeResult_eq_zero hn hle (Session.length_offered_lt sendBuffer)
  simp only [Handler.andThen_ret, Handler.wp_pure]
  by_cases h0 : n = 0
  · rw [if_pos (hzero.mpr h0), if_pos h0]
    rfl
  · rw [if_neg fun h => h0 (hzero.mp h), if_neg h0]
    rfl

/-! ## Executing -/

/-- The view when an operation has been called and has returned. -/
def View.called (w : View) (driver operation : ℕ) (args : List (Option ArgVal)) (v : RetVal) :
    View :=
  ((w.inside none).log (.call driver operation args w.consumed)).log (.ret driver operation v)

theorem wp_generateCall {driver operation : ℕ} {op : Operation} (hw : w.held = some driver)
    {post : Result Stop View (ℤ × Session) → Prop} :
    (session drivers env).wp (s.generateCall driver operation op) post w ↔
      ∀ v, Returns drivers driver operation v →
        (session drivers env).wp
          (if op.retType = .void then pure (0, s) else s.send driver operation v) post
          (w.called driver operation ((op.arguments.map Arg.name).map (w.args operation)) v) := by
  rw [Session.generateCall, Handler.wp_bind, wp_call hw, Handler.andThen_ret, Handler.wp_bind,
    wp_ret rfl]
  exact forall_congr' fun v => imp_congr_right fun _ => Iff.rfl

/-- Arguments that are on the stream are the arguments of the call. -/
theorem wp_executeOperation_stream (htype : s.type ≠ .websock) {driver operation : ℕ}
    {op : Operation} {cmd : Command} (hw : w.held = some driver) {vals : List ArgVal}
    {rest : List UInt8} (hread : readArgs op.types w.input = some (vals, rest))
    (hbytes : ∀ p ∈ op.packs, p.scalarBytes < 2 ^ 31) (hsmall : ∀ v ∈ vals, v.Small)
    {post : Result Stop View (ℤ × Session) → Prop} :
    (session drivers env).wp (s.executeOperation arch driver operation op cmd) post w ↔
      ∀ v, Returns drivers driver operation v →
        (session drivers env).wp
          (if op.retType = .void then pure (0, s) else s.send driver operation v) post
          (((w.setArgs operation ((op.arguments.map Arg.name).zip vals)).advance
              (w.input.length - rest.length)).called driver operation (vals.map some) v) := by
  have hlen : (op.arguments.map Arg.name).length = vals.length := by
    rw [(forall₂_of_readArgs hread).length_eq, Operation.types, List.length_map, List.length_map]
  have hargs := Operation.map_args_setArgs w operation op hlen
  rw [← op.packTypes_packs] at hread
  rw [Session.executeOperation, Handler.wp_bind, wp_parser_stream htype hw hread hbytes hsmall]
  simp only [Handler.andThen_ret, lt_self_iff_false, if_false, op.packNames_packs]
  rw [wp_generateCall (by simpa using hw)]
  simp only [View.args_advance, hargs]

theorem View.AtRest.unlocked_called (hw : w.AtRest) (driver operation : ℕ) (st : ArgStructs)
    (vals : List (String × ArgVal)) (k : ℕ) (args : List (Option ArgVal)) (v : RetVal) :
    (((((w.locked driver st).setArgs operation vals).advance k).called driver operation
      args v)).unlocked = (w.advance k).called driver operation args v := by
  obtain ⟨input, ending, consumed, held, args', calling, trace⟩ := w
  obtain ⟨rfl, rfl, rfl⟩ := hw
  rw [View.setArgs_eq]
  rfl

/-- The reply to a returned value. -/
theorem exists_buildReply {driver operation : ℕ} {op : Operation}
    (hop : findOperation drivers driver operation = some op) {v : RetVal}
    (hv : Returns drivers driver operation v) (classId funcId : UInt16) :
    ∃ sendBuffer, Server.buildReply classId funcId v = some sendBuffer :=
  Server.exists_buildReply (hv op hop) op.ret_fits classId funcId

/-- Replying does not need the mutex. -/
theorem wp_reply_unlock (htype : s.type ≠ .websock) {driver operation : ℕ} {op : Operation}
    (hop : findOperation drivers driver operation = some op) {v : RetVal}
    (hv : Returns drivers driver operation v) (hw : w.held = some driver)
    {post : Result Stop View (ℤ × Session) → Prop} :
    (session drivers env).wp
        (if op.retType = .void then pure (0, s) else s.send driver operation v)
        ((session drivers env).andThen
          (fun p => do
            unlock driver
            return (p.1, p.2)) post) w ↔
      (session drivers env).wp
        (if op.retType = .void then pure (0, s) else s.send driver operation v)
        post w.unlocked := by
  by_cases hvoid : op.retType = .void
  · simp only [if_pos hvoid, Handler.wp_pure, Handler.andThen_ret]
    rw [Handler.wp_bind, wp_unlock hw]
    rfl
  · obtain ⟨sendBuffer, hbuf⟩ := exists_buildReply hop hv (UInt16.ofNat driver)
      (UInt16.ofNat operation)
    simp only [if_neg hvoid]
    rw [wp_send_stream htype hbuf, wp_send_stream htype hbuf]
    refine forall_congr' fun n => imp_congr_right fun _ => imp_congr_right fun _ =>
      imp_congr_right fun _ => ?_
    have hlog : (w.log (.wrote s.id (Session.offered sendBuffer) n)).held = some driver := hw
    rw [Handler.andThen_ret, Handler.wp_bind, wp_unlock hlog]
    rfl

/-- A command whose arguments are on the stream is executed, and the view is at rest
again. -/
theorem wp_execute_known (htype : s.type ≠ .websock) (hw : w.AtRest) {driver : ℕ} {cmd : Command}
    {op : Operation} (hop : findOperation drivers driver cmd.operation = some op)
    {vals : List ArgVal} {rest : List UInt8}
    (hread : readArgs op.types w.input = some (vals, rest))
    (hbytes : ∀ p ∈ op.packs, p.scalarBytes < 2 ^ 31) (hsmall : ∀ v ∈ vals, v.Small)
    {post : Result Stop View (ℤ × Session) → Prop} :
    (session drivers env).wp (s.execute arch drivers driver cmd) post w ↔
      ∀ v, Returns drivers driver cmd.operation v →
        (session drivers env).wp
          (if op.retType = .void then pure (0, s) else s.send driver cmd.operation v) post
          ((w.advance (w.input.length - rest.length)).called driver cmd.operation
            (vals.map some) v) := by
  rw [Session.execute, Handler.wp_bind, wp_lock hw.held]
  simp only [Handler.andThen_ret, hop]
  refine (forall_congr' fun st => ?_).trans (forall_const ArgStructs)
  rw [Handler.wp_bind, wp_executeOperation_stream (w := w.locked driver st) htype rfl hread hbytes
    hsmall]
  refine forall_congr' fun v => imp_congr_right fun hv => ?_
  have hheld : ((((w.locked driver st).setArgs cmd.operation
      ((op.arguments.map Arg.name).zip vals)).advance (w.input.length - rest.length)).called driver
        cmd.operation (vals.map some) v).held = some driver := by
    change (View.setArgs _ _ _).held = some driver
    rw [View.held_setArgs]
    rfl
  rw [← hw.unlocked_called driver cmd.operation st ((op.arguments.map Arg.name).zip vals)]
  exact wp_reply_unlock htype hop hv hheld

/-- A command for an unknown operation is rejected, and nothing of its payload is
read. -/
theorem wp_execute_unknown (hw : w.AtRest) {driver : ℕ} {cmd : Command}
    (hop : findOperation drivers driver cmd.operation = none)
    {post : Result Stop View (ℤ × Session) → Prop} :
    (session drivers env).wp (s.execute arch drivers driver cmd) post w
      ↔ post (.ret (-1, s) w) := by
  rw [Session.execute, Handler.wp_bind, wp_lock hw.held]
  simp only [Handler.andThen_ret, hop]
  refine (forall_congr' fun st => ?_).trans (forall_const ArgStructs)
  rw [Handler.wp_bind, wp_unlock (by rfl), Handler.andThen_ret, Handler.wp_pure,
    hw.unlocked_locked]

/-! ## Finding the driver -/

theorem wp_startImpl {driver : ℕ} {devs : List ℕ} {post : Result Stop View Unit → Prop} :
    (session drivers env).wp (DriverManager.startImpl driver devs) post w ↔ post (.ret () w) := by
  induction devs with
  | nil => rfl
  | cons dev0 devs ih =>
    cases devs with
    | nil => exact wp_allocDriver
    | cons dev1 devs =>
      simp only [DriverManager.startImpl]
      split
      · exact wp_allocDriver
      · exact ih

/-- The recursion of `execute_driver` ends at the driver of the device's type. -/
theorem executeDriverImplementation_of_mem {type : ℕ} {cmd : Command} {devs : List ℕ}
    (h : type ∈ devs) :
    DriverManager.executeDriverImplementation arch drivers s type cmd devs
      = s.execute arch drivers type cmd := by
  induction devs with
  | nil => cases h
  | cons dev0 devs ih =>
    cases devs with
    | nil => rw [List.mem_singleton.mp h, DriverManager.executeDriverImplementation]
    | cons dev1 devs =>
      simp only [DriverManager.executeDriverImplementation]
      by_cases hdev : type = dev0
      · rw [if_pos hdev, hdev]
      · rw [if_neg hdev]
        exact ih ((List.mem_cons.mp h).resolve_left hdev)

theorem mem_driverRange {d : ℕ} :
    d ∈ DriverManager.driverRange drivers ↔ firstDriverId ≤ d ∧ d < deviceNum drivers := by
  rw [DriverManager.driverRange, List.mem_range'_1]
  have h : firstDriverId ≤ deviceNum drivers := Nat.le_add_left _ _
  omega

theorem wp_managerExecute_zero {cmd : Command} (hd : cmd.driver = 0)
    {post : Result Stop View (ℤ × Session) → Prop} :
    (session drivers env).wp (DriverManager.execute arch drivers s cmd) post w ↔
      post (.ret (0, s) w) := by
  rw [DriverManager.execute, if_pos hd]
  rfl

theorem wp_managerExecute {cmd : Command} (hpos : 0 < cmd.driver)
    (hlt : cmd.driver < deviceNum drivers) {post : Result Stop View (ℤ × Session) → Prop} :
    (session drivers env).wp (DriverManager.execute arch drivers s cmd) post w ↔
      (session drivers env).wp (s.execute arch drivers cmd.driver cmd) post w := by
  rw [DriverManager.execute, if_neg (by omega)]
  by_cases h1 : cmd.driver = 1
  · rw [if_pos h1, h1]
  · have hi : cmd.driver - firstDriverId < drivers.length := by
      rw [deviceNum] at hlt; rw [firstDriverId]; omega
    have hmem : cmd.driver ∈ DriverManager.driverRange drivers :=
      mem_driverRange.mpr ⟨by rw [firstDriverId]; omega, hlt⟩
    have htype : cmd.driver - firstDriverId + firstDriverId = cmd.driver := by
      rw [firstDriverId]; omega
    rw [if_neg h1, Handler.wp_bind, wp_isStarted hi]
    refine (forall_congr' fun started => ?_).trans (forall_const Bool)
    have hrest : (session drivers env).wp
        (do
          let type ← device (cmd.driver - firstDriverId)
          DriverManager.executeDriverImplementation arch drivers s type cmd
            (DriverManager.driverRange drivers)) post w ↔
        (session drivers env).wp (s.execute arch drivers cmd.driver cmd) post w := by
      rw [Handler.wp_bind, wp_device hi, Handler.andThen_ret, htype,
        executeDriverImplementation_of_mem hmem]
    cases started with
    | true => exact hrest
    | false =>
      refine ((session drivers env).wp_bind _ _ _ _).trans ?_
      rw [wp_startImpl]
      exact hrest

/-- In a release build nothing compares the driver id with `device_num`. -/
theorem wp_managerExecute_outOfBounds {cmd : Command} (hle : deviceNum drivers ≤ cmd.driver)
    {post : Result Stop View (ℤ × Session) → Prop} :
    (session drivers env).wp (DriverManager.execute arch drivers s cmd) post w ↔
      post (.halt (.undefined .outOfBounds) w) := by
  rw [deviceNum] at hle
  have hi : drivers.length ≤ cmd.driver - firstDriverId := by rw [firstDriverId]; omega
  rw [DriverManager.execute, if_neg (by omega), if_neg (by omega), Handler.wp_bind,
    wp_isStarted_of_le hi]
  rfl

/-! ## One round of the loop -/

/-- A command as it lies on the stream. -/
structure Message where
  driver : UInt16
  operation : UInt16
  payload : List UInt8
  deriving DecidableEq

namespace Message

/-- The bytes of a command. -/
def bytes (m : Message) : List UInt8 := header m.driver m.operation ++ m.payload

/-- The operation that a command names. -/
def operation? (drivers : List Driver) (m : Message) : Option Operation :=
  findOperation drivers m.driver.toNat m.operation.toNat

@[simp] theorem length_bytes (m : Message) : m.bytes.length = headerSize + m.payload.length := by
  rw [bytes, List.length_append, length_header, headerSize]

end Message

/-- What the loop does when a command has been executed or rejected. -/
def Session.afterCommand (arch : Arch) (drivers : List Driver) (fuel : ℕ) (s : Session) :
    Program (Option ℤ × Session) :=
  if s.closed then return (none, s) else Session.serve arch drivers fuel s

variable {fuel : ℕ} {m : Message} {rest : List UInt8}
  {post : Result Stop View (Option ℤ × Session) → Prop}

/-- The view when the header of a command has been read. -/
def View.decoded (w : View) (m : Message) : View :=
  (w.advance headerSize).log
    (.header m.driver.toNat m.operation.toNat (w.consumed + headerSize))

/-- The `Command` that a header is decoded into. -/
def Message.command (m : Message) (mem : ℕ → UInt8) : Command :=
  ((Command.uninitialized mem).withHeader (header m.driver m.operation)).decodeHeader

theorem Message.ids_command (m : Message) (mem : ℕ → UInt8) :
    (m.command mem).driver = m.driver.toNat ∧ (m.command mem).operation = m.operation.toNat := by
  have h := (withHeader_headerIs mem (length_header m.driver m.operation)).decodeHeader_eq
  obtain ⟨hclass, hfunc⟩ := extractU16_header m.driver m.operation
  rwa [hclass, hfunc] at h

theorem wp_serve (hexit : ∀ b, env.exit b ↔ b = false) (htype : s.type ≠ .websock)
    (hin : w.input = m.bytes ++ rest) :
    (session drivers env).wp (s.serve arch drivers (fuel + 1)) post w ↔
      ∀ mem, (session drivers env).wp (DriverManager.execute arch drivers s (m.command mem))
        ((session drivers env).andThen (fun p => p.2.afterCommand arch drivers fuel) post)
        (w.decoded m) := by
  have hle : headerSize ≤ w.input.length := by
    rw [hin, List.length_append, m.length_bytes]; omega
  have htake : w.input.take headerSize = header m.driver m.operation := by
    rw [hin, Message.bytes, List.append_assoc]
    exact List.take_left' (length_header _ _)
  have hpos : ¬ (headerSize : ℤ) ≤ 0 := by decide
  have hexit' : ∀ {P : Bool → Prop}, (∀ b, env.exit b → P b) ↔ P false :=
    ⟨fun h => h false ((hexit false).mpr rfl), fun h b hb => (hexit b).mp hb ▸ h⟩
  rw [Session.serve, Handler.wp_bind, wp_exitSignal, hexit', Handler.andThen_ret]
  simp only [Bool.false_eq_true, if_false]
  rw [Handler.wp_bind, wp_uninit]
  refine forall_congr' fun mem => ?_
  obtain ⟨hdriver, hoperation⟩ := m.ids_command mem
  rw [Handler.andThen_ret, Handler.wp_bind, wp_readCommand_of_le htype hle, Handler.andThen_ret,
    htake]
  simp only
  rw [Handler.wp_bind, wp_exitSignal, hexit', Handler.andThen_ret]
  simp only [Bool.false_eq_true, if_false, if_neg hpos]
  rw [Handler.wp_bind]
  change (session drivers env).wp (DriverManager.execute arch drivers s (m.command mem)) _
    ((w.advance headerSize).log (.header (m.command mem).driver (m.command mem).operation _)) ↔ _
  rw [hdriver, hoperation]
  rfl

/-- The view when the operation has returned `v`. -/
def View.executed (w : View) (m : Message) (vals : List ArgVal) (v : RetVal) : View :=
  ((w.decoded m).advance m.payload.length).called m.driver.toNat m.operation.toNat
    (vals.map some) v

theorem View.AtRest.decoded (hw : w.AtRest) (m : Message) : (w.decoded m).AtRest :=
  (hw.advance _).log _

theorem View.AtRest.executed (hw : w.AtRest) (m : Message) (vals : List ArgVal) (v : RetVal) :
    (w.executed m vals v).AtRest :=
  ⟨hw.held, hw.args, rfl⟩

theorem View.input_decoded (hin : w.input = m.bytes ++ rest) :
    (w.decoded m).input = m.payload ++ rest := by
  have h : w.input.drop headerSize = m.payload ++ rest := by
    rw [hin, Message.bytes, List.append_assoc]
    exact List.drop_left' (length_header _ _)
  exact h

theorem View.input_executed (hin : w.input = m.bytes ++ rest) (vals : List ArgVal) (v : RetVal) :
    (w.executed m vals v).input = rest := by
  have h : (w.decoded m).input.drop m.payload.length = rest := by
    rw [View.input_decoded hin, List.drop_left]
  exact h

/-- **A round that executes a command.** -/
theorem wp_serve_known (hexit : ∀ b, env.exit b ↔ b = false) (htype : s.type ≠ .websock)
    (hopen : s.closed = false) (hw : w.AtRest) (hin : w.input = m.bytes ++ rest) {op : Operation}
    (hop : m.operation? drivers = some op) {vals : List ArgVal}
    (hread : readArgs op.types (m.payload ++ rest) = some (vals, rest))
    (hbytes : ∀ p ∈ op.packs, p.scalarBytes < 2 ^ 31) (hsmall : ∀ v ∈ vals, v.Small) :
    (session drivers env).wp (s.serve arch drivers (fuel + 1)) post w ↔
      ∀ v, Returns drivers m.driver.toNat m.operation.toNat v →
        if op.retType = .void then
          (session drivers env).wp (s.serve arch drivers fuel) post (w.executed m vals v)
        else
          ∀ sendBuffer, Server.buildReply (UInt16.ofNat m.driver.toNat)
              (UInt16.ofNat m.operation.toNat) v = some sendBuffer →
            ∀ n : ℤ, -1 ≤ n → n ≤ (Session.offered sendBuffer).length →
              env.write (Session.offered sendBuffer) n →
              if n = 0 then
                post (.ret (none, { s with closed := true })
                  ((w.executed m vals v).log (.wrote s.id (Session.offered sendBuffer) n)))
              else
                (session drivers env).wp (s.serve arch drivers fuel) post
                  ((w.executed m vals v).log
                    (.wrote s.id (Session.offered sendBuffer) n)) := by
  obtain ⟨hpos, hlt⟩ := driver_of_findOperation hop
  have hlen : (m.payload ++ rest).length - rest.length = m.payload.length := by
    rw [List.length_append]; omega
  rw [wp_serve hexit htype hin]
  refine (forall_congr' fun mem => ?_).trans (forall_const (ℕ → UInt8))
  obtain ⟨hdriver, hoperation⟩ := m.ids_command mem
  rw [wp_managerExecute (by omega) (by omega), hdriver,
    wp_execute_known htype (hw.decoded m) (by rw [hoperation]; exact hop)
      (by rw [View.input_decoded hin]; exact hread) hbytes hsmall,
    View.input_decoded hin, hlen, hoperation]
  refine forall_congr' fun v => imp_congr_right fun hv => ?_
  by_cases hvoid : op.retType = .void
  · simp only [if_pos hvoid, Handler.wp_pure, Handler.andThen_ret, Session.afterCommand, hopen,
      Bool.false_eq_true, if_false]
    rfl
  · obtain ⟨sendBuffer, hbuf⟩ := exists_buildReply hop hv (UInt16.ofNat m.driver.toNat)
      (UInt16.ofNat m.operation.toNat)
    simp only [if_neg hvoid]
    rw [wp_send_stream htype hbuf]
    simp only [hbuf, Option.some.injEq, forall_eq']
    refine forall_congr' fun n => imp_congr_right fun _ => imp_congr_right fun _ =>
      imp_congr_right fun _ => ?_
    by_cases h0 : n = 0
    · simp only [if_pos h0, Handler.andThen_ret, Session.afterCommand, if_true, Handler.wp_pure]
      rfl
    · simp only [if_neg h0, Handler.andThen_ret, Session.afterCommand, hopen, Bool.false_eq_true,
        if_false]
      rfl

/-- **A round that rejects a command**: the payload is still to be read. -/
theorem wp_serve_unknown (hexit : ∀ b, env.exit b ↔ b = false) (htype : s.type ≠ .websock)
    (hopen : s.closed = false) (hw : w.AtRest) (hin : w.input = m.bytes ++ rest)
    (hop : m.operation? drivers = none) (hlt : m.driver.toNat < deviceNum drivers) :
    (session drivers env).wp (s.serve arch drivers (fuel + 1)) post w ↔
      (session drivers env).wp (s.serve arch drivers fuel) post (w.decoded m) := by
  rw [wp_serve hexit htype hin]
  refine (forall_congr' fun mem => ?_).trans (forall_const (ℕ → UInt8))
  obtain ⟨hdriver, hoperation⟩ := m.ids_command mem
  by_cases h0 : m.driver.toNat = 0
  · rw [wp_managerExecute_zero (by omega), Handler.andThen_ret, Session.afterCommand, hopen]
    rfl
  · rw [wp_managerExecute (by omega) (by omega), hdriver,
      wp_execute_unknown (hw.decoded m) (by rw [hoperation]; exact hop), Handler.andThen_ret,
      Session.afterCommand, hopen]
    rfl

/-- **A round for a driver id that is too large** goes wrong. -/
theorem wp_serve_outOfBounds (hexit : ∀ b, env.exit b ↔ b = false) (htype : s.type ≠ .websock)
    (hin : w.input = m.bytes ++ rest) (hle : deviceNum drivers ≤ m.driver.toNat) :
    (session drivers env).wp (s.serve arch drivers (fuel + 1)) post w ↔
      post (.halt (.undefined .outOfBounds) (w.decoded m)) := by
  rw [wp_serve hexit htype hin]
  refine (forall_congr' fun mem => ?_).trans (forall_const (ℕ → UInt8))
  rw [wp_managerExecute_outOfBounds (by rw [(m.ids_command mem).1]; exact hle)]
  rfl

/-- **The end of the stream**, where the bytes left are less than a header. -/
theorem wp_serve_end (hexit : ∀ b, env.exit b ↔ b = false) (htype : s.type ≠ .websock)
    (hlt : w.input.length < headerSize) :
    (session drivers env).wp (s.serve arch drivers (fuel + 1)) post w ↔
      match w.ending with
      | .eof => post (.ret (some 0, s) (w.advance w.input.length))
      | .error => post (.ret (some (-1), s) (w.advance w.input.length))
      | .waiting => post (.halt .blocked (w.advance w.input.length)) := by
  have hexit' : ∀ {P : Bool → Prop}, (∀ b, env.exit b → P b) ↔ P false :=
    ⟨fun h => h false ((hexit false).mpr rfl), fun h b hb => (hexit b).mp hb ▸ h⟩
  rw [Session.serve, Handler.wp_bind, wp_exitSignal, hexit', Handler.andThen_ret]
  simp only [Bool.false_eq_true, if_false]
  rw [Handler.wp_bind, wp_uninit]
  refine (forall_congr' fun mem => ?_).trans (forall_const (ℕ → UInt8))
  rw [Handler.andThen_ret, Handler.wp_bind, wp_readCommand_nil htype hlt]
  cases w.ending with
  | waiting => rfl
  | eof =>
    simp only [Handler.andThen_ret]
    rw [Handler.wp_bind, wp_exitSignal, hexit', Handler.andThen_ret]
    rfl
  | error =>
    simp only [Handler.andThen_ret]
    rw [Handler.wp_bind, wp_exitSignal, hexit', Handler.andThen_ret]
    rfl

end Rules

end KoheronSdk
