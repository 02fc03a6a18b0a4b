import KoheronSdk.Server.Framing
import KoheronSdk.Server.HandedOver
import KoheronSdk.Server.PayloadDecoding
import KoheronSdk.Server.ReplyStream

/-!
# What a session does for its client

A client sends well-formed commands, on a stream one behind the other and on a WebSocket each in
a frame of its own.  Whatever the session is answered, it calls the operations of the commands
in their order and with their arguments, and what it writes is the replies, on its own socket.

## Whatever it is answered

Here a `read()` may fail and a stream may end anywhere, a `write()` may take less than it is
offered, the exit signal may be raised, and an operation may return anything of its type.  What is
said of a run is therefore no equality but a shape of its trace: `Conversation` is for each command
either what executing it leaves behind, or nothing more, when the session was left.  It is an
inductive predicate, so that a session that goes on adds to it at its end.

Both transports are dealt with at once.  What they have in common is that a command is in front of
the session with its arguments (`Ready`), in the payload or on the stream, and this is what the
generated parser needs; only reading a command is proved twice.

## Order

The parts are rules for the functions of the session in their order: reading a command, executing
it under the driver's mutex, the reply.  The loop is followed by an induction on its fuel, and what
it keeps is `Conversing`.

* `Sent`: the bytes of some commands.
* `Conversation`: what may be seen of a session that executes them.
* `wp_run_conversation`: and what is seen.
-/

namespace KoheronSdk

open Effects WebSocketFrame
open Effects.Prog (within_pure within_perform within_bind within_act)

/-! ## The commands of a client -/

/-- The command is the payload of the frame. -/
def ClientCommand.InFrame (c : ClientCommand) (f : ClientFrame) : Prop :=
  f.payload = c.message.bytes ∧ f.payload.length < 2 ^ 63

/-- The bytes of some commands. -/
inductive Sent : SockType → List ClientCommand → List UInt8 → Prop
  | stream {type : SockType} (htype : type ≠ .websock) (cmds : List ClientCommand) :
    Sent type cmds (streamOf (cmds.map ClientCommand.message))
  | frames {fs : List ClientFrame} {cmds : List ClientCommand}
    (h : List.Forall₂ ClientCommand.InFrame cmds fs) : Sent .websock cmds (framesOf fs)

theorem Sent.nil_iff {type : SockType} {input : List UInt8} : Sent type [] input → input = [] := by
  intro h
  cases h with
  | stream htype => rfl
  | frames h =>
    cases h
    rfl

/-- The payload of a command is its arguments. -/
theorem ClientCommand.WellFormed.reads {drivers : List Driver} {c : ClientCommand}
    (hc : c.WellFormed drivers) :
    ∃ op, findOperation drivers c.driver.toNat c.operation.toNat = some op ∧
      (∀ rest, readArgs op.types (wireArgs c.args ++ rest) = some (c.args, rest)) ∧
      (∀ p ∈ op.packs, p.scalarBytes < 2 ^ 31) ∧ ∀ a ∈ c.args, a.Small := by
  obtain ⟨op, hop, htypes, hfit, hsmall, -⟩ := hc
  refine ⟨op, hop, fun rest => readArgs_wireArgs htypes (fun v hv => (hsmall v hv).counted) rest,
    fun p hp => ?_, hsmall⟩
  exact lt_of_le_of_lt (op.scalarBytes_packs htypes hfit p hp) (by decide)

/-! ## Reading at the end of the stream -/

/-- A thread that is stopped has done nothing that C++ leaves undefined. -/
def Defined (f : Stop) : Prop := ∀ fault, f ≠ .undefined fault

section Reading

variable {drivers : List Driver} {env : Env} {w : View} {arch : Arch} {s : Session} {ws : WebSocket}
  {fuel : ℕ}

/-- The end of a part of the session in which nothing is done. -/
def Idly (w : View) {α : Type} (Q : α → Prop) : Result Stop View α → Prop :=
  Result.EndsOr (fun a w' => w' = w ∧ Q a) fun f w' => w' = w ∧ Defined f

theorem wp_bind_idly {α β : Type} {p : Program α} {f : α → Program β} {R : α → Prop} {Q : β → Prop}
    (hp : (session drivers env).wp p (Idly w R) w)
    (hf : ∀ a, R a → (session drivers env).wp (f a) (Idly w Q) w) :
    (session drivers env).wp (p >>= f) (Idly w Q) w := by
  refine (session drivers env).wp_bind_endsOr hp ?_
  rintro a w' ⟨rfl, ha⟩
  exact hf a ha

theorem wp_outOfFuel_idly {α : Type} {f : Unit → Program α} {Q : α → Prop} :
    (session drivers env).wp (outOfFuel >>= f) (Idly w Q) w := by
  rw [Handler.wp_bind, wp_outOfFuel]
  exact ⟨rfl, fun fault h => by cases h⟩

/-- At the end of the stream `read()` fails or finds the end. -/
theorem wp_readLoop_nil (hin : w.input = []) {n : ℕ} {expected bytesRead : ℤ} :
    (session drivers env).wp (WebSocket.readLoop (n + 1) ws (n + 1 : ℕ) expected bytesRead)
      (Idly w fun p => p.1 = ws ∧ p.2.1 = (n + 1 : ℕ) ∧ p.2.2.1 = expected ∧
        (p.2.2.2 = 0 ∨ p.2.2.2 = -1)) w := by
  have hpos : (0 : ℤ) < (n + 1 : ℕ) := by omega
  rw [WebSocket.readLoop, if_pos hpos, Handler.wp_bind, Int.toNat_natCast,
    wp_read_nil (Nat.succ_pos n) hin]
  cases w.ending with
  | eof => exact ⟨rfl, rfl, rfl, rfl, Or.inl rfl⟩
  | error => exact ⟨rfl, rfl, rfl, rfl, Or.inr rfl⟩
  | waiting => exact ⟨rfl, fun fault h => by cases h⟩

/-- So that `read_n_bytes` fails, or knows that the client is gone, or had nothing to read. -/
theorem wp_readNBytes_nil (hin : w.input = []) (n : ℤ) :
    (session drivers env).wp (ws.readNBytes fuel n n)
      (Idly w fun p => p.1 = -1 ∨ p.2.connectionClosed = true ∨ (n ≤ 0 ∧ p.2 = ws)) w := by
  suffices h : ∀ bytesRead, (session drivers env).wp (ws.readNBytesLoop fuel n n bytesRead)
      (Idly w fun p => p.1 = -1 ∨ p.2.connectionClosed = true ∨ (n ≤ 0 ∧ p.2 = ws)) w from h (-1)
  by_cases hn : 0 < n
  · obtain ⟨m, rfl⟩ : ∃ m : ℕ, n = (m + 1 : ℕ) := ⟨n.toNat - 1, by omega⟩
    induction fuel with
    | zero =>
      intro bytesRead
      rw [WebSocket.readNBytesLoop, if_pos hn]
      exact wp_outOfFuel_idly
    | succ fuel ih =>
      intro bytesRead
      rw [WebSocket.readNBytesLoop, if_pos hn, Int.toNat_natCast]
      refine wp_bind_idly (wp_readLoop_nil hin) ?_
      rintro ⟨ws', remaining, expected, bytesRead'⟩ ⟨rfl, rfl, rfl, hread⟩
      by_cases hzero : bytesRead' = 0
      · simp only [if_pos hzero]
        exact ⟨rfl, Or.inr (Or.inl rfl)⟩
      · simp only [if_neg hzero]
        split
        · exact ⟨rfl, Or.inl rfl⟩
        · exact ih bytesRead'
  · intro bytesRead
    have hdone : WebSocket.readNBytesLoop fuel ws n n bytesRead = pure (0, ws) := by
      cases fuel with
      | zero =>
        rw [WebSocket.readNBytesLoop, if_neg hn]
      | succ fuel => rw [WebSocket.readNBytesLoop, if_neg hn]
    rw [hdone]
    exact ⟨rfl, Or.inr (Or.inr ⟨not_lt.mp hn, rfl⟩)⟩

/-- At the end of the stream there is no command. -/
theorem wp_receiveCmd_nil (hin : w.input = []) (cmd : Command) :
    (session drivers env).wp (ws.receiveCmd fuel cmd)
      (Idly w fun p => p.1 < 0 ∨ p.2.1.connectionClosed = true) w := by
  have hneg : (-1 : ℤ) < 0 := by decide
  have hheader : (session drivers env).wp (ws.resetReadBuff.readHeader fuel)
      (Idly w fun p => p.1 = -1 ∨ (p.1 = 0 ∧ p.2.connectionClosed = true)) w := by
    rw [WebSocket.readHeader]
    refine wp_bind_idly (wp_readNBytes_nil hin 6) ?_
    rintro ⟨err, ws'⟩ hread
    dsimp only at hread ⊢
    by_cases herr : err < 0
    · rw [if_pos herr]
      exact ⟨rfl, Or.inl rfl⟩
    rw [if_neg herr]
    have hclosed : ws'.connectionClosed = true := by
      rcases hread with h | h | h
      · omega
      · exact h
      · omega
    rw [if_pos hclosed]
    exact ⟨rfl, Or.inr ⟨rfl, hclosed⟩⟩
  have hstream : (session drivers env).wp (ws.readStream fuel)
      (Idly w fun p => p.1 < 0 ∨ p.2.connectionClosed = true) w := by
    rw [WebSocket.readStream]
    refine wp_bind_idly hheader ?_
    rintro ⟨err, ws'⟩ hread
    dsimp only at hread ⊢
    by_cases herr : err < 0
    · rw [if_pos herr]
      exact ⟨rfl, Or.inl hneg⟩
    rw [if_neg herr]
    obtain ⟨rfl, hclosed⟩ : err = 0 ∧ ws'.connectionClosed = true := by
      rcases hread with h | h
      · omega
      · exact h
    rw [if_neg (by decide : ¬ (0 : ℤ) = 1)]
    refine wp_bind_idly (wp_readNBytes_nil hin ws'.payloadSize) ?_
    rintro ⟨err, ws''⟩ hread
    dsimp only at hread ⊢
    split
    · exact ⟨rfl, Or.inl hneg⟩
    · refine ⟨rfl, Or.inr ?_⟩
      rcases hread with h | h | h
      · omega
      · exact h
      · rw [h.2]
        exact hclosed
  rw [WebSocket.receiveCmd]
  by_cases hclosed : ws.connectionClosed = true
  · rw [if_pos hclosed]
    exact ⟨rfl, Or.inr hclosed⟩
  rw [if_neg hclosed]
  refine wp_bind_idly hstream ?_
  rintro ⟨err, ws'⟩ hread
  dsimp only at hread ⊢
  by_cases herr : err < 0
  · rw [if_pos herr]
    exact ⟨rfl, Or.inl hneg⟩
  rw [if_neg herr]
  have hclosed' : ws'.connectionClosed = true := hread.resolve_left herr
  split
  · exact ⟨rfl, Or.inr hclosed'⟩
  · split
    · exact ⟨rfl, Or.inl hneg⟩
    · exact ⟨rfl, Or.inr hclosed'⟩

/-- **At the end of the stream nothing is read.** -/
theorem wp_readCommand_nil_idly (hin : w.input = []) (cmd : Command) :
    (session drivers env).wp (s.readCommand fuel cmd)
      (Idly w fun p => p.1 ≤ 0 ∧ s.Same p.2.1) w := by
  have hneg : (-1 : ℤ) ≤ 0 := by decide
  by_cases htype : s.type = .websock
  · have hread : (session drivers env).wp (s.websock.readCommand fuel cmd)
        (Idly w fun p => p.1 ≤ 0) w := by
      rw [WebSocket.readCommand]
      refine wp_bind_idly (wp_receiveCmd_nil hin cmd) ?_
      rintro ⟨n, ws, cmd'⟩ hreceived
      dsimp only at hreceived ⊢
      by_cases hn : n < 0
      · rw [if_pos hn]
        exact ⟨rfl, hneg⟩
      · rw [if_neg hn, if_pos (hreceived.resolve_left hn)]
        exact ⟨rfl, le_refl 0⟩
    rw [Session.readCommand, htype]
    refine wp_bind_idly hread ?_
    rintro ⟨n, ws, cmd'⟩ hn
    exact ⟨rfl, hn, htype.symm, rfl⟩
  · have hlt : w.input.length < headerSize := by
      rw [hin]
      decide
    have hadvance : w.advance w.input.length = w := by rw [hin]; rfl
    rw [wp_readCommand_nil htype hlt, hadvance]
    cases w.ending with
    | eof => exact ⟨rfl, le_refl 0, s.same_refl⟩
    | error => exact ⟨rfl, hneg, s.same_refl⟩
    | waiting => exact ⟨rfl, fun fault h => by cases h⟩

/-! ## Reading a command -/

/-- The arguments of a command are in front of the session, and behind them the next commands. -/
inductive Ready (cmds : List ClientCommand) (c : ClientCommand) :
    SockType → Command → List UInt8 → Prop
  | stream {type : SockType} (htype : type ≠ .websock) (cmd : Command) :
    Ready cmds c type cmd (wireArgs c.args ++ streamOf (cmds.map ClientCommand.message))
  | frame {cmd : Command} {input : List UInt8} (hholds : cmd.payload.Holds (wireArgs c.args))
    (hlen : (wireArgs c.args).length ≤ 262080) (hsent : Sent .websock cmds input) :
    Ready cmds c .websock cmd input

/-- The session has a command of its client, with the ids that were sent. -/
structure Heard (cmds : List ClientCommand) (c : ClientCommand) (type : SockType) (w : View)
    (cmd : Command) (w' : View) : Prop where
  driver : cmd.driver = c.driver.toNat
  operation : cmd.operation = c.operation.toNat
  ready : Ready cmds c type cmd w'.input
  trace : ∃ consumed, w'.trace
    = w.trace ++ [.header c.driver.toNat c.operation.toNat consumed]

/-- The ids of a message are those of the command. -/
theorem ids_of_headerIs {cmd : Command} {c : ClientCommand}
    (h : cmd.HeaderIs (header c.driver c.operation)) :
    cmd.decodeHeader.driver = c.driver.toNat ∧ cmd.decodeHeader.operation = c.operation.toNat := by
  have hids := h.decodeHeader_eq
  obtain ⟨hclass, hfunc⟩ := extractU16_header c.driver c.operation
  rwa [hclass, hfunc] at hids

theorem ClientCommand.take_bytes (c : ClientCommand) :
    c.message.bytes.take headerSize = header c.driver c.operation ∧
      c.message.bytes.drop headerSize = wireArgs c.args :=
  ⟨List.take_left' (length_header _ _), List.drop_left' (length_header _ _)⟩

/-- Nothing is read without fuel. -/
theorem wp_receiveCmd_zero (hopen : ws.connectionClosed = false) (cmd : Command) :
    (session drivers env).wp (ws.receiveCmd 0 cmd) (Idly w fun _ => False) w := by
  rw [WebSocket.receiveCmd, if_neg (by rw [hopen]; exact Bool.false_ne_true)]
  refine wp_bind_idly (R := fun _ => False) ?_ fun _ h => h.elim
  rw [WebSocket.readStream]
  refine wp_bind_idly (R := fun _ => False) ?_ fun _ h => h.elim
  rw [WebSocket.readHeader]
  refine wp_bind_idly (R := fun _ => False) ?_ fun _ h => h.elim
  exact wp_outOfFuel_idly

/-- What may come of reading a command. -/
def Read (s : Session) (cmds : List ClientCommand) (c : ClientCommand) (w : View) :
    Result Stop View (ℤ × Session × Command) → Prop :=
  Result.EndsOr (fun p w' => s.Same p.2.1 ∧ w'.AtRest ∧
      (p.1 ≤ 0 ∧ w'.trace = w.trace ∨ Heard cmds c s.type w p.2.2 w'))
    fun f w' => w'.trace = w.trace ∧ Defined f

theorem Idly.read {cmds : List ClientCommand} {c : ClientCommand} (hw : w.AtRest)
    {r : Result Stop View (ℤ × Session × Command)}
    (h : Idly w (fun p => p.1 ≤ 0 ∧ s.Same p.2.1) r) : Read s cmds c w r := by
  cases r with
  | ret p w' =>
    obtain ⟨rfl, hn, hsame⟩ := h
    exact ⟨hsame, hw, Or.inl ⟨hn, rfl⟩⟩
  | halt f w' => exact ⟨congrArg View.trace h.1, h.2⟩

/-- A command on a stream. -/
theorem wp_readCommand_stream {c : ClientCommand} {cmds : List ClientCommand} (hw : w.AtRest)
    (htype : s.type ≠ .websock)
    (hin : w.input = streamOf ((c :: cmds).map ClientCommand.message)) (mem : ℕ → UInt8) :
    (session drivers env).wp (s.readCommand fuel (.uninitialized mem)) (Read s cmds c w) w := by
  rw [List.map_cons, streamOf_cons] at hin
  have hle : headerSize ≤ w.input.length := by
    rw [hin, List.length_append, Message.length_bytes]
    omega
  have htake : w.input.take headerSize = header c.driver c.operation := by
    rw [hin, ClientCommand.message, Message.bytes, List.append_assoc]
    exact List.take_left' (length_header _ _)
  have hdrop : w.input.drop headerSize
      = wireArgs c.args ++ streamOf (cmds.map ClientCommand.message) := by
    rw [hin, ClientCommand.message, Message.bytes, List.append_assoc]
    exact List.drop_left' (length_header _ _)
  obtain ⟨hdriver, hoperation⟩ :=
    ids_of_headerIs (withHeader_headerIs mem (length_header c.driver c.operation))
  rw [wp_readCommand_of_le htype hle, htake]
  refine ⟨s.same_refl, (hw.advance headerSize).log _, Or.inr ⟨hdriver, hoperation, ?_,
    w.consumed + headerSize, ?_⟩⟩
  · change Ready cmds c s.type _ (w.input.drop headerSize)
    rw [hdrop]
    exact .stream htype _
  · rw [hdriver, hoperation]
    rfl

/-- A command in a frame. -/
theorem wp_readCommand_frame {c : ClientCommand} {cmds : List ClientCommand} (hw : w.AtRest)
    (htype : s.type = .websock) (hopen : s.websock.connectionClosed = false) {f : ClientFrame}
    (hf : c.InFrame f) {fs : List ClientFrame} (hfs : List.Forall₂ ClientCommand.InFrame cmds fs)
    (hin : w.input = f.encode ++ framesOf fs) (mem : ℕ → UInt8) :
    (session drivers env).wp (s.readCommand fuel (.uninitialized mem)) (Read s cmds c w) w := by
  have hneg : (-1 : ℤ) < 0 := by decide
  have h8 : 8 ≤ f.payload.length := by
    rw [hf.1, Message.length_bytes]
    exact Nat.le_add_right headerSize _
  suffices hread : (session drivers env).wp (s.websock.readCommand fuel (.uninitialized mem))
      (Result.EndsOr (fun p w' => w'.AtRest ∧
          (p.1 ≤ 0 ∧ w'.trace = w.trace ∨ Heard cmds c .websock w p.2.2 w'))
        fun f w' => w'.trace = w.trace ∧ Defined f) w by
    rw [Session.readCommand, htype]
    refine (session drivers env).wp_bind_endsOr hread ?_
    rintro ⟨n, ws, cmd⟩ w' ⟨hrest, h⟩
    refine ⟨⟨htype.symm, rfl⟩, hrest, ?_⟩
    rw [htype]
    exact h
  rw [WebSocket.readCommand]
  obtain rfl | hfuel := Nat.eq_zero_or_pos fuel
  · refine (session drivers env).wp_bind_endsOr (R := fun _ _ => False)
      ((session drivers env).wp_mono ?_ (wp_receiveCmd_zero hopen _)) fun _ _ h => h.elim
    rintro (⟨p, w'⟩ | ⟨fault, w'⟩) h
    · exact h.2.elim
    · exact ⟨congrArg View.trace h.1, h.2⟩
  rw [Handler.wp_bind]
  by_cases hlarge : websockReadStrLen - 56 < f.payload.length
  · refine wp_receiveCmd_tooLarge hfuel hf.2 hlarge hin hopen fun ws' => ?_
    simp only [Handler.andThen_ret, if_pos hneg]
    exact ⟨hw.advance _, Or.inl ⟨le_of_lt hneg, rfl⟩⟩
  have hacceptable : Acceptable f := ⟨h8, not_lt.mp hlarge⟩
  by_cases hbad : f.payload.length = 16376
  · refine wp_receiveCmd_fails hfuel hacceptable hin hopen hbad fun ws' => ?_
    simp only [Handler.andThen_ret, if_pos hneg]
    exact ⟨hw.advance _, Or.inl ⟨le_of_lt hneg, rfl⟩⟩
  refine wp_receiveCmd hfuel hacceptable hin hopen rfl rfl hbad fun ws' cmd' hopen' hreceived => ?_
  have hnotneg : ¬ ((f.payload.length : ℕ) : ℤ) < 0 := by omega
  have hrest : (w.advance f.encode.length).input = framesOf fs := by
    rw [View.input_advance, hin, List.drop_left]
  obtain ⟨htake, hdrop⟩ := c.take_bytes
  have hheader := hreceived.header
  rw [hf.1, htake] at hheader
  obtain ⟨hdriver, hoperation⟩ := ids_of_headerIs hheader
  simp only [Handler.andThen_ret, if_neg hnotneg, hopen', Bool.false_eq_true, if_false]
  split
  · exact ⟨hw.advance _, Or.inl ⟨le_of_lt hneg, rfl⟩⟩
  rw [Handler.wp_bind, wp_received]
  refine ⟨(hw.advance f.encode.length).log _, Or.inr ⟨hdriver, hoperation, ?_,
    (w.advance f.encode.length).consumed, ?_⟩⟩
  · have hpayload := hreceived.payload
    rw [hf.1, hdrop] at hpayload
    refine .frame hpayload ?_ ?_
    · have hle := hacceptable.2
      rw [hf.1, Message.length_bytes, websockReadStrLen, headerSize] at hle
      exact Nat.le_sub_of_add_le' hle
    · change Sent .websock cmds (w.advance f.encode.length).input
      rw [hrest]
      exact .frames hfs
  · rw [← hdriver, ← hoperation]
    rfl

/-- **One command is read**, or the session is left. -/
theorem wp_readCommand_sent {c : ClientCommand} {cmds : List ClientCommand} (hw : w.AtRest)
    (hsent : Sent s.type (c :: cmds) w.input) (mem : ℕ → UInt8) :
    (session drivers env).wp (s.readCommand fuel (.uninitialized mem)) (Read s cmds c w) w := by
  by_cases hover : s.Over
  · rw [readCommand_of_over hover]
    exact ⟨s.same_refl, hw, Or.inl ⟨le_refl 0, rfl⟩⟩
  obtain ⟨type, htype⟩ : ∃ type, s.type = type := ⟨_, rfl⟩
  obtain ⟨input, hin⟩ : ∃ input, w.input = input := ⟨_, rfl⟩
  rw [htype, hin] at hsent
  cases hsent with
  | stream hstream => exact wp_readCommand_stream hw (htype ▸ hstream) hin mem
  | frames hfs =>
    cases hfs with
    | cons hf hfs =>
      rw [framesOf, List.flatMap_cons] at hin
      refine wp_readCommand_frame hw htype ?_ hf hfs hin mem
      exact Bool.eq_false_iff.mpr fun h => hover ⟨htype, h⟩

end Reading

/-! ## Executing a command -/

/-- What a reply is sent as. -/
def replyBytes (type : SockType) (sendBuffer : List UInt8) : List UInt8 :=
  match type with
  | .tcp | .unix => Session.offered sendBuffer
  | .websock => serverFrame (Session.offered sendBuffer)

/-- A `write()` on the socket `id`, of bytes that are some of those it is for. -/
def Event.WritesTo (id : SessionID) (part : List UInt8 → Prop) : Event → Prop
  | .wrote dest offered _ => dest = id ∧ part offered
  | _ => False

/-- What is still to be written of the reply to what an operation has returned. -/
def OfReply (type : SockType) (driver operation : ℕ) (v : RetVal) (bytes : List UInt8) : Prop :=
  ∃ sendBuffer, Server.buildReply (UInt16.ofNat driver) (UInt16.ofNat operation) v
    = some sendBuffer ∧ bytes <:+ replyBytes type sendBuffer

/-- The events that a thread adds to its trace, and nothing else has changed. -/
def Continued (P : Event → Prop) (w w' : View) : Prop :=
  ∃ events, w' = { w with trace := w.trace ++ events } ∧ ∀ e ∈ events, P e

/-- The operation has been called with the arguments of the command, and has been answered. -/
def Executed (type : SockType) (id : SessionID) (c : ClientCommand) (t : List Event) : Prop :=
  ∃ consumed v writes,
    t = .call c.driver.toNat c.operation.toNat (c.args.map some) consumed
        :: .ret c.driver.toNat c.operation.toNat v :: writes ∧
      ∀ e ∈ writes, e.WritesTo id (OfReply type c.driver.toNat c.operation.toNat v)

section Executing

variable {drivers : List Driver} {env : Env} {w : View} {arch : Arch} {s : Session}
  {driver operation : ℕ} {c : ClientCommand} {cmds : List ClientCommand}

theorem Continued.rfl' {P : Event → Prop} : Continued P w w :=
  ⟨[], by rw [List.append_nil], fun _ he => (List.not_mem_nil he).elim⟩

/-- A program that only writes. -/
theorem wp_of_writing {α : Type} {p : Program α} {P : α → Prop} {id : SessionID}
    {part : List UInt8 → Prop} (hp : p.Within (Action.OfWriting id part) P) :
    (session drivers env).wp p (Result.EndsOr
      (fun a w' => Continued (Event.WritesTo id part) w w' ∧ P a)
      fun f w' => Continued (Event.WritesTo id part) w w' ∧ Defined f) w := by
  have hkeep : ∀ (e : Action) (w' : View) (x : Answer e), e.OfWriting id part →
      Continued (Event.WritesTo id part) w w' → (session drivers env).ok e w' x →
      Continued (Event.WritesTo id part) w ((session drivers env).next e w' x) := by
    rintro e w' x he ⟨events, rfl, hevents⟩ -
    cases e with
    | write dest bytes =>
      refine ⟨events ++ [.wrote dest bytes x], ?_, ?_⟩
      · rw [← List.append_assoc]
        rfl
      · intro e' he'
        rcases List.mem_append.mp he' with he' | he'
        · exact hevents e' he'
        · rw [List.mem_singleton.mp he']
          exact he
    | outOfFuel => exact ⟨events, rfl, hevents⟩
    | _ => exact he.elim
  have hstop : ∀ (e : Action) (w' : View) (f : Stop), e.OfWriting id part →
      (session drivers env).stop e w' = some f → Defined f := by
    intro e w' f he hf fault
    cases e with
    | write dest bytes => cases hf
    | outOfFuel =>
      cases hf
      exact Stop.noConfusion
    | _ => exact he.elim
  exact (session drivers env).wp_endsOr_of_within hkeep hstop hp .rfl'

/-- **The reply** goes to the session itself. -/
theorem within_send_writing {v : RetVal} {sendBuffer : List UInt8}
    (hbuf : Server.buildReply (UInt16.ofNat driver) (UInt16.ofNat operation) v = some sendBuffer) :
    (s.send driver operation v).Within
      (Action.OfWriting s.id (OfReply s.type driver operation v)) fun p => s.Same p.2 := by
  have hwrite : (s.write sendBuffer).Within
      (Action.OfWriting s.id (OfReply s.type driver operation v)) fun p => s.Same p.2 := by
    have hstream : ∀ {type : SockType}, replyBytes type sendBuffer = Session.offered sendBuffer →
        (Tcp.write s.id (Session.offered sendBuffer) >>= fun n => pure (n, s)).Within
          (Action.OfWriting s.id (OfReply type driver operation v)) fun p => s.Same p.2 := by
      intro type hbytes
      refine within_bind (P := fun _ => True) (within_act ⟨rfl, sendBuffer, hbuf, ?_⟩ fun _ =>
        within_pure trivial) fun _ _ => within_pure s.same_refl
      exact hbytes ▸ List.suffix_rfl
    cases htype : s.type with
    | tcp =>
      rw [Session.write, htype]
      exact hstream rfl
    | unix =>
      rw [Session.write, htype]
      exact hstream rfl
    | websock =>
      have hsend : (s.websock.send s.id (Session.offered sendBuffer)).Within
          (Action.OfWriting s.id (OfReply .websock driver operation v)) fun _ => True := by
        rw [WebSocket.send, WebSocket.sendRequest, WebSocket.setSendHeader_append]
        split
        · exact within_pure trivial
        split
        · exact within_pure trivial
        refine within_bind (within_sendLoop_writing _ _ fun bytes hbytes =>
          ⟨sendBuffer, hbuf, hbytes⟩) fun n _ => ?_
        split <;> exact within_pure trivial
      rw [Session.write, htype]
      refine within_bind hsend ?_
      rintro ⟨n, websock⟩ -
      exact within_pure ⟨htype.symm, rfl⟩
  rw [Session.send, hbuf]
  refine within_bind hwrite ?_
  rintro ⟨bytesSend, s'⟩ hsame
  by_cases hzero : bytesSend = 0
  · simp only [if_pos hzero]
    exact within_pure hsame
  · simp only [if_neg hzero]
    exact within_pure hsame

/-- The parser stores the arguments of the command. -/
theorem wp_parser_ready {op : Operation} (hw : w.held = some driver)
    (hread : ∀ rest, readArgs op.types (wireArgs c.args ++ rest) = some (c.args, rest))
    (hbytes : ∀ p ∈ op.packs, p.scalarBytes < 2 ^ 31) (hsmall : ∀ a ∈ c.args, a.Small)
    {cmd : Command} (hready : Ready cmds c s.type cmd w.input)
    {post : Result Stop View (ℤ × Command) → Prop}
    (hpost : ∀ cmd' k, Sent s.type cmds (w.input.drop k) → post (.ret (0, cmd')
      ((w.setArgs operation ((op.arguments.map Arg.name).zip c.args)).advance k))) :
    (session drivers env).wp (parser arch s.type driver operation op.packs cmd) post w := by
  rw [← op.packTypes_packs] at hread
  rw [← op.packNames_packs] at hpost
  obtain ⟨type, htype⟩ : ∃ type, s.type = type := ⟨_, rfl⟩
  obtain ⟨input, hin⟩ : ∃ input, w.input = input := ⟨_, rfl⟩
  rw [htype] at hready hpost ⊢
  rw [hin] at hready hpost
  cases hready with
  | stream hstream =>
    have hread' := hread (streamOf (cmds.map ClientCommand.message))
    rw [← hin] at hread'
    rw [wp_parser_stream hstream hw hread' hbytes hsmall]
    refine hpost cmd _ ?_
    rw [hin, List.length_append, Nat.add_sub_cancel_right, List.drop_left]
    exact .stream hstream cmds
  | frame hholds hlen hsent =>
    have hargs := hread []
    rw [List.append_nil] at hargs
    have hwalk := walk_of_readArgs hholds hlen (le_refl _) (by rw [List.drop_length]; exact hargs)
    obtain ⟨vals, -, hvals, hwp⟩ := exists_wp_parser_payload drivers env arch operation hw hwalk
    have heq := (hvals _ hholds (le_refl _)).symm.trans hargs
    obtain rfl : vals = c.args := (Prod.mk.inj (Option.some.inj heq)).1
    exact (hwp post).mpr (hpost _ 0 hsent)

/-- What may come of executing a command. -/
def Done (s : Session) (c : ClientCommand) (cmds : List ClientCommand) (w : View) :
    Result Stop View (ℤ × Session) → Prop :=
  Result.EndsOr (fun p w' => s.Same p.2 ∧ w'.AtRest ∧ Sent s.type cmds w'.input ∧
      ∃ t, w'.trace = w.trace ++ t ∧ Executed s.type s.id c t)
    fun f w' => (∃ t, w'.trace = w.trace ++ t ∧ Executed s.type s.id c t) ∧ Defined f

/-- The reply to a value that an operation has returned, when it has one. -/
theorem wp_reply_writing {op : Operation} (hop : findOperation drivers driver operation = some op)
    {v : RetVal} (hv : Returns drivers driver operation v) :
    (session drivers env).wp
      (if op.retType = .void then pure (0, s) else s.send driver operation v)
      (Result.EndsOr
        (fun p w' => Continued (Event.WritesTo s.id (OfReply s.type driver operation v)) w w' ∧
          s.Same p.2)
        fun f w' => Continued (Event.WritesTo s.id (OfReply s.type driver operation v)) w w' ∧
          Defined f) w := by
  by_cases hvoid : op.retType = .void
  · rw [if_pos hvoid]
    exact ⟨.rfl', s.same_refl⟩
  · rw [if_neg hvoid]
    obtain ⟨sendBuffer, hbuf⟩ := exists_buildReply hop hv (UInt16.ofNat driver)
      (UInt16.ofNat operation)
    exact wp_of_writing (within_send_writing hbuf)

theorem View.locked_called (w : View) (driver operation : ℕ) (st : ArgStructs)
    (vals : List (String × ArgVal)) (k : ℕ) (args : List (Option ArgVal)) (v : RetVal) :
    (((w.locked driver st).setArgs operation vals).advance k).called driver operation args v
      = { w with
          input := w.input.drop k
          consumed := w.consumed + k
          held := some driver
          args := ((w.locked driver st).setArgs operation vals).args
          calling := none
          trace := w.trace ++ [.call driver operation args (w.consumed + k),
            .ret driver operation v] } := by
  rw [View.setArgs_eq]
  simp [View.called, View.inside, View.log, View.advance, View.locked]

/-- **`Driver<...>::execute` executes the command** under its mutex. -/
theorem wp_execute_ready (hw : w.AtRest) (hc : c.WellFormed drivers) {cmd : Command}
    (hoperation : cmd.operation = c.operation.toNat) (hready : Ready cmds c s.type cmd w.input) :
    (session drivers env).wp (s.execute arch drivers c.driver.toNat cmd) (Done s c cmds w) w := by
  obtain ⟨op, hop, hread, hbytes, hsmall⟩ := hc.reads
  have hlen : (op.arguments.map Arg.name).length = c.args.length := by
    have hargs := hread []
    rw [(forall₂_of_readArgs hargs).length_eq, Operation.types, List.length_map, List.length_map]
  rw [Session.execute, Handler.wp_bind, wp_lock hw.held]
  intro st
  rw [Handler.andThen_ret, hoperation, hop]
  refine (session drivers env).wp_bind_intro ?_
  rw [Session.executeOperation, Handler.wp_bind]
  refine wp_parser_ready (w := w.locked c.driver.toNat st) rfl hread hbytes hsmall hready
    fun cmd' k hsent => ?_
  simp only [Handler.andThen_ret, lt_self_iff_false, if_false]
  rw [wp_generateCall (by simp [View.locked])]
  intro v hv
  rw [View.args_advance, Operation.map_args_setArgs _ _ op hlen]
  refine (session drivers env).wp_mono ?_ (wp_reply_writing hop hv)
  have hcalled := w.locked_called c.driver.toNat c.operation.toNat st
    ((op.arguments.map Arg.name).zip c.args) k (c.args.map some) v
  rw [hcalled]
  rintro (⟨⟨err, s'⟩, w'⟩ | ⟨f, w'⟩) ⟨⟨events, rfl, hevents⟩, hr⟩
  · rw [Handler.andThen_ret, Handler.wp_bind, wp_unlock rfl]
    exact ⟨hr, ⟨rfl, rfl, rfl⟩, hsent, _, List.append_assoc _ _ _,
      w.consumed + k, v, events, rfl, hevents⟩
  · exact ⟨⟨_, List.append_assoc _ _ _, w.consumed + k, v, events, rfl, hevents⟩, hr⟩

end Executing

/-! ## The conversation -/

/-- What may be seen of a session that is sent these commands. -/
inductive Conversation (type : SockType) (id : SessionID) : List ClientCommand → List Event → Prop
  | silent (cmds : List ClientCommand) : Conversation type id cmds []
  | heard (c : ClientCommand) (cmds : List ClientCommand) (consumed : ℕ) :
    Conversation type id (c :: cmds) [.header c.driver.toNat c.operation.toNat consumed]
  | executed {c : ClientCommand} {cmds : List ClientCommand} {t t' : List Event} (consumed : ℕ)
    (h : Executed type id c t) (hrest : Conversation type id cmds t') :
    Conversation type id (c :: cmds)
      (.header c.driver.toNat c.operation.toNat consumed :: (t ++ t'))

/-- A conversation, and behind it parts of the closing frame of a WebSocket. -/
def History (type : SockType) (id : SessionID) (cmds : List ClientCommand) (t : List Event) :
    Prop :=
  ∃ t' closing, t = t' ++ closing ∧ Conversation type id cmds t' ∧
    ∀ e ∈ closing, e.WritesTo id (· <:+ WebSocket.setSendHeader 0 136)

/-- The trace has grown by a conversation. -/
def Grown (s : Session) (cmds : List ClientCommand) (w w' : View) : Prop :=
  ∃ t, w'.trace = w.trace ++ t ∧ Conversation s.type s.id cmds t

section Serving

variable {drivers : List Driver} {env : Env} {w : View} {arch : Arch} {s : Session}
  {c : ClientCommand} {cmds : List ClientCommand}

theorem Grown.rfl' : Grown s cmds w w := ⟨[], (List.append_nil _).symm, .silent cmds⟩

/-- The manager hands the command to its driver. -/
theorem wp_managerExecute_heard (hc : c.WellFormed drivers) {w' : View} (hw : w'.AtRest)
    {cmd : Command} (h : Heard cmds c s.type w cmd w') :
    (session drivers env).wp (DriverManager.execute arch drivers s cmd) (Done s c cmds w') w' := by
  obtain ⟨op, hop, -⟩ := hc.reads
  obtain ⟨hpos, hlt⟩ := driver_of_findOperation hop
  rw [wp_managerExecute (by rw [h.driver]; exact hpos) (by rw [h.driver]; exact hlt), h.driver]
  exact wp_execute_ready hw hc h.operation h.ready

/-- A round of the loop in which a command is executed. -/
theorem Heard.grown {w₁ w₂ w₃ : View} {cmd : Command} (h : Heard cmds c s.type w cmd w₁)
    {t : List Event} (ht : w₂.trace = w₁.trace ++ t) (hexecuted : Executed s.type s.id c t)
    (hrest : Grown s cmds w₂ w₃) : Grown s (c :: cmds) w w₃ := by
  obtain ⟨consumed, htrace⟩ := h.trace
  obtain ⟨t', ht', hconversation⟩ := hrest
  refine ⟨_, ?_, .executed consumed hexecuted hconversation⟩
  rw [ht', ht, htrace, List.append_assoc, List.append_assoc]
  rfl

/-- A round of the loop that ends with the header. -/
theorem Heard.alone {w' : View} {cmd : Command} (h : Heard cmds c s.type w cmd w') :
    Grown s (c :: cmds) w w' := by
  obtain ⟨consumed, htrace⟩ := h.trace
  exact ⟨_, htrace, .heard c cmds consumed⟩

theorem Session.Same.trans {s' s'' : Session} (h : s.Same s') (h' : s'.Same s'') : s.Same s'' :=
  ⟨h'.1.trans h.1, h'.2.trans h.2⟩

theorem Session.Same.grown {s' : Session} (h : s.Same s') : Grown s' cmds = Grown s cmds := by
  unfold Grown
  rw [h.1, h.2]

/-- What the loop of `run` keeps: the session stays what it is, and the trace grows by a
conversation. -/
def Conversing (s : Session) (cmds : List ClientCommand) (w : View) {α : Type} :
    Result Stop View (α × Session) → Prop :=
  Result.EndsOr (fun p w' => s.Same p.2 ∧ Grown s cmds w w')
    fun f w' => Grown s cmds w w' ∧ Defined f

/-- The round of the loop behind `read_command`. -/
theorem wp_serve_read {fuel : ℕ} (hc : c.WellFormed drivers) {s' : Session} {w' : View}
    {cmd : Command} {n : ℤ} {b : Bool} (hsame : s.Same s') (hw : w'.AtRest)
    (hread : n ≤ 0 ∧ w'.trace = w.trace ∨ Heard cmds c s.type w cmd w')
    (hserve : ∀ {s : Session} {w : View}, w.AtRest → Sent s.type cmds w.input →
      (session drivers env).wp (s.serve arch drivers fuel) (Conversing s cmds w) w) :
    (session drivers env).wp (do
      if b then return (none, s')
      if n ≤ 0 then return (some n, s')
      let (_, s) ← DriverManager.execute arch drivers s' cmd
      if s.closed then return (none, s)
      s.serve arch drivers fuel) (Conversing s (c :: cmds) w) w' := by
  have hgrown : Grown s (c :: cmds) w w' := by
    rcases hread with ⟨-, htrace⟩ | hheard
    · exact ⟨[], by rw [htrace, List.append_nil], .silent _⟩
    · exact hheard.alone
  split
  · exact ⟨hsame, hgrown⟩
  split
  · exact ⟨hsame, hgrown⟩
  rename_i hn
  have hheard := hread.resolve_left fun h => hn h.1
  rw [← hsame.1] at hheard
  refine (session drivers env).wp_bind_intro ((session drivers env).wp_mono ?_
    (wp_managerExecute_heard hc hw hheard))
  rintro (⟨⟨err, s''⟩, w''⟩ | ⟨f, w''⟩) hr
  · obtain ⟨hsame', hw'', hsent, t, htrace, hexecuted⟩ := hr
    rw [Handler.andThen_ret]
    dsimp only
    split
    · refine ⟨hsame.trans hsame', ?_⟩
      rw [← hsame.grown]
      exact hheard.grown htrace hexecuted .rfl'
    · rw [← hsame'.1] at hsent
      have hnext : ∀ w₃, Grown s'' cmds w'' w₃ → Grown s (c :: cmds) w w₃ := by
        intro w₃ hrest
        rw [hsame'.grown] at hrest
        rw [← hsame.grown]
        exact hheard.grown htrace hexecuted hrest
      refine (session drivers env).wp_mono ?_ (hserve hw'' hsent)
      rintro (⟨p, w₃⟩ | ⟨f, w₃⟩) hr
      · exact ⟨hsame.trans (hsame'.trans hr.1), hnext w₃ hr.2⟩
      · exact ⟨hnext w₃ hr.1, hr.2⟩
  · obtain ⟨⟨t, htrace, hexecuted⟩, hf⟩ := hr
    refine ⟨?_, hf⟩
    rw [← hsame.grown]
    exact hheard.grown htrace hexecuted .rfl'

/-- **The loop of `run` has a conversation** with its client. -/
theorem wp_serve_conversation (fuel : ℕ) (hw : w.AtRest) (hsent : Sent s.type cmds w.input)
    (hcmds : ∀ c ∈ cmds, c.WellFormed drivers) :
    (session drivers env).wp (s.serve arch drivers fuel) (Conversing s cmds w) w := by
  induction fuel generalizing s w cmds with
  | zero =>
    rw [Session.serve, Handler.wp_bind, wp_outOfFuel]
    exact ⟨.rfl', fun fault h => by cases h⟩
  | succ fuel ih =>
    rw [Session.serve, Handler.wp_bind, wp_exitSignal]
    intro b _
    rw [Handler.andThen_ret]
    cases b with
    | true => exact ⟨s.same_refl, .rfl'⟩
    | false =>
      simp only [Bool.false_eq_true, if_false]
      rw [Handler.wp_bind, wp_uninit]
      intro mem
      rw [Handler.andThen_ret, Handler.wp_bind]
      cases cmds with
      | nil =>
        refine (session drivers env).wp_mono ?_ (wp_readCommand_nil_idly hsent.nil_iff _)
        rintro (⟨⟨n, s', cmd⟩, w'⟩ | ⟨f, w'⟩) ⟨rfl, hr⟩
        · rw [Handler.andThen_ret, Handler.wp_bind, wp_exitSignal]
          intro b _
          rw [Handler.andThen_ret]
          dsimp only
          cases b with
          | true => exact ⟨hr.2, .rfl'⟩
          | false =>
            rw [if_neg Bool.false_ne_true, if_pos hr.1]
            exact ⟨hr.2, .rfl'⟩
        · exact ⟨.rfl', hr⟩
      | cons c cmds =>
        obtain ⟨hc, hcmds⟩ := List.forall_mem_cons.mp hcmds
        refine (session drivers env).wp_mono ?_ (wp_readCommand_sent hw hsent mem)
        rintro (⟨⟨n, s', cmd⟩, w'⟩ | ⟨f, w'⟩) hr
        · obtain ⟨hsame, hrest, hread⟩ := hr
          rw [Handler.andThen_ret, Handler.wp_bind, wp_exitSignal]
          intro b _
          rw [Handler.andThen_ret]
          exact wp_serve_read hc hsame hrest hread fun hw hsent => ih hw hsent hcmds
        · exact ⟨⟨[], by rw [hr.1, List.append_nil], .silent _⟩, hr.2⟩

/-- **What a session does for its client**, whatever it is answered. -/
theorem wp_run_conversation (fuel : ℕ) (hw : w.AtRest) (hsent : Sent s.type cmds w.input)
    (hcmds : ∀ c ∈ cmds, c.WellFormed drivers) :
    (session drivers env).wp (s.run arch drivers (fun s => pure (0, s)) fuel)
      (Result.EndsOr (fun _ w' => ∃ t, w'.trace = w.trace ++ t ∧ History s.type s.id cmds t)
        fun f w' => (∃ t, w'.trace = w.trace ++ t ∧ History s.type s.id cmds t) ∧ Defined f) w := by
  have hinit : s.initSocket (fun s => pure (0, s)) = pure (0, s) := by
    rw [Session.initSocket]
    cases s.type <;> rfl
  have hgrown : ∀ {w' : View}, Grown s cmds w w' →
      ∃ t, w'.trace = w.trace ++ t ∧ History s.type s.id cmds t := by
    rintro w' ⟨t, htrace, ht⟩
    exact ⟨t, htrace, t, [], (List.append_nil t).symm, ht,
      fun e he => (List.not_mem_nil he).elim⟩
  rw [Session.run, hinit, pure_bind]
  simp only [lt_self_iff_false, if_false]
  refine (session drivers env).wp_bind_intro ((session drivers env).wp_mono ?_
    (wp_serve_conversation fuel hw hsent hcmds))
  rintro (⟨⟨_ | n, served⟩, w'⟩ | ⟨f, w'⟩) hr
  · obtain ⟨hsame, t, htrace, ht⟩ := hr
    have hclosed : ∀ {w₃ : View},
        Continued (Event.WritesTo served.id (· <:+ WebSocket.setSendHeader 0 136)) w' w₃ →
          ∃ t, w₃.trace = w.trace ++ t ∧ History s.type s.id cmds t := by
      rintro w₃ ⟨closing, rfl, hclosing⟩
      refine ⟨t ++ closing, ?_, t, closing, rfl, ht, hsame.2 ▸ hclosing⟩
      rw [← List.append_assoc, ← htrace]
    refine (session drivers env).wp_bind_intro ((session drivers env).wp_mono ?_
      (wp_of_writing (within_exitSocket s.type served)))
    rintro (⟨m, w₃⟩ | ⟨f, w₃⟩) hr
    · exact hclosed hr.1
    · exact ⟨hclosed hr.1, hr.2⟩
  · exact hgrown hr.2
  · exact ⟨hgrown hr.1, hr.2⟩

end Serving

end KoheronSdk
