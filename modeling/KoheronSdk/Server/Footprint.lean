import KoheronSdk.Server.Session

/-!
# What executing a command can do

The actions that are left to the code for one command: `Action.OfOperation` says what
`Driver<driver>::execute` does for one operation.  Each part of it is shown to stay within
that, whatever it is answered.

This is a matter of the text of the functions alone.  `Prog.Within` goes through a program and looks
at each action it can perform, under every answer, and at each value it can return; nothing is
said of the bytes that come, or of the order of the actions.  What is shown here is therefore usable
under every handler, in particular for a session among others, and where the reads fail.

A session thread that executes a command stores into the struct of the operation that the command
names and into no other, it locks the mutex of its driver, it calls this operation, and it writes to
its own socket.  A command that names no operation leads to none of this but the mutex.

The proofs follow the functions, one lemma for each; a loop is an induction on its fuel.

* `within_readCommand`: getting the command.
* `within_parse`, `within_send`: the parser stores into one struct, a reply goes to one
  session.
* `within_execute`: `Driver<...>::execute`.
* `within_managerExecute`: `DriverManager::execute`.
-/

namespace KoheronSdk

open Effects
open Effects.Prog (within_pure within_perform within_bind within_act)

/-- What the session `s` does to fill the struct of the operation `operation` of `driver`. -/
def Action.OfParser (s : Session) (driver operation : ℕ) : Action → Prop
  | .read _ => s.type ≠ .websock
  | .uninit | .throw | .overrun | .outOfFuel => True
  | .store d op _ _ => d = driver ∧ op = operation
  | _ => False

/-- What the session `s` does for the operation `operation` of `driver`. -/
def Action.OfOperation (drivers : List Driver) (s : Session) (driver operation : ℕ) :
    Action → Prop
  | .read _ => s.type ≠ .websock
  | .uninit | .throw | .overrun | .outOfFuel => True
  | .lock d | .unlock d => d = driver
  | .store d op _ _ | .ret d op => d = driver ∧ op = operation
  | .call d op names => d = driver ∧ op = operation ∧
    ∃ o, findOperation drivers d op = some o ∧ names = o.arguments.map Arg.name
  | .write dest _ => dest = s.id
  | _ => False

theorem Action.OfParser.ofOperation {drivers : List Driver} {s : Session} {driver operation : ℕ}
    {e : Action} (h : e.OfParser s driver operation) :
    e.OfOperation drivers s driver operation := by
  cases e with
  | read n => exact h
  | store d op name v => exact h
  | uninit | throw | overrun | outOfFuel => trivial
  | _ => exact h.elim

/-- The session is still of its type and the same one. -/
def Session.Same (s s' : Session) : Prop := s'.type = s.type ∧ s'.id = s.id

theorem Session.same_refl (s : Session) : s.Same s := ⟨rfl, rfl⟩

variable {arch : Arch} {drivers : List Driver} {s : Session} {driver operation : ℕ}

/-! ## Reading a command -/

/-- What a session does to get the next command. -/
def Action.OfReading : Action → Prop
  | .read _ | .uninit | .received _ _ | .overrun | .outOfFuel => True
  | _ => False

theorem within_rcvLoop {φ : Action → Prop} (hread : ∀ n, φ (.read n)) (hfuel : φ .outOfFuel)
    (nBytes fuel : ℕ) (got : List UInt8) :
    (Tcp.rcvLoop nBytes fuel got).Within φ fun _ => True := by
  induction fuel generalizing got with
  | zero =>
    rw [Tcp.rcvLoop]
    split
    · exact within_act hfuel fun _ => within_pure trivial
    · exact within_pure trivial
  | succ fuel ih =>
    rw [Tcp.rcvLoop]
    split
    · refine within_act (hread _) fun x => ?_
      rcases x with bs | _ | _
      · exact ih _
      · exact within_pure trivial
      · exact within_pure trivial
    · exact within_pure trivial

theorem within_tcpReadCommand (cmd : Command) :
    (Tcp.readCommand cmd).Within Action.OfReading fun _ => True := by
  refine within_bind (within_rcvLoop (fun _ => trivial) trivial _ _ []) ?_
  rintro ⟨n, got⟩ -
  by_cases hzero : toInt n = 0
  · simp only [if_pos hzero]
    exact within_pure trivial
  by_cases hneg : toInt n < 0
  · simp only [if_neg hzero, if_pos hneg]
    exact within_pure trivial
  simp only [if_neg hzero, if_neg hneg]
  exact within_act trivial fun _ => within_pure trivial

theorem within_readLoop (fuel : ℕ) (ws : WebSocket) (remaining expected bytesRead : ℤ) :
    (WebSocket.readLoop fuel ws remaining expected bytesRead).Within Action.OfReading
      fun _ => True := by
  induction fuel generalizing ws remaining expected bytesRead with
  | zero =>
    rw [WebSocket.readLoop]
    split
    · exact within_act trivial fun _ => within_pure trivial
    · exact within_pure trivial
  | succ fuel ih =>
    rw [WebSocket.readLoop]
    split
    · refine within_act trivial fun x => ?_
      rcases x with bs | _ | _
      · dsimp only
        split
        · exact within_act trivial fun _ => ih _ _ _ _
        · exact ih _ _ _ _
      · exact within_pure trivial
      · exact within_pure trivial
    · exact within_pure trivial

theorem within_readNBytes (fuel : ℕ) (ws : WebSocket) (bytes expected : ℤ) :
    (ws.readNBytes fuel bytes expected).Within Action.OfReading fun _ => True := by
  rw [WebSocket.readNBytes]
  generalize (-1 : ℤ) = bytesRead
  induction fuel generalizing ws bytes expected bytesRead with
  | zero =>
    rw [WebSocket.readNBytesLoop]
    split
    · exact within_act trivial fun _ => within_pure trivial
    · exact within_pure trivial
  | succ fuel ih =>
    rw [WebSocket.readNBytesLoop]
    split
    · refine within_bind (within_readLoop _ _ _ _ _) ?_
      rintro ⟨ws, remaining, expected, bytesRead⟩ -
      dsimp only
      split
      · exact within_pure trivial
      split
      · exact within_pure trivial
      · exact ih _ _ _ _
    · exact within_pure trivial

theorem within_readExtended (fuel : ℕ) (ws : WebSocket) (n : ℤ) (f : WebSocket → ℤ × WebSocket) :
    (do
      let (err, ws) ← ws.readNBytes fuel n n
      if err < 0 then return ((-1 : ℤ), ws)
      if ws.connectionClosed then return (0, ws)
      return f ws : Program (ℤ × WebSocket)).Within Action.OfReading fun _ => True := by
  refine within_bind (within_readNBytes _ _ _ _) ?_
  rintro ⟨err, ws⟩ -
  dsimp only
  split
  · exact within_pure trivial
  split <;> exact within_pure trivial

theorem within_readSize (fuel : ℕ) (ws : WebSocket) :
    (ws.readSize fuel).Within Action.OfReading fun _ => True := by
  unfold WebSocket.readSize
  dsimp only
  split
  · exact within_pure trivial
  split
  · exact within_pure trivial
  split
  · exact within_pure trivial
  split
  · exact within_readExtended fuel ws 2 fun ws => WebSocket.checkPayloadSize { ws with
      headerSize := 8
      payloadSize := (extractU16 (ws.readStrBytes 2 2)).toNat
      maskOffset := 4 }
  split
  · exact within_readExtended fuel ws 8 fun ws => WebSocket.checkPayloadSize { ws with
      headerSize := 14
      payloadSize := (extractU64 (ws.readStrBytes 2 8)).toInt64.toInt
      maskOffset := 10 }
  · exact within_pure trivial

theorem within_readStream (fuel : ℕ) (ws : WebSocket) :
    (ws.readStream fuel).Within Action.OfReading fun _ => True := by
  have hheader : (ws.resetReadBuff.readHeader fuel).Within Action.OfReading fun _ => True := by
    refine within_bind (within_readNBytes _ _ _ _) ?_
    rintro ⟨err, ws⟩ -
    dsimp only
    split
    · exact within_pure trivial
    split
    · exact within_pure trivial
    · exact within_readSize _ _
  refine within_bind hheader ?_
  rintro ⟨readHeadErr, ws⟩ -
  dsimp only
  split
  · exact within_pure trivial
  split
  · exact within_pure trivial
  refine within_bind (within_readNBytes _ _ _ _) ?_
  rintro ⟨err, ws⟩ -
  dsimp only
  split <;> exact within_pure trivial

theorem within_websocketReadCommand (fuel : ℕ) (ws : WebSocket) (cmd : Command) :
    (ws.readCommand fuel cmd).Within Action.OfReading fun _ => True := by
  have hreceive : (ws.receiveCmd fuel cmd).Within Action.OfReading fun _ => True := by
    rw [WebSocket.receiveCmd]
    split
    · exact within_pure trivial
    refine within_bind (within_readStream _ _) ?_
    rintro ⟨err, ws⟩ -
    dsimp only
    split
    · exact within_pure trivial
    split
    · exact within_pure trivial
    split <;> exact within_pure trivial
  refine within_bind hreceive ?_
  rintro ⟨n, ws, cmd⟩ -
  dsimp only
  split
  · exact within_pure trivial
  split
  · exact within_pure trivial
  split
  · exact within_pure trivial
  · exact within_act trivial fun _ => within_pure trivial

/-- **Getting a command** leaves the session the same one. -/
theorem within_readCommand (fuel : ℕ) (cmd : Command) :
    (s.readCommand fuel cmd).Within Action.OfReading fun p => s.Same p.2.1 := by
  cases htype : s.type with
  | tcp | unix =>
    rw [Session.readCommand, htype]
    exact within_bind (within_tcpReadCommand cmd) fun _ _ => within_pure ⟨rfl, rfl⟩
  | websock =>
    rw [Session.readCommand, htype]
    exact within_bind (within_websocketReadCommand fuel _ cmd) fun _ _ =>
      within_pure ⟨htype.symm, rfl⟩

/-! ## Filling a struct -/

section Tcp

variable (htype : s.type ≠ .websock)
include htype

theorem within_getPackLength :
    Tcp.getPackLength.Within (Action.OfParser s driver operation) fun _ => True := by
  refine within_act trivial fun mem =>
    within_bind (within_rcvLoop (fun _ => htype) trivial 4 4 []) ?_
  rintro ⟨err, got⟩ -
  by_cases herr : err < 0
  · simp only [if_pos herr]
    exact within_pure trivial
  · simp only [if_neg herr]
    exact within_pure trivial

theorem within_tcpDeserialize (ts : List ScalarType) :
    (Tcp.deserialize ts).Within (Action.OfParser s driver operation)
      fun _ => True := by
  refine within_act trivial fun mem =>
    within_bind (within_rcvLoop (fun _ => htype) trivial _ _ []) ?_
  rintro ⟨err, got⟩ -
  exact within_pure trivial

theorem within_fill (name : String) (nBytes : ℕ) (value : List UInt8 → ArgVal) :
    (Tcp.fill driver operation name nBytes value).Within
      (Action.OfParser s driver operation) fun _ => True := by
  refine within_act ⟨rfl, rfl⟩ fun _ =>
    within_bind (within_rcvLoop (fun _ => htype) trivial _ _ []) ?_
  rintro ⟨err, got⟩ -
  by_cases hgot : got.length = nBytes
  · simp only [if_pos hgot]
    exact within_act ⟨rfl, rfl⟩ fun _ => within_pure trivial
  · simp only [if_neg hgot]
    exact within_pure trivial

theorem within_tcpRecvVector (name : String) (t : ScalarType) :
    (Tcp.recvVector arch driver operation name t).Within
      (Action.OfParser s driver operation) fun _ => True := by
  refine within_bind (within_getPackLength htype) fun packLength _ => ?_
  rw [Tcp.recvVectorData]
  split
  · exact within_pure trivial
  split
  · exact within_act trivial fun _ => within_fill htype _ _ _
  · exact within_fill htype _ _ _

theorem within_tcpRecvString (name : String) :
    (Tcp.recvString arch driver operation name).Within
      (Action.OfParser s driver operation) fun _ => True := by
  refine within_bind (within_getPackLength htype) fun length _ => ?_
  rw [Tcp.recvStringData]
  split
  · exact within_pure trivial
  split
  · exact within_act trivial fun _ => within_fill htype _ _ _
  · exact within_fill htype _ _ _

end Tcp

/-! ## The parser -/

theorem within_deserialize (ts : List ScalarType) (cmd : Command) :
    (deserialize s.type ts cmd).Within (Action.OfParser s driver operation)
      fun _ => True := by
  have hstream : ∀ (t : ScalarType) (ts : List ScalarType), s.type ≠ .websock →
      (Tcp.deserialize (t :: ts) >>= fun p => pure (p.1, p.2, cmd) :
        Program (ℤ × List ScalarVal × Command)).Within
      (Action.OfParser s driver operation) fun _ => True :=
    fun t ts htype => within_bind (within_tcpDeserialize htype _) fun _ _ => within_pure trivial
  cases ts with
  | nil => exact within_pure trivial
  | cons t ts =>
    cases htype : s.type with
    | tcp => exact hstream t ts (by rw [htype]; decide)
    | unix => exact hstream t ts (by rw [htype]; decide)
    | websock => exact within_pure trivial

/-- A container of a stream session, behind which the command is as it was. -/
theorem within_stream {p : Program ℤ}
    (hp : p.Within (Action.OfParser s driver operation) fun _ => True)
    (cmd : Command) :
    (p >>= fun err => pure (err, cmd)).Within (Action.OfParser s driver operation)
      fun _ => True := within_bind hp fun _ _ => within_pure trivial

/-- A container of a WebSocket session. -/
theorem within_store (name : String) (v : Option ArgVal) (a : ℤ × Command) :
    (store driver operation name v >>= fun _ => pure a).Within
      (Action.OfParser s driver operation) fun _ => True :=
  within_act ⟨rfl, rfl⟩ fun _ => within_pure trivial

theorem within_recvArray (name : String) (t : ScalarType) (n : ℕ) (cmd : Command) :
    (recvArray s.type driver operation name t n cmd).Within
      (Action.OfParser s driver operation) fun _ => True := by
  cases htype : s.type with
  | tcp => exact within_stream (within_fill (by rw [htype]; decide) _ _ _) cmd
  | unix => exact within_stream (within_fill (by rw [htype]; decide) _ _ _) cmd
  | websock => exact within_store _ _ _

theorem within_recvVector (name : String) (t : ScalarType) (cmd : Command) :
    (recvVector arch s.type driver operation name t cmd).Within
      (Action.OfParser s driver operation) fun _ => True := by
  cases htype : s.type with
  | tcp => exact within_stream (within_tcpRecvVector (by rw [htype]; decide) _ _) cmd
  | unix => exact within_stream (within_tcpRecvVector (by rw [htype]; decide) _ _) cmd
  | websock =>
    simp only [recvVector, WebSocket.recvVector]
    split
    · exact within_pure trivial
    · exact within_store _ _ _

theorem within_recvString (name : String) (cmd : Command) :
    (recvString arch s.type driver operation name cmd).Within
      (Action.OfParser s driver operation) fun _ => True := by
  cases htype : s.type with
  | tcp => exact within_stream (within_tcpRecvString (by rw [htype]; decide) _) cmd
  | unix => exact within_stream (within_tcpRecvString (by rw [htype]; decide) _) cmd
  | websock =>
    simp only [recvString, WebSocket.recvString]
    split
    · exact within_pure trivial
    · exact within_store _ _ _

theorem within_storeScalars (args : List (String × ScalarType)) (vals : List ScalarVal) :
    (storeScalars driver operation args vals).Within
      (Action.OfParser s driver operation) fun _ => True := by
  induction args generalizing vals with
  | nil => exact within_pure trivial
  | cons arg args ih =>
    cases vals with
    | nil => exact within_pure trivial
    | cons v vals => exact within_act ⟨rfl, rfl⟩ fun _ => ih vals

theorem within_parsePack (cmd : Command) (p : Pack) :
    (parsePack arch s.type driver operation cmd p).Within
      (Action.OfParser s driver operation) fun _ => True := by
  have hend : ∀ {p : Program (ℤ × Command)},
      p.Within (Action.OfParser s driver operation) (fun _ => True) →
      (p >>= fun q => if q.1 < 0 then pure ((-1 : ℤ), q.2) else pure (0, q.2)).Within
        (Action.OfParser s driver operation)
          fun _ => True := by
    intro p hp
    refine within_bind hp ?_
    rintro ⟨err, cmd⟩ -
    by_cases herr : err < 0
    · simp only [if_pos herr]
      exact within_pure trivial
    · simp only [if_neg herr]
      exact within_pure trivial
  cases p with
  | scalar args =>
    refine within_bind (within_deserialize _ cmd) ?_
    rintro ⟨err, vals, cmd⟩ -
    by_cases herr : err < 0
    · simp only [if_pos herr]
      exact within_pure trivial
    · simp only [if_neg herr]
      exact within_bind (within_storeScalars args vals) fun _ _ => within_pure trivial
  | array name t n => exact hend (within_recvArray name t n cmd)
  | vector name t => exact hend (within_recvVector name t cmd)
  | string name => exact hend (within_recvString name cmd)

/-- **The parser of an operation stores into the struct of that operation only.** -/
theorem within_parse (packs : List Pack) (cmd : Command) :
    (parser arch s.type driver operation packs cmd).Within
      (Action.OfParser s driver operation) fun _ => True := by
  induction packs generalizing cmd with
  | nil => exact within_pure trivial
  | cons p packs ih =>
    refine within_bind (within_parsePack cmd p) ?_
    rintro ⟨err, cmd⟩ -
    by_cases herr : err < 0
    · simp only [if_pos herr]
      exact within_pure trivial
    · simp only [if_neg herr]
      exact ih cmd

/-! ## The reply -/

/-- Only writes, of such bytes, to one socket. -/
def Action.OfWriting (id : SessionID) (part : List UInt8 → Prop) : Action → Prop
  | .write dest bytes => dest = id ∧ part bytes
  | .outOfFuel => True
  | _ => False

theorem within_sendLoop_writing {id : SessionID} {part : List UInt8 → Prop} (fuel : ℕ)
    {bits : List UInt8} (bytesSend : ℤ) (hpart : ∀ bytes, bytes <:+ bits → part bytes) :
    (WebSocket.sendLoop id fuel bits bytesSend).Within (Action.OfWriting id part)
      fun _ => True := by
  induction fuel generalizing bits bytesSend with
  | zero =>
    rw [WebSocket.sendLoop]
    split
    · exact within_act trivial fun _ => within_pure trivial
    · exact within_pure trivial
  | succ fuel ih =>
    rw [WebSocket.sendLoop]
    split
    · refine within_act ⟨rfl, hpart bits List.suffix_rfl⟩ fun n => ?_
      split
      · exact ih _ fun bytes hbytes => hpart bytes (hbytes.trans (List.drop_suffix _ _))
      · exact within_pure trivial
    · exact within_pure trivial

theorem Action.OfWriting.ofOperation {part : List UInt8 → Prop} (e : Action)
    (h : e.OfWriting s.id part) : e.OfOperation drivers s driver operation := by
  cases e with
  | write dest bytes => exact h.1
  | outOfFuel => trivial
  | _ => exact h.elim

theorem within_sendLoop (fuel : ℕ) (bits : List UInt8) (bytesSend : ℤ) :
    (WebSocket.sendLoop s.id fuel bits bytesSend).Within
      (Action.OfOperation drivers s driver operation) fun _ => True := by
  have hany : ∀ bytes, bytes <:+ bits → (fun _ : List UInt8 => True) bytes :=
    fun _ _ => trivial
  exact (within_sendLoop_writing fuel bytesSend hany).mono Action.OfWriting.ofOperation
    fun _ h => h

theorem within_websocketSend (ws : WebSocket) (data : List UInt8) :
    (ws.send s.id data).Within (Action.OfOperation drivers s driver operation)
      fun _ => True := by
  rw [WebSocket.send]
  split
  · exact within_pure trivial
  split
  · exact within_pure trivial
  rw [WebSocket.sendRequest]
  split
  · exact within_pure trivial
  refine within_bind (within_sendLoop _ _ _) fun n _ => ?_
  split <;> exact within_pure trivial

theorem within_write (sendBuffer : List UInt8) :
    (s.write sendBuffer).Within (Action.OfOperation drivers s driver operation)
      fun p => s.Same p.2 := by
  have hwrite : (Tcp.write s.id (Session.offered sendBuffer)).Within
      (Action.OfOperation drivers s driver operation) fun _ => True :=
    within_act rfl fun _ => within_pure trivial
  have hstream : (Tcp.write s.id (Session.offered sendBuffer) >>= fun n => pure (n, s)).Within
      (Action.OfOperation drivers s driver operation) fun p => s.Same p.2 :=
    within_bind hwrite fun _ _ => within_pure s.same_refl
  cases htype : s.type with
  | tcp =>
    rw [Session.write, htype]
    exact hstream
  | unix =>
    rw [Session.write, htype]
    exact hstream
  | websock =>
    rw [Session.write, htype]
    refine within_bind (within_websocketSend _ _) ?_
    rintro ⟨n, websock⟩ -
    exact within_pure ⟨htype.symm, rfl⟩

/-- **A reply goes to the session itself.** -/
theorem within_send (classId funcId : ℕ) (v : RetVal) :
    (s.send classId funcId v).Within (Action.OfOperation drivers s driver operation)
      fun p => s.Same p.2 := by
  rw [Session.send]
  split
  · exact within_act trivial fun _ => within_pure s.same_refl
  · rename_i sendBuffer _
    refine within_bind (within_write sendBuffer) ?_
    rintro ⟨bytesSend, s'⟩ hs'
    by_cases hzero : bytesSend = 0
    · simp only [if_pos hzero]
      exact within_pure hs'
    · simp only [if_neg hzero]
      exact within_pure hs'

/-- **The closing frame** goes to the session itself too. -/
theorem within_exitSocket (type : SockType) (s : Session) :
    (Session.exitSocket type s).Within
      (Action.OfWriting s.id (· <:+ WebSocket.setSendHeader 0 136)) fun _ => True := by
  cases type with
  | tcp | unix => exact within_pure trivial
  | websock =>
    have hwithin : (s.websock.exit s.id).Within
        (Action.OfWriting s.id (· <:+ WebSocket.setSendHeader 0 136)) fun _ => True := by
      rw [WebSocket.exit, WebSocket.sendRequest]
      split
      · exact within_pure trivial
      refine within_bind (within_sendLoop_writing _ _ fun bytes hbytes => hbytes) fun n _ => ?_
      split <;> exact within_pure trivial
    exact within_bind hwithin fun _ _ => within_pure trivial

/-! ## The operation -/

/-- Acquiring or releasing a mutex. -/
def Action.IsMutex : Action → Prop
  | .lock _ | .unlock _ => True
  | _ => False

/-- **`Driver<driver>::execute`** stays within the operation that the command names.  If there
is none it does nothing but lock its mutex, and returns an error. -/
theorem within_execute (cmd : Command) :
    (s.execute arch drivers driver cmd).Within
      (fun e => e.OfOperation drivers s driver cmd.operation ∧
        (findOperation drivers driver cmd.operation = none → e.IsMutex)) fun p =>
        s.Same p.2 ∧ (findOperation drivers driver cmd.operation = none → p.1 = -1) := by
  refine within_act ⟨rfl, fun _ => trivial⟩ fun _ => ?_
  cases hop : findOperation drivers driver cmd.operation with
  | none =>
    exact within_act ⟨rfl, fun _ => trivial⟩ fun _ => within_pure ⟨s.same_refl, fun _ => rfl⟩
  | some op =>
    have hoperation : (s.executeOperation arch driver cmd.operation op cmd).Within
        (Action.OfOperation drivers s driver cmd.operation) fun p => s.Same p.2 := by
      refine within_bind ((within_parse _ _).mono (fun e he => he.ofOperation) fun _ h => h) ?_
      rintro ⟨err, cmd'⟩ -
      by_cases herr : err < 0
      · simp only [if_pos herr]
        exact within_pure s.same_refl
      · simp only [if_neg herr]
        refine within_act ⟨rfl, rfl, op, hop, rfl⟩ fun _ => ?_
        refine within_act ⟨rfl, rfl⟩ fun v => ?_
        split
        · exact within_pure s.same_refl
        · exact within_send _ _ v
    refine within_bind (hoperation.mono (fun e he => ⟨he, fun h => by cases h⟩) fun _ hp => hp) ?_
    rintro ⟨err, s'⟩ hs'
    exact within_act ⟨rfl, fun _ => trivial⟩ fun _ => within_pure ⟨hs', fun h => by cases h⟩

/-- The driver that `execute_driver` selects is some driver. -/
theorem within_executeDriverImplementation (type : ℕ) (cmd : Command) (devs : List ℕ) :
    (DriverManager.executeDriverImplementation arch drivers s type cmd devs).Within
      (fun e => ∃ driver, e.OfOperation drivers s driver cmd.operation)
      fun p => s.Same p.2 := by
  have hexecute : ∀ dev, (s.execute arch drivers dev cmd).Within
      (fun e => ∃ driver, e.OfOperation drivers s driver cmd.operation) fun p => s.Same p.2 :=
    fun dev => (within_execute cmd).mono (fun e he => ⟨dev, he.1⟩) fun p hp => hp.1
  induction devs with
  | nil => exact within_pure s.same_refl
  | cons dev₀ devs ih =>
    cases devs with
    | nil => exact hexecute dev₀
    | cons dev₁ devs =>
      rw [DriverManager.executeDriverImplementation]
      · split
        · exact hexecute dev₀
        · exact ih
      · exact List.cons_ne_nil _ _

/-! ## The driver manager -/

/-- What the driver manager does before an operation is executed. -/
def Action.OfManager : Action → Prop
  | .isStarted _ | .allocDriver _ | .device _ => True
  | _ => False

theorem within_startImpl {φ : Action → Prop} (h : ∀ e, e.OfManager → φ e) (devs : List ℕ) :
    (DriverManager.startImpl driver devs).Within φ fun _ => True := by
  induction devs with
  | nil => exact within_pure trivial
  | cons dev₀ devs ih =>
    cases devs with
    | nil => exact within_perform (h _ trivial)
    | cons dev₁ devs =>
      rw [DriverManager.startImpl]
      · split
        · exact within_perform (h _ trivial)
        · exact ih
      · exact List.cons_ne_nil _ _

/-- **`DriverManager::execute`** starts a driver, and stays within one operation. -/
theorem within_managerExecute (cmd : Command) :
    (DriverManager.execute arch drivers s cmd).Within
      (fun e => e.OfManager ∨ ∃ driver, e.OfOperation drivers s driver cmd.operation)
      fun p => s.Same p.2 := by
  have hselected : ∀ type, (DriverManager.executeDriverImplementation arch drivers s type cmd
      (DriverManager.driverRange drivers)).Within
        (fun e => e.OfManager ∨ ∃ driver, e.OfOperation drivers s driver cmd.operation)
        fun p => s.Same p.2 :=
    fun type => (within_executeDriverImplementation type cmd _).mono (fun _ he => Or.inr he)
      fun _ hp => hp
  rw [DriverManager.execute]
  split
  · exact within_pure s.same_refl
  split
  · exact (within_execute cmd).mono (fun _ he => Or.inr ⟨1, he.1⟩) fun _ hp => hp.1
  refine within_act (Or.inl trivial) fun started => ?_
  split
  · refine within_bind (within_startImpl (fun _ he => Or.inl he) _) fun _ _ => ?_
    exact within_act (Or.inl trivial) fun type => hselected type
  · exact within_act (Or.inl trivial) fun type => hselected type

end KoheronSdk
