import KoheronSdk.Server.WebSocket

/-!
# Sessions

The loop of a session thread and everything it goes through for one command:
`read_command`, `DriverManager::execute`, `Driver<...>::execute` with the generated
parser and call, and `send`.

What `SessionAbstract` selects by the socket type, and what the generator writes
out once for every operation, is a definition with the socket type, or the driver
and the operation, as arguments.  So the parser of an operation is not a text but the function that
`parser_generator` is of the packs, and a result about it is one about every instrument.

Every function returns what its source returns, an `int` by its value, together with the parts of
the session or the command that it changes; the negative numbers that stand for errors are
compared with 0 where the source does so, and where it forgets to, as for the 0 that `rcv_n_bytes`
returns at the end of the stream, so does the model.

`run` has its fuel as an argument, one unit for each round of the loop, and a run that needs more
stops in the middle with `outOfFuel`.  Each result about a run says how many rounds it takes,
or that it does not matter.

* `Session.parser`, `Session.executeOperation`: one operation.
* `DriverManager.execute`: one command.
* `Session.serve`, `Session.run`: a session from its begin to its end.
-/

namespace KoheronSdk

open Effects

/-- `SockType` -/
inductive SockType where
  | tcp
  | unix
  | websock
  deriving DecidableEq, Repr

/-- `Session`; `closed` is `status == CLOSED`. -/
structure Session where
  type : SockType
  id : SessionID
  websock : WebSocket
  closed : Bool

/-! ## Receiving an argument -/

/-- `SessionAbstract::deserialize<Tp...>` -/
def deserialize (type : SockType) (ts : List ScalarType) (cmd : Command) :
    Program (ℤ × List ScalarVal × Command) :=
  match ts with
  | [] => return (0, [], cmd)
  | t :: ts =>
    match type with
    | .tcp | .unix => do
      let (err, vals) ← Tcp.deserialize (t :: ts)
      return (err, vals, cmd)
    | .websock => return WebSocket.deserialize (t :: ts) cmd

/-- `SessionAbstract::recv` for an array -/
def recvArray (type : SockType) (driver operation : ℕ) (name : String) (t : ScalarType) (n : ℕ)
    (cmd : Command) : Program (ℤ × Command) :=
  match type with
  | .tcp | .unix => do
    let err ← Tcp.recvArray driver operation name t n
    return (err, cmd)
  | .websock => WebSocket.recvArray driver operation name t n cmd

/-- `SessionAbstract::recv` for a vector -/
def recvVector (arch : Arch) (type : SockType) (driver operation : ℕ) (name : String)
    (t : ScalarType) (cmd : Command) : Program (ℤ × Command) :=
  match type with
  | .tcp | .unix => do
    let err ← Tcp.recvVector arch driver operation name t
    return (err, cmd)
  | .websock => WebSocket.recvVector driver operation name t cmd

/-- `SessionAbstract::recv` for a string -/
def recvString (arch : Arch) (type : SockType) (driver operation : ℕ) (name : String)
    (cmd : Command) : Program (ℤ × Command) :=
  match type with
  | .tcp | .unix => do
    let err ← Tcp.recvString arch driver operation name
    return (err, cmd)
  | .websock => WebSocket.recvString driver operation name cmd

/-! ## The generated parser -/

/-- `args_<op>.<name> = std::get<i + 1>(args_tuple)`, for the scalars of a pack. -/
def storeScalars (driver operation : ℕ) :
    List (String × ScalarType) → List ScalarVal → Program Unit
  | arg :: args, v :: vals => do
    store driver operation arg.1 (some (.scalar v))
    storeScalars driver operation args vals
  | _, _ => return ()

/-- The code of `parser_generator` for one pack.  It returns -1, or 0 when the code
after it is to run. -/
def parsePack (arch : Arch) (type : SockType) (driver operation : ℕ) (cmd : Command) :
    Pack → Program (ℤ × Command)
  | .scalar args => do
    let (err, vals, cmd) ← deserialize type (args.map Prod.snd) cmd
    if err < 0 then return (-1, cmd)
    storeScalars driver operation args vals
    return (0, cmd)
  | .array name t n => do
    let (err, cmd) ← recvArray type driver operation name t n cmd
    if err < 0 then return (-1, cmd)
    return (0, cmd)
  | .vector name t => do
    let (err, cmd) ← recvVector arch type driver operation name t cmd
    if err < 0 then return (-1, cmd)
    return (0, cmd)
  | .string name => do
    let (err, cmd) ← recvString arch type driver operation name cmd
    if err < 0 then return (-1, cmd)
    return (0, cmd)

/-- The code of `parser_generator`, pack after pack. -/
def parser (arch : Arch) (type : SockType) (driver operation : ℕ) :
    List Pack → Command → Program (ℤ × Command)
  | [], cmd => return (0, cmd)
  | p :: packs, cmd => do
    let (err, cmd) ← parsePack arch type driver operation cmd p
    if err < 0 then return (err, cmd)
    parser arch type driver operation packs cmd

/-! ## Sending a reply -/

/-- What `Session<TCP>::write` returns when `::write` returned `n`. -/
def Tcp.writeResult (bytesSend : ℕ) (n : ℤ) : ℤ :=
  let nBytesSend := toInt n
  if nBytesSend = 0 then 0
  else if nBytesSend < 0 then -1
  else if nBytesSend ≠ toInt bytesSend then -1
  else toInt bytesSend

/-- `Session<TCP>::write` -/
def Tcp.write (dest : SessionID) (data : List UInt8) : Program ℤ := do
  let n ← KoheronSdk.write dest data
  return writeResult data.length n

namespace Session

/-- The bytes that `write(send_buffer.data(), send_buffer.size())` is about: the size
becomes an `unsigned int`. -/
def offered (sendBuffer : List UInt8) : List UInt8 :=
  sendBuffer.take (sendBuffer.length % 2 ^ 32)

/-- `write` -/
def write (s : Session) (sendBuffer : List UInt8) : Program (ℤ × Session) :=
  match s.type with
  | .tcp | .unix => do
    let n ← Tcp.write s.id (offered sendBuffer)
    return (n, s)
  | .websock => do
    let (n, websock) ← s.websock.send s.id (offered sendBuffer)
    return (n, { s with websock := websock })

/-- `send<class_id, func_id>` -/
def send (s : Session) (classId funcId : ℕ) (v : RetVal) : Program (ℤ × Session) :=
  match Server.buildReply (UInt16.ofNat classId) (UInt16.ofNat funcId) v with
  | none => do
    overrun
    return (-1, s)
  | some sendBuffer => do
    let (bytesSend, s) ← s.write sendBuffer
    if bytesSend = 0 then return (bytesSend, { s with closed := true })
    return (bytesSend, s)

/-! ## Executing a command -/

/-- The code of `generate_call` -/
def generateCall (s : Session) (driver operation : ℕ) (op : Operation) :
    Program (ℤ × Session) := do
  call driver operation (op.arguments.map Arg.name)
  let v ← ret driver operation
  if op.retType = .void then return (0, s)
  s.send driver operation v

/-- `execute_operation<op>` -/
def executeOperation (arch : Arch) (s : Session) (driver operation : ℕ) (op : Operation)
    (cmd : Command) : Program (ℤ × Session) := do
  let (err, _) ← parser arch s.type driver operation op.packs cmd
  if err < 0 then return (-1, s)
  s.generateCall driver operation op

/-- `Driver<driver>::execute`, and `Server::execute`, whose mutex is `ks_mutex`. -/
def execute (arch : Arch) (drivers : List Driver) (s : Session) (driver : ℕ) (cmd : Command) :
    Program (ℤ × Session) := do
  let _ ← lock driver
  match findOperation drivers driver cmd.operation with
  | none => do
    unlock driver
    return (-1, s)
  | some op => do
    let (err, s) ← s.executeOperation arch driver cmd.operation op cmd
    unlock driver
    return (err, s)

end Session

namespace DriverManager

/-- The drivers that `start` and `execute_driver` go through. -/
def driverRange (drivers : List Driver) : List ℕ :=
  List.range' firstDriverId (deviceNum drivers - firstDriverId)

/-- `start_impl`; it has no instance without a driver. -/
def startImpl (driver : ℕ) : List ℕ → Program Unit
  | [] => return ()
  | [dev0] => allocDriver dev0
  | dev0 :: devs => if driver = dev0 then allocDriver dev0 else startImpl driver devs

/-- `execute_driver_implementation`, for a device of type `type`; it has no instance
without a driver. -/
def executeDriverImplementation (arch : Arch) (drivers : List Driver) (s : Session) (type : ℕ)
    (cmd : Command) : List ℕ → Program (ℤ × Session)
  | [] => return (-1, s)
  | [dev0] => s.execute arch drivers dev0 cmd
  | dev0 :: devs =>
    if type = dev0 then s.execute arch drivers dev0 cmd
    else executeDriverImplementation arch drivers s type cmd devs

/-- `DriverManager::execute`, with `NDEBUG`. -/
def execute (arch : Arch) (drivers : List Driver) (s : Session) (cmd : Command) :
    Program (ℤ × Session) := do
  if cmd.driver = 0 then return (0, s)
  if cmd.driver = 1 then return ← s.execute arch drivers 1 cmd
  let started ← isStarted (cmd.driver - firstDriverId)
  if !started then startImpl cmd.driver (driverRange drivers)
  let type ← device (cmd.driver - firstDriverId)
  executeDriverImplementation arch drivers s type cmd (driverRange drivers)

end DriverManager

/-! ## The session -/

/-- `Session<TCP>::read_command` -/
def Tcp.readCommand (cmd : Command) : Program (ℤ × Command) := do
  let (n, got) ← rcvNBytes headerSize
  let headerBytes := toInt n
  let cmd := { cmd with header := ⟨Buffer.overlay got cmd.header.data, cmd.header.position⟩ }
  if headerBytes = 0 then return (headerBytes, cmd)
  if headerBytes < 0 then return (headerBytes, cmd)
  let cmd := cmd.decodeHeader
  received cmd.driver cmd.operation
  return (headerBytes, cmd)

/-- `Session<WEBSOCK>::read_command` -/
def WebSocket.readCommand (fuel : ℕ) (ws : WebSocket) (cmd : Command) :
    Program (ℤ × WebSocket × Command) := do
  let (n, ws, cmd) ← ws.receiveCmd fuel cmd
  if n < 0 then return (-1, ws, cmd)
  if ws.connectionClosed then return (0, ws, cmd)
  if ws.payloadSize < KoheronSdk.headerSize then return (-1, ws, cmd)
  let cmd := cmd.decodeHeader
  received cmd.driver cmd.operation
  return (KoheronSdk.headerSize, ws, cmd)

namespace Session

/-- `read_command` -/
def readCommand (fuel : ℕ) (s : Session) (cmd : Command) : Program (ℤ × Session × Command) :=
  match s.type with
  | .tcp | .unix => do
    let (n, cmd) ← Tcp.readCommand cmd
    return (n, s, cmd)
  | .websock => do
    let (n, websock, cmd) ← s.websock.readCommand fuel cmd
    return (n, { s with websock := websock }, cmd)

/-- The loop of `run`.  It gives the number with which `run` returns at once, or
`none` when `exit_session` is still to be called. -/
def serve (arch : Arch) (drivers : List Driver) : ℕ → Session → Program (Option ℤ × Session)
  | 0, s => do
    outOfFuel
    return (none, s)
  | fuel + 1, s => do
    if ← exitSignal then return (none, s)
    let cmd := Command.uninitialized (← uninit)
    let (nbBytesRcvd, s, cmd) ← s.readCommand fuel cmd
    if ← exitSignal then return (none, s)
    if nbBytesRcvd ≤ 0 then return (some nbBytesRcvd, s)
    let (_, s) ← DriverManager.execute arch drivers s cmd
    if s.closed then return (none, s)
    serve arch drivers fuel s

/-- `init_socket`, where `authenticate` is the WebSocket handshake. -/
def initSocket (authenticate : Session → Program (ℤ × Session)) (s : Session) :
    Program (ℤ × Session) :=
  match s.type with
  | .tcp | .unix => return (0, s)
  | .websock => authenticate s

/-- `exit_socket` -/
def exitSocket (type : SockType) (s : Session) : Program ℤ :=
  match type with
  | .tcp | .unix => return 0
  | .websock => do
    let (n, _) ← s.websock.exit s.id
    return n

/-- `run` -/
def run (arch : Arch) (drivers : List Driver) (authenticate : Session → Program (ℤ × Session))
    (fuel : ℕ) (s : Session) : Program ℤ := do
  let (err, opened) ← s.initSocket authenticate
  if err < 0 then return -1
  match ← opened.serve arch drivers fuel with
  | (some n, _) => return n
  | (none, served) => do
    let _ ← exitSocket s.type served
    return 0

end Session

end KoheronSdk
