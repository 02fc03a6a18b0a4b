import KoheronSdk.Server.Action
import KoheronSdk.Server.Commands
import KoheronSdk.Server.Tcp
import KoheronSdk.Lib.WebSocketFrame

/-!
# The WebSocket interface

`websocket.hpp` and `websocket.cpp` without the handshake: reading a frame into
`read_str` and decoding it into a `Command`, the `recv` overloads and `deserialize`
of a WebSocket session, which read from the payload of the command, and sending.

`read_str` is memory of which the first `read_str_len` bytes belong to the frame
being read.  `WebSocket.Reads` says which bytes these are; every read appends to
them.  What else is in this memory is left over from earlier frames.

The definitions keep the arithmetic of the source, which is not what RFC 6455 asks for everywhere.
`header.fin` and `header.masked` are stored and nothing looks at them, the mask is taken
from where it would be, and `read_n_bytes` compares the bytes that have been read with
`KOHERON_READ_STR_LEN`, the length of another buffer.  The loop of `read_n_bytes` goes on
after a read error, so it has its fuel as an argument.

Sending is by whole frames: `set_send_header` writes the header in front of the data, in the buffer
of the last reply, and `send_request` goes on until `write()` has taken all or fails.

* `readNBytes`, `readHeader`, `readStream`, `receiveCmd`: receiving.
* `deserialize`, `recvArray`, `recvVector`, `recvString`: the arguments in the payload.
* `setSendHeader`, `sendRequest`, `send`: sending.
-/

namespace KoheronSdk

open Effects

/-- `KOHERON_READ_STR_LEN` -/
def koheronReadStrLen : ℕ := 16384

/-- `WEBSOCK_READ_STR_LEN` -/
def websockReadStrLen : ℕ := 16384 * 16

/-- `WEBSOCK_SEND_BUF_LEN` -/
def websockSendBufLen : ℕ := 16384 * 16

/-- `WebSocket` -/
structure WebSocket where
  readStr : ℕ → UInt8
  readStrLen : ℕ
  headerSize : ℕ
  maskOffset : ℕ
  payloadSize : ℤ
  connectionClosed : Bool

namespace WebSocket

/-! ## Receiving -/

/-- `reset_read_buff` -/
def resetReadBuff (ws : WebSocket) : WebSocket :=
  { ws with
    readStr := fun i => if i < ws.readStrLen then 0 else ws.readStr i
    readStrLen := 0 }

/-- Bytes have been read to `&read_str[read_str_len]`. -/
def filled (ws : WebSocket) (bs : List UInt8) : WebSocket :=
  { ws with
    readStr := fun i =>
      if ws.readStrLen ≤ i ∧ i < ws.readStrLen + bs.length then bs.getD (i - ws.readStrLen) 0
      else ws.readStr i
    readStrLen := ws.readStrLen + bs.length }

/-- The inner loop of `read_n_bytes`: it goes on as long as `read()` returns bytes. -/
def readLoop : ℕ → WebSocket → ℤ → ℤ → ℤ → Program (WebSocket × ℤ × ℤ × ℤ)
  | 0, ws, remaining, expected, bytesRead => do
    if 0 < remaining then outOfFuel
    return (ws, remaining, expected, bytesRead)
  | fuel + 1, ws, remaining, expected, bytesRead => do
    if 0 < remaining then
      match ← read remaining.toNat with
      | .zero => return (ws, remaining, expected, 0)
      | .negative => return (ws, remaining, expected, -1)
      | .bytes bs =>
        if websockReadStrLen < ws.readStrLen + bs.length then overrun
        let expected := expected - bs.length
        readLoop fuel (ws.filled bs) (remaining - bs.length)
          (if expected < 0 then 0 else expected) bs.length
    else return (ws, remaining, expected, bytesRead)

/-- The outer loop of `read_n_bytes`.  It goes on after a read error, so an error
that stays keeps it going. -/
def readNBytesLoop : ℕ → WebSocket → ℤ → ℤ → ℤ → Program (ℤ × WebSocket)
  | 0, ws, _, expected, _ => do
    if 0 < expected then outOfFuel
    return (0, ws)
  | fuel + 1, ws, remaining, expected, bytesRead => do
    if 0 < expected then
      let (ws, remaining, expected, bytesRead) ←
        readLoop remaining.toNat ws remaining expected bytesRead
      if bytesRead = 0 then return (1, { ws with connectionClosed := true })
      if ws.readStrLen = koheronReadStrLen then return (-1, ws)
      readNBytesLoop fuel ws remaining expected bytesRead
    else return (0, ws)

/-- `read_n_bytes` -/
def readNBytes (fuel : ℕ) (ws : WebSocket) (bytes expected : ℤ) : Program (ℤ × WebSocket) :=
  readNBytesLoop fuel ws bytes expected (-1)

/-- `check_opcode` -/
def checkOpcode (opcode : ℕ) : ℤ :=
  match opcode with
  | 0x0 => -1
  | 0x1 => 0
  | 0x2 => 0
  | 0x8 => 1
  | 0x9 => -1
  | 0xA => -1
  | _ => -1

/-- The end of `read_header`: the size check. -/
def checkPayloadSize (ws : WebSocket) : ℤ × WebSocket :=
  if ws.payloadSize > websockReadStrLen - 56 then (-1, ws) else (0, ws)

/-- `n` bytes of `read_str`, from `offset` on. -/
def readStrBytes (ws : WebSocket) (offset n : ℕ) : List UInt8 :=
  (List.range n).map fun i => ws.readStr (offset + i)

/-- `read_header` from the opcode on. -/
def readSize (fuel : ℕ) (ws : WebSocket) : Program (ℤ × WebSocket) := do
  let streamSize := (ws.readStr 1 &&& 0x7F).toNat
  let opcodeErr := checkOpcode (ws.readStr 0 &&& 0x0F).toNat
  if opcodeErr < 0 then return (-1, ws)
  if opcodeErr = 1 then return (opcodeErr, { ws with connectionClosed := true })
  if streamSize ≤ 125 then
    return checkPayloadSize { ws with headerSize := 6, payloadSize := streamSize, maskOffset := 2 }
  if streamSize = 126 then
    let (err, ws) ← readNBytes fuel ws 2 2
    if err < 0 then return (-1, ws)
    if ws.connectionClosed then return (0, ws)
    let s := (extractU16 (ws.readStrBytes 2 2)).toNat
    return checkPayloadSize { ws with headerSize := 8, payloadSize := s, maskOffset := 4 }
  if streamSize = 127 then
    let (err, ws) ← readNBytes fuel ws 8 8
    if err < 0 then return (-1, ws)
    if ws.connectionClosed then return (0, ws)
    let l := (extractU64 (ws.readStrBytes 2 8)).toInt64.toInt
    return checkPayloadSize { ws with headerSize := 14, payloadSize := l, maskOffset := 10 }
  return (-1, ws)

/-- `read_header` -/
def readHeader (fuel : ℕ) (ws : WebSocket) : Program (ℤ × WebSocket) := do
  let (err, ws) ← readNBytes fuel ws 6 6
  if err < 0 then return (-1, ws)
  if ws.connectionClosed then return (0, ws)
  readSize fuel ws

/-- `read_stream` -/
def readStream (fuel : ℕ) (ws : WebSocket) : Program (ℤ × WebSocket) := do
  let (readHeadErr, ws) ← readHeader fuel ws.resetReadBuff
  if readHeadErr < 0 then return (-1, ws)
  if readHeadErr = 1 then return (readHeadErr, ws)
  let (err, ws) ← readNBytes fuel ws ws.payloadSize ws.payloadSize
  if err < 0 then return (-1, ws)
  return (err, ws)

/-- `payload_ptr[i] ^ mask[i % 4]` -/
def unmasked (ws : WebSocket) (i : ℕ) : UInt8 :=
  ws.readStr (ws.maskOffset + 4 + i) ^^^ ws.readStr (ws.maskOffset + i % 4)

/-- `decode_raw_stream_cmd` -/
def decodeRawStreamCmd (ws : WebSocket) (cmd : Command) : ℤ × Command :=
  if ws.readStrLen < ws.headerSize + 1 then (-1, cmd)
  else
    (0, { cmd with
      header := { cmd.header with
        data := fun i => if i < KoheronSdk.headerSize then ws.unmasked i else cmd.header.data i }
      payload := { cmd.payload with
        data := fun j =>
          if ((j + KoheronSdk.headerSize : ℕ) : ℤ) < ws.payloadSize then
            ws.unmasked (j + KoheronSdk.headerSize)
          else cmd.payload.data j } })

/-- `receive_cmd` -/
def receiveCmd (fuel : ℕ) (ws : WebSocket) (cmd : Command) :
    Program (ℤ × WebSocket × Command) := do
  if ws.connectionClosed then return (0, ws, cmd)
  let (err, ws) ← readStream fuel ws
  if err < 0 then return (-1, ws, cmd)
  if err = 1 then return (0, ws, cmd)
  let (err, cmd) := decodeRawStreamCmd ws cmd
  if err < 0 then return (-1, ws, cmd)
  return (toInt ws.payloadSize, ws, cmd)

/-! ## The arguments in the payload -/

/-- `deserialize<Tp...>` -/
def deserialize (ts : List ScalarType) (cmd : Command) : ℤ × List ScalarVal × Command :=
  let (vals, payload) := cmd.payload.deserialize ts
  (0, vals, { cmd with payload := payload })

/-- `recv(std::array<T, N>&)` -/
def recvArray (driver operation : ℕ) (name : String) (t : ScalarType) (n : ℕ) (cmd : Command) :
    Program (ℤ × Command) := do
  let (vals, payload) := cmd.payload.extractArray t n
  store driver operation name (some (.array vals))
  return (0, { cmd with payload := payload })

/-- `recv(std::vector<T>&)` -/
def recvVector (driver operation : ℕ) (name : String) (t : ScalarType) (cmd : Command) :
    Program (ℤ × Command) := do
  let (length, payload) := cmd.payload.deserializeU32
  if cmdPayloadBufferLen < length then return (-1, { cmd with payload := payload })
  let (vals, payload) := payload.toVector t (length / t.size)
  store driver operation name (some (.vector vals))
  return (0, { cmd with payload := payload })

/-- `recv(std::string&)` -/
def recvString (driver operation : ℕ) (name : String) (cmd : Command) :
    Program (ℤ × Command) := do
  let (length, payload) := cmd.payload.deserializeU32
  if cmdPayloadBufferLen < length then return (-1, { cmd with payload := payload })
  let (bytes, payload) := payload.toString length
  store driver operation name (some (.string bytes))
  return (0, { cmd with payload := payload })

/-! ## Sending -/

/-- `set_send_header`: the bytes before the data, as many as it returns. -/
def setSendHeader (dataLen : ℕ) (format : UInt8) : List UInt8 :=
  if dataLen ≤ 125 then [format, UInt8.ofNat dataLen]
  else if dataLen ≤ 0xFFFF then
    [format, 126, UInt8.ofNat (dataLen >>> 8), UInt8.ofNat dataLen]
  else
    [format, 127, UInt8.ofNat (dataLen >>> 56), UInt8.ofNat (dataLen >>> 48),
      UInt8.ofNat (dataLen >>> 40), UInt8.ofNat (dataLen >>> 32), UInt8.ofNat (dataLen >>> 24),
      UInt8.ofNat (dataLen >>> 16), UInt8.ofNat (dataLen >>> 8), UInt8.ofNat dataLen]

/-- The loop of `send_request`, with the bytes that are left. -/
def sendLoop (dest : SessionID) : ℕ → List UInt8 → ℤ → Program ℤ
  | 0, bits, bytesSend => do
    if 0 < bits.length then outOfFuel
    return bytesSend
  | fuel + 1, bits, bytesSend => do
    if 0 < bits.length then
      let n ← write dest bits
      if 0 < n then sendLoop dest fuel (bits.drop n.toNat) n else return n
    else return bytesSend

/-- `send_request` -/
def sendRequest (ws : WebSocket) (dest : SessionID) (bits : List UInt8) :
    Program (ℤ × WebSocket) := do
  if ws.connectionClosed then return (0, ws)
  let bytesSend ← sendLoop dest bits.length bits 0
  if bytesSend < 0 then return (-1, { ws with connectionClosed := true })
  return (bytesSend, ws)

/-- `send`, for the bytes of `send_buffer` -/
def send (ws : WebSocket) (dest : SessionID) (data : List UInt8) : Program (ℤ × WebSocket) := do
  if ws.connectionClosed then return (0, ws)
  if websockSendBufLen < data.length + 10 then return (-1, ws)
  sendRequest ws dest (setSendHeader data.length 130 ++ data)

/-- `exit` -/
def exit (ws : WebSocket) (dest : SessionID) : Program (ℤ × WebSocket) :=
  sendRequest ws dest (setSendHeader 0 136)

end WebSocket

end KoheronSdk
