import Mathlib.Data.List.GetD
import Mathlib.Logic.Function.Basic
import KoheronSdk.Server.WebSocket

/-!
# Sending on a WebSocket

`WebSocket::send` puts header and data together in `send_buf`, memory that still holds what
was sent before, and hands the front of it to `send_request`, which calls `write()` until
nothing is left.

The model of `Server/WebSocket` sends header and data as a list.  Here `send` is translated once
more with its accesses to memory: the `memset` of the header bytes, the header that is written
byte by byte in one of three forms, and the `memcpy` behind it.  That nothing of what was sent
before remains in the bytes that go out is `sendInBuffer_eq`, and it comes to the list.

The loop of `send_request` is followed for surroundings in which a `write()` takes at least one byte
when it is offered some; then it needs no more rounds than there are bytes.  What is on the socket
in the end is one frame, and `IsOneFrame` says what is asked of it, bit by bit: FIN, no
reserved bits, binary, not masked, and the length in its shortest form.

* `sendInBuffer`: `send` with the accesses to `send_buf`; `sendInBuffer_eq`: they come to
  header and data, one behind the other.
* `wp_sendLoop_positive`: as long as `write()` takes something, all is written.
* `sendInBuffer_oneFrame`: one binary frame is put on the socket.
-/

namespace KoheronSdk

open Effects WebSocketFrame

namespace WebSocket

/-! ## The buffer -/

/-- `set_send_header`: the contents of `bits`, and what it returns. -/
def setSendHeaderIn (bits : ℕ → UInt8) (dataLen : ℕ) (format : UInt8) : (ℕ → UInt8) × ℕ :=
  let bits := fun i => if i < 10 + dataLen then 0 else bits i
  let bits := Function.update bits 0 format
  if dataLen ≤ 125 then
    let bits := Function.update bits 1 (UInt8.ofNat dataLen)
    (bits, 2)
  else if dataLen ≤ 0xFFFF then
    let bits := Function.update bits 1 126
    let bits := Function.update bits 2 (UInt8.ofNat (dataLen >>> 8))
    let bits := Function.update bits 3 (UInt8.ofNat dataLen)
    (bits, 4)
  else
    let bits := Function.update bits 1 127
    let bits := Function.update bits 2 (UInt8.ofNat (dataLen >>> 56))
    let bits := Function.update bits 3 (UInt8.ofNat (dataLen >>> 48))
    let bits := Function.update bits 4 (UInt8.ofNat (dataLen >>> 40))
    let bits := Function.update bits 5 (UInt8.ofNat (dataLen >>> 32))
    let bits := Function.update bits 6 (UInt8.ofNat (dataLen >>> 24))
    let bits := Function.update bits 7 (UInt8.ofNat (dataLen >>> 16))
    let bits := Function.update bits 8 (UInt8.ofNat (dataLen >>> 8))
    let bits := Function.update bits 9 (UInt8.ofNat dataLen)
    (bits, 10)

/-- `memcpy(&bits[offset], data, ...)` -/
def copiedTo (bits : ℕ → UInt8) (offset : ℕ) (data : List UInt8) : ℕ → UInt8 :=
  fun i => if offset ≤ i ∧ i < offset + data.length then data.getD (i - offset) 0 else bits i

/-- `send`, with `sendBuf` in `send_buf`. -/
def sendInBuffer (ws : WebSocket) (sendBuf : ℕ → UInt8) (dest : SessionID) (data : List UInt8) :
    Program (ℤ × WebSocket) := do
  if ws.connectionClosed then return (0, ws)
  if websockSendBufLen < data.length + 10 then return (-1, ws)
  let (bits, maskOffset) := setSendHeaderIn sendBuf data.length 130
  let bits := copiedTo bits maskOffset data
  sendRequest ws dest ((List.range (maskOffset + data.length)).map bits)

/-- Header and data do not overlap. -/
theorem map_range_copiedTo (bits : ℕ → UInt8) (offset : ℕ) (data : List UInt8) :
    (List.range (offset + data.length)).map (copiedTo bits offset data)
      = (List.range offset).map bits ++ data := by
  rw [List.range_add, List.map_append, List.map_map]
  congr 1
  · refine List.map_congr_left fun i hi => ?_
    have hlt := List.mem_range.mp hi
    exact if_neg fun h => by omega
  · refine List.ext_getElem (by rw [List.length_map, List.length_range]) fun i hi hi' => ?_
    rw [List.getElem_map, List.getElem_range, Function.comp_apply, copiedTo,
      if_pos ⟨Nat.le_add_right _ _, by omega⟩, Nat.add_sub_cancel_left,
      List.getD_eq_getElem _ _ hi']

/-- The bytes in front of the data, whatever was in the buffer. -/
theorem map_range_setSendHeaderIn (bits : ℕ → UInt8) (dataLen : ℕ) (format : UInt8) :
    (List.range (setSendHeaderIn bits dataLen format).2).map (setSendHeaderIn bits dataLen format).1
      = setSendHeader dataLen format := by
  unfold setSendHeaderIn setSendHeader
  split
  · rfl
  split
  · rfl
  · rfl

/-- **What is sent is the header and the data.** -/
theorem sendInBuffer_eq (ws : WebSocket) (sendBuf : ℕ → UInt8) (dest : SessionID)
    (data : List UInt8) : ws.sendInBuffer sendBuf dest data = ws.send dest data := by
  unfold sendInBuffer send
  simp only [map_range_copiedTo, map_range_setSendHeaderIn]

/-- The header of `send` makes the data a binary frame. -/
theorem setSendHeader_append (data : List UInt8) :
    setSendHeader data.length 130 ++ data = serverFrame data := by
  rw [setSendHeader, serverFrame, lengthField]
  split
  · rw [Nat.zero_add]
  split
  · simp [ByteOrder.be_succ, Nat.shiftRight_eq_div_pow]
  · simp [ByteOrder.be_succ, Nat.shiftRight_eq_div_pow]

end WebSocket

/-! ## Writing -/

/-- The bytes that an event puts on the socket. -/
def Event.sent : Event → List UInt8
  | .wrote _ offered n => offered.take n.toNat
  | _ => []

/-- The bytes on the socket. -/
def sentOf (t : List Event) : List UInt8 := t.flatMap Event.sent

/-- The view when some events have been added to the trace. -/
def View.logAll (w : View) (es : List Event) : View := { w with trace := w.trace ++ es }

theorem View.log_logAll (w : View) (e : Event) (es : List Event) :
    (w.log e).logAll es = w.logAll (e :: es) := by
  rw [View.logAll, View.logAll, View.log]
  simp only [List.append_assoc, List.singleton_append]

/-- Surroundings in which a `write()` of some bytes takes at least one of them. -/
def Env.positiveWrites : Env := ⟨fun _ => True, fun bytes n => bytes ≠ [] → 0 < n⟩

/-- Nothing but `bytes` has been put on the socket of `dest`. -/
structure Emitted (dest : SessionID) (bytes : List UInt8) (es : List Event) : Prop where
  writes : ∀ e ∈ es, ∃ offered n, e = .wrote dest offered n
  sent : sentOf es = bytes

theorem Emitted.nil {dest : SessionID} : Emitted dest [] [] :=
  ⟨fun _ h => (List.not_mem_nil h).elim, rfl⟩

theorem Emitted.cons {dest : SessionID} {bytes : List UInt8} {n : ℤ} {es : List Event}
    (h : Emitted dest (bytes.drop n.toNat) es) :
    Emitted dest bytes (.wrote dest bytes n :: es) := by
  constructor
  · intro e he
    rcases List.mem_cons.mp he with rfl | he
    · exact ⟨bytes, n, rfl⟩
    · exact h.writes e he
  · have hsent : sentOf es = bytes.drop n.toNat := h.sent
    rw [sentOf, List.flatMap_cons, ← sentOf, hsent]
    exact List.take_append_drop _ _

section Send

variable {drivers : List Driver} {w : View} {dest : SessionID}

/-- The loop of `send_request` writes all of the bytes, however they are taken. -/
theorem wp_sendLoop_positive {fuel : ℕ} {bits : List UInt8} {bytesSend : ℤ}
    (hfuel : bits.length ≤ fuel) (hpos : bits = [] → 0 < bytesSend) :
    (session drivers .positiveWrites).wp (WebSocket.sendLoop dest fuel bits bytesSend)
      (fun r => ∃ k es, r = .ret k (w.logAll es) ∧ 0 < k ∧ Emitted dest bits es) w := by
  have hdone : ∀ w : View, w = w.logAll [] := fun w => by
    rw [View.logAll, List.append_nil]
  induction fuel generalizing bits bytesSend w with
  | zero =>
    obtain rfl : bits = [] := List.length_eq_zero_iff.mp (Nat.le_zero.mp hfuel)
    exact ⟨bytesSend, [], congrArg _ (hdone w), hpos rfl, .nil⟩
  | succ fuel ih =>
    rw [WebSocket.sendLoop]
    by_cases hbits : 0 < bits.length
    · have hne : bits ≠ [] := List.length_pos_iff.mp hbits
      simp only [if_pos hbits]
      rw [Handler.wp_bind, wp_write]
      intro n _ hle hwrite
      have hn : 0 < n := hwrite hne
      rw [Handler.andThen_ret, if_pos hn]
      have hshort : (bits.drop n.toNat).length ≤ fuel := by
        rw [List.length_drop]
        omega
      refine (session drivers .positiveWrites).wp_mono ?_ (ih hshort fun _ => hn)
      rintro r ⟨k, es, rfl, hk, hes⟩
      exact ⟨k, _, congrArg _ (View.log_logAll w _ es), hk, hes.cons⟩
    · obtain rfl : bits = [] := List.length_eq_zero_iff.mp (Nat.eq_zero_of_not_pos hbits)
      simp only [if_neg hbits]
      exact ⟨bytesSend, [], congrArg _ (hdone w), hpos rfl, .nil⟩

/-- The bytes are one frame and nothing else: FIN is set, the reserved bits are not, it is
binary and not masked, its length is in the shortest form, and its payload are the data. -/
structure IsOneFrame (data bytes : List UInt8) : Prop where
  first : bytes.head? = some 0x82
  parses : Frame.next bytes
    = some (⟨⟨true, 2, false, shortestExtended data.length, data.length⟩, data⟩, [])

theorem isOneFrame_serverFrame {data : List UInt8} (h : data.length < 2 ^ 64) :
    IsOneFrame data (serverFrame data) := by
  constructor
  · rfl
  · rw [← List.append_nil (serverFrame data)]
    exact next_serverFrame h []

/-- **`send` puts one frame on the socket**, and returns a positive number; if the data do
not fit the buffer it returns -1 and writes nothing. -/
theorem sendInBuffer_oneFrame (drivers : List Driver) {ws : WebSocket}
    (hopen : ws.connectionClosed = false) (sendBuf : ℕ → UInt8) (dest : SessionID)
    (data : List UInt8) (w : View) :
    ∀ pick, (session drivers .positiveWrites).Allows pick →
      if data.length + 10 ≤ websockSendBufLen then
        ∃ k es bytes, (session drivers .positiveWrites).exec pick 0
            (ws.sendInBuffer sendBuf dest data) w = .ret (k, ws) (w.logAll es) ∧
          0 < k ∧ Emitted dest bytes es ∧ IsOneFrame data bytes
      else
        (session drivers .positiveWrites).exec pick 0 (ws.sendInBuffer sendBuf dest data) w
          = .ret (-1, ws) w := by
  intro pick hpick
  have hclosed : ¬ ws.connectionClosed = true := by rw [hopen]; exact Bool.false_ne_true
  rw [ws.sendInBuffer_eq, WebSocket.send, if_neg hclosed]
  split
  · rename_i hfits
    rw [if_neg (Nat.not_lt.mpr hfits), WebSocket.setSendHeader_append]
    suffices hsent : (session drivers .positiveWrites).wp (ws.sendRequest dest (serverFrame data))
        (fun r => ∃ k es bytes, r = .ret (k, ws) (w.logAll es) ∧ 0 < k ∧
          Emitted dest bytes es ∧ IsOneFrame data bytes) w from
      (session drivers .positiveWrites).wp_exec hpick hsent 0
    rw [WebSocket.sendRequest, if_neg hclosed]
    have hne : serverFrame data = [] → 0 < (0 : ℤ) := fun h => absurd h (List.cons_ne_nil _ _)
    refine (session drivers .positiveWrites).wp_bind_intro
      ((session drivers .positiveWrites).wp_mono ?_ (wp_sendLoop_positive le_rfl hne))
    rintro r ⟨k, es, rfl, hk, hes⟩
    have hlen : data.length < 2 ^ 64 := by
      rw [websockSendBufLen] at hfits
      omega
    rw [Handler.andThen_ret, if_neg (not_lt_of_gt hk)]
    exact ⟨k, es, serverFrame data, rfl, hk, hes, isOneFrame_serverFrame hlen⟩
  · rename_i hlarge
    rw [if_pos (Nat.lt_of_not_le hlarge)]
    rfl

end Send

theorem eager_allows_positiveWrites (drivers : List Driver) :
    (session drivers .positiveWrites).Allows (eager drivers) := by
  intro i e w hs
  refine ⟨(eager_allows drivers i e w hs).1, ?_⟩
  cases e with
  | write dest bytes => exact fun hne => Int.natCast_pos.mpr (List.length_pos_iff.mpr hne)
  | _ => trivial

/-- The shortest data that need the 16-bit length. -/
theorem sendInBuffer_oneFrame_126 :
    ∃ k es bytes, (session probeDrivers .positiveWrites).exec (eager probeDrivers) 0
        (WebSocket.sendInBuffer ⟨fun _ => 0, 0, 0, 0, 0, false⟩ (fun _ => 255) 7
          (List.replicate 126 9)) (View.start [] .eof)
          = .ret (k, ⟨fun _ => 0, 0, 0, 0, 0, false⟩) ((View.start [] .eof).logAll es) ∧
      0 < k ∧ Emitted 7 bytes es ∧ IsOneFrame (List.replicate 126 9) bytes := by
  obtain ⟨data, hdata⟩ : ∃ data : List UInt8, data = List.replicate 126 9 := ⟨_, rfl⟩
  have hopen : (⟨fun _ => 0, 0, 0, 0, 0, false⟩ : WebSocket).connectionClosed = false := rfl
  have hfits : data.length + 10 ≤ websockSendBufLen := by
    rw [hdata, List.length_replicate]
    decide
  have hsend := sendInBuffer_oneFrame probeDrivers hopen (fun _ => 255) 7 data
    (View.start [] .eof) (eager probeDrivers) (eager_allows_positiveWrites probeDrivers)
  rw [if_pos hfits] at hsend
  rwa [← hdata]

end KoheronSdk
