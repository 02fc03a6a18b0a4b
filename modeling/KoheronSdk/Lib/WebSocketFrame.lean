import KoheronSdk.Lib.ByteOrder

/-!
# WebSocket frames

The frames of RFC 6455 that carry a whole message: FIN is set, and the opcode says
text or binary.  A client masks the payload with a key of four bytes, a server does
not.  The payload length has a 7-bit, a 16-bit and a 64-bit form, and the shortest
one that fits must be used.

## Two ways to describe a frame

`ClientFrame.encode` and `serverFrame` say what a sender writes, and have only what a sender may
choose.  `Frame.next` says what lies in front of some bytes, for a receiver that looks at all of
the header: fragments, unmasked frames and lengths in a longer form than they need are frames too.
The two meet in `next_serverFrame`, by which a frame that is written is read back.

`Frame.next` is a function, so that `Delimits` (some bytes are these frames, one behind the other,
and a rest) determines the frames from the bytes and their number.  A statement about all frames
of a stream can therefore be made for every list of frames that the stream begins with.

* `ClientFrame.encode`: the bytes of a masked frame.
* `serverFrame`: the bytes of an unmasked binary frame; `next_serverFrame`: they are read
  back.
* `Frame.next`: the frame in front of some bytes, of any kind; `Delimits`: the frames
  one behind the other.
-/

namespace WebSocketFrame

open ByteOrder

/-- The opcodes of a message in one frame. -/
inductive Opcode where
  | text
  | binary
  deriving DecidableEq, Repr

/-- The number of an opcode. -/
def Opcode.code : Opcode → ℕ
  | .text => 1
  | .binary => 2

/-- The payload length with the mask bit `mask`, 128 or 0, in its shortest form. -/
def lengthField (mask n : ℕ) : List UInt8 :=
  if n ≤ 125 then [UInt8.ofNat (mask + n)]
  else if n ≤ 65535 then UInt8.ofNat (mask + 126) :: be 2 n
  else UInt8.ofNat (mask + 127) :: be 8 n

/-- A frame of a client; the three reserved bits belong to extensions. -/
structure ClientFrame where
  reserved : Fin 8
  opcode : Opcode
  key : Fin 4 → UInt8
  payload : List UInt8

/-- The payload as it is sent. -/
def ClientFrame.masked (f : ClientFrame) : List UInt8 :=
  f.payload.mapIdx fun i b => b ^^^ f.key (Fin.ofNat 4 i)

/-- The first byte: FIN, the reserved bits and the opcode. -/
def ClientFrame.first (f : ClientFrame) : UInt8 :=
  UInt8.ofNat (128 + 16 * f.reserved.val + f.opcode.code)

/-- The bytes before the payload. -/
def ClientFrame.header (f : ClientFrame) : List UInt8 :=
  f.first :: lengthField 128 f.payload.length ++ List.ofFn f.key

/-- The bytes of a frame. -/
def ClientFrame.encode (f : ClientFrame) : List UInt8 := f.header ++ f.masked

/-- An unmasked binary frame. -/
def serverFrame (payload : List UInt8) : List UInt8 :=
  130 :: lengthField 0 payload.length ++ payload

@[simp] theorem ClientFrame.length_masked (f : ClientFrame) :
    f.masked.length = f.payload.length := by
  rw [masked, List.length_mapIdx]

theorem length_lengthField (mask n : ℕ) :
    (lengthField mask n).length = if n ≤ 125 then 1 else if n ≤ 65535 then 3 else 9 := by
  unfold lengthField
  split
  · rfl
  · split <;> rfl

theorem ClientFrame.length_header (f : ClientFrame) :
    f.header.length = 5 + (lengthField 128 f.payload.length).length := by
  rw [header, List.length_append, List.length_cons, List.length_ofFn]
  omega

theorem ClientFrame.length_encode (f : ClientFrame) :
    f.encode.length = f.header.length + f.payload.length := by
  rw [encode, List.length_append, length_masked]

/-- The opcode is in the low half of the first byte. -/
theorem ClientFrame.opcode_first (f : ClientFrame) :
    (f.first &&& 0x0F).toNat = f.opcode.code := by
  have h : ∀ (r : Fin 8) (o : Opcode),
      (UInt8.ofNat (128 + 16 * r.val + o.code) &&& 0x0F).toNat = o.code := by
    intro r o
    cases o <;> revert r <;> decide
  exact h f.reserved f.opcode

/-- The form of the length is in the low bits of the second byte. -/
theorem form_lengthByte {n : ℕ} (h : n < 128) : (UInt8.ofNat (128 + n) &&& 0x7F).toNat = n := by
  revert n
  decide

/-- Masking twice gives the payload back. -/
theorem ClientFrame.unmask (f : ClientFrame) (i : ℕ) (hi : i < f.payload.length) :
    f.masked.getD i 0 ^^^ f.key (Fin.ofNat 4 i) = f.payload[i] := by
  have hget : f.masked.getD i 0 = f.payload[i] ^^^ f.key (Fin.ofNat 4 i) := by
    simp [masked, hi]
  rw [hget, UInt8.xor_assoc, UInt8.xor_self, UInt8.xor_zero]

/-! ## Any frame

What lies in front of some bytes, for whoever it is from.  RFC 6455 puts the length of
the frame into its first bytes: two, and an extended length of two or of eight more.
-/

/-- What the bytes before the masking key say. -/
structure FrameHeader where
  fin : Bool
  opcode : ℕ
  masked : Bool
  /-- The number of bytes of the extended length. -/
  extended : ℕ
  length : ℕ
  deriving DecidableEq, Repr

/-- The number of bytes of the extended length, in each of the three forms. -/
def extendedBytes (form : ℕ) : ℕ := if form = 126 then 2 else if form = 127 then 8 else 0

/-- Read the bytes before the masking key. -/
def FrameHeader.read : List UInt8 → Option FrameHeader
  | b₀ :: b₁ :: bs =>
    let form := (b₁ &&& 0x7F).toNat
    if extendedBytes form ≤ bs.length then
      some {
        fin := b₀ &&& 0x80 ≠ 0
        opcode := (b₀ &&& 0x0F).toNat
        masked := b₁ &&& 0x80 ≠ 0
        extended := extendedBytes form
        length := if extendedBytes form = 0 then form else ofBe (bs.take (extendedBytes form)) }
    else none
  | _ => none

/-- The number of bytes before the payload. -/
def FrameHeader.size (h : FrameHeader) : ℕ := 2 + h.extended + if h.masked then 4 else 0

/-- Mask or unmask some bytes. -/
def xorKey (key data : List UInt8) : List UInt8 := data.mapIdx fun i b => b ^^^ key.getD (i % 4) 0

@[simp] theorem length_xorKey (key data : List UInt8) : (xorKey key data).length = data.length :=
  List.length_mapIdx

/-- A frame, with its payload unmasked. -/
structure Frame where
  header : FrameHeader
  payload : List UInt8
  deriving DecidableEq, Repr

/-- The payload of a frame with this header in front of `bs`. -/
def FrameHeader.payload (h : FrameHeader) (bs : List UInt8) : List UInt8 :=
  let data := (bs.drop h.size).take h.length
  if h.masked then xorKey ((bs.drop (2 + h.extended)).take 4) data else data

/-- The frame in front of some bytes, if it is complete, and what comes after it. -/
def Frame.next (bs : List UInt8) : Option (Frame × List UInt8) :=
  match FrameHeader.read bs with
  | none => none
  | some h =>
    if h.size + h.length ≤ bs.length then
      some (⟨h, h.payload bs⟩, bs.drop (h.size + h.length))
    else none

/-- `bs` are the frames `fs`, one behind the other, and `rest`. -/
inductive Delimits : List UInt8 → List Frame → List UInt8 → Prop where
  | nil (bs : List UInt8) : Delimits bs [] bs
  | cons {bs bs' rest : List UInt8} {f : Frame} {fs : List Frame}
      (h : Frame.next bs = some (f, bs')) (t : Delimits bs' fs rest) : Delimits bs (f :: fs) rest

/-- One more frame behind the others. -/
theorem Delimits.concat {bs rest rest' : List UInt8} {f : Frame} {fs : List Frame}
    (h : Delimits bs fs rest) (hf : Frame.next rest = some (f, rest')) :
    Delimits bs (fs ++ [f]) rest' := by
  induction h with
  | nil bs => exact .cons hf (.nil rest')
  | cons hnext _ ih => exact .cons hnext (ih hf)

/-! ## The frames of a server -/

/-- The number of bytes of the extended length in the shortest form. -/
def shortestExtended (n : ℕ) : ℕ := if n ≤ 125 then 0 else if n ≤ 65535 then 2 else 8

theorem read_serverFrame {data : List UInt8} (h : data.length < 2 ^ 64) (rest : List UInt8) :
    FrameHeader.read (serverFrame data ++ rest)
      = some ⟨true, 2, false, shortestExtended data.length, data.length⟩ := by
  rw [serverFrame, lengthField, shortestExtended]
  by_cases h125 : data.length ≤ 125
  · have hform : ∀ n ≤ 125, (UInt8.ofNat (0 + n) &&& 0x7F).toNat = n ∧
        ¬ (UInt8.ofNat (0 + n) &&& 0x80 ≠ 0) ∧ extendedBytes n = 0 := by decide
    obtain ⟨hlow, hmask, hextended⟩ := hform _ h125
    simp only [if_pos h125, List.cons_append, List.nil_append, FrameHeader.read, hlow, hextended,
      Nat.zero_le, if_true, hmask, decide_false]
    rfl
  by_cases hmedium : data.length ≤ 65535
  · have hlen : 2 ≤ (be 2 data.length ++ (data ++ rest)).length := by
      rw [List.length_append, length_be]
      omega
    have htake : (be 2 data.length ++ (data ++ rest)).take 2 = be 2 data.length :=
      List.take_left' (length_be _ _)
    simp only [if_neg h125, if_pos hmedium, List.cons_append, List.append_assoc]
    rw [FrameHeader.read]
    simp only [show (UInt8.ofNat (0 + 126) &&& 0x7F).toNat = 126 from rfl,
      show extendedBytes 126 = 2 from rfl, if_pos hlen, htake]
    rw [ofBe_be_of_lt (show data.length < 256 ^ 2 by omega)]
    rfl
  · have hlen : 8 ≤ (be 8 data.length ++ (data ++ rest)).length := by
      rw [List.length_append, length_be]
      omega
    have htake : (be 8 data.length ++ (data ++ rest)).take 8 = be 8 data.length :=
      List.take_left' (length_be _ _)
    simp only [if_neg h125, if_neg hmedium, List.cons_append, List.append_assoc]
    rw [FrameHeader.read]
    simp only [show (UInt8.ofNat (0 + 127) &&& 0x7F).toNat = 127 from rfl,
      show extendedBytes 127 = 8 from rfl, if_pos hlen, htake]
    rw [ofBe_be_of_lt (show data.length < 256 ^ 8 by omega)]
    rfl

/-- **A frame of a server is read back**, whatever follows. -/
theorem next_serverFrame {data : List UInt8} (h : data.length < 2 ^ 64) (rest : List UInt8) :
    Frame.next (serverFrame data ++ rest)
      = some (⟨⟨true, 2, false, shortestExtended data.length, data.length⟩, data⟩, rest) := by
  obtain ⟨front, hfront, hlen⟩ : ∃ front : List UInt8, serverFrame data = front ++ data ∧
      front.length = 2 + shortestExtended data.length := by
    refine ⟨130 :: lengthField 0 data.length, rfl, ?_⟩
    rw [List.length_cons, length_lengthField, shortestExtended]
    split
    · rfl
    split <;> rfl
  rw [Frame.next, read_serverFrame h, hfront, List.append_assoc]
  simp only [FrameHeader.size, FrameHeader.payload, Bool.false_eq_true, if_false, Nat.add_zero,
    ← hlen]
  rw [if_pos (by simp only [List.length_append]; omega), List.drop_left, List.take_left,
    ← List.drop_drop, List.drop_left, List.drop_left]

end WebSocketFrame
