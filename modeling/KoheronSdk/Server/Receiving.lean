import Mathlib.Data.List.GetD
import KoheronSdk.Server.Serving

/-!
# Receiving WebSocket commands

What `receive_cmd` makes of a frame.  The header comes in two reads, where the second
one depends on the form of the length, and the payload in a third; `read_n_bytes`
appends all of them to `read_str`, and takes the fill level of another buffer,
`KOHERON_READ_STR_LEN`, for an overflow.

The frames are those of a client that keeps to RFC 6455, in any of the three forms of the length
that is the shortest one for its payload, with any key, and of a size that the server takes.  What
is in `read_str` is said by `WebSocket.Reads`, and each read is an extension of it, so the three
reads of a frame are three applications of one rule (`wp_readNBytes`), which does not depend on how
the stream is cut.

The overflow test stands behind each of the reads, and compares for equality.  A frame can meet it
with all of its bytes only, since the reads before are of a few bytes; so the frames that are lost
are those with exactly one length.  That these are lost is shown as well: the condition is exact.

A sequence of frames is received by as many calls, each on a new command and on the same WebSocket,
whose buffer is reset in between.  The induction is on the frames.

* `wp_readNBytes`: `read_n_bytes` does not depend on how the stream is cut.
* `wp_receiveCmd`: one frame.
* `receiveCmds_iff`: a sequence of frames is received as it was sent if and only if
  no payload has the one length that fills `read_str` to that level.
-/

namespace KoheronSdk

open Effects ByteOrder WebSocketFrame

/-! ## The read buffer -/

namespace WebSocket

@[simp] theorem readStrLen_filled (ws : WebSocket) (bs : List UInt8) :
    (ws.filled bs).readStrLen = ws.readStrLen + bs.length := rfl

@[simp] theorem connectionClosed_filled (ws : WebSocket) (bs : List UInt8) :
    (ws.filled bs).connectionClosed = ws.connectionClosed := rfl

theorem readStr_filled_eq (ws : WebSocket) (bs : List UInt8) (i : ℕ) :
    (ws.filled bs).readStr i =
      if ws.readStrLen ≤ i ∧ i < ws.readStrLen + bs.length then bs.getD (i - ws.readStrLen) 0
      else ws.readStr i := rfl

theorem filled_congr {ws : WebSocket} {bs : List UInt8} {str : ℕ → UInt8}
    (h : (ws.filled bs).readStr = str) :
    ws.filled bs = { ws with readStr := str, readStrLen := ws.readStrLen + bs.length } := by
  rw [← h]
  rfl

@[simp] theorem filled_nil (ws : WebSocket) : ws.filled [] = ws := by
  refine filled_congr (funext fun i => ?_)
  exact if_neg fun h => absurd h.2 (Nat.not_lt.mpr h.1)

/-- Reading in two parts. -/
theorem filled_filled (ws : WebSocket) (bs bs' : List UInt8) :
    (ws.filled bs).filled bs' = ws.filled (bs ++ bs') := by
  have hstr : ((ws.filled bs).filled bs').readStr = (ws.filled (bs ++ bs')).readStr := by
    funext i
    rw [readStr_filled_eq, readStr_filled_eq, readStr_filled_eq, readStrLen_filled,
      List.length_append]
    by_cases h : ws.readStrLen + bs.length ≤ i
    · have hsub : i - ws.readStrLen - bs.length = i - (ws.readStrLen + bs.length) := by omega
      rw [List.getD_append_right _ _ _ _ (by omega), hsub]
      by_cases h2 : i < ws.readStrLen + bs.length + bs'.length
      · rw [if_pos ⟨h, h2⟩, if_pos ⟨by omega, by omega⟩]
      · rw [if_neg (by omega), if_neg (by omega), if_neg (by omega)]
    · rw [if_neg (by omega)]
      by_cases h2 : ws.readStrLen ≤ i
      · rw [if_pos ⟨h2, by omega⟩, if_pos ⟨h2, by omega⟩, List.getD_append _ _ _ _ (by omega)]
      · rw [if_neg (by omega), if_neg (by omega)]
  refine (filled_congr hstr).trans ?_
  rw [readStrLen_filled, filled, filled, List.length_append, Nat.add_assoc]

/-- In an empty buffer the bytes lie at their places. -/
theorem readStr_filled {ws : WebSocket} (h : ws.readStrLen = 0) {bs : List UInt8} {i : ℕ}
    (hi : i < bs.length) : (ws.filled bs).readStr i = bs.getD i 0 := by
  rw [readStr_filled_eq, h, Nat.zero_add, Nat.sub_zero, if_pos ⟨Nat.zero_le i, hi⟩]

theorem readStrBytes_filled {ws : WebSocket} (h : ws.readStrLen = 0) {bs : List UInt8}
    {offset n : ℕ} (hn : offset + n ≤ bs.length) :
    (ws.filled bs).readStrBytes offset n = (bs.drop offset).take n := by
  refine List.ext_getElem ?_ fun i hi hi' => ?_
  · rw [readStrBytes, List.length_map, List.length_range, List.length_take, List.length_drop]
    omega
  · have hin : i < n := by rwa [readStrBytes, List.length_map, List.length_range] at hi
    simp only [readStrBytes, List.getElem_map, List.getElem_range, List.getElem_take,
      List.getElem_drop]
    rw [readStr_filled h (by omega), List.getD_eq_getElem _ _ (by omega)]

end WebSocket

/-! ## `read_n_bytes` -/

section Rules

variable {drivers : List Driver} {env : Env} {w : View} {ws : WebSocket}

/-- The inner loop ends when everything has been read. -/
theorem wp_readLoop {fuel n : ℕ} (hfuel : n ≤ fuel) (hn : n ≤ w.input.length)
    (hroom : ws.readStrLen + n ≤ websockReadStrLen) {bytesRead : ℤ}
    (hread : 0 < n ∨ 0 < bytesRead) {post : Result Stop View (WebSocket × ℤ × ℤ × ℤ) → Prop}
    (hpost : ∀ m : ℤ, 0 < m → post (.ret (ws.filled (w.input.take n), 0, 0, m) (w.advance n))) :
    (session drivers env).wp (WebSocket.readLoop fuel ws n n bytesRead) post w := by
  induction fuel generalizing ws n w bytesRead with
  | zero =>
    obtain rfl : n = 0 := Nat.le_zero.mp hfuel
    have h := hpost bytesRead (hread.resolve_left (Nat.lt_irrefl 0))
    rw [List.take_zero, WebSocket.filled_nil] at h
    exact h
  | succ fuel ih =>
    by_cases hpos : 0 < n
    · have hpos' : (0 : ℤ) < n := by omega
      have hin : w.input ≠ [] := by
        intro h
        rw [h, List.length_nil] at hn
        omega
      rw [WebSocket.readLoop, if_pos hpos', Int.toNat_natCast, Handler.wp_bind, wp_read hpos hin]
      intro bs hne hlen hpre
      have hbs : 0 < bs.length := List.length_pos_of_ne_nil hne
      have hfull : ¬ websockReadStrLen < ws.readStrLen + bs.length := by omega
      have hleft : (n : ℤ) - bs.length = (n - bs.length : ℕ) := by omega
      have hexpected : ¬ ((n - bs.length : ℕ) : ℤ) < 0 := by omega
      simp only [Handler.andThen_ret, if_neg hfull, hleft, if_neg hexpected]
      have htake : bs ++ (w.advance bs.length).input.take (n - bs.length) = w.input.take n := by
        obtain ⟨rest, hrest⟩ := hpre
        rw [View.input_advance, ← hrest, List.drop_left, List.take_append,
          List.take_of_length_le hlen]
      refine ih (by omega) ?_ ?_ (Or.inr (by omega)) ?_
      · rw [View.input_advance, List.length_drop]
        omega
      · rw [WebSocket.readStrLen_filled]
        omega
      · intro m hm
        rw [WebSocket.filled_filled, htake, View.advance_advance, Nat.add_sub_cancel' hlen]
        exact hpost m hm
    · obtain rfl : n = 0 := Nat.eq_zero_of_not_pos hpos
      have h := hpost bytesRead (hread.resolve_left (Nat.lt_irrefl 0))
      rw [List.take_zero, WebSocket.filled_nil] at h
      exact h

/-- **`read_n_bytes` does not depend on how the stream is cut.**  It fails when the
bytes fill the buffer to `KOHERON_READ_STR_LEN`. -/
theorem wp_readNBytes {fuel n : ℕ} (hfuel : 0 < fuel) (hn : n ≤ w.input.length)
    (hroom : ws.readStrLen + n ≤ websockReadStrLen) {post : Result Stop View (ℤ × WebSocket) → Prop}
    (hpost : post (.ret (if 0 < n ∧ ws.readStrLen + n = koheronReadStrLen then -1 else 0,
      ws.filled (w.input.take n)) (w.advance n))) :
    (session drivers env).wp (ws.readNBytes fuel n n) post w := by
  obtain ⟨fuel, rfl⟩ := Nat.exists_eq_add_of_lt hfuel
  rw [Nat.zero_add]
  by_cases hpos : 0 < n
  · have hpos' : (0 : ℤ) < n := by omega
    rw [WebSocket.readNBytes, WebSocket.readNBytesLoop, if_pos hpos', Int.toNat_natCast,
      Handler.wp_bind]
    refine wp_readLoop (Nat.le_refl n) hn hroom (Or.inl hpos) ?_
    intro m hm
    have hm0 : ¬ m = 0 := by omega
    have hlen : (ws.filled (w.input.take n)).readStrLen = ws.readStrLen + n := by
      rw [WebSocket.readStrLen_filled, List.length_take_of_le hn]
    simp only [Handler.andThen_ret, if_neg hm0, hlen]
    by_cases hfull : ws.readStrLen + n = koheronReadStrLen
    · rw [if_pos ⟨hpos, hfull⟩] at hpost
      rw [if_pos hfull]
      exact hpost
    · rw [if_neg fun h => hfull h.2] at hpost
      rw [if_neg hfull]
      cases fuel <;> exact hpost
  · obtain rfl : n = 0 := Nat.eq_zero_of_not_pos hpos
    rw [if_neg fun h => hpos h.1, List.take_zero, WebSocket.filled_nil] at hpost
    exact hpost

/-! ## The header -/

/-- The fields that `read_header` sets. -/
def WebSocket.headed (ws : WebSocket) (f : ClientFrame) : WebSocket :=
  { ws with
    headerSize := f.header.length
    payloadSize := f.payload.length
    maskOffset := f.header.length - 4 }

theorem checkOpcode_code (o : Opcode) : WebSocket.checkOpcode o.code = 0 := by
  cases o <;> rfl

/-- The 16-bit and the 64-bit length are read back. -/
theorem extractU16_be {n : ℕ} (h : n < 2 ^ 16) : (extractU16 (be 2 n)).toNat = n := by
  have hn : (UInt16.ofNat n).toNat = n := UInt16.toNat_ofNat_of_lt' h
  have hbe : be 2 n = appendU16 (UInt16.ofNat n) ++ [] := by
    rw [List.append_nil, appendU16_eq, hn]
  rw [hbe, extractU16_appendU16, hn]

theorem extractU64_be {n : ℕ} (h : n < 2 ^ 63) : (extractU64 (be 8 n)).toInt64.toInt = n := by
  have hn : (UInt64.ofNat n).toNat = n := UInt64.toNat_ofNat_of_lt' (lt_trans h (by decide))
  have hbe : be 8 n = appendU64 (UInt64.ofNat n) ++ [] := by
    rw [List.append_nil, appendU64_eq, hn]
  rw [hbe, extractU64_appendU64, UInt64.toInt64_ofNat', Int64.toInt_ofNat_of_lt h]

/-- A frame of a size that the server takes. -/
def Acceptable (f : ClientFrame) : Prop :=
  8 ≤ f.payload.length ∧ f.payload.length ≤ websockReadStrLen - 56

theorem Acceptable.checkPayloadSize {f : ClientFrame} (hf : Acceptable f) (ws : WebSocket) :
    (ws.headed f).checkPayloadSize = (0, ws.headed f) := by
  have h : ¬ ((f.payload.length : ℕ) : ℤ) > (websockReadStrLen : ℤ) - 56 := by
    have := hf.2
    rw [websockReadStrLen] at this ⊢
    omega
  exact if_neg h

section Header

variable {f : ClientFrame} {rest : List UInt8}

theorem six_le_length_header (f : ClientFrame) : 6 ≤ f.header.length := by
  rw [f.length_header, length_lengthField]
  split_ifs <;> omega

theorem length_header_le (f : ClientFrame) : f.header.length ≤ 14 := by
  rw [f.length_header, length_lengthField]
  split_ifs <;> omega

/-- What is read of a header is what was sent of it. -/
theorem take_input_header (hin : w.input = f.encode ++ rest) {k : ℕ} (hk : k ≤ f.header.length) :
    w.input.take k = f.header.take k := by
  rw [hin, ClientFrame.encode, List.append_assoc, List.take_append_of_le_length hk]

theorem length_header_le_input (hin : w.input = f.encode ++ rest) :
    f.header.length ≤ w.input.length := by
  rw [hin, ClientFrame.encode, List.length_append, List.length_append]
  omega

/-- The second byte, which has the length or says where it is. -/
theorem readStr_one_header (hempty : ws.readStrLen = 0) {b : UInt8} {bs : List UInt8}
    (hfield : lengthField 128 f.payload.length = b :: bs) :
    (ws.filled (f.header.take 6)).readStr 1 = b := by
  have hlen : (f.header.take 6).length = 6 := List.length_take_of_le (six_le_length_header f)
  rw [WebSocket.readStr_filled hempty (by omega)]
  simp only [ClientFrame.header, hfield]
  rfl

/-- The bytes of a length that does not fit in the second byte. -/
theorem readStrBytes_header (hempty : ws.readStrLen = 0) {b : UInt8} {k : ℕ}
    (hfield : lengthField 128 f.payload.length = b :: be k f.payload.length)
    (hlen : f.header.length = 6 + k) :
    (ws.filled (f.header.take (6 + k))).readStrBytes 2 k = be k f.payload.length := by
  rw [WebSocket.readStrBytes_filled hempty (by rw [List.length_take_of_le] <;> omega),
    List.take_of_length_le (Nat.le_of_eq hlen), ClientFrame.header, hfield]
  exact List.take_left' (length_be k _)

/-- The rest of a header whose first six bytes have been read. -/
theorem wp_readNBytes_header {fuel : ℕ} (hfuel : 0 < fuel) (hin : w.input = f.encode ++ rest)
    (hempty : ws.readStrLen = 0) {k : ℕ} (hk : 0 < k) (hlen : f.header.length = 6 + k)
    {post : Result Stop View (ℤ × WebSocket) → Prop}
    (hpost : post (.ret (0, ws.filled (f.header.take (6 + k))) (w.advance (6 + k)))) :
    (session drivers env).wp (WebSocket.readNBytes fuel (ws.filled (f.header.take 6)) k k)
      post (w.advance 6) := by
  have hmax := length_header_le f
  have hinput := length_header_le_input hin
  have hfill : (ws.filled (f.header.take 6)).readStrLen = 6 := by
    rw [WebSocket.readStrLen_filled, hempty, List.length_take_of_le (six_le_length_header f)]
  have htake : (w.advance 6).input.take k = (f.header.drop 6).take k := by
    rw [View.input_advance, List.take_drop, take_input_header hin (Nat.le_of_eq hlen.symm),
      ← List.take_drop]
  refine wp_readNBytes hfuel ?_ ?_ ?_
  · rw [View.input_advance, List.length_drop]
    omega
  · rw [hfill, websockReadStrLen]
    omega
  · rw [hfill, if_neg (by rw [koheronReadStrLen]; omega), WebSocket.filled_filled, htake,
      ← List.take_add, View.advance_advance]
    exact hpost

/-- **The header of a frame**, in any of its three forms, up to the size check. -/
theorem wp_readHeader_checked {fuel : ℕ} (hfuel : 0 < fuel)
    (hmax : f.payload.length < 2 ^ 63) (hin : w.input = f.encode ++ rest)
    (hempty : ws.readStrLen = 0) (hopen : ws.connectionClosed = false)
    {post : Result Stop View (ℤ × WebSocket) → Prop}
    (hpost : post
      (.ret ((ws.filled f.header).headed f).checkPayloadSize (w.advance f.header.length))) :
    (session drivers env).wp (WebSocket.readHeader fuel ws) post w := by
  obtain ⟨n, hn⟩ : ∃ n, f.payload.length = n := ⟨_, rfl⟩
  have hheader := six_le_length_header f
  have hclosed : ∀ k, ¬ (ws.filled (f.header.take k)).connectionClosed = true := fun k => by
    rw [WebSocket.connectionClosed_filled, hopen]
    exact Bool.false_ne_true
  have hnotneg : ¬ (0 : ℤ) < 0 := Int.lt_irrefl 0
  have hzero : ¬ (0 : ℤ) = 1 := by decide
  rw [WebSocket.readHeader, Handler.wp_bind]
  refine wp_readNBytes hfuel (hheader.trans (length_header_le_input hin))
    (by rw [hempty]; decide) ?_
  rw [if_neg (by rw [hempty]; decide), take_input_header hin hheader]
  have hfirst : ((ws.filled (f.header.take 6)).readStr 0 &&& 0x0F).toNat = f.opcode.code := by
    rw [WebSocket.readStr_filled hempty (by rw [List.length_take_of_le hheader]; decide)]
    exact f.opcode_first
  simp only [Handler.andThen_ret, if_neg hnotneg, if_neg (hclosed 6), WebSocket.readSize, hfirst,
    checkOpcode_code, if_neg hzero]
  -- whatever its form, the length ends up in the same place
  have hdone : ∀ k, f.header.length = k → post (.ret (WebSocket.checkPayloadSize
      { ws.filled (f.header.take k) with
        headerSize := k, payloadSize := (n : ℤ), maskOffset := k - 4 }) (w.advance k)) := by
    intro k hk
    rw [List.take_of_length_le (Nat.le_of_eq hk)]
    rw [WebSocket.headed, hn, hk] at hpost
    exact hpost
  by_cases h125 : n ≤ 125
  · have hfield : lengthField 128 f.payload.length = [UInt8.ofNat (128 + n)] := by
      rw [hn]
      exact if_pos h125
    have h6 : f.header.length = 6 := by
      rw [f.length_header, hfield]
      rfl
    simp only [readStr_one_header hempty hfield, form_lengthByte (show n < 128 by omega),
      if_pos h125]
    exact hdone 6 h6
  by_cases h65535 : n ≤ 65535
  · have hfield : lengthField 128 f.payload.length
        = UInt8.ofNat (128 + 126) :: be 2 f.payload.length := by
      rw [hn, lengthField, if_neg h125, if_pos h65535]
    have h8 : f.header.length = 8 := by
      rw [f.length_header, hfield, List.length_cons, length_be]
    have hform : ((UInt8.ofNat (128 + 126) &&& 0x7F).toNat) = 126 := by decide
    have hmedium : ¬ 126 ≤ 125 := by decide
    simp only [readStr_one_header hempty hfield, hform, if_neg hmedium, if_true]
    rw [Handler.wp_bind]
    refine wp_readNBytes_header (k := 2) hfuel hin hempty (by decide) h8 ?_
    have hsize : (extractU16 ((ws.filled (f.header.take (6 + 2))).readStrBytes 2 2)).toNat = n := by
      rw [readStrBytes_header hempty hfield h8, hn, extractU16_be (by omega)]
    simp only [Handler.andThen_ret, if_neg hnotneg, if_neg (hclosed (6 + 2)), hsize]
    exact hdone 8 h8
  · have hfield : lengthField 128 f.payload.length
        = UInt8.ofNat (128 + 127) :: be 8 f.payload.length := by
      rw [hn, lengthField, if_neg h125, if_neg h65535]
    have h14 : f.header.length = 14 := by
      rw [f.length_header, hfield, List.length_cons, length_be]
    have hform : ((UInt8.ofNat (128 + 127) &&& 0x7F).toNat) = 127 := by decide
    have hbig : ¬ 127 ≤ 125 ∧ ¬ 127 = 126 := by decide
    simp only [readStr_one_header hempty hfield, hform, if_neg hbig.1, if_neg hbig.2, if_true]
    rw [Handler.wp_bind]
    refine wp_readNBytes_header (k := 8) hfuel hin hempty (by decide) h14 ?_
    have hsize : (extractU64 ((ws.filled (f.header.take (6 + 8))).readStrBytes 2 8)).toInt64.toInt
        = n := by
      rw [readStrBytes_header hempty hfield h14, hn, extractU64_be (hn ▸ hmax)]
    simp only [Handler.andThen_ret, if_neg hnotneg, if_neg (hclosed (6 + 8)), hsize]
    exact hdone 14 h14

end Header

/-- The header of a frame that the server takes. -/
theorem wp_readHeader {fuel : ℕ} (hfuel : 0 < fuel) {f : ClientFrame} (hf : Acceptable f)
    {rest : List UInt8} (hin : w.input = f.encode ++ rest) (hempty : ws.readStrLen = 0)
    (hopen : ws.connectionClosed = false) {post : Result Stop View (ℤ × WebSocket) → Prop}
    (hpost : post (.ret (0, (ws.filled f.header).headed f) (w.advance f.header.length))) :
    (session drivers env).wp (WebSocket.readHeader fuel ws) post w := by
  refine wp_readHeader_checked hfuel (lt_of_le_of_lt hf.2 (by decide)) hin hempty hopen ?_
  rw [hf.checkPayloadSize]
  exact hpost

/-! ## One frame -/

/-- The payload that fills `read_str` to `KOHERON_READ_STR_LEN`. -/
theorem length_encode_eq_iff (f : ClientFrame) :
    f.encode.length = koheronReadStrLen ↔ f.payload.length = 16376 := by
  rw [f.length_encode, f.length_header, length_lengthField, koheronReadStrLen]
  split_ifs <;> omega

theorem length_encode_le {f : ClientFrame} (hf : Acceptable f) :
    f.encode.length ≤ websockReadStrLen := by
  have h := hf.2
  rw [websockReadStrLen] at h ⊢
  rw [f.length_encode, f.length_header, length_lengthField]
  split_ifs <;> omega

/-- What `read_stream` leaves in the buffer and in the header fields. -/
theorem wp_readStream {fuel : ℕ} (hfuel : 0 < fuel) {f : ClientFrame} (hf : Acceptable f)
    {rest : List UInt8} (hin : w.input = f.encode ++ rest) (hopen : ws.connectionClosed = false)
    {post : Result Stop View (ℤ × WebSocket) → Prop}
    (hpost : post (.ret (if f.payload.length = 16376 then -1 else 0,
      (ws.resetReadBuff.filled f.encode).headed f) (w.advance f.encode.length))) :
    (session drivers env).wp (WebSocket.readStream fuel ws) post w := by
  have hnotneg : ¬ (0 : ℤ) < 0 := Int.lt_irrefl 0
  have hzero : ¬ (0 : ℤ) = 1 := by decide
  have hpos : 0 < f.payload.length := lt_of_lt_of_le (by decide) hf.1
  have hempty : ws.resetReadBuff.readStrLen = 0 := rfl
  have hopen' : ws.resetReadBuff.connectionClosed = false := hopen
  rw [WebSocket.readStream, Handler.wp_bind]
  refine wp_readHeader hfuel hf hin hempty hopen' ?_
  simp only [Handler.andThen_ret, if_neg hnotneg, if_neg hzero]
  rw [Handler.wp_bind]
  -- the masked payload completes the frame
  have hleft : (w.advance f.header.length).input = f.masked ++ rest := by
    rw [View.input_advance, hin, ClientFrame.encode, List.append_assoc, List.drop_left]
  have htake : (w.advance f.header.length).input.take f.payload.length = f.masked := by
    rw [hleft, ← f.length_masked, List.take_left]
  have hfill : ((ws.resetReadBuff.filled f.header).headed f).readStrLen = f.header.length :=
    Nat.zero_add _
  have hfilled : ((ws.resetReadBuff.filled f.header).headed f).filled f.masked
      = (ws.resetReadBuff.filled f.encode).headed f := by
    rw [ClientFrame.encode, ← WebSocket.filled_filled]
    rfl
  refine wp_readNBytes hfuel ?_ ?_ ?_
  · rw [hleft, List.length_append, f.length_masked]
    omega
  · rw [hfill, ← f.length_encode]
    exact length_encode_le hf
  · have hfull := length_encode_eq_iff f
    rw [hfill, htake, hfilled, View.advance_advance, ← f.length_encode]
    by_cases hbad : f.payload.length = 16376
    · rw [if_pos hbad] at hpost
      rw [if_pos ⟨hpos, hfull.mpr hbad⟩]
      exact hpost
    · rw [if_neg hbad] at hpost
      rw [if_neg fun h => hbad (hfull.mp h.2)]
      exact hpost

/-- The command is the one in the frame: its size, its header, and its payload at the
start of the payload buffer. -/
structure Received (f : ClientFrame) (r : ℤ × Command) : Prop where
  size : r.1 = f.payload.length
  header : r.2.HeaderIs (f.payload.take headerSize)
  position : r.2.payload.position = 0
  payload : r.2.payload.Holds (f.payload.drop headerSize)

/-- The buffer holds the key and the masked payload where they are looked for. -/
theorem unmasked_filled (ws : WebSocket) (f : ClientFrame) (hempty : ws.readStrLen = 0) {i : ℕ}
    (hi : i < f.payload.length) :
    ((ws.filled f.encode).headed f).unmasked i = f.payload[i] := by
  have hlen : (f.first :: lengthField 128 f.payload.length).length + 4 = f.header.length := by
    rw [ClientFrame.header, List.length_append, List.length_ofFn]
  have hpayload : (ws.filled f.encode).readStr (f.header.length + i) = f.masked.getD i 0 := by
    rw [WebSocket.readStr_filled hempty (by rw [f.length_encode]; omega), ClientFrame.encode,
      List.getD_append_right _ _ _ _ (Nat.le_add_right _ _), Nat.add_sub_cancel_left]
  have hkey : (ws.filled f.encode).readStr (f.header.length - 4 + i % 4)
      = f.key (Fin.ofNat 4 i) := by
    have hmod : i % 4 < 4 := Nat.mod_lt i (by decide)
    have hindex : f.header.length - 4 + i % 4
        - (f.first :: lengthField 128 f.payload.length).length = i % 4 := by omega
    rw [WebSocket.readStr_filled hempty (by rw [f.length_encode]; omega), ClientFrame.encode,
      List.getD_append _ _ _ _ (by omega)]
    conv_lhs => arg 1; rw [ClientFrame.header]
    rw [List.getD_append_right _ _ _ _ (by omega), hindex,
      List.getD_eq_getElem _ _ (by rw [List.length_ofFn]; exact hmod), List.getElem_ofFn]
    rfl
  have hsub : f.header.length - 4 + 4 + i = f.header.length + i := by omega
  rw [← f.unmask i hi, ← hkey, ← hpayload, ← hsub]
  rfl

theorem received_decoded (ws : WebSocket) {f : ClientFrame} (hf : Acceptable f)
    (hempty : ws.readStrLen = 0) {cmd : Command} (hheader : cmd.header.position = headerStart)
    (hposition : cmd.payload.position = 0) :
    ∃ cmd', ((ws.filled f.encode).headed f).decodeRawStreamCmd cmd = (0, cmd') ∧
      Received f (f.payload.length, cmd') := by
  have hlarge : ¬ ((ws.filled f.encode).headed f).readStrLen
      < ((ws.filled f.encode).headed f).headerSize + 1 := by
    change ¬ ws.readStrLen + f.encode.length < f.header.length + 1
    rw [f.length_encode, hempty]
    have := hf.1
    omega
  refine ⟨_, if_neg hlarge, rfl, ⟨?_, hheader, ?_⟩, hposition, ?_⟩
  · exact List.length_take_of_le hf.1
  · have hlen : (f.payload.take headerSize).length = headerSize := List.length_take_of_le hf.1
    refine List.ext_getElem (Buffer.length_bytes _ _) fun i hi hi' => ?_
    have hi8 : i < headerSize := by rwa [hlen] at hi'
    have hin : i < f.payload.length := lt_of_lt_of_le hi8 hf.1
    simp only [Buffer.bytes, List.getElem_map, List.getElem_range, Nat.zero_add, if_pos hi8,
      List.getElem_take]
    exact unmasked_filled ws f hempty hin
  · refine List.ext_getElem (Buffer.length_bytes _ _) fun i hi hi' => ?_
    have hin : headerSize + i < f.payload.length := by
      rw [List.length_drop] at hi'
      omega
    have hlt : ((cmd.payload.position + i + headerSize : ℕ) : ℤ)
        < ((ws.filled f.encode).headed f).payloadSize := by
      change _ < ((f.payload.length : ℕ) : ℤ)
      omega
    simp only [Buffer.bytes, List.getElem_map, List.getElem_range, if_pos hlt, List.getElem_drop]
    have hindex : cmd.payload.position + i + headerSize = headerSize + i := by omega
    rw [hindex]
    exact unmasked_filled ws f hempty hin

/-- **One frame is received**, in whatever pieces it comes. -/
theorem wp_receiveCmd {fuel : ℕ} (hfuel : 0 < fuel) {f : ClientFrame} (hf : Acceptable f)
    {rest : List UInt8} (hin : w.input = f.encode ++ rest) (hopen : ws.connectionClosed = false)
    {cmd : Command} (hheader : cmd.header.position = headerStart)
    (hposition : cmd.payload.position = 0) (hlen : f.payload.length ≠ 16376)
    {post : Result Stop View (ℤ × WebSocket × Command) → Prop}
    (hpost : ∀ ws' cmd', ws'.connectionClosed = false → Received f (f.payload.length, cmd') →
      post (.ret (f.payload.length, ws', cmd') (w.advance f.encode.length))) :
    (session drivers env).wp (WebSocket.receiveCmd fuel ws cmd) post w := by
  have hnotneg : ¬ (0 : ℤ) < 0 := Int.lt_irrefl 0
  have hzero : ¬ (0 : ℤ) = 1 := by decide
  have hempty : ws.resetReadBuff.readStrLen = 0 := rfl
  obtain ⟨cmd', hdecode, hreceived⟩ := received_decoded ws.resetReadBuff hf hempty hheader hposition
  have hsize : toInt f.payload.length = f.payload.length := by
    refine toInt_of_lt (lt_of_le_of_lt hf.2 ?_)
    rw [websockReadStrLen]
    decide
  rw [WebSocket.receiveCmd, hopen, if_neg Bool.false_ne_true, Handler.wp_bind]
  refine wp_readStream hfuel hf hin hopen ?_
  rw [if_neg hlen]
  simp only [Handler.andThen_ret, if_neg hnotneg, if_neg hzero, hdecode, Handler.wp_pure]
  have h := hpost ((ws.resetReadBuff.filled f.encode).headed f) cmd' hopen hreceived
  rw [← hsize] at h
  exact h

/-- A frame of the one bad size is given up. -/
theorem wp_receiveCmd_fails {fuel : ℕ} (hfuel : 0 < fuel) {f : ClientFrame} (hf : Acceptable f)
    {rest : List UInt8} (hin : w.input = f.encode ++ rest) (hopen : ws.connectionClosed = false)
    {cmd : Command} (hlen : f.payload.length = 16376)
    {post : Result Stop View (ℤ × WebSocket × Command) → Prop}
    (hpost : ∀ ws', post (.ret (-1, ws', cmd) (w.advance f.encode.length))) :
    (session drivers env).wp (WebSocket.receiveCmd fuel ws cmd) post w := by
  have hneg : (-1 : ℤ) < 0 := by decide
  rw [WebSocket.receiveCmd, hopen, if_neg Bool.false_ne_true, Handler.wp_bind]
  refine wp_readStream hfuel hf hin hopen ?_
  rw [if_pos hlen]
  simp only [Handler.andThen_ret, if_pos hneg]
  exact hpost _

/-- A frame behind the limit of `read_header` is given up after its header. -/
theorem wp_receiveCmd_tooLarge {fuel : ℕ} (hfuel : 0 < fuel) {f : ClientFrame}
    (hmax : f.payload.length < 2 ^ 63) (hlarge : websockReadStrLen - 56 < f.payload.length)
    {rest : List UInt8} (hin : w.input = f.encode ++ rest) (hopen : ws.connectionClosed = false)
    {cmd : Command} {post : Result Stop View (ℤ × WebSocket × Command) → Prop}
    (hpost : ∀ ws', post (.ret (-1, ws', cmd) (w.advance f.header.length))) :
    (session drivers env).wp (WebSocket.receiveCmd fuel ws cmd) post w := by
  have hneg : (-1 : ℤ) < 0 := by decide
  have hempty : ws.resetReadBuff.readStrLen = 0 := rfl
  have hcheck : ((ws.resetReadBuff.filled f.header).headed f).checkPayloadSize
      = (-1, (ws.resetReadBuff.filled f.header).headed f) := by
    refine if_pos ?_
    change ((f.payload.length : ℕ) : ℤ) > _
    rw [websockReadStrLen] at hlarge ⊢
    omega
  rw [WebSocket.receiveCmd, hopen, if_neg Bool.false_ne_true, Handler.wp_bind,
    WebSocket.readStream, Handler.wp_bind]
  refine wp_readHeader_checked hfuel hmax hin hempty hopen ?_
  rw [hcheck]
  simp only [Handler.andThen_ret, if_pos hneg]
  exact hpost _

/-! ## A sequence of frames -/

/-- `k` calls of `receive_cmd`, each for a new command. -/
def receiveCmds (fuel : ℕ) : ℕ → WebSocket → Program (List (ℤ × Command))
  | 0, _ => return []
  | k + 1, ws => do
    let (n, ws, cmd) ← ws.receiveCmd fuel (Command.uninitialized (← uninit))
    let received ← receiveCmds fuel k ws
    return (n, cmd) :: received

/-- The bytes of some frames. -/
def framesOf (fs : List ClientFrame) : List UInt8 := fs.flatMap ClientFrame.encode

/-- The commands are those of the frames, and exactly the bytes of these have been
taken. -/
def AllReceived (fs : List ClientFrame) (w : View) (r : Result Stop View (List (ℤ × Command))) :
    Prop :=
  ∃ rs, r = .ret rs (w.advance (framesOf fs).length) ∧ List.Forall₂ Received fs rs

theorem wp_receiveCmds {fuel : ℕ} (hfuel : 0 < fuel) {fs : List ClientFrame}
    (hfs : ∀ f ∈ fs, Acceptable f ∧ f.payload.length ≠ 16376) {rest : List UInt8}
    (hin : w.input = framesOf fs ++ rest) (hopen : ws.connectionClosed = false) :
    (session drivers env).wp (receiveCmds fuel fs.length ws) (AllReceived fs w) w := by
  induction fs generalizing w ws with
  | nil => exact ⟨[], rfl, .nil⟩
  | cons f fs ih =>
    obtain ⟨hf, hlen⟩ := hfs f (List.mem_cons_self ..)
    have hframes : framesOf (f :: fs) = f.encode ++ framesOf fs := List.flatMap_cons
    rw [hframes, List.append_assoc] at hin
    rw [List.length_cons, receiveCmds, Handler.wp_bind, wp_uninit]
    intro mem
    rw [Handler.andThen_ret, Handler.wp_bind]
    refine wp_receiveCmd hfuel hf hin hopen rfl rfl hlen ?_
    intro ws' cmd' hopen' hreceived
    simp only [Handler.andThen_ret]
    rw [Handler.wp_bind]
    have hin' : (w.advance f.encode.length).input = framesOf fs ++ rest := by
      rw [View.input_advance, hin, List.drop_left]
    refine (session drivers env).wp_mono ?_
      (ih (fun g hg => hfs g (List.mem_cons_of_mem f hg)) hin' hopen')
    rintro r ⟨rs, rfl, hrs⟩
    refine ⟨_, ?_, .cons hreceived hrs⟩
    rw [View.advance_advance, hframes, List.length_append]

/-- A frame of the bad size is not received as it was sent. -/
theorem wp_receiveCmds_fails {fuel : ℕ} (hfuel : 0 < fuel) {fs : List ClientFrame}
    {f : ClientFrame} (hfs : ∀ g ∈ fs, Acceptable g ∧ g.payload.length ≠ 16376)
    (hf : Acceptable f) (hlen : f.payload.length = 16376) {rest : List UInt8}
    (hin : w.input = framesOf (fs ++ [f]) ++ rest) (hopen : ws.connectionClosed = false) :
    (session drivers env).wp (receiveCmds fuel (fs ++ [f]).length ws)
      (fun r => ∀ rs w', r = .ret rs w' → ¬ List.Forall₂ Received (fs ++ [f]) rs) w := by
  induction fs generalizing w ws with
  | nil =>
    have hin' : w.input = f.encode ++ rest := by
      rw [hin, List.nil_append, framesOf, List.flatMap_singleton]
    rw [List.nil_append, List.length_singleton, receiveCmds, Handler.wp_bind, wp_uninit]
    intro mem
    rw [Handler.andThen_ret, Handler.wp_bind]
    refine wp_receiveCmd_fails hfuel hf hin' hopen hlen ?_
    intro ws' rs w' h hall
    cases h
    obtain ⟨hreceived, -⟩ := List.forall₂_cons.mp hall
    exact absurd hreceived.size (by omega)
  | cons g fs ih =>
    obtain ⟨hg, hglen⟩ := hfs g (List.mem_cons_self ..)
    have hframes : framesOf (g :: fs ++ [f]) = g.encode ++ framesOf (fs ++ [f]) :=
      List.flatMap_cons
    rw [hframes, List.append_assoc] at hin
    rw [List.cons_append, List.length_cons, receiveCmds, Handler.wp_bind, wp_uninit]
    intro mem
    rw [Handler.andThen_ret, Handler.wp_bind]
    refine wp_receiveCmd hfuel hg hin hopen rfl rfl hglen ?_
    intro ws' cmd' hopen' hreceived
    simp only [Handler.andThen_ret]
    rw [Handler.wp_bind]
    have hin' : (w.advance g.encode.length).input = framesOf (fs ++ [f]) ++ rest := by
      rw [View.input_advance, hin, List.drop_left]
    refine (session drivers env).wp_mono ?_
      (ih (fun g' hg' => hfs g' (List.mem_cons_of_mem g hg')) hin' hopen')
    intro r hr
    cases r with
    | halt s w' =>
      intro rs w'' h
      cases h
    | ret rs w' =>
      intro rs' w'' h hall
      cases h
      exact hr rs w' rfl (List.forall₂_cons.mp hall).2

theorem length_ne_of_allReceived {fs : List ClientFrame} (hfs : ∀ f ∈ fs, Acceptable f) {fuel : ℕ}
    (hfuel : 0 < fuel) (hopen : ws.connectionClosed = false) {more : List UInt8} {ending : Ending}
    (h : ∀ k ≤ fs.length, ∀ pick, (session drivers .any).Allows pick →
      AllReceived (fs.take k) (View.start (framesOf fs ++ more) ending)
        ((session drivers .any).exec pick 0 (receiveCmds fuel k ws)
          (View.start (framesOf fs ++ more) ending))) :
    ∀ f ∈ fs, f.payload.length ≠ 16376 := by
  by_contra hbad
  push Not at hbad
  obtain ⟨f', hf', hlen'⟩ := hbad
  -- the first frame of the bad size
  obtain ⟨f, hfind⟩ : ∃ f, fs.find? (fun f => decide (f.payload.length = 16376)) = some f := by
    rw [← Option.isSome_iff_exists, List.find?_isSome]
    exact ⟨f', hf', decide_eq_true hlen'⟩
  obtain ⟨hlen, before, after, rfl, hbefore⟩ := List.find?_eq_some_iff_append.mp hfind
  have hgood : ∀ g ∈ before, Acceptable g ∧ g.payload.length ≠ 16376 := by
    intro g hg
    refine ⟨hfs g (List.mem_append_left _ hg), fun h => ?_⟩
    have := hbefore g hg
    simp [h] at this
  have hframes : framesOf (before ++ f :: after) ++ more
      = framesOf (before ++ [f]) ++ (framesOf after ++ more) := by
    simp [framesOf]
  have htake : (before ++ f :: after).take (before ++ [f]).length = before ++ [f] := by
    have : before ++ f :: after = before ++ [f] ++ after := by simp
    rw [this, List.take_left]
  have hall := h (before ++ [f]).length (by simp)
  rw [htake, (session drivers .any).forall_exec_iff_wp (session_live drivers Env.any_possible)]
    at hall
  have hfails : (session drivers .any).wp (receiveCmds fuel (before ++ [f]).length ws)
      (fun r => ∀ rs w', r = .ret rs w' → ¬ List.Forall₂ Received (before ++ [f]) rs)
      (View.start (framesOf (before ++ f :: after) ++ more) ending) :=
    wp_receiveCmds_fails hfuel hgood
      (hfs f (List.mem_append_right _ (List.mem_cons_self ..))) (of_decide_eq_true hlen) hframes
      hopen
  obtain ⟨r, ⟨rs, hret, hrs⟩, hnot⟩ := (session drivers .any).exists_of_wp
    (session_live drivers Env.any_possible) ((session drivers .any).wp_and hall hfails)
  exact hnot rs _ hret hrs

/-- **Which frames are received.**  The frames come as the client sent them, each one
by one call of `receive_cmd` that takes exactly its bytes, in every run if and only if
none of them has a payload of 16376 bytes. -/
theorem receiveCmds_iff (drivers : List Driver) {fs : List ClientFrame}
    (hfs : ∀ f ∈ fs, Acceptable f) {fuel : ℕ} (hfuel : 0 < fuel)
    (hopen : ws.connectionClosed = false) (more : List UInt8) (ending : Ending) :
    (∀ k ≤ fs.length, ∀ pick, (session drivers .any).Allows pick →
      AllReceived (fs.take k) (View.start (framesOf fs ++ more) ending)
        ((session drivers .any).exec pick 0 (receiveCmds fuel k ws)
          (View.start (framesOf fs ++ more) ending))) ↔
      ∀ f ∈ fs, f.payload.length ≠ 16376 := by
  refine ⟨length_ne_of_allReceived hfs hfuel hopen, ?_⟩
  intro hlen k hk pick hpick
  have hsplit : framesOf fs ++ more
      = framesOf (fs.take k) ++ (framesOf (fs.drop k) ++ more) := by
    rw [← List.append_assoc, framesOf, framesOf, framesOf, ← List.flatMap_append,
      List.take_append_drop]
  have htake : (fs.take k).length = k := List.length_take_of_le hk
  have hrun : (session drivers .any).wp (receiveCmds fuel (fs.take k).length ws)
      (AllReceived (fs.take k) (View.start (framesOf fs ++ more) ending))
      (View.start (framesOf fs ++ more) ending) := by
    refine wp_receiveCmds hfuel ?_ hsplit hopen
    intro f hf
    have hmem := List.mem_of_mem_take hf
    exact ⟨hfs f hmem, hlen f hmem⟩
  rw [htake] at hrun
  exact (session drivers .any).wp_exec hpick hrun 0

end Rules

/-- A frame with a payload of zeros. -/
def probeClientFrame (n : ℕ) : ClientFrame where
  reserved := 0
  opcode := .binary
  key := fun i => UInt8.ofNat (i + 1)
  payload := List.replicate n 0

theorem length_probeClientFrame (n : ℕ) : (probeClientFrame n).payload.length = n :=
  List.length_replicate

theorem acceptable_probeClientFrame {n : ℕ} (h : 8 ≤ n) (h' : n ≤ 262088) :
    Acceptable (probeClientFrame n) := by
  rw [Acceptable, length_probeClientFrame, websockReadStrLen]
  exact ⟨h, h'⟩

/-- A WebSocket that is open. -/
def probeWebSocket : WebSocket := ⟨fun _ => 0, 0, 0, 0, 0, false⟩

/-- A frame with the 7-bit and one with the 16-bit length. -/
theorem receiveCmds_probe :
    AllReceived ([probeClientFrame 8, probeClientFrame 200].take 2)
      (View.start (framesOf [probeClientFrame 8, probeClientFrame 200] ++ []) .eof)
      ((session probeDrivers .any).exec (eager probeDrivers) 0 (receiveCmds 1 2 probeWebSocket)
        (View.start (framesOf [probeClientFrame 8, probeClientFrame 200] ++ []) .eof)) := by
  have hfs : ∀ f ∈ [probeClientFrame 8, probeClientFrame 200], Acceptable f :=
    List.forall_mem_cons.mpr ⟨acceptable_probeClientFrame (by decide) (by decide),
      List.forall_mem_singleton.mpr (acceptable_probeClientFrame (by decide) (by decide))⟩
  have hlen : ∀ f ∈ [probeClientFrame 8, probeClientFrame 200], f.payload.length ≠ 16376 := by
    refine List.forall_mem_cons.mpr ⟨?_, List.forall_mem_singleton.mpr ?_⟩ <;>
      rw [length_probeClientFrame] <;> decide
  exact (receiveCmds_iff probeDrivers hfs (by decide) rfl [] .eof).mpr hlen 2 (by decide)
    (eager probeDrivers) (eager_allows_any probeDrivers)

/-- A frame of 16376 bytes is given up: with its header it fills `read_str` to the
length of another buffer. -/
theorem not_received_of_16376 :
    ¬ ∀ k ≤ 1, ∀ pick, (session probeDrivers .any).Allows pick →
      AllReceived ([probeClientFrame 16376].take k)
        (View.start (framesOf [probeClientFrame 16376] ++ []) .eof)
        ((session probeDrivers .any).exec pick 0 (receiveCmds 1 k probeWebSocket)
          (View.start (framesOf [probeClientFrame 16376] ++ []) .eof)) := by
  intro h
  have hfs : ∀ f ∈ [probeClientFrame 16376], Acceptable f :=
    List.forall_mem_singleton.mpr (acceptable_probeClientFrame (by decide) (by decide))
  exact length_ne_of_allReceived hfs (by decide) rfl h _ (List.mem_singleton_self _)
    (length_probeClientFrame 16376)

end KoheronSdk
