import KoheronSdk.Lib.Interpretation
import KoheronSdk.Server.Footprint
import KoheronSdk.Server.Receiving

/-!
# What a WebSocket session executes

Every byte stream, and what the session makes of it.  The session delimits frames by
the first bytes of each, like RFC 6455, but takes every frame for a masked one, and
does not look at FIN.

## Any stream

Nothing is assumed of the bytes that arrive: they need not be frames, and where they are they need
not be those of a client.  What is said of them is relative to `Frame.next` of `Lib/WebSocketFrame`,
which reads a frame of any kind in front of some bytes.  The session and `Frame.next` agree on where
a frame ends as long as it is masked, has one of the lengths that `read_header` takes, and does not
fill the buffer to the level at which `read_n_bytes` gives up.

A frame of the wrong kind that lies in front is therefore dangerous in one case only: the session
must take it for a command, and all that it takes for this frame must be there (`Loose`).
Fragments are such frames, as their opcodes are those of messages: the first one is executed
as if it were a whole command.  An unmasked frame is decoded with four bytes of its payload for a
key.

## Notes

Which commands are handed over to `DriverManager::execute` cannot be seen in the trace, which has
the operations that were called.  So the loop of `run` is looked at with a note of every command
(`serveNoted`), and `erase_runNoted` says that it is the same loop.

## Results

The proof goes from one round to the next.  `Handing` is what has been handed over so far, with the
frames it came from and the place in the stream where the session stands; a round either takes the
next frame for what it is, or ends the session, since a loose frame does not lie in front.

* `wp_readCommand_taken`: where `read_command` says that there is a command, it has
  taken a whole frame as `read_header` delimits it.
* `serveNoted`: the loop of `run`, with a note of every command it hands over.
* `run_soundlyHanded`: up to the first frame that `read_header` ought to have rejected,
  every command handed over is the payload of the next frame of the stream.
-/

namespace KoheronSdk

open Effects ByteOrder WebSocketFrame

/-! ## Reading, whatever comes -/

section Reading

variable {drivers : List Driver} {env : Env} {w : View} {ws : WebSocket}

/-- Where the inner loop may stop: behind `m` bytes, at the end of the stream if there
were to be more. -/
theorem wp_readLoop_onRet {fuel n : ℕ} {bytesRead : ℤ} :
    (session drivers env).wp (WebSocket.readLoop fuel ws n n bytesRead)
      (Result.OnRet fun p w' => p.2.2.2 = 0 ∨ ∃ m ≤ n, m ≤ w.input.length ∧
        p.1 = ws.filled (w.input.take m) ∧ p.2.1 = (n - m : ℕ) ∧ p.2.2.1 = (n - m : ℕ) ∧
        w' = w.advance m) w := by
  have hstay : ∀ b : ℤ, (Result.OnRet (S := Stop) fun (p : WebSocket × ℤ × ℤ × ℤ) w' =>
      p.2.2.2 = 0 ∨ ∃ m ≤ n, m ≤ w.input.length ∧ p.1 = ws.filled (w.input.take m) ∧
        p.2.1 = (n - m : ℕ) ∧ p.2.2.1 = (n - m : ℕ) ∧ w' = w.advance m)
      (.ret (ws, (n : ℤ), (n : ℤ), b) w) := by
    intro b
    refine Or.inr ⟨0, Nat.zero_le n, Nat.zero_le _, ?_, rfl, rfl, rfl⟩
    rw [List.take_zero, WebSocket.filled_nil]
  induction fuel generalizing ws n w bytesRead with
  | zero =>
    rw [WebSocket.readLoop]
    by_cases hpos : (0 : ℤ) < n
    · rw [if_pos hpos]
      trivial
    · rw [if_neg hpos]
      exact hstay bytesRead
  | succ fuel ih =>
    rw [WebSocket.readLoop]
    by_cases hpos : (0 : ℤ) < n
    · rw [if_pos hpos, Int.toNat_natCast, Handler.wp_bind]
      by_cases hin : w.input = []
      · rw [wp_read_nil (by omega) hin]
        cases w.ending with
        | eof => exact Or.inl rfl
        | error => exact hstay (-1)
        | waiting => trivial
      · rw [wp_read (by omega) hin]
        intro bs hne hlen hpre
        have hbs : 0 < bs.length := List.length_pos_of_ne_nil hne
        have hin' : bs.length ≤ w.input.length := hpre.length_le
        have hleft : (n : ℤ) - bs.length = (n - bs.length : ℕ) := by omega
        have hexpected : ¬ ((n - bs.length : ℕ) : ℤ) < 0 := by omega
        simp only [Handler.andThen_ret, hleft, if_neg hexpected]
        by_cases hfull : websockReadStrLen < ws.readStrLen + bs.length
        · rw [if_pos hfull]
          trivial
        · rw [if_neg hfull]
          refine (session drivers env).wp_mono ?_ (ih (n := n - bs.length) ?_)
          · intro r hr
            cases r with
            | halt f w' => trivial
            | ret p w' =>
              rcases hr with h0 | ⟨m, hm, hmin, hws, hrem, hexp, hw'⟩
              · exact Or.inl h0
              · rw [View.input_advance, List.length_drop] at hmin
                refine Or.inr ⟨bs.length + m, by omega, by omega, ?_, ?_, ?_, ?_⟩
                · have htake : bs ++ (w.advance bs.length).input.take m
                      = w.input.take (bs.length + m) := by
                    obtain ⟨rest, hrest⟩ := hpre
                    rw [View.input_advance, ← hrest, List.drop_left, List.take_length_add_append]
                  rw [hws, WebSocket.filled_filled, htake]
                · rw [hrem, Nat.sub_add_eq]
                · rw [hexp, Nat.sub_add_eq]
                · rw [hw', View.advance_advance]
          · intro b
            refine Or.inr ⟨0, Nat.zero_le _, Nat.zero_le _, ?_, rfl, rfl, rfl⟩
            rw [List.take_zero, WebSocket.filled_nil]
    · rw [if_neg hpos]
      exact hstay bytesRead

/-- What `read_n_bytes` leaves when it neither fails nor finds the end: the `n` bytes. -/
def ReadAll (ws : WebSocket) (n : ℕ) (w : View) (p : ℤ × WebSocket) (w' : View) : Prop :=
  p.1 < 0 ∨ p.2.connectionClosed = true ∨
    (p.1 = 0 ∧ n ≤ w.input.length ∧ p.2 = ws.filled (w.input.take n) ∧ w' = w.advance n ∧
      (0 < n → ws.readStrLen + n ≠ koheronReadStrLen))

/-- Behind the first `m` bytes the others are read in the same way. -/
theorem ReadAll.trans {m n : ℕ} (hm : m ≤ n) (hmin : m ≤ w.input.length)
    (hfull : ws.readStrLen + m ≠ koheronReadStrLen) {p : ℤ × WebSocket} {w' : View}
    (h : ReadAll (ws.filled (w.input.take m)) (n - m) (w.advance m) p w') :
    ReadAll ws n w p w' := by
  rcases h with hneg | hclosed | ⟨herr, hle, hp, hw', hroom⟩
  · exact Or.inl hneg
  · exact Or.inr (Or.inl hclosed)
  · rw [View.input_advance, List.length_drop] at hle
    have htake : w.input.take m ++ (w.input.drop m).take (n - m) = w.input.take n := by
      rw [← List.take_add, Nat.add_sub_cancel' hm]
    refine Or.inr (Or.inr ⟨herr, by omega, ?_, ?_, fun _ => ?_⟩)
    · rw [hp, View.input_advance, WebSocket.filled_filled, htake]
    · rw [hw', View.advance_advance, Nat.add_sub_cancel' hm]
    · rw [WebSocket.readStrLen_filled, List.length_take_of_le hmin] at hroom
      rcases Nat.eq_or_lt_of_le hm with rfl | hlt
      · exact hfull
      · have := hroom (by omega)
        omega

theorem wp_readNBytesLoop_onRet {fuel n : ℕ} {bytesRead : ℤ} :
    (session drivers env).wp (WebSocket.readNBytesLoop fuel ws n n bytesRead)
      (Result.OnRet (ReadAll ws n w)) w := by
  have hdone : n = 0 → Result.OnRet (S := Stop) (ReadAll ws n w) (.ret (0, ws) w) := by
    rintro rfl
    refine Or.inr (Or.inr ⟨rfl, Nat.zero_le _, ?_, rfl, fun h => absurd h (lt_irrefl 0)⟩)
    rw [List.take_zero, WebSocket.filled_nil]
  induction fuel generalizing ws n w bytesRead with
  | zero =>
    rw [WebSocket.readNBytesLoop]
    by_cases hpos : (0 : ℤ) < n
    · rw [if_pos hpos]
      trivial
    · rw [if_neg hpos]
      exact hdone (by omega)
  | succ fuel ih =>
    rw [WebSocket.readNBytesLoop]
    by_cases hpos : (0 : ℤ) < n
    · rw [if_pos hpos, Int.toNat_natCast]
      refine (session drivers env).wp_bind_onRet wp_readLoop_onRet ?_
      rintro ⟨ws', remaining, expected, b⟩ w' hloop
      by_cases hzero : b = 0
      · simp only [if_pos hzero]
        exact Or.inr (Or.inl rfl)
      · obtain ⟨m, hm, hmin, hws, hrem, hexp, hw'⟩ := hloop.resolve_left hzero
        simp only at hws hrem hexp
        subst hws hrem hexp hw'
        simp only [if_neg hzero, WebSocket.readStrLen_filled, List.length_take_of_le hmin]
        by_cases hfull : ws.readStrLen + m = koheronReadStrLen
        · rw [if_pos hfull]
          exact Or.inl (by decide : (-1 : ℤ) < 0)
        · rw [if_neg hfull]
          refine (session drivers env).wp_mono ?_ (ih ?_)
          · intro r hr
            cases r with
            | halt f w' => trivial
            | ret p w' => exact ReadAll.trans hm hmin hfull hr
          · intro hnm
            refine Or.inr (Or.inr ⟨rfl, by omega, ?_, by rw [hnm]; rfl, fun h => by omega⟩)
            rw [hnm, List.take_zero, WebSocket.filled_nil]
    · rw [if_neg hpos]
      exact hdone (by omega)

theorem wp_readNBytes_onRet {fuel n : ℕ} :
    (session drivers env).wp (ws.readNBytes fuel n n) (Result.OnRet (ReadAll ws n w)) w :=
  wp_readNBytesLoop_onRet

/-- The two tests behind `read_n_bytes`. -/
theorem ReadAll.wp_tested {n : ℕ} {err : ℤ} {ws' : WebSocket} {w' : View}
    (h : ReadAll ws n w (err, ws') w') {p : Program (ℤ × WebSocket)}
    {Q : ℤ × WebSocket → View → Prop} (hneg : Q (-1, ws') w')
    (hclosed : ws'.connectionClosed = true → Q (0, ws') w')
    (hp : n ≤ w.input.length → ws' = ws.filled (w.input.take n) → w' = w.advance n →
      (0 < n → ws.readStrLen + n ≠ koheronReadStrLen) →
      (session drivers env).wp p (Result.OnRet Q) w') :
    (session drivers env).wp (if err < 0 then return (-1, ws')
      else if ws'.connectionClosed = true then return (0, ws') else p) (Result.OnRet Q) w' := by
  by_cases herr : err < 0
  · rw [if_pos herr]
    exact hneg
  by_cases hend : ws'.connectionClosed = true
  · rw [if_neg herr, if_pos hend]
    exact hclosed hend
  · obtain ⟨-, hle, hws', hw', hroom⟩ := (h.resolve_left herr).resolve_left hend
    rw [if_neg herr, if_neg hend]
    exact hp hle hws' hw' hroom

/-- A negative size reads nothing. -/
theorem readNBytes_of_nonpos {fuel : ℕ} {n : ℤ} (h : n ≤ 0) :
    ws.readNBytes fuel n n = pure (0, ws) := by
  have hpos : ¬ 0 < n := not_lt.mpr h
  cases fuel with
  | zero => rw [WebSocket.readNBytes, WebSocket.readNBytesLoop, if_neg hpos]
  | succ fuel => rw [WebSocket.readNBytes, WebSocket.readNBytesLoop, if_neg hpos]

/-! ## The header of any frame -/

theorem checkOpcode_cases (opcode : ℕ) : WebSocket.checkOpcode opcode < 0 ∨
    WebSocket.checkOpcode opcode = 1 ∨
      (WebSocket.checkOpcode opcode = 0 ∧ (opcode = 1 ∨ opcode = 2)) := by
  unfold WebSocket.checkOpcode
  split <;> simp

theorem toNat_extractU16_of_length {bs : List UInt8} (h : bs.length = 2) :
    (extractU16 bs).toNat = ofBe bs := by
  have hlt : ofBe bs < 2 ^ 16 := by
    have := ofBe_lt bs
    rwa [h] at this
  have hbe := extractU16_be hlt
  rwa [← h, be_ofBe] at hbe

/-- A 64-bit length is read as it is, or as a negative number. -/
theorem toInt_extractU64_of_length {bs : List UInt8} (h : bs.length = 8) :
    (extractU64 bs).toInt64.toInt = ofBe bs ∨ (extractU64 bs).toInt64.toInt < 0 := by
  obtain ⟨n, hn⟩ : ∃ n, ofBe bs = n := ⟨_, rfl⟩
  have hbe : be 8 n = bs := by
    rw [← hn, ← h]
    exact be_ofBe bs
  have hlt : n < 2 ^ 64 := by
    have := ofBe_lt bs
    rw [h, hn] at this
    exact lt_of_lt_of_le this (by decide)
  rw [hn]
  by_cases hsmall : n < 2 ^ 63
  · exact Or.inl (hbe ▸ extractU64_be hsmall)
  · right
    have hto : (UInt64.ofNat n).toNat = n := UInt64.toNat_ofNat_of_lt' hlt
    have happend : be 8 n = appendU64 (UInt64.ofNat n) ++ [] := by
      rw [List.append_nil, appendU64_eq, hto]
    rw [← hbe, happend, extractU64_appendU64, UInt64.toInt64_ofNat', Int64.toInt_ofNat',
      Int.bmod_def, Int64.size]
    push_cast
    split_ifs <;> omega

theorem checkPayloadSize_eq (ws : WebSocket) : ws.checkPayloadSize.1 < 0 ∨
    (ws.payloadSize ≤ websockReadStrLen - 56 ∧ ws.checkPayloadSize = (0, ws)) := by
  have hfail : (-1 : ℤ) < 0 := by decide
  unfold WebSocket.checkPayloadSize
  split
  · exact Or.inl hfail
  · exact Or.inr ⟨by omega, rfl⟩

/-- The buffer and the header fields when the first bytes of a frame have been read.  A
64-bit length may have become negative. -/
def HeadRead (ws : WebSocket) (w : View) (h : FrameHeader) (ws' : WebSocket) (w' : View) : Prop :=
  FrameHeader.read w.input = some h ∧ (h.opcode = 1 ∨ h.opcode = 2) ∧
    6 + h.extended ≤ w.input.length ∧ w' = w.advance (6 + h.extended) ∧
    ∃ p : ℤ, (p = h.length ∨ p < 0) ∧ p ≤ websockReadStrLen - 56 ∧
      ws' = { ws.filled (w.input.take (6 + h.extended)) with
        headerSize := 6 + h.extended, payloadSize := p, maskOffset := 2 + h.extended }

/-- How `read_header` ends: with an error, at the end of the connection, or with a header. -/
def HeaderEnd (ws : WebSocket) (w : View) (p : ℤ × WebSocket) (w' : View) : Prop :=
  p.1 < 0 ∨ p.2.connectionClosed = true ∨ (p.1 = 0 ∧ ∃ h, HeadRead ws w h p.2 w')

theorem HeaderEnd.of_neg {p : ℤ × WebSocket} {w' : View} (h : p.1 < 0) : HeaderEnd ws w p w' :=
  Or.inl h

theorem HeaderEnd.of_closed {p : ℤ × WebSocket} {w' : View} (h : p.2.connectionClosed = true) :
    HeaderEnd ws w p w' := Or.inr (Or.inl h)

/-- The size check, when the length has been found with the `k` bytes that extend it.  Whatever
its form, the length ends up in the same place. -/
theorem headerEnd_checkPayloadSize {b₀ b₁ : UInt8} {rest : List UInt8} {form k n : ℕ} {p : ℤ}
    (hin : w.input = b₀ :: b₁ :: rest) (hform : (b₁ &&& 0x7F).toNat = form)
    (hopcode : (b₀ &&& 0x0F).toNat = 1 ∨ (b₀ &&& 0x0F).toNat = 2)
    (hk : extendedBytes form = k) (hle : 6 + k ≤ w.input.length)
    (hn : (if k = 0 then form else ofBe (rest.take k)) = n) (hp : p = n ∨ p < 0) :
    Result.OnRet (S := Stop) (HeaderEnd ws w) (.ret (WebSocket.checkPayloadSize
      { ws.filled (w.input.take (6 + k)) with
        headerSize := 6 + k, payloadSize := p, maskOffset := 2 + k }) (w.advance (6 + k))) := by
  have hlen : w.input.length = rest.length + 2 := by rw [hin]; rfl
  have hrest : k ≤ rest.length := by omega
  rcases checkPayloadSize_eq { ws.filled (w.input.take (6 + k)) with
      headerSize := 6 + k, payloadSize := p, maskOffset := 2 + k } with hneg | ⟨hmax, heq⟩
  · exact HeaderEnd.of_neg hneg
  · rw [heq]
    refine Or.inr (Or.inr ⟨rfl, ⟨b₀ &&& 0x80 ≠ 0, (b₀ &&& 0x0F).toNat, b₁ &&& 0x80 ≠ 0, k, n⟩, ?_,
      hopcode, hle, rfl, p, hp, hmax, rfl⟩)
    rw [hin, FrameHeader.read, hform, hk, if_pos hrest, hn]

/-- The bytes that extend the length, when they have been read behind the first six. -/
theorem readStrBytes_extended (hempty : ws.readStrLen = 0) {b₀ b₁ : UInt8} {rest : List UInt8}
    {k : ℕ} (hin : w.input = b₀ :: b₁ :: rest) (hle : 6 + k ≤ w.input.length) :
    (ws.filled (w.input.take (6 + k))).readStrBytes 2 k = rest.take k := by
  rw [WebSocket.readStrBytes_filled hempty (by rw [List.length_take_of_le hle]; omega),
    List.drop_take, List.take_take, hin]
  have hmin : min k (6 + k - 2) = k := by omega
  rw [hmin]
  rfl

/-- The first two bytes, in the buffer and on the wire. -/
theorem exists_first_bytes (hempty : ws.readStrLen = 0) (hle : 6 ≤ w.input.length) :
    ∃ b₀ b₁ rest, w.input = b₀ :: b₁ :: rest ∧
      (ws.filled (w.input.take 6)).readStr 0 = b₀ ∧
        (ws.filled (w.input.take 6)).readStr 1 = b₁ := by
  have hbyte : ∀ i, i < 6 → (ws.filled (w.input.take 6)).readStr i = w.input.getD i 0 := by
    intro i hi
    have hi6 : i < (w.input.take 6).length := by rwa [List.length_take_of_le hle]
    rw [WebSocket.readStr_filled hempty hi6, List.getD_eq_getElem _ _ hi6, List.getElem_take,
      List.getD_eq_getElem]
  rw [hbyte 0 (by decide), hbyte 1 (by decide)]
  rcases hin : w.input with _ | ⟨b₀, _ | ⟨b₁, rest⟩⟩
  · rw [hin] at hle
    exact absurd hle (by decide)
  · rw [hin] at hle
    exact absurd hle (by decide : ¬ 6 ≤ 1)
  · exact ⟨b₀, b₁, rest, rfl, rfl, rfl⟩

theorem wp_readHeader_onRet {fuel : ℕ} (hempty : ws.readStrLen = 0) :
    (session drivers env).wp (ws.readHeader fuel) (Result.OnRet (HeaderEnd ws w)) w := by
  rw [WebSocket.readHeader]
  have hneg : ∀ {p : ℤ × WebSocket} {w' : View}, p.1 = -1 → HeaderEnd ws w p w' :=
    fun hp => .of_neg (hp ▸ Int.negSucc_lt_zero 0)
  refine (session drivers env).wp_bind_onRet (wp_readNBytes_onRet (n := 6)) ?_
  rintro ⟨err, ws₆⟩ w₆ h₆
  refine h₆.wp_tested (hneg rfl) (fun h => .of_closed h) fun hle hws₆ hw₆ hroom => ?_
  subst hws₆ hw₆
  obtain ⟨b₀, b₁, rest, hin, h0, h1⟩ := exists_first_bytes hempty hle
  have hlen : w.input.length = rest.length + 2 := by rw [hin]; rfl
  obtain ⟨form, hform⟩ : ∃ form, (b₁ &&& 0x7F).toNat = form := ⟨_, rfl⟩
  rw [WebSocket.readSize, h0, h1, hform]
  rcases checkOpcode_cases (b₀ &&& 0x0F).toNat with hbad | hone | ⟨hzero, hopcode⟩
  · simp only [if_pos hbad]
    exact hneg rfl
  · simp only [hone, if_neg (by decide : ¬ (1 : ℤ) < 0), if_true]
    exact .of_closed rfl
  simp only [hzero, if_neg (by decide : ¬ (0 : ℤ) < 0), if_neg (by decide : ¬ (0 : ℤ) = 1)]
  by_cases h125 : form ≤ 125
  · have hext : extendedBytes form = 0 := by
      rw [extendedBytes, if_neg (by omega), if_neg (by omega)]
    rw [if_pos h125]
    exact headerEnd_checkPayloadSize (k := 0) (n := form) (p := form) hin hform hopcode hext hle rfl
      (Or.inl rfl)
  by_cases h126 : form = 126
  · have hext : extendedBytes form = 2 := by rw [extendedBytes, if_pos h126]
    rw [if_neg h125, if_pos h126]
    refine (session drivers env).wp_bind_onRet (wp_readNBytes_onRet (n := 2)) ?_
    rintro ⟨err, ws₈⟩ w₈ h₈
    have hall : ReadAll ws (6 + 2) w (err, ws₈) w₈ :=
      ReadAll.trans (by decide) hle (hroom (by decide)) h₈
    refine hall.wp_tested (hneg rfl) (fun h => .of_closed h) fun hle₈ hws₈ hw₈ _ => ?_
    subst hws₈ hw₈
    rw [readStrBytes_extended hempty hin hle₈, toNat_extractU16_of_length
      (List.length_take_of_le (by omega))]
    exact headerEnd_checkPayloadSize (k := 2) hin hform hopcode hext hle₈ rfl (Or.inl rfl)
  by_cases h127 : form = 127
  · have hext : extendedBytes form = 8 := by
      rw [extendedBytes, if_neg h126, if_pos h127]
    rw [if_neg h125, if_neg h126, if_pos h127]
    refine (session drivers env).wp_bind_onRet (wp_readNBytes_onRet (n := 8)) ?_
    rintro ⟨err, ws₁₄⟩ w₁₄ h₁₄
    have hall : ReadAll ws (6 + 8) w (err, ws₁₄) w₁₄ :=
      ReadAll.trans (by decide) hle (hroom (by decide)) h₁₄
    refine hall.wp_tested (hneg rfl) (fun h => .of_closed h) fun hle₁₄ hws₁₄ hw₁₄ _ => ?_
    subst hws₁₄ hw₁₄
    rw [readStrBytes_extended hempty hin hle₁₄]
    exact headerEnd_checkPayloadSize (k := 8) hin hform hopcode hext hle₁₄ rfl
      (toInt_extractU64_of_length (List.length_take_of_le (by omega)))
  · rw [if_neg h125, if_neg h126, if_neg h127]
    exact hneg rfl

/-! ## One command -/

/-- What `read_header`, `read_n_bytes` and `read_command` check of a frame. -/
def Accepted (h : FrameHeader) : Prop :=
  (h.opcode = 1 ∨ h.opcode = 2) ∧ headerSize ≤ h.length ∧
    h.length ≤ websockReadStrLen - 56 ∧ 6 + h.extended + h.length ≠ koheronReadStrLen

instance : DecidablePred Accepted := fun h => by unfold Accepted; infer_instance

/-- The payload of a frame, taken for a masked one. -/
def takenPayload (h : FrameHeader) (bs : List UInt8) : List UInt8 :=
  xorKey ((bs.drop (2 + h.extended)).take 4) ((bs.drop (6 + h.extended)).take h.length)

theorem length_takenPayload {h : FrameHeader} {bs : List UInt8}
    (hle : 6 + h.extended + h.length ≤ bs.length) : (takenPayload h bs).length = h.length := by
  rw [takenPayload, length_xorKey, List.length_take, List.length_drop]
  omega

/-- The command has the ids of a payload, its first bytes, and the bytes behind them. -/
structure Command.Carries (cmd : Command) (payload : List UInt8) : Prop where
  header : Buffer.Holds ⟨cmd.header.data, 0⟩ (payload.take headerSize)
  driver : cmd.driver = (extractU16 ((payload.take headerSize).drop 4)).toNat
  operation : cmd.operation = (extractU16 ((payload.take headerSize).drop 6)).toNat
  position : cmd.payload.position = 0
  payload : cmd.payload.Holds (payload.drop headerSize)

/-- The command has been taken out of the bytes in front of the session. -/
structure Taken (w : View) (h : FrameHeader) (ws' : WebSocket) (cmd : Command) (w' : View) :
    Prop where
  read : FrameHeader.read w.input = some h
  accepted : Accepted h
  complete : 6 + h.extended + h.length ≤ w.input.length
  input : w'.input = w.input.drop (6 + h.extended + h.length)
  size : ws'.payloadSize = h.length
  carries : cmd.Carries (takenPayload h w.input)

/-- The buffer and the header fields when a whole frame has been read. -/
def WebSocket.framed (ws : WebSocket) (h : FrameHeader) (bs : List UInt8) : WebSocket :=
  { ws.filled (bs.take (6 + h.extended + h.length)) with
    headerSize := 6 + h.extended, payloadSize := h.length, maskOffset := 2 + h.extended }

theorem unmasked_framed (hempty : ws.readStrLen = 0) {h : FrameHeader} {bs : List UInt8}
    (hle : 6 + h.extended + h.length ≤ bs.length) {i : ℕ} (hi : i < h.length) :
    (ws.framed h bs).unmasked i = (takenPayload h bs).getD i 0 := by
  have hget : ∀ j, j < 6 + h.extended + h.length →
      (ws.framed h bs).readStr j = bs.getD j 0 := by
    intro j hj
    have hlen : j < (bs.take (6 + h.extended + h.length)).length := by
      rwa [List.length_take_of_le hle]
    have hfill := WebSocket.readStr_filled hempty hlen
    rw [List.getD_eq_getElem _ _ hlen, List.getElem_take] at hfill
    rw [List.getD_eq_getElem _ _ (by omega)]
    exact hfill
  have hmod : i % 4 < 4 := Nat.mod_lt i (by decide)
  have hkey : ((bs.drop (2 + h.extended)).take 4).getD (i % 4) 0
      = bs.getD (2 + h.extended + i % 4) 0 := by
    rw [List.getD_eq_getElem?_getD, List.getElem?_take_of_lt hmod, List.getElem?_drop,
      List.getD_eq_getElem?_getD]
  have hdata : ((bs.drop (6 + h.extended)).take h.length).getD i 0
      = bs.getD (6 + h.extended + i) 0 := by
    rw [List.getD_eq_getElem?_getD, List.getElem?_take_of_lt hi, List.getElem?_drop,
      List.getD_eq_getElem?_getD]
  have hin : i < ((bs.drop (6 + h.extended)).take h.length).length := by
    rw [List.length_take, List.length_drop]
    omega
  have hxor : (takenPayload h bs).getD i 0 = ((bs.drop (6 + h.extended)).take h.length).getD i 0
      ^^^ ((bs.drop (2 + h.extended)).take 4).getD (i % 4) 0 := by
    rw [List.getD_eq_getElem _ _ hin, List.getD_eq_getElem _ _ (by rwa [takenPayload,
      length_xorKey])]
    simp only [takenPayload, xorKey, List.getElem_mapIdx]
  have hoffset : 2 + h.extended + 4 + i = 6 + h.extended + i := by omega
  rw [hxor, hkey, hdata, ← hget _ (by omega), ← hget _ (by omega), ← hoffset]
  rfl

/-- Whatever the size is, a closed connection stays closed. -/
theorem wp_readNBytes_closed {fuel : ℕ} {n : ℤ} (hclosed : ws.connectionClosed = true) :
    (session drivers env).wp (ws.readNBytes fuel n n)
      (Result.OnRet fun p _ => p.1 < 0 ∨ p.2.connectionClosed = true) w := by
  by_cases hpos : n ≤ 0
  · rw [readNBytes_of_nonpos hpos]
    exact Or.inr hclosed
  · obtain ⟨m, rfl⟩ := Int.eq_ofNat_of_zero_le (le_of_not_ge hpos)
    refine (session drivers env).wp_mono ?_ wp_readNBytes_onRet
    intro r hr
    cases r with
    | halt f w' => trivial
    | ret p w' =>
      rcases hr with hneg | h | ⟨-, -, hp, -⟩
      · exact Or.inl hneg
      · exact Or.inr h
      · right
        rw [hp]
        exact hclosed

/-- `read_stream` fails, finds the end or a negative length, or has a frame. -/
theorem wp_readStream_onRet {fuel : ℕ} :
    (session drivers env).wp (ws.readStream fuel)
      (Result.OnRet fun p w' => p.1 < 0 ∨ p.2.connectionClosed = true ∨ p.2.payloadSize < 0 ∨
        p.1 = 0 ∧ ∃ h, FrameHeader.read w.input = some h ∧ (h.opcode = 1 ∨ h.opcode = 2) ∧
          h.length ≤ websockReadStrLen - 56 ∧
          (0 < h.length → 6 + h.extended + h.length ≠ koheronReadStrLen) ∧
          6 + h.extended + h.length ≤ w.input.length ∧
          p.2 = ws.resetReadBuff.framed h w.input ∧
          w' = w.advance (6 + h.extended + h.length)) w := by
  have hfail : (-1 : ℤ) < 0 := by decide
  rw [WebSocket.readStream]
  refine (session drivers env).wp_bind_onRet (wp_readHeader_onRet rfl) ?_
  rintro ⟨err, ws'⟩ w' hhead
  by_cases herr : err < 0
  · simp only [if_pos herr]
    exact Or.inl hfail
  by_cases hclosed : ws'.connectionClosed = true
  · by_cases hone : err = 1
    · simp only [if_neg herr, if_pos hone]
      exact Or.inr (Or.inl hclosed)
    · -- the payload is read with the length of an earlier frame
      simp only [if_neg herr, if_neg hone]
      refine (session drivers env).wp_bind_onRet (wp_readNBytes_closed hclosed) ?_
      rintro ⟨err', ws''⟩ w'' hend
      by_cases herr' : err' < 0
      · simp only [if_pos herr']
        exact Or.inl hfail
      · simp only [if_neg herr']
        exact Or.inr (Or.inl (hend.resolve_left herr'))
  obtain ⟨rfl, h, hread, hopcode, hle, hw', p, hp, hmax, hws'⟩ :=
    (hhead.resolve_left herr).resolve_left hclosed
  simp only at hws'
  have hzero : ¬ (0 : ℤ) = 1 := by decide
  simp only [if_neg herr, if_neg hzero]
  have hpayload : ws'.payloadSize = p := by rw [hws']
  rw [hpayload]
  rcases hp with rfl | hneg
  · refine (session drivers env).wp_bind_onRet wp_readNBytes_onRet ?_
    rintro ⟨err, ws''⟩ w'' hall
    by_cases herr' : err < 0
    · simp only [if_pos herr']
      exact Or.inl hfail
    simp only [if_neg herr']
    by_cases hclosed' : ws''.connectionClosed = true
    · exact Or.inr (Or.inl hclosed')
    obtain ⟨hzero', hn, hws'', hw'', hroom⟩ := (hall.resolve_left herr').resolve_left hclosed'
    simp only at hws''
    have hfill : ws'.readStrLen = 6 + h.extended := by
      rw [hws']
      change 0 + _ = _
      rw [List.length_take_of_le hle, Nat.zero_add]
    rw [hw', View.input_advance, List.length_drop] at hn
    refine Or.inr (Or.inr (Or.inr
      ⟨hzero', h, hread, hopcode, by omega, ?_, by omega, ?_, ?_⟩))
    · intro hpos
      have := hroom hpos
      omega
    · have hsplit : w.input.take (6 + h.extended + h.length)
          = w.input.take (6 + h.extended) ++ (w.input.drop (6 + h.extended)).take h.length :=
        List.take_add
      rw [hws'', hws', hw', View.input_advance, WebSocket.framed, hsplit,
        ← WebSocket.filled_filled]
      rfl
    · rw [hw'', hw', View.advance_advance]
  · rw [readNBytes_of_nonpos (le_of_lt hneg), pure_bind]
    simp only [if_neg herr]
    exact Or.inr (Or.inr (Or.inl (hpayload.trans_lt hneg)))

/-- The command that is decoded from a whole frame. -/
theorem carries_decoded (hempty : ws.readStrLen = 0) {h : FrameHeader} {bs : List UInt8}
    (hmin : headerSize ≤ h.length) (hle : 6 + h.extended + h.length ≤ bs.length)
    {cmd cmd' : Command}
    (hheader : cmd.header.position = headerStart) (hposition : cmd.payload.position = 0)
    (hdecode : (ws.framed h bs).decodeRawStreamCmd cmd = (0, cmd')) :
    cmd'.decodeHeader.Carries (takenPayload h bs) := by
  have hlen := length_takenPayload hle
  rw [WebSocket.decodeRawStreamCmd] at hdecode
  split at hdecode
  · exact absurd (congrArg Prod.fst hdecode) (by simp)
  have hcmd := (Prod.mk.inj hdecode).2
  have hhead : ∀ i, i < headerSize → cmd'.header.data i = (ws.framed h bs).unmasked i := by
    intro i hi
    rw [← hcmd]
    exact if_pos hi
  have htail : ∀ i, i + headerSize < h.length →
      cmd'.payload.data i = (ws.framed h bs).unmasked (i + headerSize) := by
    intro i hi
    have hlt : ((i + headerSize : ℕ) : ℤ) < (ws.framed h bs).payloadSize := by
      change _ < ((h.length : ℕ) : ℤ)
      omega
    rw [← hcmd]
    exact if_pos hlt
  have hheader' : cmd'.header.position = headerStart := by rw [← hcmd]; exact hheader
  have hposition' : cmd'.payload.position = 0 := by rw [← hcmd]; exact hposition
  clear hcmd hdecode
  have hfirst : Buffer.Holds ⟨cmd'.header.data, 0⟩ ((takenPayload h bs).take headerSize) := by
    have htake : ((takenPayload h bs).take headerSize).length = headerSize :=
      List.length_take_of_le (by omega)
    refine List.ext_getElem (Buffer.length_bytes _ _) fun i _ hi' => ?_
    have hi8 : i < headerSize := by rwa [htake] at hi'
    simp only [Buffer.bytes, List.getElem_map, List.getElem_range, Nat.zero_add,
      List.getElem_take]
    rw [hhead i hi8, unmasked_framed hempty hle (by omega), List.getD_eq_getElem]
  have hheaderIs : cmd'.HeaderIs ((takenPayload h bs).take headerSize) :=
    ⟨List.length_take_of_le (by omega), hheader', hfirst⟩
  obtain ⟨hdriver, hoperation⟩ := hheaderIs.decodeHeader_eq
  refine ⟨hfirst, hdriver, hoperation, hposition', ?_⟩
  refine List.ext_getElem (Buffer.length_bytes _ _) fun i _ hi' => ?_
  rw [List.length_drop] at hi'
  have hindex : i + headerSize = headerSize + i := Nat.add_comm _ _
  simp only [Command.payload_decodeHeader, Buffer.bytes, List.getElem_map, List.getElem_range,
    List.getElem_drop, hposition', Nat.zero_add]
  rw [htail i (by omega), hindex, unmasked_framed hempty hle (by omega), List.getD_eq_getElem]

/-- How `receive_cmd` ends: with an error, at the end of the connection, with a payload that is too
short for a command, or with a whole frame and what has been decoded from it. -/
def FrameReceived (ws : WebSocket) (cmd : Command) (w : View) (p : ℤ × WebSocket × Command)
    (w' : View) : Prop :=
  p.1 < 0 ∨ p.2.1.connectionClosed = true ∨ p.2.1.payloadSize < headerSize ∨
    ∃ h, FrameHeader.read w.input = some h ∧ Accepted h ∧
      6 + h.extended + h.length ≤ w.input.length ∧
      w' = w.advance (6 + h.extended + h.length) ∧ p.2.1.payloadSize = h.length ∧
      (ws.resetReadBuff.framed h w.input).decodeRawStreamCmd cmd = (0, p.2.2)

theorem wp_receiveCmd_onRet {fuel : ℕ} {cmd : Command} :
    (session drivers env).wp (ws.receiveCmd fuel cmd)
      (Result.OnRet (FrameReceived ws cmd w)) w := by
  have hfail : (-1 : ℤ) < 0 := by decide
  rw [WebSocket.receiveCmd]
  by_cases hclosed : ws.connectionClosed = true
  · rw [if_pos hclosed]
    exact Or.inr (Or.inl hclosed)
  rw [if_neg hclosed]
  refine (session drivers env).wp_bind_onRet wp_readStream_onRet ?_
  rintro ⟨err, ws'⟩ w' hstream
  by_cases herr : err < 0
  · simp only [if_pos herr]
    exact Or.inl hfail
  by_cases hone : err = 1
  · simp only [if_neg herr, if_pos hone]
    rcases hstream.resolve_left herr with hclosed' | hneg | ⟨hzero, -⟩
    · exact Or.inr (Or.inl hclosed')
    · exact Or.inr (Or.inr (Or.inl (lt_trans hneg (by decide))))
    · exact absurd (hone.symm.trans hzero) (by decide)
  obtain ⟨err', cmd', hdecode⟩ : ∃ err' cmd', ws'.decodeRawStreamCmd cmd = (err', cmd') :=
    ⟨_, _, rfl⟩
  simp only [if_neg herr, if_neg hone, hdecode]
  by_cases herr' : err' < 0
  · simp only [if_pos herr']
    exact Or.inl hfail
  simp only [if_neg herr']
  rcases hstream.resolve_left herr with hclosed' | hneg | ⟨-, h, hread, hopcode, hmax, hroom,
    hle, hws', hw'⟩
  · exact Or.inr (Or.inl hclosed')
  · exact Or.inr (Or.inr (Or.inl (lt_trans hneg (by decide))))
  · simp only at hws'
    have hsize : ws'.payloadSize = h.length := by rw [hws']; rfl
    by_cases hsmall : ws'.payloadSize < headerSize
    · exact Or.inr (Or.inr (Or.inl hsmall))
    have hmin : headerSize ≤ h.length := by omega
    have hpos : 0 < h.length := lt_of_lt_of_le (by decide) hmin
    refine Or.inr (Or.inr (Or.inr
      ⟨h, hread, ⟨hopcode, hmin, hmax, hroom hpos⟩, hle, hw', hsize, ?_⟩))
    have hzero : err' = 0 := by
      rw [WebSocket.decodeRawStreamCmd] at hdecode
      split at hdecode
      · exact absurd ((Prod.mk.inj hdecode).1 ▸ hfail) herr'
      · exact (Prod.mk.inj hdecode).1.symm
    rw [← hws', hdecode, hzero]

/-- **A command is a whole frame**, as `read_header` delimits it. -/
theorem wp_readCommand_taken {fuel : ℕ} {cmd : Command}
    (hheader : cmd.header.position = headerStart) (hposition : cmd.payload.position = 0) :
    (session drivers env).wp (WebSocket.readCommand fuel ws cmd)
      (Result.OnRet fun p w' => p.1 ≤ 0 ∨ ∃ h, Taken w h p.2.1 p.2.2 w') w := by
  have hfail : (-1 : ℤ) < 0 := by decide
  rw [WebSocket.readCommand]
  refine (session drivers env).wp_bind_onRet wp_receiveCmd_onRet ?_
  rintro ⟨n, ws', cmd'⟩ w' hreceived
  by_cases hneg : n < 0
  · simp only [if_pos hneg]
    exact Or.inl (le_of_lt hfail)
  by_cases hclosed : ws'.connectionClosed = true
  · simp only [if_neg hneg, if_pos hclosed]
    exact Or.inl le_rfl
  by_cases hsmall : ws'.payloadSize < headerSize
  · simp only [if_neg hneg, if_neg hclosed, if_pos hsmall]
    exact Or.inl (le_of_lt hfail)
  obtain ⟨h, hread, haccepted, hle, hw', hsize, hdecode⟩ :=
    ((hreceived.resolve_left hneg).resolve_left hclosed).resolve_left hsmall
  simp only [if_neg hneg, if_neg hclosed, if_neg hsmall]
  rw [Handler.wp_bind, wp_received]
  refine Or.inr ⟨h, hread, haccepted, hle, ?_, hsize, ?_⟩
  · rw [hw']
    rfl
  · exact carries_decoded rfl haccepted.2.1 hle hheader hposition hdecode

end Reading

/-! ## Executing a command does not read -/

/-- `::read` -/
def Action.IsRead : Action → Prop
  | .read _ => True
  | _ => False

/-- **A WebSocket session reads nothing while it executes a command.** -/
theorem Action.not_isRead_of_websock {drivers : List Driver} {s : Session} {operation : ℕ}
    (htype : s.type = .websock) {e : Action}
    (h : e.OfManager ∨ ∃ driver, e.OfOperation drivers s driver operation) : ¬ e.IsRead := by
  cases e with
  | read n =>
    rcases h with h | ⟨driver, h⟩
    · exact h.elim
    · exact absurd htype h
  | _ => exact not_false

/-! ## The commands that are handed over -/

/-- What `DriverManager::execute` is called with, and the `payload_size` of its frame. -/
structure HandedOver where
  size : ℤ
  command : Command

/-- A program of a session thread that notes the commands it hands over. -/
abbrev NotedProgram (α : Type) := Prog (Action ⊕ HandedOver) (Prog.Noting Answer HandedOver) α

namespace Session

/-- The loop of `run`, with a note of every command. -/
def serveNoted (arch : Arch) (drivers : List Driver) :
    ℕ → Session → NotedProgram (Option ℤ × Session)
  | 0, s => do
    outOfFuel.plain HandedOver
    return (none, s)
  | fuel + 1, s => do
    if ← exitSignal.plain HandedOver then return (none, s)
    let cmd := Command.uninitialized (← uninit.plain HandedOver)
    let (nbBytesRcvd, s, cmd) ← (s.readCommand fuel cmd).plain HandedOver
    if ← exitSignal.plain HandedOver then return (none, s)
    if nbBytesRcvd ≤ 0 then return (some nbBytesRcvd, s)
    Prog.note Answer ⟨s.websock.payloadSize, cmd⟩
    let (_, s) ← (DriverManager.execute arch drivers s cmd).plain HandedOver
    if s.closed then return (none, s)
    serveNoted arch drivers fuel s

/-- `run`, with a note of every command. -/
def runNoted (arch : Arch) (drivers : List Driver)
    (authenticate : Session → Program (ℤ × Session)) (fuel : ℕ) (s : Session) :
    NotedProgram ℤ := do
  let (err, opened) ← (s.initSocket authenticate).plain HandedOver
  if err < 0 then return -1
  match ← opened.serveNoted arch drivers fuel with
  | (some n, _) => return n
  | (none, served) => do
    let _ ← (exitSocket s.type served).plain HandedOver
    return 0

theorem erase_serveNoted (arch : Arch) (drivers : List Driver) (fuel : ℕ) (s : Session) :
    (s.serveNoted arch drivers fuel).erase = s.serve arch drivers fuel := by
  induction fuel generalizing s with
  | zero =>
    simp only [serveNoted, serve, Prog.erase_bind, Prog.erase_plain]
    exact bind_congr fun _ => rfl
  | succ fuel ih =>
    simp only [serveNoted, serve, Prog.erase_bind, Prog.erase_plain]
    refine bind_congr fun stop => ?_
    cases stop with
    | true => rfl
    | false =>
      simp only [Bool.false_eq_true, if_false, Prog.erase_bind, Prog.erase_plain]
      refine bind_congr fun mem => bind_congr fun p => ?_
      obtain ⟨n, s', cmd⟩ := p
      refine bind_congr fun stop => ?_
      cases stop with
      | true => rfl
      | false =>
        by_cases hn : n ≤ 0
        · simp only [Bool.false_eq_true, if_false, if_pos hn, Prog.erase_pure]
        · simp only [Bool.false_eq_true, if_false, if_neg hn, Prog.erase_bind, Prog.erase_note,
            Prog.erase_plain, pure_bind]
          refine bind_congr fun p => ?_
          obtain ⟨m, s''⟩ := p
          cases hclosed : s''.closed with
          | true => simp only [if_true, Prog.erase_pure]
          | false => simpa only [Bool.false_eq_true, if_false] using ih s''

/-- **Taking notes changes nothing.** -/
theorem erase_runNoted (arch : Arch) (drivers : List Driver)
    (authenticate : Session → Program (ℤ × Session)) (fuel : ℕ) (s : Session) :
    (s.runNoted arch drivers authenticate fuel).erase
      = s.run arch drivers authenticate fuel := by
  simp only [runNoted, run, Prog.erase_bind, Prog.erase_plain]
  refine bind_congr fun p => ?_
  obtain ⟨err, opened⟩ := p
  by_cases herr : err < 0
  · simp only [if_pos herr, Prog.erase_pure]
  · simp only [if_neg herr, Prog.erase_bind, erase_serveNoted]
    refine bind_congr fun p => ?_
    obtain ⟨_ | n, served⟩ := p
    · simp only [Prog.erase_bind, Prog.erase_plain, Prog.erase_pure]
    · rfl

end Session

/-! ## Soundness -/

/-- The command is the payload of this frame, which is a whole message of a client. -/
structure HandedOver.IsFrame (f : Frame) (c : HandedOver) : Prop where
  fin : f.header.fin = true
  masked : f.header.masked = true
  opcode : f.header.opcode = 1 ∨ f.header.opcode = 2
  length : headerSize ≤ f.payload.length
  size : c.size = f.payload.length
  carries : c.command.Carries f.payload

/-- The commands are the frames of the stream, one after the other from the first on. -/
def SoundlyHanded (stream : List UInt8) (handed : List HandedOver) : Prop :=
  ∃ fs rest, Delimits stream fs rest ∧ List.Forall₂ HandedOver.IsFrame fs handed

/-- A frame of the wrong kind lies in front, `read_header` does not mind, and all that
the session takes for this frame is there. -/
def Loose (bs : List UInt8) : Prop :=
  match FrameHeader.read bs with
  | none => False
  | some h => (h.fin = false ∨ h.masked = false) ∧ Accepted h ∧
      6 + h.extended + h.length ≤ bs.length

instance (bs : List UInt8) : Decidable (Loose bs) := by
  unfold Loose
  cases FrameHeader.read bs <;> infer_instance

/-- Behind frames that the session executes, there is never one of the wrong kind that
it takes for another. -/
def NoLooseFrame (stream : List UInt8) : Prop :=
  ∀ fs rest, Delimits stream fs rest →
    (∀ f ∈ fs, f.header.fin = true ∧ f.header.masked = true ∧ Accepted f.header) → ¬ Loose rest

/-- What has been handed over so far, and where the session stands. -/
structure Handing (stream : List UInt8) (handed : List HandedOver) (rest : List UInt8) : Prop where
  sound : ∃ fs, Delimits stream fs rest ∧
    (∀ f ∈ fs, f.header.fin = true ∧ f.header.masked = true ∧ Accepted f.header) ∧
      List.Forall₂ HandedOver.IsFrame fs handed

theorem Handing.soundly {stream rest : List UInt8} {handed : List HandedOver}
    (h : Handing stream handed rest) : SoundlyHanded stream handed := by
  obtain ⟨fs, hfs, -, hall⟩ := h.sound
  exact ⟨fs, rest, hfs, hall⟩

/-- **One more command.**  The frame in front is not a loose one, so the session takes it
for what it is. -/
theorem Handing.concat {stream : List UInt8} (hstream : NoLooseFrame stream)
    {handed : List HandedOver} {w w' : View} (hhanding : Handing stream handed w.input)
    {h : FrameHeader} {ws' : WebSocket} {cmd : Command} (htaken : Taken w h ws' cmd w') :
    Handing stream (handed ++ [⟨ws'.payloadSize, cmd⟩]) w'.input := by
  obtain ⟨fs, hfs, hgood, hall⟩ := hhanding.sound
  obtain ⟨hfin, hmasked⟩ : h.fin = true ∧ h.masked = true := by
    have hloose := hstream fs w.input hfs hgood
    rw [Loose, htaken.read] at hloose
    constructor
    · by_contra hno
      exact hloose ⟨Or.inl (Bool.eq_false_of_not_eq_true hno), htaken.accepted, htaken.complete⟩
    · by_contra hno
      exact hloose ⟨Or.inr (Bool.eq_false_of_not_eq_true hno), htaken.accepted, htaken.complete⟩
  have hsize : h.size = 6 + h.extended := by
    rw [FrameHeader.size, hmasked, if_pos rfl]
    omega
  have hpayload : h.payload w.input = takenPayload h w.input := by
    rw [FrameHeader.payload, hmasked, if_pos rfl, hsize, takenPayload]
  have hlen := length_takenPayload htaken.complete
  have hnext : Frame.next w.input = some (⟨h, takenPayload h w.input⟩, w'.input) := by
    rw [Frame.next, htaken.read]
    simp only [hsize, if_pos htaken.complete, hpayload, htaken.input]
  refine ⟨fs ++ [⟨h, takenPayload h w.input⟩], hfs.concat hnext, ?_, ?_⟩
  · intro f hf
    rcases List.mem_append.mp hf with hf | hf
    · exact hgood f hf
    · rw [List.mem_singleton.mp hf]
      exact ⟨hfin, hmasked, htaken.accepted⟩
  · refine List.rel_append hall
      (.cons ⟨hfin, hmasked, htaken.accepted.1, ?_, ?_, htaken.carries⟩ .nil)
    · rw [hlen]
      exact htaken.accepted.2.1
    · rw [htaken.size, hlen]

section Run

variable {arch : Arch} {drivers : List Driver} {env : Env} {s : Session} {stream : List UInt8}

theorem wp_readCommand_websock (htype : s.type = .websock) {fuel : ℕ} {cmd : Command}
    (hheader : cmd.header.position = headerStart) (hposition : cmd.payload.position = 0)
    {w : View} :
    (session drivers env).wp (s.readCommand fuel cmd)
      (Result.OnRet fun p w' => p.2.1.type = .websock ∧
        (p.1 ≤ 0 ∨ ∃ h, Taken w h p.2.1.websock p.2.2 w')) w := by
  rw [Session.readCommand, htype]
  refine (session drivers env).wp_bind_onRet (wp_readCommand_taken hheader hposition) ?_
  rintro ⟨n, websock, cmd'⟩ w' htaken
  exact ⟨rfl, htaken⟩

/-- Executing a command leaves the stream as it is. -/
theorem wp_managerExecute_input (htype : s.type = .websock) (cmd : Command) {w : View} :
    (session drivers env).wp (DriverManager.execute arch drivers s cmd)
      (Result.OnRet fun p w' => p.2.type = .websock ∧ w'.input = w.input) w := by
  have hwithin : (DriverManager.execute arch drivers s cmd).Within
      (fun e => e.OfManager ∨ ∃ driver, e.OfOperation drivers s driver cmd.operation)
      fun p => s.Same p.2 := within_managerExecute cmd
  have hkeep : ∀ (e : Action) (w' : View) (x : Answer e),
      (e.OfManager ∨ ∃ driver, e.OfOperation drivers s driver cmd.operation) →
      w'.input = w.input → (session drivers env).ok e w' x →
      ((session drivers env).next e w' x).input = w.input := by
    intro e w' x he hw' _
    have hread := Action.not_isRead_of_websock htype he
    cases e with
    | read n => exact absurd trivial hread
    | _ => exact hw'
  have hinput := (session drivers env).wp_of_only hkeep hwithin.1 rfl
  refine (session drivers env).wp_mono ?_
    ((session drivers env).wp_and hinput ((session drivers env).wp_of_gives hwithin.2))
  rintro (⟨p, w'⟩ | ⟨f, w'⟩) ⟨hin, hp⟩
  · exact ⟨hp.1.trans htype, hin⟩
  · trivial

/-- **The loop hands over frames.** -/
theorem wp_serveNoted_soundly (hstream : NoLooseFrame stream) (htype : s.type = .websock) {fuel : ℕ}
    {w : View} {handed : List HandedOver} (hhanding : Handing stream handed w.input) :
    ((session drivers env).noting HandedOver).wp (s.serveNoted arch drivers fuel)
      (fun r => SoundlyHanded stream r.world.2) (w, handed) := by
  induction fuel generalizing s w handed with
  | zero =>
    rw [Session.serveNoted]
    exact (session drivers env).wp_plain_bind (Q := fun _ _ => True)
      (wp_outOfFuel.mpr trivial) (fun _ _ => hhanding.soundly) (fun _ _ _ => hhanding.soundly)
  | succ fuel ih =>
    have hsound := hhanding.soundly
    rw [Session.serveNoted]
    refine (session drivers env).wp_plain_bind (Q := fun _ w' => w = w')
      (wp_exitSignal.mpr fun _ _ => rfl) (fun _ _ => hsound) ?_
    rintro stop w' rfl
    cases stop with
    | true => exact hsound
    | false =>
      refine (session drivers env).wp_plain_bind (Q := fun _ w' => w = w')
        (wp_uninit.mpr fun _ => rfl) (fun _ _ => hsound) ?_
      rintro mem w' rfl
      refine (session drivers env).wp_plain_bind
        (wp_readCommand_websock htype rfl rfl) (fun _ _ => hsound) ?_
      rintro ⟨n, s', cmd⟩ w₁ ⟨htype', htaken⟩
      refine (session drivers env).wp_plain_bind (Q := fun _ w' => w₁ = w')
        (wp_exitSignal.mpr fun _ _ => rfl) (fun _ _ => hsound) ?_
      rintro stop w' rfl
      cases stop with
      | true => exact hsound
      | false =>
        by_cases hn : n ≤ 0
        · simp only [Bool.false_eq_true, if_false, if_pos hn]
          exact hsound
        obtain ⟨h, htaken⟩ := htaken.resolve_left hn
        have hhanding' := hhanding.concat hstream htaken
        simp only [Bool.false_eq_true, if_false, if_neg hn]
        rw [Handler.wp_bind, Handler.wp_note, Handler.andThen_ret]
        refine (session drivers env).wp_plain_bind
          (wp_managerExecute_input htype' cmd) (fun _ _ => hhanding'.soundly) ?_
        rintro ⟨m, s''⟩ w₂ ⟨htype'', hin⟩
        cases hclosed : s''.closed with
        | true => exact hhanding'.soundly
        | false =>
          simp only [Bool.false_eq_true, if_false]
          exact ih htype'' (hin ▸ hhanding')

/-- **What a WebSocket session executes.**  In every run, on every stream in which no
loose frame comes behind frames that are executed, the commands handed over are the
payloads of the first frames of the stream: whole messages, masked, and in one piece. -/
theorem run_soundlyHanded (arch : Arch) (drivers : List Driver) (s : Session)
    (htype : s.type = .websock) {stream : List UInt8} (hstream : NoLooseFrame stream)
    (ending : Ending) (fuel : ℕ) :
    ∀ pick, ((session drivers .any).noting HandedOver).Allows pick →
      SoundlyHanded stream (((session drivers .any).noting HandedOver).exec pick 0
        (s.runNoted arch drivers (fun s => pure (0, s)) fuel)
        (View.start stream ending, [])).world.2 := by
  intro pick hpick
  have hinit : s.initSocket (fun s => pure (0, s)) = pure (0, s) := by
    rw [Session.initSocket, htype]
  have hstart : Handing stream [] stream :=
    ⟨[], .nil stream, fun f hf => (List.not_mem_nil hf).elim, .nil⟩
  suffices hrun : ((session drivers .any).noting HandedOver).wp
      (s.runNoted arch drivers (fun s => pure (0, s)) fuel)
      (fun r => SoundlyHanded stream r.world.2) (View.start stream ending, []) from
    ((session drivers .any).noting HandedOver).wp_exec hpick hrun 0
  rw [Session.runNoted, hinit]
  refine (session drivers .any).wp_plain_bind (Q := fun p w' => p = (0, s) ∧ w'.input = stream)
    ⟨rfl, rfl⟩ (fun _ _ => hstart.soundly) ?_
  rintro p w ⟨rfl, rfl⟩
  have hzero : ¬ (0 : ℤ) < 0 := Int.lt_irrefl 0
  simp only [if_neg hzero]
  refine ((session drivers .any).noting HandedOver).wp_bind_intro
    (((session drivers .any).noting HandedOver).wp_mono ?_
      (wp_serveNoted_soundly hstream htype hstart))
  rintro (⟨⟨_ | n, served⟩, w', handed⟩ | ⟨f, w', handed⟩) hsound
  · exact (session drivers .any).wp_plain_bind (Q := fun _ _ => True)
      ((session drivers .any).wp_mono (fun r _ => by cases r <;> trivial)
        ((session drivers .any).wp_of_gives (Prog.gives_true _)))
      (fun _ _ => hsound) (fun _ _ _ => hsound)
  · exact hsound
  · exact hsound

end Run

/-- A WebSocket session after the handshake. -/
def probeWebSession : Session := ⟨.websock, 7, probeWebSocket, false⟩

/-- A frame with the key 1, 2, 3, 4: the header of a command for operation 1 of driver 2, and one
byte of payload, masked. -/
def probeFrameBytes (first : UInt8) : List UInt8 :=
  [first, 137, 1, 2, 3, 4, 1, 2, 3, 4, 1, 0, 3, 5, 43]

/-- A binary frame: the session hands over the command under its mask. -/
theorem run_soundlyHanded_probe :
    SoundlyHanded (probeFrameBytes 130) (((session probeDrivers .any).noting HandedOver).exec
      (Handler.notingPick HandedOver (eager probeDrivers)) 0
      (probeWebSession.runNoted .lp64 probeDrivers (fun s => pure (0, s)) 3)
      (View.start (probeFrameBytes 130) .eof, [])).world.2 := by
  have hnext : Frame.next (probeFrameBytes 130)
      = some (⟨⟨true, 2, true, 0, 9⟩, [0, 0, 0, 0, 0, 2, 0, 1, 42]⟩, []) := by decide
  have hstream : NoLooseFrame (probeFrameBytes 130) := by
    intro fs rest h _
    cases h with
    | nil => decide
    | cons h t =>
      rw [hnext] at h
      cases h
      cases t with
      | nil => decide
      | cons h _ => cases h
  exact run_soundlyHanded .lp64 probeDrivers probeWebSession rfl hstream .eof 3 _
    ((session probeDrivers .any).notingPick_allows (N := HandedOver)
      (eager_allows_any probeDrivers))

/-- The first frame of a message that is sent in pieces is executed as a command. -/
theorem not_soundlyHanded_of_fragment :
    ¬ ∀ pick, ((session probeDrivers .any).noting HandedOver).Allows pick →
      SoundlyHanded (probeFrameBytes 2) (((session probeDrivers .any).noting HandedOver).exec pick 0
        (probeWebSession.runNoted .lp64 probeDrivers (fun s => pure (0, s)) 3)
        (View.start (probeFrameBytes 2) .eof, [])).world.2 := by
  intro h
  obtain ⟨fs, rest, hfs, hall⟩ := h _
    ((session probeDrivers .any).notingPick_allows (N := HandedOver)
      (eager_allows_any probeDrivers))
  have hlen := hall.length_eq
  have hone : (((session probeDrivers .any).noting HandedOver).exec
      (Handler.notingPick HandedOver (eager probeDrivers)) 0
      (probeWebSession.runNoted .lp64 probeDrivers (fun s => pure (0, s)) 3)
      (View.start (probeFrameBytes 2) .eof, [])).world.2.length = 1 := by decide +kernel
  have hnext : Frame.next (probeFrameBytes 2)
      = some (⟨⟨false, 2, true, 0, 9⟩, [0, 0, 0, 0, 0, 2, 0, 1, 42]⟩, []) := by decide
  cases hfs with
  | nil => exact absurd (hlen.trans hone) (by decide)
  | cons h t =>
    rw [hnext] at h
    cases h
    cases hall with
    | cons hframe _ => exact Bool.false_ne_true hframe.fin

end KoheronSdk
