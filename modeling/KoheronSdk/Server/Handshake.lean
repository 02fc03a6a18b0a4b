import KoheronSdk.Lib.HttpText
import KoheronSdk.Server.Base64
import KoheronSdk.Server.ReadResults
import KoheronSdk.Server.Sha1

/-!
# The WebSocket handshake

`WebSocket::authenticate` and `read_http_packet`: one `read()` is to give the whole HTTP request,
from which the key and the protocol line are taken by a substring search.

## One read

`read_http_packet` does not read on when the blank line is still to come, and takes a request of
`KOHERON_READ_STR_LEN` bytes for one that does not fit, although `read_str` is larger.  A request
that TCP delivers in two pieces is turned down, whatever the second one is.  So the results here are
about the first piece: `wp_authenticate` says what becomes of any text that is read, and the rest is
about texts that are a first part of a request.

## The search

The key is what stands behind the first `Sec-WebSocket-Key: `, in these letters and with this blank,
wherever it is.  RFC 6455 allows the name in any letters and any blanks around the value, and the
same characters may stand in another header before.  `Spelled` is the condition that the search
finds what is there.

## Any hash

SHA1 and base64 are parameters of `authenticate`, and `Accepts` asks for the answer whatever they
are, so that a wrong key cannot be answered rightly by accident.  `authenticate_accept` puts in
the ones of the server.

* `UpgradeRequest`: an HTTP request with the headers of a handshake.
* `Accepts`: the handshake succeeds, with the response that RFC 6455 asks for.
* `accepts_iff`: when it does, for a request that arrives in given pieces.
* `authenticate_accept`: the accepted key, with the SHA1 and the base64 of the server.
-/

namespace KoheronSdk

open Effects TextSearch HttpText

namespace WebSocket

/-! ## The code -/

/-- `WSKeyIdentifier` -/
def wsKeyIdentifier : List UInt8 := ascii "Sec-WebSocket-Key: "

/-- `WSProtocolIdentifier` -/
def wsProtocolIdentifier : List UInt8 := ascii "Sec-WebSocket-Protocol: "

/-- `WSMagic` -/
def wsMagic : List UInt8 := ascii "258EAFA5-E914-47DA-95CA-C5AB0DC85B11"

/-- `WSKeyLen` -/
def wsKeyLen : ℕ := 24

/-- `WebSocket(SysLog&)`, which leaves the fields of `header` as they are. -/
def constructed (headerSize maskOffset : ℕ) (payloadSize : ℤ) : WebSocket :=
  ⟨fun _ => 0, 0, headerSize, maskOffset, payloadSize, false⟩

/-- Bytes have been read to `read_str`. -/
def stored (ws : WebSocket) (bs : List UInt8) : WebSocket :=
  { ws with readStr := fun i => if i < bs.length then bs.getD i 0 else ws.readStr i }

/-- `std::string(read_str)`, which ends before the first NUL. -/
def cString (ws : WebSocket) : List UInt8 :=
  (ws.readStrBytes 0 websockReadStrLen).takeWhile (· ≠ 0)

/-- `read_http_packet`, with `http_packet`. -/
def readHttpPacket (ws : WebSocket) : Program (ℤ × WebSocket × List UInt8) := do
  let ws := ws.resetReadBuff
  match ← read websockReadStrLen with
  | .negative => return (-1, ws, [])
  | .zero => return (-1, { ws with connectionClosed := true }, [])
  | .bytes bs =>
    let ws := ws.stored bs
    if bs.length = koheronReadStrLen then return (-1, ws, [])
    let httpPacket := ws.cString
    -- without a NUL the string goes on behind `read_str`
    if httpPacket.length = websockReadStrLen then overrun
    if offset? blankLine httpPacket = none then return (-1, ws, httpPacket)
    return (bs.length, ws, httpPacket)

/-- What `authenticate` sends. -/
def switchingProtocols (finalStr : List UInt8) (isProtocol : Bool) : List UInt8 :=
  ascii "HTTP/1.1 101 Switching Protocols" ++ crlf ++
  ascii "Upgrade: websocket" ++ crlf ++
  ascii "Connection: Upgrade" ++ crlf ++
  ascii "Sec-WebSocket-Accept: " ++ finalStr ++ crlf ++
  (if isProtocol then ascii "Sec-WebSocket-Protocol: chat" ++ crlf else []) ++
  crlf

/-- `authenticate` -/
def authenticate (sha1 base64Encode : List UInt8 → List UInt8) (ws : WebSocket)
    (dest : SessionID) : Program (ℤ × WebSocket) := do
  let (n, ws, httpPacket) ← readHttpPacket ws
  if n < 0 then return (-1, ws)
  let isProtocol := (offset? wsProtocolIdentifier httpPacket).isSome
  match offset? wsKeyIdentifier httpPacket with
  | none => return (-1, ws)
  | some pos =>
    let key := (httpPacket.drop (pos + wsKeyIdentifier.length)).take wsKeyLen
    let finalStr := base64Encode (sha1 (key ++ wsMagic))
    sendRequest ws dest (switchingProtocols finalStr isProtocol)

end WebSocket

/-! ## Requests, and what is to be answered -/

/-- A request for a WebSocket: an HTTP request with a key of 24 characters, for which there is room
in `read_str`. -/
structure UpgradeRequest where
  requestLine : List UInt8
  headers : List Header
  key : List UInt8
  isLine : IsLine requestLine
  wellFormed : ∀ h ∈ headers, h.WellFormed
  noNul : 0 ∉ head (requestLine :: headers.map Header.line)
  keyHeader : (headers.filter (Header.Named (ascii "Sec-WebSocket-Key"))).map Header.value
    = [key]
  keyLength : key.length = 24
  short : (head (requestLine :: headers.map Header.line)).length < websockReadStrLen

namespace UpgradeRequest

/-- The bytes of the request, with the blank line at their end. -/
def text (r : UpgradeRequest) : List UInt8 := head (r.requestLine :: r.headers.map Header.line)

/-- The request asks for a protocol. -/
def HasProtocol (r : UpgradeRequest) : Prop :=
  ∃ h ∈ r.headers, h.Named (ascii "Sec-WebSocket-Protocol")

instance (r : UpgradeRequest) : Decidable r.HasProtocol :=
  List.decidableBEx (Header.Named (ascii "Sec-WebSocket-Protocol")) r.headers

/-- The response to a request: the accepted key, and a protocol if one has been asked for. -/
def response (accept : List UInt8) (protocol : Prop) [Decidable protocol] : List UInt8 :=
  head ([ascii "HTTP/1.1 101 Switching Protocols", ascii "Upgrade: websocket",
      ascii "Connection: Upgrade", ascii "Sec-WebSocket-Accept: " ++ accept] ++
    if protocol then [ascii "Sec-WebSocket-Protocol: chat"] else [])

/-- The reads give these pieces, one after the other. -/
def Delivers (results : ℕ → ReadResult) (pieces : List (List UInt8)) : Prop :=
  ∀ i bs, pieces[i]? = some bs → results i = .bytes bs

/-- The handshake succeeds, whatever SHA1 and base64 are: the key of the request is answered by
the accepted one, and a request for a protocol by a protocol. -/
def Accepts (r : UpgradeRequest) (results : ℕ → ReadResult) : Prop :=
  ∀ (sha1 base64Encode : List UInt8 → List UInt8) (headerSize maskOffset : ℕ) (payloadSize : ℤ)
    (dest : SessionID), (answering results).wp
      ((WebSocket.constructed headerSize maskOffset payloadSize).authenticate sha1 base64Encode
        dest)
      (fun res => ∃ n ws s, res = .ret (n, ws) s ∧ 0 ≤ n ∧
        s.written = response
          (base64Encode (sha1 (r.key ++ ascii "258EAFA5-E914-47DA-95CA-C5AB0DC85B11")))
          r.HasProtocol) ⟨0, []⟩

/-- The code finds in the request what is there: behind the first `Sec-WebSocket-Key: ` stands the
key, and there is a `Sec-WebSocket-Protocol: ` if and only if a protocol is asked for. -/
structure Spelled (r : UpgradeRequest) : Prop where
  key : (offset? WebSocket.wsKeyIdentifier r.text).map (fun pos =>
    (r.text.drop (pos + WebSocket.wsKeyIdentifier.length)).take WebSocket.wsKeyLen) = some r.key
  protocol : (offset? WebSocket.wsProtocolIdentifier r.text).isSome = true ↔ r.HasProtocol

end UpgradeRequest

/-! ## What one `read()` decides -/

namespace WebSocket

section Authenticate

variable {results : ℕ → ReadResult} {ws : WebSocket} {s : Socket} {dest : SessionID}
  {p : List UInt8}

/-- What `authenticate` sends when it has read `p`. -/
def reply? (sha1 base64Encode : List UInt8 → List UInt8) (p : List UInt8) : Option (List UInt8) :=
  if p.length = koheronReadStrLen ∨ offset? blankLine p = none then none
  else (offset? wsKeyIdentifier p).map fun pos => switchingProtocols
    (base64Encode (sha1 ((p.drop (pos + wsKeyIdentifier.length)).take wsKeyLen ++ wsMagic)))
    (offset? wsProtocolIdentifier p).isSome

/-- A run has come back, with success if there is a reply, which then has been sent. -/
def Replied (s : Socket) (reply : Option (List UInt8))
    (r : Result Stop Socket (ℤ × WebSocket)) : Prop :=
  ∃ n ws s', r = .ret (n, ws) s' ∧ (0 ≤ n ↔ reply.isSome = true) ∧
    s'.written = s.written ++ reply.getD []

theorem wp_write_answering {bs : List UInt8} {post : Result Stop Socket ℤ → Prop} :
    (answering results).wp (write dest bs) post s ↔ ∀ n : ℤ, n ≤ bs.length → (bs ≠ [] → 0 < n) →
      post (.ret n { s with written := s.written ++ bs.take n.toNat }) :=
  ((answering results).wp_perform (e := .write dest bs) rfl).trans
    (forall_congr' fun _ => and_imp)

theorem wp_sendLoop_answering {fuel : ℕ} {bits : List UInt8} {bytesSend : ℤ}
    (hfuel : bits.length ≤ fuel) (hpos : 0 < bytesSend ∨ bits ≠ []) :
    (answering results).wp (sendLoop dest fuel bits bytesSend)
      (fun r => ∃ n, r = .ret n { s with written := s.written ++ bits } ∧ 0 < n) s := by
  induction fuel generalizing bits bytesSend s with
  | zero =>
    obtain rfl := List.eq_nil_of_length_eq_zero (Nat.le_zero.mp hfuel)
    rw [sendLoop, List.length_nil, if_neg (Nat.lt_irrefl 0), List.append_nil]
    exact ⟨bytesSend, rfl, hpos.resolve_right fun h => h rfl⟩
  | succ fuel ih =>
    rw [sendLoop]
    by_cases hsome : 0 < bits.length
    · rw [if_pos hsome, Handler.wp_bind, wp_write_answering]
      intro n hn hn'
      have hn0 : 0 < n := hn' (List.ne_nil_of_length_pos hsome)
      simp only [Handler.andThen_ret, if_pos hn0]
      have hleft : (bits.drop n.toNat).length ≤ fuel := by
        rw [List.length_drop]
        omega
      refine (answering results).wp_mono ?_ (ih hleft (Or.inl hn0))
      rintro r ⟨m, rfl, hm⟩
      refine ⟨m, ?_, hm⟩
      rw [List.append_assoc, List.take_append_drop]
    · obtain rfl := List.eq_nil_of_length_eq_zero (Nat.eq_zero_of_not_pos hsome)
      rw [if_neg hsome, List.append_nil]
      exact ⟨bytesSend, rfl, hpos.resolve_right fun h => h rfl⟩

theorem wp_sendRequest_answering {bits : List UInt8} (hopen : ws.connectionClosed = false)
    (hne : bits ≠ []) :
    (answering results).wp (ws.sendRequest dest bits)
      (fun r => ∃ n, r = .ret (n, ws) { s with written := s.written ++ bits } ∧ 0 < n) s := by
  rw [sendRequest, hopen, if_neg Bool.false_ne_true, Handler.wp_bind]
  refine (answering results).wp_mono ?_
    (wp_sendLoop_answering (Nat.le_refl _) (Or.inr hne))
  rintro r ⟨n, rfl, hn⟩
  rw [Handler.andThen_ret, if_neg (by omega)]
  exact ⟨n, rfl, hn⟩

/-- A string that has been read to zeroed memory is followed by a NUL. -/
theorem cString_stored {headerSize maskOffset : ℕ} {payloadSize : ℤ} (hnul : 0 ∉ p)
    (hshort : p.length < websockReadStrLen) :
    (((constructed headerSize maskOffset payloadSize).resetReadBuff).stored p).cString = p := by
  have hmem : (((constructed headerSize maskOffset payloadSize).resetReadBuff).stored
      p).readStrBytes 0 websockReadStrLen
        = p ++ List.replicate (websockReadStrLen - p.length) 0 := by
    refine List.ext_getElem ?_ fun i hi hi' => ?_
    · rw [readStrBytes, List.length_map, List.length_range, List.length_append,
        List.length_replicate]
      omega
    · rw [List.getElem_append]
      simp only [readStrBytes, List.getElem_map, List.getElem_range, Nat.zero_add, stored]
      by_cases hlt : i < p.length
      · rw [if_pos hlt, dif_pos hlt, List.getD_eq_getElem _ _ hlt]
      · rw [if_neg hlt, dif_neg hlt, List.getElem_replicate]
        show (if i < 0 then (0 : UInt8) else 0) = 0
        exact ite_self 0
  have hall : ∀ b ∈ p, decide (b ≠ 0) = true := fun b hb =>
    decide_eq_true (ne_of_mem_of_not_mem hb hnul)
  rw [cString, hmem, List.takeWhile_append_of_pos hall]
  obtain ⟨k, hk⟩ := Nat.exists_eq_add_of_lt hshort
  rw [show websockReadStrLen - p.length = k + 1 by omega, List.replicate_succ]
  exact List.append_nil p

theorem switchingProtocols_ne_nil (finalStr : List UInt8) (isProtocol : Bool) :
    switchingProtocols finalStr isProtocol ≠ [] := fun h =>
  absurd (List.append_eq_nil_iff.mp h).2 (List.cons_ne_nil _ _)

/-- **What the first read gives decides the handshake.** -/
theorem wp_authenticate {sha1 base64Encode : List UInt8 → List UInt8} {headerSize maskOffset : ℕ}
    {payloadSize : ℤ} (hnul : 0 ∉ p) (hshort : p.length < websockReadStrLen)
    (hread : results s.reads = .bytes p) :
    (answering results).wp
      ((constructed headerSize maskOffset payloadSize).authenticate sha1 base64Encode dest)
      (Replied s (reply? sha1 base64Encode p)) s := by
  have hfails : ∀ ws, reply? sha1 base64Encode p = none → Replied s (reply? sha1 base64Encode p)
      (.ret (-1, ws) { s with reads := s.reads + 1 }) := by
    intro ws hnone
    rw [hnone]
    exact ⟨-1, ws, _, rfl, iff_of_false (by decide) Bool.false_ne_true, (List.append_nil _).symm⟩
  rw [authenticate, readHttpPacket, bind_assoc, Handler.wp_bind, wp_read_answering, hread,
    Handler.andThen_ret]
  by_cases hlen : p.length = koheronReadStrLen
  · simp only [if_pos hlen]
    exact hfails _ (if_pos (Or.inl hlen))
  · have hstring : (((constructed headerSize maskOffset payloadSize).resetReadBuff).stored
        p).cString = p := cString_stored hnul hshort
    simp only [if_neg hlen, hstring, if_neg (Nat.ne_of_lt hshort)]
    by_cases hblank : offset? blankLine p = none
    · simp only [if_pos hblank]
      exact hfails _ (if_pos (Or.inr hblank))
    · have hreply : reply? sha1 base64Encode p = (offset? wsKeyIdentifier p).map fun pos =>
          switchingProtocols (base64Encode (sha1 ((p.drop (pos + wsKeyIdentifier.length)).take
            wsKeyLen ++ wsMagic))) (offset? wsProtocolIdentifier p).isSome :=
        if_neg (not_or.mpr ⟨hlen, hblank⟩)
      simp only [if_neg hblank, pure_bind]
      rw [if_neg (by omega)]
      cases hkey : offset? wsKeyIdentifier p with
      | none => exact hfails _ (by rw [hreply, hkey]; rfl)
      | some pos =>
        rw [hkey] at hreply
        rw [hreply]
        refine (answering results).wp_mono ?_
          (wp_sendRequest_answering rfl (switchingProtocols_ne_nil _ _))
        rintro r ⟨n, rfl, hn⟩
        exact ⟨n, _, _, rfl, iff_of_true hn.le rfl, rfl⟩

end Authenticate

end WebSocket

/-! ## Requests in pieces -/

namespace UpgradeRequest

open WebSocket

section Pieces

variable {r : UpgradeRequest} {p : List UInt8} {pieces : List (List UInt8)}
  {results : ℕ → ReadResult}

theorem isLine_of_mem (r : UpgradeRequest) :
    ∀ l ∈ r.requestLine :: r.headers.map Header.line, IsLine l := by
  intro l hl
  rcases List.mem_cons.mp hl with rfl | hl
  · exact r.isLine
  · obtain ⟨h, hh, rfl⟩ := List.mem_map.mp hl
    exact (r.wellFormed h hh).isLine

theorem switchingProtocols_eq_response (finalStr : List UInt8) (protocol : Prop)
    [Decidable protocol] :
    switchingProtocols finalStr (decide protocol) = response finalStr protocol := by
  unfold switchingProtocols response
  by_cases hprotocol : protocol
  · simp only [hprotocol, decide_true, if_pos, head, ended, List.cons_append, List.nil_append,
      List.flatMap_cons, List.flatMap_nil, List.append_assoc, List.append_nil]
  · simp only [hprotocol, decide_false, if_false, head, ended, List.append_nil, List.flatMap_cons,
      List.flatMap_nil, List.append_assoc]
    rfl

theorem response_protocol {a : List UInt8} {protocol protocol' : Prop} [Decidable protocol]
    [Decidable protocol'] (h : response a protocol = response a protocol') :
    protocol ↔ protocol' := by
  have hlength := congrArg List.length h
  by_cases hp : protocol <;> by_cases hp' : protocol'
  · exact iff_of_true hp hp'
  all_goals first
    | exact iff_of_false hp hp'
    | simp [response, hp, hp', head, ended, crlf] at hlength

theorem response_accept {a b : List UInt8} {protocol : Prop} [Decidable protocol]
    (h : response a protocol = response b protocol) : a = b := by
  have hflat := h
  simp only [response, head, ended, List.cons_append, List.flatMap_cons, List.nil_append,
    List.append_assoc, List.append_cancel_left_eq, List.append_cancel_right_eq] at hflat
  exact hflat

/-- The reply to a request that has been read as a whole is the response, whatever SHA1 and
base64 are, if and only if the request is spelled as the code has it. -/
theorem reply?_text (r : UpgradeRequest) :
    (∀ sha1 base64Encode, reply? sha1 base64Encode r.text
        = some (response (base64Encode (sha1 (r.key ++ wsMagic))) r.HasProtocol))
      ↔ r.text.length ≠ koheronReadStrLen ∧ r.Spelled := by
  by_cases hlen : r.text.length = koheronReadStrLen
  · refine iff_of_false (fun h => ?_) fun h => h.1 hlen
    have hnone := h id id
    rw [reply?, if_pos (Or.inl hlen)] at hnone
    cases hnone
  · have hblank : offset? blankLine r.text ≠ none := fun hnone => by
      have hsome := offset?_blankLine r.isLine_of_mem (List.cons_ne_nil _ _) []
      rw [List.append_nil] at hsome
      exact absurd (hnone.symm.trans hsome) (Option.some_ne_none _).symm
    have hreply : ∀ sha1 base64Encode, reply? sha1 base64Encode r.text
        = (offset? wsKeyIdentifier r.text).map fun pos => response (base64Encode (sha1
            ((r.text.drop (pos + wsKeyIdentifier.length)).take wsKeyLen ++ wsMagic)))
          ((offset? wsProtocolIdentifier r.text).isSome = true) := fun sha1 base64Encode => by
      rw [reply?, if_neg (not_or.mpr ⟨hlen, hblank⟩)]
      refine congrArg (Option.map · _) (funext fun pos => ?_)
      rw [← switchingProtocols_eq_response, Bool.decide_eq_true]
    constructor
    · intro h
      refine ⟨hlen, ?_, ?_⟩
      · -- with nothing in between, the accepted key tells the key
        have haccept := (hreply id id).symm.trans (h id id)
        obtain ⟨pos, hpos, hresponse⟩ := Option.map_eq_some_iff.mp haccept
        have hprotocol := (hreply (fun _ => []) (fun _ => [])).symm.trans (h _ _)
        rw [hpos, Option.map_some, Option.some.injEq] at hprotocol
        rw [hpos, Option.map_some, Option.some.injEq]
        have hsame := response_protocol hprotocol
        simp only [hsame] at hresponse
        exact List.append_cancel_right (response_accept hresponse)
      · -- with the accepted key out of the way, the length tells the protocol
        have hprotocol := (hreply (fun _ => []) (fun _ => [])).symm.trans (h _ _)
        obtain ⟨pos, -, hresponse⟩ := Option.map_eq_some_iff.mp hprotocol
        exact response_protocol hresponse
    · rintro ⟨-, hkey, hprotocol⟩ sha1 base64Encode
      obtain ⟨pos, hpos, hkey⟩ := Option.map_eq_some_iff.mp hkey
      rw [hreply, hpos, Option.map_some, hkey]
      simp only [hprotocol]

/-- A request that has been cut is not replied to. -/
theorem reply?_of_cut (r : UpgradeRequest) {sha1 base64Encode : List UInt8 → List UInt8}
    (hpre : p <+: r.text) (hne : p ≠ r.text) : reply? sha1 base64Encode p = none := by
  have hshort : p.length < r.text.length :=
    lt_of_le_of_ne hpre.length_le fun h => hne (hpre.eq_of_length h)
  refine if_pos (Or.inr (offset?_eq_none_iff.mpr ?_))
  exact not_infix_blankLine r.isLine_of_mem (List.cons_ne_nil _ _)
    (hpre.trans (List.prefix_append _ [])) hshort

/-- What is accepted is decided by the first piece. -/
theorem accepts_iff_reply? (r : UpgradeRequest) (hpre : p <+: r.text)
    (hread : results 0 = .bytes p) : r.Accepts results ↔ ∀ sha1 base64Encode,
      reply? sha1 base64Encode p
        = some (response (base64Encode (sha1 (r.key ++ wsMagic))) r.HasProtocol) := by
  have hnul : 0 ∉ p := fun h => r.noNul (hpre.subset h)
  have hshort : p.length < websockReadStrLen := lt_of_le_of_lt hpre.length_le r.short
  constructor
  · intro h sha1 base64Encode
    obtain ⟨res, ⟨n, ws, s, hres, hn, hwritten⟩, n', ws', s', hres', hiff, hwritten'⟩ :=
      (answering results).exists_of_wp (answering_live results)
        ((answering results).wp_and (h sha1 base64Encode 0 0 0 0)
          (wp_authenticate hnul hshort hread))
    obtain ⟨hpair, rfl⟩ := Result.ret.inj (hres.symm.trans hres')
    obtain ⟨reply, hreply⟩ := Option.isSome_iff_exists.mp (hiff.mp ((Prod.mk.inj hpair).1 ▸ hn))
    rw [hreply] at hwritten'
    rw [hreply]
    exact congrArg some (hwritten'.symm.trans hwritten)
  · intro h sha1 base64Encode headerSize maskOffset payloadSize dest
    refine (answering results).wp_mono ?_ (wp_authenticate hnul hshort hread)
    rintro res ⟨n, ws, s, rfl, hiff, hwritten⟩
    rw [h sha1 base64Encode] at hiff hwritten
    exact ⟨n, ws, s, rfl, hiff.mpr rfl, hwritten⟩

theorem exists_first_piece (r : UpgradeRequest) (hsome : [] ∉ pieces)
    (hcut : pieces.flatten = r.text) : ∃ p, pieces.head? = some p ∧ p <+: r.text ∧
      (p = r.text ↔ pieces = [r.text]) := by
  cases pieces with
  | nil =>
    have hnil : head (r.requestLine :: r.headers.map Header.line) = [] := hcut.symm
    rw [head_cons] at hnil
    exact absurd (List.append_eq_nil_iff.mp hnil).2 (List.cons_ne_nil _ _)
  | cons p pieces =>
    rw [List.flatten_cons] at hcut
    refine ⟨p, rfl, ⟨_, hcut⟩, fun hp => ?_, fun hp => (List.cons.inj hp).1⟩
    have hrest : pieces.flatten = [] := by
      rw [hp] at hcut
      exact List.append_cancel_left (hcut.trans (List.append_nil r.text).symm)
    rw [hp, List.cons_inj_right]
    refine List.eq_nil_iff_forall_not_mem.mpr fun q hq => ?_
    have hq' := List.flatten_eq_nil_iff.mp hrest q hq
    exact hsome (List.mem_cons_of_mem p (hq' ▸ hq))

/-- **The handshake succeeds as it is to** when one read gives the whole request, which is not
`KOHERON_READ_STR_LEN` bytes long and is spelled as the code has it, and not otherwise. -/
theorem accepts_iff (r : UpgradeRequest) (hsome : [] ∉ pieces) (hcut : pieces.flatten = r.text)
    (hdelivers : Delivers results pieces) : r.Accepts results ↔
      pieces = [r.text] ∧ r.text.length ≠ koheronReadStrLen ∧ r.Spelled := by
  obtain ⟨p, hp, hpre, hwhole⟩ := r.exists_first_piece hsome hcut
  have hread : results 0 = .bytes p := hdelivers 0 p (List.head?_eq_getElem? ▸ hp)
  rw [r.accepts_iff_reply? hpre hread, ← hwhole]
  by_cases hcase : p = r.text
  · rw [hcase, r.reply?_text]
    exact (and_iff_right rfl).symm
  · refine iff_of_false (fun h => ?_) fun h => hcase h.1
    exact absurd ((r.reply?_of_cut hpre hcase).symm.trans (h id id)) (Option.some_ne_none _).symm

end Pieces

/-- A small request. -/
def probe : UpgradeRequest where
  requestLine := ascii "GET / HTTP/1.1"
  headers := [⟨ascii "Sec-WebSocket-Key", [32], ascii "dGhlIHNhbXBsZSBub25jZQ==", []⟩]
  key := ascii "dGhlIHNhbXBsZSBub25jZQ=="
  isLine := by decide
  wellFormed h hh := by
    obtain rfl := List.mem_singleton.mp hh
    decide
  noNul := by decide
  keyHeader := rfl
  keyLength := rfl
  short := by decide

theorem accepts_probe : probe.Accepts fun _ => .bytes probe.text := by
  have hdelivers : Delivers (fun _ => .bytes probe.text) [probe.text] := fun i bs hbs => by
    obtain rfl := List.mem_singleton.mp (List.mem_of_getElem? hbs)
    rfl
  refine (accepts_iff probe (by decide) (List.append_nil _) hdelivers).mpr
    ⟨rfl, by decide, ⟨by decide +kernel, by decide +kernel⟩⟩

/-- A request whose first byte comes alone is turned down. -/
theorem not_forall_accepts : ¬ ∀ (r : UpgradeRequest) (pieces : List (List UInt8))
    (results : ℕ → ReadResult), [] ∉ pieces → pieces.flatten = r.text → Delivers results pieces →
      r.Accepts results := by
  intro hall
  have hcut : [71] ++ probe.text.drop 1 = probe.text := by decide
  have hdelivers : Delivers (fun i => if i = 0 then .bytes [71] else .bytes (probe.text.drop 1))
      [[71], probe.text.drop 1] := by
    rintro (_ | _ | i) bs hbs
    · obtain rfl := Option.some.inj hbs
      rfl
    · obtain rfl := Option.some.inj hbs
      rfl
    · cases hbs
  have haccepts := hall probe _ _ (by decide) (by rw [List.flatten_cons, List.flatten_cons,
    List.flatten_nil, List.append_nil, hcut]) hdelivers
  have hreply := (probe.accepts_iff_reply? ⟨_, hcut⟩ rfl).mp haccepts id id
  exact absurd ((probe.reply?_of_cut ⟨_, hcut⟩ (by decide)).symm.trans hreply)
    (Option.some_ne_none _).symm

/-! ## The accepted key -/

section Accept

variable {r : UpgradeRequest} {p : List UInt8} {results : ℕ → ReadResult}

/-- `Sec-WebSocket-Accept` of RFC 6455: base64 of the SHA1 of the key and the GUID. -/
def accept (key : List UInt8) : List UInt8 :=
  Base64.encode (SecureHash.sha1 (key ++ ascii "258EAFA5-E914-47DA-95CA-C5AB0DC85B11"))

/-- **A request that has been read as a whole is answered with the key of RFC 6455**, and one that
has not is turned down, with nothing written. -/
theorem authenticate_accept (hpre : p <+: r.text) (hspelled : r.Spelled)
    (hlen : r.text.length ≠ koheronReadStrLen) (hread : results 0 = .bytes p)
    (headerSize maskOffset : ℕ) (payloadSize : ℤ) (dest : SessionID) : (answering results).wp
      ((WebSocket.constructed headerSize maskOffset payloadSize).authenticate SHA1 base64Encode
        dest)
      (fun res => ∃ n ws s, res = .ret (n, ws) s ∧ (0 ≤ n ↔ p = r.text) ∧
        s.written = if p = r.text then response (accept r.key) r.HasProtocol else []) ⟨0, []⟩ := by
  have hnul : 0 ∉ p := fun h => r.noNul (hpre.subset h)
  have hshort : p.length < websockReadStrLen := lt_of_le_of_lt hpre.length_le r.short
  refine (answering results).wp_mono ?_ (wp_authenticate hnul hshort hread)
  rintro res ⟨n, ws, s, rfl, hn, hwritten⟩
  refine ⟨n, ws, s, rfl, ?_⟩
  by_cases hp : p = r.text
  · subst hp
    have hreply := (reply?_text r).mpr ⟨hlen, hspelled⟩ SHA1 base64Encode
    rw [SHA1_eq, base64Encode_eq] at hreply
    rw [hreply] at hn hwritten
    rw [if_pos rfl]
    exact ⟨hn.trans (iff_of_true rfl rfl), hwritten⟩
  · rw [reply?_of_cut r hpre hp] at hn hwritten
    rw [if_neg hp]
    exact ⟨hn.trans (iff_of_false Bool.false_ne_true hp), hwritten⟩

end Accept

/-- The example of RFC 6455. -/
example :
    accept probe.key = ascii "s3pPLMBiTxaQ9kYGzzhZRbK+xOo=" := by
  rw [accept, ← SHA1_eq, ← base64Encode_eq]
  decide +kernel

theorem authenticate_accept_probe : (answering fun _ => .bytes probe.text).wp
    ((WebSocket.constructed 0 0 0).authenticate SHA1 base64Encode 7)
    (fun res => ∃ n ws s, res = .ret (n, ws) s ∧ (0 ≤ n ↔ probe.text = probe.text) ∧
      s.written = if probe.text = probe.text
        then response (accept probe.key) probe.HasProtocol else []) ⟨0, []⟩ :=
  authenticate_accept List.prefix_rfl ⟨by decide +kernel, by decide +kernel⟩ (by decide) rfl 0 0 0 7

end UpgradeRequest

end KoheronSdk
