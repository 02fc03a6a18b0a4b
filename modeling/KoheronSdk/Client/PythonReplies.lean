import KoheronSdk.Client.Python
import KoheronSdk.Client.Replies

/-!
# Replies at the Python client

`recv_all` of `koheron.py` and what is built on it.  At the end of the stream `recv()` returns
`b''`, which the loop of `recv_all` compares with the string `''`; the two are not equal, so that
it goes on asking for bytes that do not come.

The loop has its fuel as an argument, and to come back is to do so for some fuel; that it does
not come back is shown for every fuel, in every run.  A stream that has the bytes that are asked for
is read in as many rounds as there are bytes at most, however it is cut.

What is asked of a function is that it comes back, with the values that were sent or with an
exception.  For each of the functions the condition is that the stream has the bytes it asks for,
and these are known from the header, where a function reads the length of its payload first.

* `wp_recvAll`, `wp_recvAll_short`: `recv_all` when the stream has the bytes, and when it has not.
* `ComesBack`: a run comes back with a value that is right, or with an exception.
* `received_iff`: when the functions come back, however the stream is cut.
-/

namespace KoheronSdk

open Effects

namespace Python

/-! ## The code -/

/-- `BUFF_SIZE` -/
def buffSize : ℕ := 65535

/-- The loop of `recv_all`, with the bytes of `data`, which `n_rcv` counts. -/
def recvAllLoop (nBytes : ℕ) : ℕ → List UInt8 → Program (List UInt8)
  | 0, data => do
    if data.length < nBytes then outOfFuel
    return data
  | fuel + 1, data => do
    if data.length < nBytes then
      match ← read (min (nBytes - data.length) buffSize) with
      | .negative => do
        throw
        return data
      | .zero => recvAllLoop nBytes fuel data -- `b'' == ''` is false
      | .bytes chunk => recvAllLoop nBytes fuel (data ++ chunk)
    else return data

/-- `recv_all` -/
def recvAll (fuel nBytes : ℕ) : Program (List UInt8) := recvAllLoop nBytes fuel []

/-- A format of `struct`, behind a `>`: one character for each scalar. -/
abbrev Format := List {t : ScalarType // t.isScalar = true}

/-- `struct.calcsize` -/
def calcsize (fmt : Format) : ℕ := (fmt.map fun t => t.1.size).sum

/-- `struct.unpack`, of as many bytes as `calcsize` says.  A byte that is not 0 is a true one. -/
def unpack : Format → List UInt8 → List ScalarVal
  | [], _ => []
  | t :: fmt, bytes =>
    (if t.1 = .bool then .bool (byteAt bytes 0 != 0) else Server.extract t.1 bytes) ::
      unpack fmt (bytes.drop t.1.size)

/-- `recv` -/
def recv (fuel : ℕ) (fmt : Format) : Program (List ScalarVal) := do
  let data ← recvAll fuel (8 + calcsize fmt)
  if data.length ≠ 8 + calcsize fmt then throw
  return unpack fmt (data.drop 8)

/-- `recv_dynamic_payload` -/
def recvDynamicPayload (fuel : ℕ) : Program (List UInt8) := do
  let data ← recvAll fuel 12
  if data.length ≠ 12 then throw
  if extractU32 data ≠ 0 then throw
  recvAll fuel (extractU32 (data.drop 8)).toNat

/-- `recv_array`, when the type has been checked, of a shape with `arrLen` elements -/
def recvArray (fuel arrLen : ℕ) (dtype : ScalarType) : Program (List ScalarVal) := do
  let _ ← recv fuel []
  let buff ← recvAll fuel (dtype.size * arrLen)
  if buff.length ≠ dtype.size * arrLen then throw
  return ofMemOf dtype arrLen buff

/-! ## `recv_all` -/

section Rules

variable {drivers : List Driver} {env : Env} {w : View} {nBytes fuel : ℕ}

theorem wp_recvAllLoop {data : List UInt8} (hdata : data.length ≤ nBytes)
    (hn : nBytes - data.length ≤ w.input.length) {post : Result Stop View (List UInt8) → Prop}
    (hfuel : fuel < nBytes - data.length → ∀ w', post (.halt .outOfFuel w'))
    (hpost : post (.ret (data ++ w.input.take (nBytes - data.length))
      (w.advance (nBytes - data.length)))) :
    (session drivers env).wp (recvAllLoop nBytes fuel data) post w := by
  induction fuel generalizing data w with
  | zero =>
    rw [recvAllLoop]
    by_cases hlt : data.length < nBytes
    · rw [if_pos hlt]
      exact hfuel (by omega) w
    · have hlen : data.length = nBytes := by omega
      rw [hlen, Nat.sub_self, List.take_zero, List.append_nil] at hpost
      rw [if_neg hlt]
      exact hpost
  | succ fuel ih =>
    rw [recvAllLoop]
    by_cases hlt : data.length < nBytes
    · have hin : w.input ≠ [] := by
        intro h
        rw [h, List.length_nil] at hn
        omega
      have hask : 0 < min (nBytes - data.length) buffSize := by
        have hbuff : 0 < buffSize := by decide
        omega
      rw [if_pos hlt, Handler.wp_bind, wp_read hask hin]
      intro chunk hne hlen hpre
      have hchunk : 0 < chunk.length := List.length_pos_of_ne_nil hne
      obtain ⟨rest, hrest⟩ := hpre
      have hcount : nBytes - (data ++ chunk).length = nBytes - data.length - chunk.length := by
        rw [List.length_append]
        omega
      have hin' : (w.advance chunk.length).input = rest := by
        rw [View.input_advance, ← hrest, List.drop_left]
      refine ih (by rw [List.length_append]; omega) ?_ (fun hlt' => hfuel (by omega)) ?_
      · rw [hin', hcount]
        rw [← hrest, List.length_append] at hn
        omega
      · rw [← hrest, List.take_append, List.take_of_length_le (by omega), ← List.append_assoc]
          at hpost
        rw [hin', hcount, View.advance_advance, Nat.add_sub_cancel' (by omega)]
        exact hpost
    · have hlen : data.length = nBytes := by omega
      rw [hlen, Nat.sub_self, List.take_zero, List.append_nil] at hpost
      rw [if_neg hlt]
      exact hpost

/-- The bytes that the stream has are received, whatever the cut. -/
theorem wp_recvAll (hn : nBytes ≤ w.input.length)
    {post : Result Stop View (List UInt8) → Prop}
    (hfuel : fuel < nBytes → ∀ w', post (.halt .outOfFuel w'))
    (hpost : post (.ret (w.input.take nBytes) (w.advance nBytes))) :
    (session drivers env).wp (recvAll fuel nBytes) post w :=
  wp_recvAllLoop (Nat.zero_le _) hn hfuel hpost

/-- For bytes that the stream has not the loop goes on. -/
theorem wp_recvAllLoop_short {data : List UInt8} (hend : w.ending = .eof)
    (hn : data.length + w.input.length < nBytes) :
    (session drivers env).wp (recvAllLoop nBytes fuel data)
      (fun r => r.stop? = some .outOfFuel) w := by
  induction fuel generalizing data w with
  | zero =>
    rw [recvAllLoop, if_pos (by omega)]
    rfl
  | succ fuel ih =>
    have hask : 0 < min (nBytes - data.length) buffSize := by
      have hbuff : 0 < buffSize := by decide
      omega
    rw [recvAllLoop, if_pos (by omega), Handler.wp_bind]
    by_cases hin : w.input = []
    · rw [wp_read_nil hask hin, hend]
      exact ih hend hn
    · rw [wp_read hask hin]
      intro chunk hne hlen hpre
      have hle := hpre.length_le
      refine ih hend ?_
      rw [List.length_append, View.input_advance, List.length_drop]
      omega

theorem wp_recvAll_short (hend : w.ending = .eof) (hn : w.input.length < nBytes) :
    (session drivers env).wp (recvAll fuel nBytes) (fun r => r.stop? = some .outOfFuel) w :=
  wp_recvAllLoop_short hend (by rwa [List.length_nil, Nat.zero_add])

theorem wp_bind_outOfFuel {α β : Type} {p : Program α} {f : α → Program β}
    (h : (session drivers env).wp p (fun r => r.stop? = some .outOfFuel) w) :
    (session drivers env).wp (p >>= f) (fun r => r.stop? = some .outOfFuel) w := by
  refine (session drivers env).wp_bind_intro ((session drivers env).wp_mono (fun r hr => ?_) h)
  cases r with
  | ret a w' => cases hr
  | halt s w' => exact hr

end Rules

/-! ## Coming back -/

/-- A run comes back: with a value that is right, or with an exception. -/
def ComesBack {α : Type} (right : α → Prop) : Result Stop View α → Prop
  | .ret a _ => right a
  | .halt s _ => s = .terminated

section ComesBack

variable {drivers : List Driver} {env : Env} {α : Type}

/-- What holds of every cut of the stream holds of each. -/
theorem comesBack_exec_iff {p : ℕ → Program α} {right : α → Prop} {enough : Prop} {w : View}
    (hyes : enough → ∃ fuel, (session drivers env).wp (p fuel) (ComesBack right) w)
    (hno : ¬ enough → ∀ fuel, (session drivers env).wp (p fuel)
      (fun r => r.stop? = some .outOfFuel) w)
    {pick : ℕ → (e : Action) → View → Answer e} (hpick : (session drivers env).Allows pick) :
    (∃ fuel, ComesBack right ((session drivers env).exec pick 0 (p fuel) w)) ↔ enough := by
  constructor
  · rintro ⟨fuel, hback⟩
    by_contra hshort
    have hstop := (session drivers env).wp_exec hpick (hno hshort fuel) 0
    generalize (session drivers env).exec pick 0 (p fuel) w = r at hback hstop
    cases r with
    | ret a w' => cases hstop
    | halt s w' =>
      have hs : s = .terminated := hback
      rw [hs] at hstop
      cases hstop
  · intro henough
    obtain ⟨fuel, hwp⟩ := hyes henough
    exact ⟨fuel, (session drivers env).wp_exec hpick hwp 0⟩

variable {stream : List UInt8} {w : View}

/-- What `recv` is to give back: the values behind the header. -/
def Received (fmt : Format) (stream : List UInt8) (vals : List ScalarVal) : Prop :=
  8 + calcsize fmt ≤ stream.length ∧ vals = unpack fmt ((stream.drop 8).take (calcsize fmt))

theorem wp_recv {fmt : Format} {fuel : ℕ} (henough : 8 + calcsize fmt ≤ w.input.length)
    {post : Result Stop View (List ScalarVal) → Prop}
    (hfuel : fuel < 8 + calcsize fmt → ∀ w', post (.halt .outOfFuel w'))
    (hpost : post (.ret (unpack fmt ((w.input.drop 8).take (calcsize fmt)))
      (w.advance (8 + calcsize fmt)))) :
    (session drivers env).wp (recv fuel fmt) post w := by
  refine (session drivers env).wp_bind_intro (wp_recvAll henough hfuel ?_)
  have hlen : (w.input.take (8 + calcsize fmt)).length = 8 + calcsize fmt :=
    List.length_take_of_le henough
  rw [Handler.andThen_ret, if_neg (not_not.mpr hlen), List.drop_take, Nat.add_sub_cancel_left]
  exact hpost

theorem wp_recv_short {fmt : Format} {fuel : ℕ} (hend : w.ending = .eof)
    (hshort : w.input.length < 8 + calcsize fmt) :
    (session drivers env).wp (recv fuel fmt) (fun r => r.stop? = some .outOfFuel) w :=
  wp_bind_outOfFuel (wp_recvAll_short hend hshort)

/-- What `recv_dynamic_payload` is to give back: as many bytes as the length says. -/
def ReceivedPayload (stream data : List UInt8) : Prop :=
  12 + (extractU32 (stream.drop 8)).toNat ≤ stream.length ∧
    data = (stream.drop 12).take (extractU32 (stream.drop 8)).toNat

/-- The stream has the header, and behind a header that is accepted the payload. -/
def HasPayload (stream : List UInt8) : Prop :=
  12 ≤ stream.length ∧
    (extractU32 stream = 0 → 12 + (extractU32 (stream.drop 8)).toNat ≤ stream.length)

theorem extractU32_take {n : ℕ} (h : 4 ≤ n) (stream : List UInt8) :
    extractU32 (stream.take n) = extractU32 stream := by
  have hbyte : ∀ i < n, byteAt (stream.take n) i = byteAt stream i := fun i hi => by
    rw [byteAt, byteAt, List.getD_eq_getElem?_getD, List.getD_eq_getElem?_getD,
      List.getElem?_take_of_lt hi]
  simp only [extractU32, hbyte 0 (by omega), hbyte 1 (by omega), hbyte 2 (by omega),
    hbyte 3 (by omega)]

/-- The header is read first. -/
theorem wp_recvDynamicPayload_header {fuel : ℕ} (hheader : 12 ≤ w.input.length)
    {post : Result Stop View (List UInt8) → Prop}
    (hfuel : fuel < 12 → ∀ w', post (.halt .outOfFuel w'))
    (hreserved : extractU32 w.input ≠ 0 → post (.halt .terminated (w.advance 12)))
    (hpayload : extractU32 w.input = 0 → (session drivers env).wp
      (recvAll fuel (extractU32 (w.input.drop 8)).toNat) post (w.advance 12)) :
    (session drivers env).wp (recvDynamicPayload fuel) post w := by
  refine (session drivers env).wp_bind_intro (wp_recvAll hheader hfuel ?_)
  have hlen : ¬ (w.input.take 12).length ≠ 12 := not_not.mpr (List.length_take_of_le hheader)
  have hfirst : extractU32 (w.input.take 12) = extractU32 w.input := extractU32_take (by decide) _
  have hlast : extractU32 ((w.input.take 12).drop 8) = extractU32 (w.input.drop 8) := by
    rw [List.drop_take, extractU32_take (by decide)]
  simp only [Handler.andThen_ret, if_neg hlen, hfirst, hlast]
  generalize extractU32 w.input = reserved at hreserved hpayload ⊢
  by_cases hzero : reserved = 0
  · rw [if_neg (not_not.mpr hzero)]
    exact hpayload hzero
  · rw [if_pos hzero]
    exact hreserved hzero

theorem wp_recvDynamicPayload {fuel : ℕ} (henough : HasPayload w.input)
    (hfuel : 12 + (extractU32 (w.input.drop 8)).toNat ≤ fuel) :
    (session drivers env).wp (recvDynamicPayload fuel) (ComesBack (ReceivedPayload w.input)) w := by
  refine wp_recvDynamicPayload_header henough.1 (fun hlt => absurd hlt (by omega)) (fun _ => rfl)
    fun hzero => ?_
  have hmore := henough.2 hzero
  refine wp_recvAll ?_ (fun hlt => absurd hlt (by omega)) ⟨hmore, rfl⟩
  rw [View.input_advance, List.length_drop]
  omega

theorem wp_recvDynamicPayload_short {fuel : ℕ} (hend : w.ending = .eof)
    (hshort : ¬ HasPayload w.input) : (session drivers env).wp (recvDynamicPayload fuel)
      (fun r => r.stop? = some .outOfFuel) w := by
  by_cases hheader : 12 ≤ w.input.length
  · refine wp_recvDynamicPayload_header hheader (fun _ _ => rfl)
      (fun hne => absurd ⟨hheader, fun hzero => absurd hzero hne⟩ hshort) fun hzero => ?_
    refine wp_recvAll_short hend ?_
    rw [View.input_advance, List.length_drop]
    by_contra hmore
    exact hshort ⟨hheader, fun _ => by omega⟩
  · exact wp_bind_outOfFuel (wp_recvAll_short hend (by omega))

/-- What `recv_array` is to give back: the elements behind the header. -/
def ReceivedArray (dtype : ScalarType) (arrLen : ℕ) (stream : List UInt8) (vals : List ScalarVal) :
    Prop :=
  8 + dtype.size * arrLen ≤ stream.length ∧
    vals = ofMemOf dtype arrLen ((stream.drop 8).take (dtype.size * arrLen))

theorem calcsize_nil : calcsize [] = 0 := rfl

theorem wp_recvArray {dtype : ScalarType} {fuel arrLen : ℕ}
    (henough : 8 + dtype.size * arrLen ≤ w.input.length)
    (hfuel : 8 + dtype.size * arrLen ≤ fuel) :
    (session drivers env).wp (recvArray fuel arrLen dtype)
      (ComesBack (ReceivedArray dtype arrLen w.input)) w := by
  refine (session drivers env).wp_bind_intro (wp_recv (by rw [calcsize_nil]; omega)
    (fun hlt => absurd hlt (by rw [calcsize_nil]; omega)) ?_)
  rw [Handler.andThen_ret, calcsize_nil, Nat.add_zero]
  have hmore : dtype.size * arrLen ≤ (w.advance 8).input.length := by
    rw [View.input_advance, List.length_drop]
    omega
  refine (session drivers env).wp_bind_intro
    (wp_recvAll hmore (fun hlt => absurd hlt (by omega)) ?_)
  rw [Handler.andThen_ret, if_neg (not_not.mpr (List.length_take_of_le hmore))]
  exact ⟨henough, rfl⟩

theorem wp_recvArray_short {dtype : ScalarType} {fuel arrLen : ℕ} (hend : w.ending = .eof)
    (hshort : w.input.length < 8 + dtype.size * arrLen) :
    (session drivers env).wp (recvArray fuel arrLen dtype)
      (fun r => r.stop? = some .outOfFuel) w := by
  by_cases hheader : 8 ≤ w.input.length
  · refine (session drivers env).wp_bind_intro (wp_recv (by rw [calcsize_nil]; omega)
      (fun _ _ => rfl) ?_)
    rw [Handler.andThen_ret, calcsize_nil, Nat.add_zero]
    refine wp_bind_outOfFuel (wp_recvAll_short hend ?_)
    rw [View.input_advance, List.length_drop]
    omega
  · exact wp_bind_outOfFuel (wp_recv_short hend (by rw [calcsize_nil]; omega))

/-- **The functions come back, and with what was sent,** when the stream has the bytes that they
ask for; when it ends before, they do not, however it is cut. -/
theorem received_iff {pick : ℕ → (e : Action) → View → Answer e}
    (hpick : (session drivers env).Allows pick) (stream : List UInt8) :
    (∀ nBytes, (∃ fuel, ComesBack (· = stream.take nBytes) ((session drivers env).exec pick 0
      (recvAll fuel nBytes) (View.start stream .eof))) ↔ nBytes ≤ stream.length) ∧
    (∀ fmt, (∃ fuel, ComesBack (Received fmt stream) ((session drivers env).exec pick 0
      (recv fuel fmt) (View.start stream .eof))) ↔ 8 + calcsize fmt ≤ stream.length) ∧
    ((∃ fuel, ComesBack (ReceivedPayload stream) ((session drivers env).exec pick 0
      (recvDynamicPayload fuel) (View.start stream .eof))) ↔ HasPayload stream) ∧
    ∀ dtype arrLen, (∃ fuel, ComesBack (ReceivedArray dtype arrLen stream)
      ((session drivers env).exec pick 0 (recvArray fuel arrLen dtype) (View.start stream .eof))) ↔
        8 + dtype.size * arrLen ≤ stream.length := by
  refine ⟨fun nBytes => ?_, fun fmt => ?_, ?_, fun dtype arrLen => ?_⟩
  · refine comesBack_exec_iff (fun h => ?_)
      (fun h fuel => wp_recvAll_short rfl (Nat.lt_of_not_le h)) hpick
    obtain ⟨fuel, hfuel⟩ : ∃ fuel, nBytes ≤ fuel := ⟨_, Nat.le_refl _⟩
    exact ⟨fuel, wp_recvAll h (fun hlt => absurd hlt (by omega)) rfl⟩
  · refine comesBack_exec_iff (fun h => ?_)
      (fun h fuel => wp_recv_short rfl (Nat.lt_of_not_le h)) hpick
    obtain ⟨fuel, hfuel⟩ : ∃ fuel, 8 + calcsize fmt ≤ fuel := ⟨_, Nat.le_refl _⟩
    exact ⟨fuel, wp_recv h (fun hlt => absurd hlt (by omega)) ⟨h, rfl⟩⟩
  · refine comesBack_exec_iff (fun h => ?_)
      (fun h fuel => wp_recvDynamicPayload_short (w := View.start stream .eof) rfl h) hpick
    obtain ⟨fuel, hfuel⟩ : ∃ fuel, 12 + (extractU32 (stream.drop 8)).toNat ≤ fuel :=
      ⟨_, Nat.le_refl _⟩
    exact ⟨fuel, wp_recvDynamicPayload (w := View.start stream .eof) h hfuel⟩
  · refine comesBack_exec_iff (fun h => ?_)
      (fun h fuel => wp_recvArray_short rfl (Nat.lt_of_not_le h)) hpick
    obtain ⟨fuel, hfuel⟩ : ∃ fuel, 8 + dtype.size * arrLen ≤ fuel := ⟨_, Nat.le_refl _⟩
    exact ⟨fuel, wp_recvArray (w := View.start stream .eof) h hfuel⟩

end ComesBack

/-! ### A reply that is cut short -/

/-- A reply with a value of two bytes, of which one comes. -/
def cutReply : List UInt8 := [0, 0, 0, 0, 0, 2, 0, 1, 7]

theorem received_cutReply : (∀ nBytes, (∃ fuel, ComesBack (· = cutReply.take nBytes)
      ((session [] .noExit).exec (eager []) 0 (recvAll fuel nBytes) (View.start cutReply .eof)))
        ↔ nBytes ≤ 9) ∧
    ∃ fuel, ComesBack (Received [⟨.uint8, rfl⟩] cutReply)
      ((session [] .noExit).exec (eager []) 0 (recv fuel [⟨.uint8, rfl⟩])
        (View.start cutReply .eof)) := by
  obtain ⟨hall, hrecv, -, -⟩ := received_iff (eager_allows []) cutReply
  exact ⟨hall, (hrecv _).mpr (by decide)⟩

/-- Where the second byte of a value does not come, `recv` does not come back. -/
theorem not_forall_received : ¬ ∀ (stream : List UInt8) (fmt : Format), ∃ fuel,
    ComesBack (Received fmt stream) ((session [] .noExit).exec (eager []) 0 (recv fuel fmt)
      (View.start stream .eof)) := by
  intro hall
  have hshort : ¬ 8 + calcsize [⟨.uint16, rfl⟩] ≤ cutReply.length := by decide
  refine hshort ((comesBack_exec_iff (fun h => absurd h hshort)
    (fun h fuel => wp_recv_short rfl (Nat.lt_of_not_le h)) (eager_allows [])).mp
      (hall cutReply [⟨.uint16, rfl⟩]))

end Python

end KoheronSdk
