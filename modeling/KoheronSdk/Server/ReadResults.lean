import KoheronSdk.Server.HandedOver

/-!
# Reading from a socket whose results are given

`read_n_bytes` on a socket that answers one `read()` after the other by a given sequence of
results: some bytes, 0, or a negative value, and anything behind these.

The test for a negative result stands in a loop whose guard already asks for a positive one.
A negative result therefore ends the inner loop only, and the outer loop reads again, unless
`read_str_len` happens to be `KOHERON_READ_STR_LEN`.

## Any sequence of results

The socket of `Server/Action` has bytes and an ending, and once a read has failed it stays so.  A
function that reads again after a failure must be given more freedom: `answering results` takes
the results from a function of the number of the read, and a negative one may be followed by
bytes.  Whether the function comes back at all is part of the question, so a run that has run out of
fuel has not come back, whatever the fuel is.

## The condition

What is asked is that `read_n_bytes` returns, and -1 at once for a negative result.  `LoopEnd` says
how the inner loop ends, by the first result that is not bytes, and the outer loop is an induction
on its fuel.  The case in which it does come back from a negative result is odd: the bytes that
have been read must happen to be as many as another buffer has (`FailsFull`).

* `answering`: the socket.
* `wp_readLoop_loopEnd`: how the inner loop ends, by the first result that is no bytes.
* `comesBack_iff`: when it comes back with what it was to return.
-/

namespace KoheronSdk

open Effects

/-! ## A socket that answers by given results -/

/-- What has become of the socket: how often it was read, and what was written. -/
structure Socket where
  reads : ℕ
  written : List UInt8

/-- The answers of a socket.  What is not about it may be answered by anything. -/
def Socket.ok (results : ℕ → ReadResult) : (e : Action) → Socket → Answer e → Prop
  | .read _, s, (r : ReadResult) => r = results s.reads
  | .write _ bs, _, (n : ℤ) => n ≤ bs.length ∧ (bs ≠ [] → 0 < n)
  | _, _, _ => True

/-- The socket after an action. -/
def Socket.next : (e : Action) → Socket → Answer e → Socket
  | .read _, s, _ => { s with reads := s.reads + 1 }
  | .write _ bs, s, (n : ℤ) => { s with written := s.written ++ bs.take n.toNat }
  | _, s, _ => s

/-- Where a program stops on the socket. -/
def Socket.stop : Action → Socket → Option Stop
  | .throw, _ => some .terminated
  | .overrun, _ => some (.undefined .overrun)
  | .outOfFuel, _ => some .outOfFuel
  | _, _ => none

/-- The socket whose reads are answered by `results`, one after the other, and whose writes
take something. -/
def answering (results : ℕ → ReadResult) : Handler Action Answer Socket Stop where
  stop := Socket.stop
  ok := Socket.ok results
  next := Socket.next

section Answering

variable {results : ℕ → ReadResult} {s : Socket} {α : Type}

theorem answering_live (results : ℕ → ReadResult) : (answering results).Live := by
  intro e s _
  cases e with
  | read n => exact ⟨results s.reads, rfl⟩
  | write dest bs =>
    exact ⟨(bs.length : ℤ), le_refl _, fun h => Int.natCast_pos.mpr (List.length_pos_of_ne_nil h)⟩
  | exitSignal => exact ⟨false, trivial⟩
  | uninit => exact ⟨fun _ => 0, trivial⟩
  | isStarted i => exact ⟨false, trivial⟩
  | device i => exact ⟨(0 : ℕ), trivial⟩
  | lock driver => exact ⟨(fun _ _ => none : ArgStructs), trivial⟩
  | ret driver operation => exact ⟨.void, trivial⟩
  | _ => exact ⟨(), trivial⟩

theorem wp_read_answering {n : ℕ} {post : Result Stop Socket ReadResult → Prop} :
    (answering results).wp (read n) post s
      ↔ post (.ret (results s.reads) { s with reads := s.reads + 1 }) :=
  ((answering results).wp_perform (e := .read n) rfl).trans forall_eq

/-- A socket is read once more or left alone. -/
theorem reads_le_next (e : Action) (s : Socket) (x : Answer e) : s.reads ≤ (s.next e x).reads := by
  cases e with
  | read n => exact Nat.le_succ s.reads
  | _ => exact Nat.le_refl s.reads

/-- A program does not undo a read. -/
theorem wp_reads_le (p : Program α) {m : ℕ} (h : m ≤ s.reads) :
    (answering results).wp p (fun r => m ≤ r.world.reads) s :=
  (answering results).wp_of_only (φ := fun _ => True)
    (fun e s' x _ hm _ => Nat.le_trans hm (reads_le_next e s' x)) p.only_true h

end Answering

/-! ## Results of `read()` -/

/-- How many bytes a result is. -/
def ReadResult.count : ReadResult → ℕ
  | .bytes bs => bs.length
  | _ => 0

/-- How many bytes the first `k` results are. -/
def bytesBefore (results : ℕ → ReadResult) : ℕ → ℕ
  | 0 => 0
  | k + 1 => bytesBefore results k + (results k).count

/-- Read number `k` is made by a request for `n` bytes: there are too few, and each read before it
gave some. -/
def Made (results : ℕ → ReadResult) (n : ℤ) (k : ℕ) : Prop :=
  bytesBefore results k < n ∧ ∀ i < k, ∃ bs, results i = .bytes bs

/-- The reads made by a request for `n` bytes are answered as `read()` does: where it gives bytes
these are some, and not more than it was asked for. -/
def AnswersReads (results : ℕ → ReadResult) (n : ℤ) : Prop :=
  ∀ k, Made results n k → ∀ bs, results k = .bytes bs →
    bs ≠ [] ∧ bytesBefore results k + bs.length ≤ n

namespace WebSocket

/-- A run has come back, and if it has read a negative result then this was the last it read, and
it returned -1. -/
def CameBack (results : ℕ → ReadResult) (r : Result Stop Socket (ℤ × WebSocket)) : Prop :=
  ∃ code ws s, r = .ret (code, ws) s ∧
    ∀ k < s.reads, results k = .negative → code = -1 ∧ s.reads = k + 1

/-- `read_n_bytes` comes back, from a negative result with -1 and at once. -/
def ComesBack (results : ℕ → ReadResult) (ws : WebSocket) (n : ℤ) : Prop :=
  ∃ fuel, (answering results).wp (ws.readNBytes fuel n n) (CameBack results) ⟨0, []⟩

/-- What is read fits into `read_str`, and a negative result finds `KOHERON_READ_STR_LEN` bytes
there. -/
def FailsFull (results : ℕ → ReadResult) (ws : WebSocket) (n : ℤ) : Prop :=
  ∀ k, Made results n k →
    (∀ bs, results k = .bytes bs →
      ws.readStrLen + bytesBefore results k + bs.length ≤ websockReadStrLen) ∧
    (results k = .negative → ws.readStrLen + bytesBefore results k = koheronReadStrLen)

/-! ## The loops -/

section Loops

variable {results : ℕ → ReadResult} {ws : WebSocket} {n : ℤ}

/-- The first `k` results are bytes that find room in `read_str`. -/
def Stored (results : ℕ → ReadResult) (ws : WebSocket) (k : ℕ) : Prop :=
  ∀ i < k, ∃ bs, results i = .bytes bs ∧
    ws.readStrLen + bytesBefore results i + bs.length ≤ websockReadStrLen

theorem Stored.made {k : ℕ} (h : Stored results ws k) (hlt : bytesBefore results k < n) :
    Made results n k :=
  ⟨hlt, fun i hi => (h i hi).imp fun _ hbs => hbs.1⟩

theorem Stored.succ {k : ℕ} (h : Stored results ws k) {bs : List UInt8}
    (hbs : results k = .bytes bs)
    (hfit : ws.readStrLen + bytesBefore results k + bs.length ≤ websockReadStrLen) :
    Stored results ws (k + 1) := fun i hi => by
  rcases Nat.lt_succ_iff_lt_or_eq.mp hi with hi | rfl
  · exact h i hi
  · exact ⟨bs, hbs, hfit⟩

/-- How the inner loop ends, by the first read that gives no bytes. -/
inductive LoopEnd (results : ℕ → ReadResult) (ws : WebSocket) (n : ℤ) :
    Result Stop Socket (WebSocket × ℤ × ℤ × ℤ) → Prop
  | complete {k : ℕ} {ws' : WebSocket} {remaining bytesRead : ℤ} {s : Socket}
      (hstored : Stored results ws k) (hall : n ≤ bytesBefore results k) (hread : bytesRead ≠ 0)
      (hs : s.reads = k) : LoopEnd results ws n (.ret (ws', remaining, 0, bytesRead) s)
  | closed {k : ℕ} {ws' : WebSocket} {remaining expected : ℤ} {s : Socket}
      (hstored : Stored results ws k) (hlt : bytesBefore results k < n) (hzero : results k = .zero)
      (hs : s.reads = k + 1) : LoopEnd results ws n (.ret (ws', remaining, expected, 0) s)
  | failed {k : ℕ} {ws' : WebSocket} {remaining expected : ℤ} {s : Socket}
      (hstored : Stored results ws k) (hlt : bytesBefore results k < n)
      (hneg : results k = .negative) (hlen : ws'.readStrLen = ws.readStrLen + bytesBefore results k)
      (hremaining : 0 < remaining) (hexpected : 0 < expected) (hs : s.reads = k + 1) :
      LoopEnd results ws n (.ret (ws', remaining, expected, -1) s)
  | overran {k : ℕ} {bs : List UInt8} {stop : Stop} {s : Socket} (hstored : Stored results ws k)
      (hlt : bytesBefore results k < n) (hbs : results k = .bytes bs)
      (hover : websockReadStrLen < ws.readStrLen + bytesBefore results k + bs.length) :
      LoopEnd results ws n (.halt stop s)

theorem wp_readLoop_loopEnd (hanswers : AnswersReads results n) {fuel : ℕ} {ws' : WebSocket}
    {remaining bytesRead : ℤ} {s : Socket} (hstored : Stored results ws s.reads)
    (hlen : ws'.readStrLen = ws.readStrLen + bytesBefore results s.reads)
    (hremaining : remaining = n - bytesBefore results s.reads) (hnonneg : 0 ≤ remaining)
    (hread : bytesRead ≠ 0) (hfuel : remaining ≤ fuel) :
    (answering results).wp (readLoop fuel ws' remaining remaining bytesRead)
      (LoopEnd results ws n) s := by
  induction fuel generalizing ws' remaining bytesRead s with
  | zero =>
    obtain rfl : remaining = 0 := by omega
    rw [readLoop, if_neg (by omega)]
    exact .complete hstored (by omega) hread rfl
  | succ fuel ih =>
    rw [readLoop]
    by_cases hpos : 0 < remaining
    · have hlt : bytesBefore results s.reads < n := by omega
      rw [if_pos hpos, Handler.wp_bind, wp_read_answering, Handler.andThen_ret]
      cases hresult : results s.reads with
      | zero => exact .closed hstored hlt hresult rfl
      | negative => exact .failed hstored hlt hresult hlen hpos hpos rfl
      | bytes bs =>
        obtain ⟨hne, hle⟩ := hanswers s.reads (hstored.made hlt) bs hresult
        have hsome : 0 < bs.length := List.length_pos_of_ne_nil hne
        have hnext : bytesBefore results (s.reads + 1)
            = bytesBefore results s.reads + bs.length := by
          rw [bytesBefore, hresult]
          rfl
        have hexpected : ¬ remaining - (bs.length : ℤ) < 0 := by omega
        simp only [if_neg hexpected]
        by_cases hover : websockReadStrLen < ws'.readStrLen + bs.length
        · rw [if_pos hover]
          exact .overran hstored hlt hresult (hlen ▸ hover)
        · rw [if_neg hover]
          refine ih (hstored.succ hresult (by omega)) ?_ (by push_cast [hnext]; omega) (by omega)
            (by omega) (by omega)
          show ws'.readStrLen + bs.length = _
          rw [hlen, hnext, Nat.add_assoc]
    · rw [if_neg hpos]
      obtain rfl : remaining = 0 := by omega
      exact .complete hstored (by omega) hread rfl

theorem bytesBefore_mono {i k : ℕ} (h : i ≤ k) : bytesBefore results i ≤ bytesBefore results k := by
  induction h with
  | refl => exact Nat.le_refl _
  | step _ ih => exact Nat.le_trans ih (Nat.le_add_right _ _)

/-- No read is made behind one that gave no bytes, or behind the last byte. -/
theorem le_of_made {k j : ℕ} (h : Made results n j)
    (hend : n ≤ bytesBefore results k ∨ ∀ bs, results k ≠ .bytes bs) : j ≤ k := by
  by_contra hlt
  rcases hend with hall | hnone
  · have hmono : bytesBefore results k ≤ bytesBefore results j :=
      bytesBefore_mono (Nat.le_of_not_le hlt)
    have hmade := h.1
    omega
  · obtain ⟨bs, hbs⟩ := h.2 k (by omega)
    exact hnone bs hbs

/-- The reads before the last one are in order, so that it decides. -/
theorem Stored.failsFull {k : ℕ} (h : Stored results ws k)
    (hend : n ≤ bytesBefore results k ∨ ∀ bs, results k ≠ .bytes bs)
    (hlast : bytesBefore results k < n → results k = .negative →
      ws.readStrLen + bytesBefore results k = koheronReadStrLen) : FailsFull results ws n := by
  intro j hmade
  rcases Nat.lt_or_eq_of_le (le_of_made hmade hend) with hlt | rfl
  · obtain ⟨bs, hbs, hfit⟩ := h j hlt
    refine ⟨fun bs' hbs' => ?_, fun hneg => ?_⟩
    · obtain rfl : bs = bs' := ReadResult.bytes.inj (hbs.symm.trans hbs')
      exact hfit
    · rw [hbs] at hneg
      cases hneg
  · refine ⟨fun bs hbs => ?_, hlast hmade.1⟩
    rcases hend with hall | hnone
    · have hlt := hmade.1
      omega
    · exact absurd hbs (hnone bs)

theorem Stored.ne_negative {k i : ℕ} (h : Stored results ws k) (hi : i < k) :
    results i ≠ .negative := fun hneg => by
  obtain ⟨bs, hbs, -⟩ := h i hi
  rw [hbs] at hneg
  cases hneg

theorem readNBytesLoop_of_nonpos {fuel : ℕ} {remaining expected bytesRead : ℤ}
    (h : expected ≤ 0) : readNBytesLoop fuel ws remaining expected bytesRead = pure (0, ws) := by
  cases fuel with
  | zero => rw [readNBytesLoop, if_neg (by omega)]
  | succ fuel => rw [readNBytesLoop, if_neg (by omega)]

/-- Where bytes are missing, the outer loop reads again. -/
theorem wp_readNBytesLoop_reads {fuel : ℕ} {remaining expected bytesRead : ℤ} {s : Socket}
    (hremaining : 0 < remaining) (hexpected : 0 < expected) :
    (answering results).wp (readNBytesLoop fuel ws remaining expected bytesRead)
      (fun r => (∃ stop s', r = .halt stop s') ∨ s.reads + 1 ≤ r.world.reads) s := by
  cases fuel with
  | zero =>
    rw [readNBytesLoop, if_pos hexpected]
    exact Or.inl ⟨_, _, rfl⟩
  | succ fuel =>
    obtain ⟨left, hleft⟩ : ∃ left, remaining.toNat = left + 1 :=
      ⟨remaining.toNat - 1, by omega⟩
    rw [readNBytesLoop, if_pos hexpected, hleft, readLoop, if_pos hremaining, bind_assoc,
      Handler.wp_bind, wp_read_answering, Handler.andThen_ret]
    exact (answering results).wp_mono (fun r hr => Or.inr hr) (wp_reads_le _ (Nat.le_refl _))

/-- **How a request ends** is decided by the first result that is no bytes. -/
theorem wp_readNBytes_cameBack_iff (hanswers : AnswersReads results n) (hpos : 0 < n) (fuel : ℕ) :
    (answering results).wp (ws.readNBytes (fuel + 1) n n)
      (fun r => CameBack results r ↔ FailsFull results ws n) ⟨0, []⟩ := by
  rw [readNBytes, readNBytesLoop, if_pos hpos, Handler.wp_bind]
  refine (answering results).wp_mono (fun r hr => ?_)
    (wp_readLoop_loopEnd hanswers (fun i hi => absurd hi (Nat.not_lt_zero i)) rfl
      (sub_zero n).symm hpos.le (by decide) (Int.self_le_toNat n))
  cases hr with
  | @complete k ws' remaining bytesRead s hstored hall hread hs =>
    have hfull : FailsFull results ws n :=
      hstored.failsFull (Or.inl hall) fun hlt => absurd hall (not_le_of_gt hlt)
    have hback : ∀ code, CameBack results (.ret (code, ws') s) := fun code =>
      ⟨code, ws', s, rfl, fun i hi hneg => absurd hneg (hstored.ne_negative (hs ▸ hi))⟩
    simp only [Handler.andThen_ret, if_neg hread]
    by_cases hlen : ws'.readStrLen = koheronReadStrLen
    · rw [if_pos hlen]
      exact iff_of_true (hback (-1)) hfull
    · rw [if_neg hlen, readNBytesLoop_of_nonpos (le_refl 0)]
      exact iff_of_true (hback 0) hfull
  | @closed k ws' remaining expected s hstored hlt hzero hs =>
    have hnone : ∀ bs, results k ≠ .bytes bs := fun bs hbs => by
      rw [hzero] at hbs
      cases hbs
    have hneg : results k ≠ .negative := fun hneg => by
      rw [hzero] at hneg
      cases hneg
    simp only [Handler.andThen_ret, if_pos]
    refine iff_of_true ⟨1, _, s, rfl, fun i hi hi' => ?_⟩
      (hstored.failsFull (Or.inr hnone) fun _ h => absurd h hneg)
    rcases Nat.lt_or_eq_of_le (Nat.le_of_lt_succ (hs ▸ hi)) with hi | rfl
    · exact absurd hi' (hstored.ne_negative hi)
    · exact absurd hi' hneg
  | @failed k ws' remaining expected s hstored hlt hneg hlen hremaining hexpected hs =>
    have hnone : ∀ bs, results k ≠ .bytes bs := fun bs hbs => by
      rw [hneg] at hbs
      cases hbs
    simp only [Handler.andThen_ret, if_neg (show (-1 : ℤ) ≠ 0 by decide)]
    by_cases hfull : ws'.readStrLen = koheronReadStrLen
    · rw [if_pos hfull]
      refine iff_of_true ⟨-1, ws', s, rfl, fun i hi hi' => ⟨rfl, ?_⟩⟩
        (hstored.failsFull (Or.inr hnone) fun _ _ => hlen ▸ hfull)
      rcases Nat.lt_or_eq_of_le (Nat.le_of_lt_succ (hs ▸ hi)) with hi | rfl
      · exact absurd hi' (hstored.ne_negative hi)
      · exact hs
    · rw [if_neg hfull]
      refine (answering results).wp_mono (fun r hr => ?_)
        (wp_readNBytesLoop_reads hremaining hexpected)
      refine iff_of_false ?_ fun h => hfull (hlen.trans ((h k (hstored.made hlt)).2 hneg))
      rintro ⟨code, ws'', s', rfl, hlast⟩
      rcases hr with ⟨stop, s'', hr⟩ | hreads
      · cases hr
      · -- the read behind the negative one
        have hread : s.reads + 1 ≤ s'.reads := hreads
        obtain ⟨-, hk⟩ := hlast k (by omega) hneg
        omega
  | @overran k bs stop s hstored hlt hbs hover =>
    refine iff_of_false ?_ fun h => ?_
    · rintro ⟨code, ws', s', hr, -⟩
      cases hr
    · have hfit := (h k (hstored.made hlt)).1 bs hbs
      omega

end Loops

/-! ## When a request comes back -/

section Requests

variable {results : ℕ → ReadResult} {ws : WebSocket} {n : ℤ}

theorem failsFull_of_nonpos (h : n ≤ 0) : FailsFull results ws n := fun k hmade => by
  have hlt := hmade.1
  omega

theorem ComesBack.failsFull (hanswers : AnswersReads results n) (h : ComesBack results ws n) :
    FailsFull results ws n := by
  rcases le_or_gt n 0 with hn | hpos
  · exact failsFull_of_nonpos hn
  · obtain ⟨fuel, hback⟩ := h
    cases fuel with
    | zero =>
      rw [readNBytes, readNBytesLoop, if_pos hpos] at hback
      obtain ⟨code, ws', s, hr, -⟩ := hback
      cases hr
    | succ fuel =>
      obtain ⟨r, hr, hiff⟩ := (answering results).exists_of_wp (answering_live results)
        ((answering results).wp_and hback (wp_readNBytes_cameBack_iff hanswers hpos fuel))
      exact hiff.mp hr

theorem FailsFull.comesBack (hanswers : AnswersReads results n) (h : FailsFull results ws n) :
    ComesBack results ws n := by
  rcases le_or_gt n 0 with hn | hpos
  · refine ⟨0, ?_⟩
    rw [readNBytes, readNBytesLoop_of_nonpos hn]
    exact ⟨0, ws, _, rfl, fun k hk => absurd hk (Nat.not_lt_zero k)⟩
  · exact ⟨1, (answering results).wp_mono (fun r hr => hr.mpr h)
      (wp_readNBytes_cameBack_iff hanswers hpos 0)⟩

/-- **`read_n_bytes` comes back as it is to** when what it reads finds room in `read_str` and a
negative result finds `KOHERON_READ_STR_LEN` bytes there, and not otherwise. -/
theorem comesBack_iff (hanswers : AnswersReads results n) :
    ComesBack results ws n ↔ FailsFull results ws n :=
  ⟨fun h => h.failsFull hanswers, fun h => h.comesBack hanswers⟩

end Requests

/-- A connection at its first frame. -/
def atFirstFrame : WebSocket := ⟨fun _ => 0, 0, 0, 0, 0, false⟩

/-- The beginning of a frame that comes in two pieces. -/
def twoPieces : ℕ → ReadResult
  | 0 => .bytes [0x82, 0x88]
  | 1 => .bytes [1, 2, 3, 4]
  | _ => .negative

theorem comesBack_twoPieces : ComesBack twoPieces atFirstFrame 6 := by
  have hanswers : AnswersReads twoPieces 6 := by
    rintro (_ | _ | k) hmade bs hbs
    · obtain rfl := ReadResult.bytes.inj hbs
      exact ⟨by decide, by decide⟩
    · obtain rfl := ReadResult.bytes.inj hbs
      exact ⟨by decide, by decide⟩
    · cases hbs
  refine (comesBack_iff hanswers).mpr ?_
  rintro (_ | _ | _ | k) hmade
  · refine ⟨fun bs hbs => ?_, fun hneg => by cases hneg⟩
    obtain rfl := ReadResult.bytes.inj hbs
    decide
  · refine ⟨fun bs hbs => ?_, fun hneg => by cases hneg⟩
    obtain rfl := ReadResult.bytes.inj hbs
    decide
  · exact absurd hmade.1 (by decide)
  · obtain ⟨bs, hbs⟩ := hmade.2 2 (by omega)
    cases hbs

/-- With a socket that fails at once, the header of the first frame is asked for again and again. -/
theorem not_forall_comesBack :
    ¬ ∀ results ws n, AnswersReads results n → ComesBack results ws n := by
  intro hall
  have hanswers : AnswersReads (fun _ => .negative) 6 := fun k hmade bs hbs => by cases hbs
  have hmade : Made (fun _ => .negative) 6 0 :=
    ⟨by decide, fun i hi => absurd hi (Nat.not_lt_zero i)⟩
  have hfull := ((hall _ atFirstFrame 6 hanswers).failsFull hanswers 0 hmade).2 rfl
  exact absurd hfull (by decide)

end WebSocket

end KoheronSdk
