import KoheronSdk.Server.Action
import KoheronSdk.Server.Commands

/-!
# Receiving from a TCP socket

`rcv_n_bytes` and what is built on it for TCP and Unix sockets: `get_pack_length`,
`deserialize`, and the three `recv` overloads.

## What does not depend on the cutting

`rcv_n_bytes` gives the number of bytes, 0 at the end of the stream and -1 on an
error, and fills as much of its buffer as it got.  `rcvOutcome` says what it comes
to without looking at how the stream is cut into `read()` results, and
`wp_rcvNBytes` that this is right.  The rules for the functions above it follow from this one, in
pairs, for enough bytes and for too few: `wp_getPackLength_of_le` and `wp_getPackLength_of_lt`, and
so for `deserialize` and the containers.  No other proof of a reading function is an induction on
the results of `read()`.

## Widths

A length on the wire has 32 bits.  `get_pack_length` returns it as an `int64_t`, `recv` divides it
by a `size_t`, and `rcv_n_bytes` takes an `int`.  On a 64-bit host the division is unsigned, so that
an error, -1, becomes a huge number of elements, for which `resize()` throws; on a 32-bit
host the quotient is 0 for elements of more than one byte.  `Arch` stands for what differs
between the hosts, and the conversions are where the source has them.
-/

namespace KoheronSdk

open Effects

/-- `static_cast<int>` -/
def toInt (x : ℤ) : ℤ := x.bmod (2 ^ 32)

theorem toInt_of_lt {n : ℕ} (h : n < 2 ^ 31) : toInt n = n :=
  Int.bmod_eq_of_le (by omega) (by omega)

@[simp] theorem toInt_zero : toInt 0 = 0 := rfl

@[simp] theorem toInt_neg_one : toInt (-1) = -1 := rfl

/-- What differs between the hosts: the width of `size_t` and of pointers. -/
inductive Arch where
  | lp64
  | ilp32
  deriving DecidableEq, Repr

/-- The quotient of an `int64_t` by a `size_t`.  With a `size_t` of 64 bits the
division is unsigned. -/
def Arch.quot : Arch → ℤ → ℕ → ℤ
  | .lp64, x, n => x % 2 ^ 64 / n
  | .ilp32, x, n => x.tdiv n

/-- `PTRDIFF_MAX`; `resize()` throws when asked for more bytes. -/
def Arch.maxObject : Arch → ℕ
  | .lp64 => 2 ^ 63 - 1
  | .ilp32 => 2 ^ 31 - 1

/-- The quotient of a byte count that was read. -/
theorem Arch.quot_natCast (arch : Arch) {x : ℕ} (hx : x < 2 ^ 64) (n : ℕ) :
    arch.quot x n = (x / n : ℕ) := by
  cases arch with
  | lp64 =>
    have h : (x : ℤ) % 2 ^ 64 = x := Int.emod_eq_of_lt (by omega) (by exact_mod_cast hx)
    rw [Arch.quot, h, Int.natCast_ediv]
  | ilp32 => exact (Int.ofNat_tdiv x n).symm

theorem Arch.maxObject_ge (arch : Arch) : 2 ^ 31 - 1 ≤ arch.maxObject := by
  cases arch <;> decide

namespace Tcp

/-! ## The code -/

/-- The loop of `rcv_n_bytes`, with the bytes that are in the buffer.  Every round
that goes on has read something, so `nBytes` rounds are enough. -/
def rcvLoop (nBytes : ℕ) : ℕ → List UInt8 → Program (ℤ × List UInt8)
  | 0, got => do
    if got.length < nBytes then outOfFuel
    return (got.length, got)
  | fuel + 1, got => do
    if got.length < nBytes then
      match ← read (nBytes - got.length) with
      | .zero => return (0, got)
      | .negative => return (-1, got)
      | .bytes bs => rcvLoop nBytes fuel (got ++ bs)
    else return (got.length, got)

/-- `rcv_n_bytes`: what it returns, and the bytes at the start of the buffer. -/
def rcvNBytes (nBytes : ℕ) : Program (ℤ × List UInt8) := rcvLoop nBytes nBytes []

/-- `get_pack_length` -/
def getPackLength : Program ℤ := do
  let mem ← uninit
  let (err, got) ← rcvNBytes 4
  if err < 0 then return -1
  return (Buffer.deserializeU32 ⟨Buffer.overlay got mem, 0⟩).1

/-- `deserialize<Tp...>`, for one type at least: the values are taken from the
buffer whatever `rcv_n_bytes` returned. -/
def deserialize (ts : List ScalarType) : Program (ℤ × List ScalarVal) := do
  let mem ← uninit
  let (err, got) ← rcvNBytes (requiredBufferSize ts)
  return (toInt err, (Buffer.deserialize ⟨Buffer.overlay got mem, 0⟩ ts).1)

/-- `rcv_n_bytes` into the storage of a field, whose contents are a value again
when all the bytes have arrived. -/
def fill (driver operation : ℕ) (name : String) (nBytes : ℕ) (value : List UInt8 → ArgVal) :
    Program ℤ := do
  store driver operation name none
  let (err, got) ← rcvNBytes nBytes
  if got.length = nBytes then store driver operation name (some (value got))
  return toInt err

/-- `recv(std::array<T, N>&)` -/
def recvArray (driver operation : ℕ) (name : String) (t : ScalarType) (n : ℕ) : Program ℤ :=
  fill driver operation name (n * t.size) fun got => .array (ofMemOf t n got)

/-- `recv(std::vector<T>&)` from the pack length on. -/
def recvVectorData (arch : Arch) (driver operation : ℕ) (name : String) (t : ScalarType)
    (packLength : ℤ) : Program ℤ := do
  let length := arch.quot packLength t.size
  if length < 0 then return -1
  if arch.maxObject < length.toNat * t.size then throw
  fill driver operation name (length.toNat * t.size) fun got =>
    .vector (ofMemOf t length.toNat got)

/-- `recv(std::vector<T>&)` -/
def recvVector (arch : Arch) (driver operation : ℕ) (name : String) (t : ScalarType) :
    Program ℤ := do
  let packLength ← getPackLength
  recvVectorData arch driver operation name t packLength

/-- `recv(std::string&)` from the pack length on. -/
def recvStringData (arch : Arch) (driver operation : ℕ) (name : String) (length : ℤ) :
    Program ℤ := do
  if length < 0 then return -1
  if arch.maxObject < length.toNat then throw
  fill driver operation name length.toNat .string

/-- `recv(std::string&)` -/
def recvString (arch : Arch) (driver operation : ℕ) (name : String) : Program ℤ := do
  let length ← getPackLength
  recvStringData arch driver operation name length

end Tcp

/-! ## `rcv_n_bytes` -/

/-- What the loop of `rcv_n_bytes` comes to, with `got` in the buffer. -/
def rcvOutcome (nBytes : ℕ) (got : List UInt8) (w : View) : Result Stop View (ℤ × List UInt8) :=
  if nBytes - got.length ≤ w.input.length then
    .ret (nBytes, got ++ w.input.take (nBytes - got.length)) (w.advance (nBytes - got.length))
  else
    match w.ending with
    | .eof => .ret (0, got ++ w.input) (w.advance w.input.length)
    | .error => .ret (-1, got ++ w.input) (w.advance w.input.length)
    | .waiting => .halt .blocked (w.advance w.input.length)

/-- The outcome does not depend on where the stream is cut. -/
theorem rcvOutcome_step {nBytes : ℕ} {got bs : List UInt8} {w : View} (hpre : bs <+: w.input)
    (hlen : bs.length ≤ nBytes - got.length) :
    rcvOutcome nBytes (got ++ bs) (w.advance bs.length) = rcvOutcome nBytes got w := by
  obtain ⟨rest, hrest⟩ := hpre
  have hin : (w.advance bs.length).input = rest := by
    rw [View.advance, ← hrest]; exact List.drop_left
  have hlen' : w.input.length = bs.length + rest.length := by rw [← hrest, List.length_append]
  have hneed : nBytes - (got ++ bs).length + bs.length = nBytes - got.length := by
    rw [List.length_append]; omega
  have htake : w.input.take (nBytes - got.length)
      = bs ++ rest.take (nBytes - (got ++ bs).length) := by
    rw [← hneed, ← hrest, Nat.add_comm, List.take_length_add_append]
  have hall : got ++ w.input = got ++ bs ++ rest := by rw [← hrest, List.append_assoc]
  unfold rcvOutcome
  rw [hin, htake, hall, View.advance_advance, View.advance_advance, Nat.add_comm bs.length, hneed,
    hlen', ← List.append_assoc]
  by_cases hle : nBytes - (got ++ bs).length ≤ rest.length
  · rw [if_pos hle, if_pos (by omega)]
  · rw [if_neg hle, if_neg (by omega)]
    rfl

section Rules

variable {drivers : List Driver} {env : Env} {w : View}

theorem wp_rcvLoop {nBytes fuel : ℕ} {got : List UInt8} (hgot : got.length ≤ nBytes)
    (hfuel : nBytes - got.length ≤ fuel) {post : Result Stop View (ℤ × List UInt8) → Prop} :
    (session drivers env).wp (Tcp.rcvLoop nBytes fuel got) post w ↔
      post (rcvOutcome nBytes got w) := by
  induction fuel generalizing got w with
  | zero =>
    have hn : got.length = nBytes := by omega
    simp [Tcp.rcvLoop, rcvOutcome, hn]
  | succ fuel ih =>
    by_cases hlt : got.length < nBytes
    · have hpos : 0 < nBytes - got.length := by omega
      rw [Tcp.rcvLoop, if_pos hlt, Handler.wp_bind]
      by_cases hin : w.input = []
      · rw [wp_read_nil hpos hin, rcvOutcome, if_neg (by rw [hin, List.length_nil]; omega), hin]
        cases w.ending <;> simp
      · rw [wp_read hpos hin]
        -- whatever is read, the rest of the loop comes to the same
        have hstep : ∀ bs, bs ≠ [] → bs.length ≤ nBytes - got.length → bs <+: w.input →
            ((session drivers env).wp (Tcp.rcvLoop nBytes fuel (got ++ bs)) post
              (w.advance bs.length) ↔ post (rcvOutcome nBytes got w)) := by
          intro bs hne hlen hpre
          have hbs : 0 < bs.length := List.length_pos_of_ne_nil hne
          rw [ih (by rw [List.length_append]; omega) (by rw [List.length_append]; omega),
            rcvOutcome_step hpre hlen]
        constructor
        · intro h
          obtain ⟨b, rest, hcons⟩ := List.exists_cons_of_ne_nil hin
          have hpre : [b] <+: w.input := hcons ▸ ⟨rest, rfl⟩
          exact (hstep [b] (by simp) hpos hpre).mp (h [b] (by simp) hpos hpre)
        · exact fun h bs hne hlen hpre => (hstep bs hne hlen hpre).mpr h
    · have hn : got.length = nBytes := by omega
      simp [Tcp.rcvLoop, rcvOutcome, hn]

/-- **`rcv_n_bytes` does not depend on how the stream is cut.** -/
theorem wp_rcvNBytes {nBytes : ℕ} {post : Result Stop View (ℤ × List UInt8) → Prop} :
    (session drivers env).wp (Tcp.rcvNBytes nBytes) post w ↔ post (rcvOutcome nBytes [] w) :=
  wp_rcvLoop (Nat.zero_le _) (Nat.sub_le _ _)

theorem wp_rcvNBytes_of_le {nBytes : ℕ} (h : nBytes ≤ w.input.length)
    {post : Result Stop View (ℤ × List UInt8) → Prop} :
    (session drivers env).wp (Tcp.rcvNBytes nBytes) post w ↔
      post (.ret (nBytes, w.input.take nBytes) (w.advance nBytes)) := by
  have hle : nBytes - ([] : List UInt8).length ≤ w.input.length := h
  rw [wp_rcvNBytes, rcvOutcome, if_pos hle]
  rfl

/-- The end of the stream comes before the last byte asked for. -/
theorem wp_rcvNBytes_of_lt {nBytes : ℕ} (h : w.input.length < nBytes)
    {post : Result Stop View (ℤ × List UInt8) → Prop} :
    (session drivers env).wp (Tcp.rcvNBytes nBytes) post w ↔
      match w.ending with
      | .eof => post (.ret (0, w.input) (w.advance w.input.length))
      | .error => post (.ret (-1, w.input) (w.advance w.input.length))
      | .waiting => post (.halt .blocked (w.advance w.input.length)) := by
  have hlt : ¬ nBytes - ([] : List UInt8).length ≤ w.input.length := Nat.not_le.mpr h
  rw [wp_rcvNBytes, rcvOutcome, if_neg hlt]
  cases w.ending <;> rfl

/-! ## What is built on it -/

/-- Bytes laid over memory, read back from its start. -/
theorem deserializeU32_overlay {bs : List UInt8} (h : 4 ≤ bs.length) (mem : ℕ → UInt8) :
    (Buffer.deserializeU32 ⟨Buffer.overlay (bs.take 4) mem, 0⟩).1 = (extractU32 bs).toNat := by
  have hlen : (bs.take 4).length = 4 := List.length_take_of_le h
  have hholds := (Buffer.holds_overlay (bs.take 4) mem).bytes_eq (Nat.le_of_eq hlen.symm)
  rw [Buffer.deserializeU32, hholds, List.take_take, Nat.min_self,
    extractU32_take (Nat.le_refl 4)]

theorem wp_getPackLength_of_le (h : 4 ≤ w.input.length) {post : Result Stop View ℤ → Prop} :
    (session drivers env).wp Tcp.getPackLength post w ↔
      post (.ret (extractU32 w.input).toNat (w.advance 4)) := by
  rw [Tcp.getPackLength, Handler.wp_bind, wp_uninit]
  simp only [Handler.andThen_ret, Handler.wp_bind, wp_rcvNBytes_of_le h]
  simp only [Nat.cast_ofNat, Int.reduceLT, if_false, Handler.wp_pure,
    deserializeU32_overlay h]
  exact forall_const _

/-- At the end of the stream the length is read from a buffer that nothing, or too
little, was written to. -/
theorem wp_getPackLength_of_lt (h : w.input.length < 4) {post : Result Stop View ℤ → Prop} :
    (session drivers env).wp Tcp.getPackLength post w ↔
      match w.ending with
      | .eof => ∀ mem, post (.ret (Buffer.deserializeU32 ⟨Buffer.overlay w.input mem, 0⟩).1
          (w.advance w.input.length))
      | .error => post (.ret (-1) (w.advance w.input.length))
      | .waiting => post (.halt .blocked (w.advance w.input.length)) := by
  rw [Tcp.getPackLength, Handler.wp_bind, wp_uninit]
  simp only [Handler.andThen_ret, Handler.wp_bind, wp_rcvNBytes_of_lt h]
  cases w.ending with
  | eof => simp only [lt_self_iff_false, if_false, Handler.wp_pure]
  | error =>
    simp only [Int.reduceNeg, Int.reduceLT, if_true, Handler.wp_pure]
    exact forall_const _
  | waiting =>
    simp only [Handler.andThen_halt]
    exact forall_const _

theorem wp_deserialize_of_le {ts : List ScalarType} (h : requiredBufferSize ts ≤ w.input.length)
    {post : Result Stop View (ℤ × List ScalarVal) → Prop} :
    (session drivers env).wp (Tcp.deserialize ts) post w ↔
      post (.ret (toInt (requiredBufferSize ts), extractAll ts w.input)
        (w.advance (requiredBufferSize ts))) := by
  have hvals : ∀ mem, (Buffer.deserialize
      ⟨Buffer.overlay (w.input.take (requiredBufferSize ts)) mem, 0⟩ ts).1
        = extractAll ts w.input := by
    intro mem
    have hlen : (w.input.take (requiredBufferSize ts)).length = requiredBufferSize ts :=
      List.length_take_of_le h
    have hholds := (Buffer.holds_overlay (w.input.take (requiredBufferSize ts)) mem).bytes_eq
      (Nat.le_of_eq hlen.symm)
    rw [Buffer.deserialize, hholds, List.take_take, Nat.min_self,
      extractAll_take (Nat.le_refl _)]
  rw [Tcp.deserialize, Handler.wp_bind, wp_uninit]
  simp only [Handler.andThen_ret, Handler.wp_bind, wp_rcvNBytes_of_le h]
  simp only [Handler.wp_pure, hvals]
  exact forall_const _

theorem wp_deserialize_of_lt {ts : List ScalarType} (h : w.input.length < requiredBufferSize ts)
    {post : Result Stop View (ℤ × List ScalarVal) → Prop} :
    (session drivers env).wp (Tcp.deserialize ts) post w ↔
      ∀ mem, match w.ending with
      | .eof => post (.ret (0, (Buffer.deserialize ⟨Buffer.overlay w.input mem, 0⟩ ts).1)
          (w.advance w.input.length))
      | .error => post (.ret (-1, (Buffer.deserialize ⟨Buffer.overlay w.input mem, 0⟩ ts).1)
          (w.advance w.input.length))
      | .waiting => post (.halt .blocked (w.advance w.input.length)) := by
  rw [Tcp.deserialize, Handler.wp_bind, wp_uninit]
  simp only [Handler.andThen_ret, Handler.wp_bind, wp_rcvNBytes_of_lt h]
  cases w.ending <;> simp

section Fill

variable {driver operation : ℕ} {name : String} {nBytes : ℕ} {value : List UInt8 → ArgVal}
  {post : Result Stop View ℤ → Prop}

theorem wp_fill_of_le (hw : w.held = some driver) (h : nBytes ≤ w.input.length) :
    (session drivers env).wp (Tcp.fill driver operation name nBytes value) post w ↔
      post (.ret (toInt nBytes)
        ((w.setArg operation name (some (value (w.input.take nBytes)))).advance nBytes)) := by
  have hlen : (w.input.take nBytes).length = nBytes := List.length_take_of_le h
  rw [Tcp.fill, Handler.wp_bind, wp_store hw, Handler.andThen_ret, Handler.wp_bind,
    wp_rcvNBytes_of_le (w := w.setArg operation name none) h, Handler.andThen_ret]
  simp only [View.input_setArg, hlen, if_true]
  rw [Handler.wp_bind, wp_store (w := (w.setArg operation name none).advance nBytes) hw]
  simp only [Handler.andThen_ret, Handler.wp_pure, View.advance_setArg, View.setArg_setArg]

theorem wp_fill_of_lt (hw : w.held = some driver) (h : w.input.length < nBytes) :
    (session drivers env).wp (Tcp.fill driver operation name nBytes value) post w ↔
      match w.ending with
      | .eof => post (.ret 0 ((w.setArg operation name none).advance w.input.length))
      | .error => post (.ret (-1) ((w.setArg operation name none).advance w.input.length))
      | .waiting =>
        post (.halt .blocked ((w.setArg operation name none).advance w.input.length)) := by
  rw [Tcp.fill, Handler.wp_bind, wp_store hw, Handler.andThen_ret, Handler.wp_bind,
    wp_rcvNBytes_of_lt (w := w.setArg operation name none) h]
  simp only [View.ending_setArg, View.input_setArg]
  cases w.ending <;> simp [h.ne]

theorem wp_recvStringData {arch : Arch} {length : ℕ} :
    (session drivers env).wp (Tcp.recvStringData arch driver operation name length) post w ↔
      if arch.maxObject < length then post (.halt .terminated w)
      else (session drivers env).wp (Tcp.fill driver operation name length .string) post w := by
  have hlt : ¬ (length : ℤ) < 0 := by omega
  rw [Tcp.recvStringData, if_neg hlt, Int.toNat_natCast]
  by_cases hmax : arch.maxObject < length
  · rw [if_pos hmax, if_pos hmax, Handler.wp_bind]
    exact wp_throw
  · rw [if_neg hmax, if_neg hmax]

theorem wp_recvVectorData {arch : Arch} {t : ScalarType} {length : ℕ} (hlength : length < 2 ^ 64) :
    (session drivers env).wp (Tcp.recvVectorData arch driver operation name t length) post w ↔
      if arch.maxObject < length / t.size * t.size then post (.halt .terminated w)
      else (session drivers env).wp
        (Tcp.fill driver operation name (length / t.size * t.size) fun got =>
          .vector (ofMemOf t (length / t.size) got)) post w := by
  have hlt : ¬ ((length / t.size : ℕ) : ℤ) < 0 := Int.not_lt.mpr (Int.natCast_nonneg _)
  simp only [Tcp.recvVectorData, arch.quot_natCast hlength, if_neg hlt, Int.toNat_natCast]
  by_cases hmax : arch.maxObject < length / t.size * t.size
  · rw [if_pos hmax, if_pos hmax, Handler.wp_bind]
    exact wp_throw
  · rw [if_neg hmax, if_neg hmax]

/-- On a 64-bit host the -1 of `get_pack_length` becomes a length that no vector can
have. -/
theorem wp_recvVectorData_error_lp64 {t : ScalarType} :
    (session drivers env).wp (Tcp.recvVectorData .lp64 driver operation name t (-1)) post w ↔
      post (.halt .terminated w) := by
  have hquot : ¬ Arch.lp64.quot (-1) t.size < 0 ∧
      Arch.lp64.maxObject < (Arch.lp64.quot (-1) t.size).toNat * t.size := by
    cases t <;> decide
  simp only [Tcp.recvVectorData, if_neg hquot.1, if_pos hquot.2]
  rw [Handler.wp_bind]
  exact wp_throw

/-- On a 32-bit host it becomes 0, an empty vector, unless the elements are bytes. -/
theorem wp_recvVectorData_error_ilp32 {t : ScalarType} :
    (session drivers env).wp (Tcp.recvVectorData .ilp32 driver operation name t (-1)) post w ↔
      if t.size = 1 then post (.ret (-1) w)
      else (session drivers env).wp
        (Tcp.fill driver operation name 0 fun got => .vector (ofMemOf t 0 got)) post w := by
  by_cases ht : t.size = 1
  · have hquot : Arch.ilp32.quot (-1) t.size = -1 := by rw [ht]; decide
    rw [if_pos ht, Tcp.recvVectorData, hquot]
    exact Iff.rfl
  · have hquot : Arch.ilp32.quot (-1) t.size = 0 := by
      revert ht; cases t <;> decide
    rw [if_neg ht]
    simp [Tcp.recvVectorData, hquot]

end Fill

end Rules

end KoheronSdk
