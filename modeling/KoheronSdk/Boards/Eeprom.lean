import Mathlib.Data.Int.Notation
import Mathlib.Logic.Function.Basic
import Mathlib.Data.List.Perm.Basic
import KoheronSdk.Lib.Program
import KoheronSdk.Lib.Transition

/-!
# The EEPROM and its users

`Eeprom::read` sets the address pointer of the chip in one transfer and fetches the data in
another one, `Eeprom::write` stores its data page by page.  `I2cDev` locks the bus for one
transfer at a time, and several drivers share one `Eeprom`.

## Calls and transfers

The calls are programs of transfers, in the words of the source.  For the threads another
form is better, in which it can be seen how far a call has come: `Phase` has a constructor
for each place between two transfers.  `Phase.program_act` ties the two forms to each other: what
is left of a call at a phase is a program, and after a transfer it is the program of the next
phase.  The steps of the threads are about phases, and nothing has to be believed
about them.

A transfer may fail, as the bus is busy or the chip does not answer.  A call tries again a number
of times and then gives up, so that a `write` can end with a part of its data stored.

## One order of the calls

The calls that have returned are explained by a serial order when the chip, one call after another,
gives them the answers that they have got.  `State.Holds` is what carries this over calls that
have not returned: the chip holds the contents after the calls that have, and over it what
the others have stored so far.  This is so as long as no transfer that the chip takes comes between
the two transfers of a `read`, or touches the range of a `write` that has stored a part.
The lock does not give this, as it is held for one transfer only.

* `Eeprom.read`, `Eeprom.write`: the calls, as programs of transfers.
* `Phase`: how far a call is; `Phase.program_act`: it goes on as the program does.
* `Eeprom.step`: calls of any number of threads, transfer by transfer.
* `serializable_of_undisturbed`: as long as no transfer comes between those of another call
  in a way that matters to it, the calls behave as if one came after another.
-/

namespace KoheronSdk

open Effects Transition

namespace Eeprom

/-- `EEPROM_SIZE` -/
def size : ℕ := 64 * 1024 / 8

/-- `PAGESIZE` -/
def pageSize : ℕ := 32

/-! ## The calls -/

/-- A transfer: a call of `I2cDev::write` or `I2cDev::read` with the chip's address. -/
inductive Transfer where
  | write (buffer : List UInt8)
  | read (nBytes : ℕ)
  deriving DecidableEq

/-- What such a call returns, and the bytes that it has read. -/
structure Answer where
  ret : ℤ
  bytes : List UInt8
  deriving DecidableEq

/-- A program of transfers. -/
abbrev I2c := Prog Transfer fun _ => Answer

/-- The address bytes of a buffer. -/
def addressBytes (offset : ℕ) : List UInt8 := [UInt8.ofNat (offset >>> 8), UInt8.ofNat offset]

/-- `max_retries` -/
def maxRetries : ℕ := 5

/-- `__write`, with what is left of its `max_retries` turns. -/
def writeRetrying (buffer : List UInt8) : ℕ → I2c ℤ
  | 0 => return -1
  | left + 1 => do
    let err ← Prog.perform (.write buffer)
    if err.ret ≠ -1 then return err.ret
    writeRetrying buffer left

/-- `__write_packet` -/
def writePacket (offset : ℕ) (packet : List UInt8) : I2c ℤ := do
  let packetLen : ℤ := packet.length + 2
  if (← writeRetrying (addressBytes offset ++ packet) maxRetries) ≠ packetLen then return -1
  return packetLen

/-- The packet behind the bytes that have been written. -/
def packetAt (data : List UInt8) (bytesWritten : ℕ) : List UInt8 :=
  (data.drop bytesWritten).take (min pageSize (data.length - bytesWritten))

/-- The loop of `write`. -/
def writeLoop (offset : ℕ) (data : List UInt8) (bytesWritten : ℕ) : I2c (ℤ × List UInt8) :=
  if bytesWritten < data.length then do
    if (← writePacket (offset + bytesWritten) (packetAt data bytesWritten)) < 0 then
      return (-1, [])
    writeLoop offset data (bytesWritten + min pageSize (data.length - bytesWritten))
  else return (data.length, [])
termination_by data.length - bytesWritten
decreasing_by simp only [pageSize]; omega

/-- `write<offset>(data)` -/
def write (offset : ℕ) (data : List UInt8) : I2c (ℤ × List UInt8) := writeLoop offset data 0

/-- `read<offset>(data)`, with `nBytes` the size of the array -/
def read (offset nBytes : ℕ) : I2c (ℤ × List UInt8) := do
  if (← writeRetrying (addressBytes offset) maxRetries) ≠ 2 then return (-1, [])
  let answer ← Prog.perform (.read nBytes)
  if answer.ret ≠ nBytes then return (-1, answer.bytes)
  return (nBytes, answer.bytes)

/-- A call. -/
inductive Call where
  | read (offset nBytes : ℕ)
  | write (offset : ℕ) (data : List UInt8)
  deriving DecidableEq

/-- The call as a program. -/
def Call.program : Call → I2c (ℤ × List UInt8)
  | .read offset nBytes => Eeprom.read offset nBytes
  | .write offset data => Eeprom.write offset data

/-- The range is one of the chip, and a write begins with a page. -/
def Call.WellFormed : Call → Prop
  | .read offset nBytes => offset + nBytes ≤ size
  | .write offset data => offset + data.length ≤ size ∧ pageSize ∣ offset

instance : (c : Call) → Decidable c.WellFormed
  | .read offset nBytes => inferInstanceAs (Decidable (offset + nBytes ≤ size))
  | .write offset data => inferInstanceAs (Decidable (offset + data.length ≤ size ∧ _))

/-! ### How far a call is -/

/-- How far a call is: `left` turns of `__write` are left after this one. -/
inductive Phase where
  | addressing (offset nBytes left : ℕ)
  | reading (offset nBytes : ℕ)
  | storing (offset : ℕ) (data : List UInt8) (bytesWritten left : ℕ)
  | returned (ret : ℤ) (bytes : List UInt8)
  deriving DecidableEq

namespace Phase

/-- The next transfer of the call. -/
def transfer? : Phase → Option Transfer
  | .addressing offset _ _ => some (.write (addressBytes offset))
  | .reading _ nBytes => some (.read nBytes)
  | .storing offset data bytesWritten _ =>
    some (.write (addressBytes (offset + bytesWritten) ++ packetAt data bytesWritten))
  | .returned _ _ => none

/-- At the head of the loop of `write`. -/
def storingFrom (offset : ℕ) (data : List UInt8) (bytesWritten : ℕ) : Phase :=
  if bytesWritten < data.length then .storing offset data bytesWritten (maxRetries - 1)
  else .returned data.length []

/-- Where the call is after the answer to its transfer. -/
def next : Phase → Answer → Phase
  | .addressing offset nBytes left, answer =>
    if answer.ret = -1 then
      if left = 0 then .returned (-1) [] else .addressing offset nBytes (left - 1)
    else if answer.ret = 2 then .reading offset nBytes
    else .returned (-1) []
  | .reading _ nBytes, answer =>
    if answer.ret = nBytes then .returned nBytes answer.bytes else .returned (-1) answer.bytes
  | .storing offset data bytesWritten left, answer =>
    if answer.ret = -1 then
      if left = 0 then .returned (-1) [] else .storing offset data bytesWritten (left - 1)
    else if answer.ret = (packetAt data bytesWritten).length + 2 then
      storingFrom offset data (bytesWritten + min pageSize (data.length - bytesWritten))
    else .returned (-1) []
  | .returned ret bytes, _ => .returned ret bytes

end Phase

/-- Where a call begins. -/
def Call.start : Call → Phase
  | .read offset nBytes => .addressing offset nBytes (maxRetries - 1)
  | .write offset data => Phase.storingFrom offset data 0

/-! What is left of a call. -/

/-- `read` behind its first `__write`. -/
def readAfter (nBytes : ℕ) (err : ℤ) : I2c (ℤ × List UInt8) :=
  if err ≠ 2 then return (-1, [])
  else do
    let answer ← Prog.perform (.read nBytes)
    if answer.ret ≠ nBytes then return (-1, answer.bytes)
    return (nBytes, answer.bytes)

/-- `write` behind the `__write` of a packet. -/
def writeAfter (offset : ℕ) (data : List UInt8) (bytesWritten : ℕ) (err : ℤ) :
    I2c (ℤ × List UInt8) :=
  if err ≠ ((packetAt data bytesWritten).length : ℤ) + 2 then return (-1, [])
  else writeLoop offset data (bytesWritten + min pageSize (data.length - bytesWritten))

/-- The program of what is left. -/
def Phase.program : Phase → I2c (ℤ × List UInt8)
  | .addressing offset nBytes left =>
    writeRetrying (addressBytes offset) (left + 1) >>= readAfter nBytes
  | .reading _ nBytes => readAfter nBytes 2
  | .storing offset data bytesWritten left =>
    writeRetrying (addressBytes (offset + bytesWritten) ++ packetAt data bytesWritten) (left + 1)
      >>= writeAfter offset data bytesWritten
  | .returned ret bytes => return (ret, bytes)

theorem read_eq (offset nBytes : ℕ) :
    read offset nBytes
      = writeRetrying (addressBytes offset) maxRetries >>= readAfter nBytes := rfl

theorem writeLoop_eq (offset : ℕ) (data : List UInt8) (bytesWritten : ℕ) :
    writeLoop offset data bytesWritten = (Phase.storingFrom offset data bytesWritten).program := by
  rw [writeLoop, Phase.storingFrom]
  split
  · rw [Phase.program, writePacket, bind_assoc]
    refine bind_congr fun err => ?_
    rw [writeAfter]
    split
    · rw [pure_bind, if_pos (by decide)]
    · rw [pure_bind, if_neg (by omega)]
  · rfl

theorem Call.start_program (c : Call) : c.start.program = c.program := by
  cases c with
  | read offset nBytes => exact (read_eq offset nBytes).symm
  | write offset data => exact (writeLoop_eq offset data 0).symm

theorem writeRetrying_succ_bind {α : Type} (buffer : List UInt8) (left : ℕ) (f : ℤ → I2c α) :
    (writeRetrying buffer (left + 1) >>= f) = .act (.write buffer) fun answer =>
      if answer.ret = -1 then writeRetrying buffer left >>= f else f answer.ret := by
  rw [writeRetrying]
  refine congrArg (Prog.act _) (funext fun answer => ?_)
  show (if answer.ret ≠ -1 then pure answer.ret else writeRetrying buffer left) >>= f = _
  by_cases hret : answer.ret = -1
  · rw [if_neg (not_not_intro hret), if_pos hret]
  · rw [if_pos hret, if_neg hret, pure_bind]

/-- **A call goes on as its program does.** -/
theorem Phase.program_act {phase : Phase} {e : Transfer} (h : phase.transfer? = some e) :
    phase.program = .act e fun answer => (phase.next answer).program := by
  cases phase with
  | addressing offset nBytes left =>
    obtain rfl := Option.some.inj h
    rw [Phase.program, writeRetrying_succ_bind]
    refine congrArg (Prog.act _) (funext fun answer => ?_)
    rw [Phase.next]
    split
    · cases left with
      | zero => rfl
      | succ left => rw [if_neg (Nat.succ_ne_zero left), Nat.add_sub_cancel]; rfl
    · split
      · rename_i hret
        rw [hret]
        rfl
      · rename_i hret
        rw [readAfter, if_pos hret]
        rfl
  | reading offset nBytes =>
    obtain rfl := Option.some.inj h
    refine congrArg (Prog.act _) (funext fun answer => ?_)
    rw [Phase.next]
    split
    · rename_i hret
      show (if answer.ret ≠ nBytes then pure ((-1 : ℤ), answer.bytes)
        else pure ((nBytes : ℤ), answer.bytes) : I2c (ℤ × List UInt8)) = _
      rw [if_neg (not_not_intro hret)]
      rfl
    · rename_i hret
      show (if answer.ret ≠ nBytes then pure ((-1 : ℤ), answer.bytes)
        else pure ((nBytes : ℤ), answer.bytes) : I2c (ℤ × List UInt8)) = _
      rw [if_pos hret]
      rfl
  | storing offset data bytesWritten left =>
    obtain rfl := Option.some.inj h
    rw [Phase.program, writeRetrying_succ_bind]
    refine congrArg (Prog.act _) (funext fun answer => ?_)
    rw [Phase.next]
    split
    · cases left with
      | zero =>
        rw [writeRetrying, pure_bind, writeAfter, if_pos (by omega)]
        rfl
      | succ left => rw [if_neg (Nat.succ_ne_zero left), Nat.add_sub_cancel]; rfl
    · split
      · rename_i hret
        rw [writeAfter, if_neg (not_not_intro hret), writeLoop_eq]
      · rename_i hret
        rw [writeAfter, if_pos hret]
        rfl
  | returned ret bytes => simp [Phase.transfer?] at h

/-! ## The chip -/

/-- The contents of the chip, and its address pointer. -/
structure Chip where
  mem : ℕ → UInt8
  pointer : ℕ

namespace Chip

/-- A byte is stored, and the pointer goes on within its page. -/
def storeByte (chip : Chip) (byte : UInt8) : Chip where
  mem := Function.update chip.mem chip.pointer byte
  pointer := chip.pointer / pageSize * pageSize + (chip.pointer + 1) % pageSize

/-- A transfer to the chip: two address bytes, and what is to be stored. -/
def write (chip : Chip) : List UInt8 → Chip
  | high :: low :: data =>
    data.foldl storeByte { chip with pointer := (high.toNat * 256 + low.toNat) % size }
  | _ => chip

/-- A transfer from the chip: the bytes from the pointer on. -/
def read (chip : Chip) (n : ℕ) : List UInt8 × Chip :=
  ((List.range n).map fun i => chip.mem ((chip.pointer + i) % size),
    { chip with pointer := (chip.pointer + n) % size })

/-- The loop of `I2cDev::read`; `results` are those of `::read`. -/
def readLoop (chip : Chip) (nBytes : ℕ) (buffer : List UInt8) : List ℤ → Answer × Chip
  | [] =>
    if buffer.length < nBytes then (⟨-1, buffer⟩, chip) else (⟨buffer.length, buffer⟩, chip)
  | bytesRcv :: results =>
    if buffer.length < nBytes then
      if bytesRcv = 0 then (⟨0, buffer⟩, chip)
      else if bytesRcv < 0 then (⟨-1, buffer⟩, chip)
      else
        let rcv := chip.read (min bytesRcv.toNat (nBytes - buffer.length))
        readLoop rcv.2 nBytes (buffer ++ rcv.1) results
    else (⟨buffer.length, buffer⟩, chip)

end Chip

/-- How the bus answers a transfer: not at all, when the chip is busy or `I2cDev` could not be
set up, or with the results of `::read`. -/
inductive Bus where
  | error
  | acknowledged (results : List ℤ)
  deriving DecidableEq

/-- A transfer, under the lock of `I2cDev`. -/
def Chip.transfer (chip : Chip) : Transfer → Bus → Answer × Chip
  | _, .error => (⟨-1, []⟩, chip)
  | .write buffer, .acknowledged _ => (⟨buffer.length, []⟩, chip.write buffer)
  | .read nBytes, .acknowledged results => chip.readLoop nBytes [] results

/-! ## The threads -/

/-- A call that has returned. -/
structure Returned where
  call : Call
  ret : ℤ
  bytes : List UInt8
  deriving DecidableEq

/-- The chip, the threads that are in a call, and the calls that have returned, in order. -/
structure State (threads : ℕ) where
  chip : Chip
  calls : Fin threads → Option (Call × Phase)
  returned : List Returned

/-- What can happen: a thread makes a call, or a transfer. -/
inductive Label (threads : ℕ) where
  | call (t : Fin threads) (c : Call)
  | transfer (t : Fin threads) (bus : Bus)
  deriving DecidableEq

variable {threads : ℕ}

/-- A thread in a call, or behind it. -/
def State.settle (s : State threads) (t : Fin threads) (c : Call) : Phase → State threads
  | .returned ret bytes =>
    { s with calls := Function.update s.calls t none, returned := s.returned ++ [⟨c, ret, bytes⟩] }
  | phase => { s with calls := Function.update s.calls t (some (c, phase)) }

/-- One step of one thread. -/
def step (s : State threads) : Label threads → Option (State threads)
  | .call t c =>
    if s.calls t = none ∧ c.WellFormed then some (s.settle t c c.start) else none
  | .transfer t bus => do
    let call ← s.calls t
    let e ← call.2.transfer?
    let answer := s.chip.transfer e bus
    return State.settle { s with chip := answer.2 } t call.1 (call.2.next answer.1)

/-- Nobody is in a call. -/
def start (threads : ℕ) (chip : Chip) : State threads := ⟨chip, fun _ => none, []⟩

/-! ## One call after another -/

/-- The contents after data have been stored. -/
def stored (mem : ℕ → UInt8) (offset : ℕ) (data : List UInt8) : ℕ → UInt8 := fun a =>
  if h : offset ≤ a ∧ a < offset + data.length then data[a - offset] else mem a

/-- A call for itself: a successful `read` returns the bytes of its range, a successful
`write` stores its data, and another one at most a first part of them. -/
def Returned.Explains (r : Returned) (mem mem' : ℕ → UInt8) : Prop :=
  match r.call with
  | .read offset nBytes =>
    mem' = mem ∧ (r.ret = nBytes → r.bytes = (List.range nBytes).map fun i => mem (offset + i))
  | .write offset data =>
    (r.ret = data.length ∧ mem' = stored mem offset data) ∨
      (r.ret ≠ data.length ∧ ∃ n, mem' = stored mem offset (data.take n))

/-- Calls one after another. -/
inductive Serial (mem : ℕ → UInt8) : List Returned → (ℕ → UInt8) → Prop where
  | nil : Serial mem [] mem
  | concat {rs : List Returned} {r : Returned} {mem' mem'' : ℕ → UInt8} (h : Serial mem rs mem')
    (hr : r.Explains mem' mem'') : Serial mem (rs ++ [r]) mem''

/-- What a call that has not returned has stored at an address. -/
def Phase.storedAt : Phase → ℕ → Option UInt8
  | .storing offset data bytesWritten _, a =>
    if offset ≤ a ∧ a < offset + bytesWritten then data[a - offset]? else none
  | _, _ => none

/-- What thread `t` has stored at an address in a call that has not returned. -/
def State.storedBy (s : State threads) (t : Fin threads) (a : ℕ) : Option UInt8 :=
  (s.calls t).bind fun call => call.2.storedAt a

/-- The chip holds `mem`, and over it what the calls have stored that have not returned. -/
structure State.Holds (s : State threads) (mem : ℕ → UInt8) : Prop where
  inCall : ∀ t a byte, s.storedBy t a = some byte → s.chip.mem a = byte
  others : ∀ a, (∀ t, s.storedBy t a = none) → s.chip.mem a = mem a

/-- The calls that have returned come to some serial order of them. -/
def Serializable (mem : ℕ → UInt8) (s : State threads) : Prop :=
  ∃ order, order.Perm s.returned ∧ ∃ mem', Serial mem order mem' ∧ s.Holds mem'

/-! ### Undisturbed -/

/-- The addresses that the next transfer of a call reads or stores. -/
def Phase.touches : Phase → List ℕ
  | .reading offset nBytes => List.range' offset nBytes
  | .storing offset data bytesWritten _ =>
    List.range' (offset + bytesWritten) (packetAt data bytesWritten).length
  | _ => []

/-- A transfer of another call, `other`, does not matter to a call: it is not between the two
transfers of a `read`, and does not touch the range of a `write` that has stored a part. -/
def Phase.Undisturbed (other : Phase) : Phase → Prop
  | .reading _ _ => False
  | .storing offset data bytesWritten _ =>
    0 < bytesWritten → ∀ a ∈ other.touches, ¬ (offset ≤ a ∧ a < offset + data.length)
  | _ => True

/-- A transfer that the chip takes does not disturb the call of another thread. -/
def Undisturbing (s : State threads) : Label threads → Prop
  | .transfer t (.acknowledged _) => ∀ call ∈ s.calls t, ∀ u, u ≠ t → ∀ call' ∈ s.calls u,
      call.2.Undisturbed call'.2
  | _ => True

/-! ### Data on the chip -/

theorem stored_of_mem {mem : ℕ → UInt8} {offset : ℕ} {data : List UInt8} {a : ℕ}
    (h : offset ≤ a ∧ a < offset + data.length) :
    stored mem offset data a = data[a - offset] := dif_pos h

theorem stored_of_not_mem {mem : ℕ → UInt8} {offset : ℕ} {data : List UInt8} {a : ℕ}
    (h : ¬ (offset ≤ a ∧ a < offset + data.length)) : stored mem offset data a = mem a := dif_neg h

theorem stored_nil (mem : ℕ → UInt8) (offset : ℕ) : stored mem offset [] = mem := by
  ext a
  exact congrArg _ (stored_of_not_mem (by simp only [List.length_nil]; omega))

theorem stored_cons (mem : ℕ → UInt8) (offset : ℕ) (byte : UInt8) (data : List UInt8) :
    stored mem offset (byte :: data)
      = stored (Function.update mem offset byte) (offset + 1) data := by
  funext a
  rcases Nat.lt_trichotomy a offset with hlt | rfl | hgt
  · rw [stored_of_not_mem (by omega), stored_of_not_mem (by omega),
      Function.update_of_ne (by omega)]
  · rw [stored_of_mem (by simp), stored_of_not_mem (by omega), Function.update_self]
    simp only [Nat.sub_self, List.getElem_cons_zero]
  · by_cases ha : a < offset + 1 + data.length
    · rw [stored_of_mem (by simp only [List.length_cons]; omega), stored_of_mem (by omega)]
      obtain ⟨i, rfl⟩ := Nat.exists_eq_add_of_lt hgt
      simp only [show offset + i + 1 - offset = i + 1 by omega,
        show offset + i + 1 - (offset + 1) = i by omega, List.getElem_cons_succ]
    · rw [stored_of_not_mem (by simp only [List.length_cons]; omega),
        stored_of_not_mem (by omega), Function.update_of_ne (by omega)]

/-- Data that end with their page are stored as they are. -/
theorem Chip.foldl_storeByte_mem (data : List UInt8) (chip : Chip)
    (h : chip.pointer % pageSize + data.length ≤ pageSize) :
    (data.foldl storeByte chip).mem = stored chip.mem chip.pointer data := by
  induction data generalizing chip with
  | nil => exact (stored_nil _ _).symm
  | cons byte data ih =>
    rw [List.foldl_cons, stored_cons]
    cases data with
    | nil => rw [stored_nil]; rfl
    | cons byte' data =>
      have hnext : (chip.storeByte byte).pointer = chip.pointer + 1 := by
        show chip.pointer / pageSize * pageSize + (chip.pointer + 1) % pageSize = _
        simp only [List.length_cons, pageSize] at h ⊢
        omega
      rw [ih, hnext]
      · rfl
      · rw [hnext]
        simp only [List.length_cons, pageSize] at h ⊢
        omega

theorem address_toNat {offset : ℕ} (h : offset ≤ size) :
    (UInt8.ofNat (offset >>> 8)).toNat * 256 + (UInt8.ofNat offset).toNat = offset := by
  simp only [UInt8.toNat_ofNat', Nat.shiftRight_eq_div_pow, size] at h ⊢
  omega

/-- The two address bytes set the pointer. -/
theorem Chip.write_addressBytes (chip : Chip) {offset : ℕ} (h : offset ≤ size) :
    chip.write (addressBytes offset) = { chip with pointer := offset % size } := by
  show ({ chip with pointer := _ } : Chip) = _
  rw [address_toNat h]

/-- A packet that fits into its page is stored as it is. -/
theorem Chip.write_packet_mem (chip : Chip) {offset : ℕ} {packet : List UInt8}
    (h : offset + packet.length ≤ size)
    (hpage : offset % pageSize + packet.length ≤ pageSize) :
    (chip.write (addressBytes offset ++ packet)).mem = stored chip.mem offset packet := by
  show (packet.foldl storeByte { chip with pointer := _ }).mem = _
  rw [address_toNat (by omega)]
  cases packet with
  | nil => exact (stored_nil _ _).symm
  | cons byte packet =>
    have hlt : offset < size := by simp only [List.length_cons] at h; omega
    rw [Nat.mod_eq_of_lt hlt, foldl_storeByte_mem _ _ hpage]

theorem Chip.readLoop_mem (results : List ℤ) (chip : Chip) (nBytes : ℕ) (buffer : List UInt8) :
    (chip.readLoop nBytes buffer results).2.mem = chip.mem := by
  induction results generalizing chip buffer with
  | nil => unfold readLoop; split <;> rfl
  | cons bytesRcv results ih =>
    unfold readLoop
    split
    · split
      · rfl
      · split
        · rfl
        · exact ih _ _
    · rfl

/-- What a successful transfer has read: the bytes from the pointer on. -/
theorem Chip.readLoop_bytes (results : List ℤ) (chip : Chip) (start nBytes : ℕ)
    (buffer : List UInt8) (hbuffer : buffer.length ≤ nBytes)
    (hread : buffer = (List.range buffer.length).map fun i => chip.mem ((start + i) % size))
    (hpointer : chip.pointer = (start + buffer.length) % size)
    (h : (chip.readLoop nBytes buffer results).1.ret = nBytes) :
    (chip.readLoop nBytes buffer results).1.bytes
      = (List.range nBytes).map fun i => chip.mem ((start + i) % size) := by
  induction results generalizing chip buffer with
  | nil =>
    unfold readLoop at h ⊢
    split at h
    · exact absurd h (by show ¬ (-1 : ℤ) = _; omega)
    · rw [if_neg ‹_›]
      rwa [show nBytes = buffer.length by omega]
  | cons bytesRcv results ih =>
    unfold readLoop at h ⊢
    split at h
    · rename_i hlt
      rw [if_pos hlt]
      split at h
      · exact absurd h (by show ¬ (0 : ℤ) = _; omega)
      · rename_i hzero
        rw [if_neg hzero]
        split at h
        · exact absurd h (by show ¬ (-1 : ℤ) = _; omega)
        · rename_i hneg
          rw [if_neg hneg]
          refine ih _ _ ?_ ?_ ?_ h
          · simp only [Chip.read, List.length_append, List.length_map, List.length_range]
            omega
          · simp only [Chip.read, List.length_append, List.length_map, List.length_range]
            rw [List.range_add, List.map_append, ← hread, List.map_map]
            refine congrArg _ (List.map_congr_left fun i _ => ?_)
            simp only [Function.comp, hpointer, Nat.mod_add_mod, Nat.add_assoc]
          · simp only [Chip.read, List.length_append, List.length_map, List.length_range,
              hpointer, Nat.mod_add_mod, Nat.add_assoc]
    · rw [if_neg ‹_›]
      rwa [show nBytes = buffer.length by omega]

/-- A successful transfer at the pointer of a range of the chip reads that range. -/
theorem Chip.read_bytes {chip : Chip} {offset nBytes : ℕ} (hrange : offset + nBytes ≤ size)
    (hpointer : chip.pointer = offset % size) {results : List ℤ}
    (h : (chip.readLoop nBytes [] results).1.ret = nBytes) :
    (chip.readLoop nBytes [] results).1.bytes
      = (List.range nBytes).map fun i => chip.mem (offset + i) := by
  rw [chip.readLoop_bytes results offset nBytes [] (Nat.zero_le _) rfl hpointer h]
  refine List.map_congr_left fun i hi => ?_
  rw [Nat.mod_eq_of_lt (by have := List.mem_range.mp hi; omega)]

/-! ### What the calls have stored -/

/-- The phases of a call. -/
inductive Call.Reaches : Call → Phase → Prop where
  | addressing {offset nBytes left : ℕ} :
    Reaches (.read offset nBytes) (.addressing offset nBytes left)
  | reading {offset nBytes : ℕ} : Reaches (.read offset nBytes) (.reading offset nBytes)
  | storing {offset : ℕ} {data : List UInt8} {bytesWritten left : ℕ}
    (hlt : bytesWritten < data.length) (hpage : pageSize ∣ bytesWritten) :
    Reaches (.write offset data) (.storing offset data bytesWritten left)

theorem storedAt_storing (offset : ℕ) (data : List UInt8) (bytesWritten left a : ℕ) :
    (Phase.storing offset data bytesWritten left).storedAt a
      = if offset ≤ a ∧ a < offset + bytesWritten then data[a - offset]? else none := rfl

theorem storedAt_storing_zero (offset : ℕ) (data : List UInt8) (left a : ℕ) :
    (Phase.storing offset data 0 left).storedAt a = none := if_neg (by omega)

/-- Everything up to `bytesWritten` has been stored. -/
theorem storedAt_storing_of_mem {offset : ℕ} {data : List UInt8} {bytesWritten left a : ℕ}
    (h : offset ≤ a ∧ a < offset + bytesWritten) (hle : bytesWritten ≤ data.length) :
    (Phase.storing offset data bytesWritten left).storedAt a
      = some (data.get ⟨a - offset, by omega⟩) := by
  rw [storedAt_storing, if_pos h]
  exact List.getElem?_eq_getElem _

theorem storedBy_of_calls {s : State threads} {t : Fin threads} {call : Call × Phase}
    (h : s.calls t = some call) (a : ℕ) : s.storedBy t a = call.2.storedAt a := by
  rw [State.storedBy, h, Option.bind_some]

/-- Another thread has stored what it had. -/
theorem storedBy_update_of_ne {s : State threads} {t u : Fin threads} (h : u ≠ t) (chip : Chip)
    (call? : Option (Call × Phase)) (returned : List Returned) (a : ℕ) :
    State.storedBy ⟨chip, Function.update s.calls t call?, returned⟩ u a = s.storedBy u a := by
  show ((Function.update s.calls t call? u).bind fun call => call.2.storedAt a) = _
  rw [Function.update_of_ne h, State.storedBy]

theorem storedBy_update_self (s : State threads) (t : Fin threads) (chip : Chip)
    (call? : Option (Call × Phase)) (returned : List Returned) (a : ℕ) :
    State.storedBy ⟨chip, Function.update s.calls t call?, returned⟩ t a
      = call?.bind fun call => call.2.storedAt a := by
  show ((Function.update s.calls t call? t).bind fun call => call.2.storedAt a) = _
  rw [Function.update_self]

namespace State.Holds

variable {s : State threads} {mem : ℕ → UInt8} {t : Fin threads}

/-- The same contents, with the same part stored by every call. -/
theorem congr (h : s.Holds mem) {s' : State threads} (hmem : s'.chip.mem = s.chip.mem)
    (hstored : ∀ u a, s'.storedBy u a = s.storedBy u a) : s'.Holds mem where
  inCall u a byte ha := hmem ▸ h.inCall u a byte (hstored u a ▸ ha)
  others a ha := hmem ▸ h.others a fun u => hstored u a ▸ ha u

/-- A call that has stored nothing begins or goes on. -/
theorem goOn (h : s.Holds mem) {chip : Chip} (hmem : chip.mem = s.chip.mem)
    (hnone : ∀ a, s.storedBy t a = none) {c : Call} {phase : Phase}
    (hphase : ∀ a, phase.storedAt a = none) (returned : List Returned) :
    State.Holds ⟨chip, Function.update s.calls t (some (c, phase)), returned⟩ mem := by
  refine h.congr hmem fun u a => ?_
  by_cases hu : u = t
  · rw [hu, storedBy_update_self, hnone, Option.bind_some, hphase]
  · exact storedBy_update_of_ne hu _ _ _ _

/-- A call that has stored nothing returns. -/
theorem quit (h : s.Holds mem) {chip : Chip} (hmem : chip.mem = s.chip.mem)
    (hnone : ∀ a, s.storedBy t a = none) (returned : List Returned) :
    State.Holds ⟨chip, Function.update s.calls t none, returned⟩ mem := by
  refine h.congr hmem fun u a => ?_
  by_cases hu : u = t
  · rw [hu, storedBy_update_self, hnone, Option.bind_none]
  · exact storedBy_update_of_ne hu _ _ _ _

variable {offset : ℕ} {data : List UInt8} {bytesWritten left : ℕ}

/-- A `write` stores its next packet, where no other call has stored. -/
theorem store (h : s.Holds mem) {c : Call}
    (hcall : s.calls t = some (c, .storing offset data bytesWritten left)) {len left' : ℕ}
    {chip : Chip} (hlen : bytesWritten + len ≤ data.length)
    (hmem : chip.mem = stored s.chip.mem (offset + bytesWritten)
      ((data.drop bytesWritten).take len))
    (hfree : ∀ u ≠ t, ∀ a, offset + bytesWritten ≤ a ∧ a < offset + bytesWritten + len →
      s.storedBy u a = none) (returned : List Returned) :
    State.Holds ⟨chip, Function.update s.calls t
      (some (c, .storing offset data (bytesWritten + len) left')), returned⟩ mem := by
  have hlength : ((data.drop bytesWritten).take len).length = len := by
    rw [List.length_take, List.length_drop]
    omega
  have hbefore : ∀ a, ¬ (offset + bytesWritten ≤ a ∧ a < offset + bytesWritten + len) →
      chip.mem a = s.chip.mem a := fun a ha => by
    rw [hmem, stored_of_not_mem (by rwa [hlength])]
  constructor
  · intro u a byte hbyte
    by_cases hu : u = t
    · rw [hu, storedBy_update_self, Option.bind_some, storedAt_storing] at hbyte
      rw [Option.ite_none_right_eq_some] at hbyte
      obtain ⟨hrange, hbyte⟩ := hbyte
      by_cases ha : offset + bytesWritten ≤ a ∧ a < offset + bytesWritten + len
      · show chip.mem a = byte
        rw [hmem, stored_of_mem (by rwa [hlength])]
        rw [List.getElem_take, List.getElem_drop]
        refine Option.some.inj (Eq.trans ?_ hbyte)
        rw [← List.getElem?_eq_getElem]
        congr 1
        omega
      · refine (hbefore a ha).trans (h.inCall t a byte ?_)
        rw [storedBy_of_calls hcall, storedAt_storing, if_pos (by omega), hbyte]
    · rw [storedBy_update_of_ne hu] at hbyte
      refine (hbefore a fun ha => ?_).trans (h.inCall u a byte hbyte)
      rw [hfree u hu a ha] at hbyte
      exact Option.some_ne_none byte hbyte.symm
  · intro a ha
    have hself := ha t
    rw [storedBy_update_self, Option.bind_some, storedAt_storing] at hself
    have hout : ¬ (offset ≤ a ∧ a < offset + (bytesWritten + len)) := fun hin => by
      rw [if_pos hin, List.getElem?_eq_none_iff] at hself
      omega
    refine (hbefore a (by omega)).trans (h.others a fun u => ?_)
    by_cases hu : u = t
    · rw [hu, storedBy_of_calls hcall, storedAt_storing, if_neg (by omega)]
    · rw [← ha u, storedBy_update_of_ne hu]

/-- A `write` returns, and leaves what it has stored. -/
theorem leave (h : s.Holds mem) {c : Call}
    (hcall : s.calls t = some (c, .storing offset data bytesWritten left))
    (hle : bytesWritten ≤ data.length) (returned : List Returned) :
    State.Holds ⟨s.chip, Function.update s.calls t none, returned⟩
      (stored mem offset (data.take bytesWritten)) := by
  have hlength : (data.take bytesWritten).length = bytesWritten := List.length_take_of_le hle
  constructor
  · intro u a byte hbyte
    by_cases hu : u = t
    · rw [hu, storedBy_update_self] at hbyte
      exact absurd hbyte.symm (Option.some_ne_none byte)
    · rw [storedBy_update_of_ne hu] at hbyte
      exact h.inCall u a byte hbyte
  · intro a ha
    by_cases hin : offset ≤ a ∧ a < offset + bytesWritten
    · rw [stored_of_mem (by rwa [hlength]), List.getElem_take]
      refine h.inCall t a _ ?_
      rw [storedBy_of_calls hcall]
      exact storedAt_storing_of_mem hin hle
    · rw [stored_of_not_mem (by rwa [hlength])]
      refine h.others a fun u => ?_
      by_cases hu : u = t
      · rw [hu, storedBy_of_calls hcall, storedAt_storing, if_neg hin]
      · rw [← ha u, storedBy_update_of_ne hu]

end State.Holds

/-! ### The invariant -/

/-- Every thread in a call is in one of its phases, the pointer of the chip is where a `read`
that has sent its address needs it, and the calls that have returned came one after another. -/
structure Inv (mem : ℕ → UInt8) (s : State threads) : Prop where
  calls : ∀ t call, s.calls t = some call → call.1.WellFormed ∧ call.1.Reaches call.2
  pointing : ∀ t c offset nBytes, s.calls t = some (c, .reading offset nBytes) →
    s.chip.pointer = offset % size
  serial : ∃ mem', Serial mem s.returned mem' ∧ s.Holds mem'

theorem inv_start (threads : ℕ) (chip : Chip) : Inv chip.mem (start threads chip) where
  calls _ _ h := by cases h
  pointing _ _ _ _ h := by cases h
  serial := ⟨chip.mem, .nil, ⟨fun _ _ _ h => (Option.some_ne_none _ h.symm).elim, fun _ _ => rfl⟩⟩

/-- No other thread than `t` is between the two transfers of a `read`, or the pointer stays. -/
def State.KeepsPointer (s : State threads) (t : Fin threads) (chip : Chip) : Prop :=
  ∀ u ≠ t, ∀ c offset nBytes, s.calls u = some (c, .reading offset nBytes) →
    chip.pointer = s.chip.pointer

namespace Inv

variable {mem : ℕ → UInt8} {s : State threads} {t : Fin threads} {c : Call} {chip : Chip}

/-- A thread stays in its call. -/
theorem inCall (h : Inv mem s) (hwf : c.WellFormed) {phase : Phase} (hphase : c.Reaches phase)
    (hkeeps : s.KeepsPointer t chip)
    (hpointer : ∀ offset nBytes, phase = .reading offset nBytes → chip.pointer = offset % size)
    (hholds : ∀ mem', s.Holds mem' →
      State.Holds ⟨chip, Function.update s.calls t (some (c, phase)), s.returned⟩ mem') :
    Inv mem (⟨chip, Function.update s.calls t (some (c, phase)), s.returned⟩ : State threads) where
  calls u call hcall := by
    by_cases hu : u = t
    · rw [hu] at hcall
      obtain rfl := Option.some.inj ((Function.update_self t _ s.calls).symm.trans hcall)
      exact ⟨hwf, hphase⟩
    · exact h.calls u call ((Function.update_of_ne hu _ s.calls).symm.trans hcall)
  pointing u c' offset nBytes hcall := by
    by_cases hu : u = t
    · rw [hu] at hcall
      obtain heq := Option.some.inj ((Function.update_self t _ s.calls).symm.trans hcall)
      exact hpointer offset nBytes (congrArg Prod.snd heq)
    · have hcall' := (Function.update_of_ne hu _ s.calls).symm.trans hcall
      exact (hkeeps u hu c' offset nBytes hcall').trans (h.pointing u c' offset nBytes hcall')
  serial := by
    obtain ⟨mem', hserial, hmem'⟩ := h.serial
    exact ⟨mem', hserial, hholds mem' hmem'⟩

/-- A thread leaves its call. -/
theorem leave (h : Inv mem s) (hkeeps : s.KeepsPointer t chip) {r : Returned}
    (hholds : ∀ mem', s.Holds mem' → ∃ mem'', r.Explains mem' mem'' ∧
      State.Holds ⟨chip, Function.update s.calls t none, s.returned ++ [r]⟩ mem'') :
    Inv mem (⟨chip, Function.update s.calls t none, s.returned ++ [r]⟩ : State threads) where
  calls u call hcall := by
    by_cases hu : u = t
    · rw [hu] at hcall
      exact absurd ((Function.update_self t _ s.calls).symm.trans hcall).symm
        (Option.some_ne_none call)
    · exact h.calls u call ((Function.update_of_ne hu _ s.calls).symm.trans hcall)
  pointing u c' offset nBytes hcall := by
    by_cases hu : u = t
    · rw [hu] at hcall
      exact absurd ((Function.update_self t _ s.calls).symm.trans hcall).symm
        (Option.some_ne_none _)
    · have hcall' := (Function.update_of_ne hu _ s.calls).symm.trans hcall
      exact (hkeeps u hu c' offset nBytes hcall').trans (h.pointing u c' offset nBytes hcall')
  serial := by
    obtain ⟨mem', hserial, hmem'⟩ := h.serial
    obtain ⟨mem'', hr, hmem''⟩ := hholds mem' hmem'
    exact ⟨mem'', .concat hserial hr, hmem''⟩

end Inv

/-- A `read` stores nothing. -/
theorem Returned.explains_read {offset nBytes : ℕ} {ret : ℤ} {bytes : List UInt8}
    {mem : ℕ → UInt8}
    (h : ret = nBytes → bytes = (List.range nBytes).map fun i => mem (offset + i)) :
    Returned.Explains ⟨.read offset nBytes, ret, bytes⟩ mem mem := ⟨rfl, h⟩

/-- A `write` that has not succeeded has stored a first part. -/
theorem Returned.explains_write_take {offset : ℕ} {data : List UInt8} {ret : ℤ}
    {bytes : List UInt8} {mem : ℕ → UInt8} (n : ℕ) (h : ret ≠ data.length) :
    Returned.Explains ⟨.write offset data, ret, bytes⟩ mem (stored mem offset (data.take n)) :=
  Or.inr ⟨h, n, rfl⟩

theorem Returned.explains_write {offset : ℕ} {data : List UInt8} {bytes : List UInt8}
    {mem : ℕ → UInt8} :
    Returned.Explains ⟨.write offset data, data.length, bytes⟩ mem (stored mem offset data) :=
  Or.inl ⟨rfl, rfl⟩

theorem keepsPointer_same (s : State threads) (t : Fin threads) : s.KeepsPointer t s.chip :=
  fun _ _ _ _ _ _ => rfl

/-- A transfer that disturbs nobody does not come between those of another `read`. -/
theorem keepsPointer_of_undisturbing {s : State threads} {t : Fin threads} {call : Call × Phase}
    {results : List ℤ} (h : Undisturbing s (.transfer t (.acknowledged results)))
    (hcall : s.calls t = some call) (chip : Chip) : s.KeepsPointer t chip :=
  fun u hu c offset nBytes hread => (h call hcall u hu (c, .reading offset nBytes) hread).elim

theorem length_packetAt (data : List UInt8) (bytesWritten : ℕ) :
    (packetAt data bytesWritten).length = min pageSize (data.length - bytesWritten) := by
  rw [packetAt, List.length_take, List.length_drop, Nat.min_assoc, Nat.min_self]

/-- What a transfer touches that disturbs nobody, no other call has stored. -/
theorem storedBy_eq_none_of_undisturbing {s : State threads} {t : Fin threads}
    {call : Call × Phase} {results : List ℤ} {mem : ℕ → UInt8} (hinv : Inv mem s)
    (h : Undisturbing s (.transfer t (.acknowledged results))) (hcall : s.calls t = some call)
    {u : Fin threads} (hu : u ≠ t) {a : ℕ} (ha : a ∈ call.2.touches) : s.storedBy u a = none := by
  rcases hcall' : s.calls u with _ | ⟨c, phase⟩
  · rw [State.storedBy, hcall', Option.bind_none]
  · rw [storedBy_of_calls hcall']
    have hreach := (hinv.calls u _ hcall').2
    have hund := h call hcall u hu _ hcall'
    cases hreach with
    | addressing => rfl
    | reading => rfl
    | storing hlt hpage =>
      rename_i offset data bytesWritten left
      rcases Nat.eq_zero_or_pos bytesWritten with rfl | hpos
      · exact storedAt_storing_zero offset data left a
      · have := hund hpos a ha
        rw [storedAt_storing, if_neg (by omega)]

namespace Inv

variable {mem : ℕ → UInt8} {s : State threads} {t : Fin threads}

/-- A call begins. -/
theorem call (h : Inv mem s) {c : Call} (hnone : s.calls t = none) (hwf : c.WellFormed) :
    Inv mem (s.settle t c c.start) := by
  have hstored : ∀ a, s.storedBy t a = none := fun a => by
    rw [State.storedBy, hnone, Option.bind_none]
  cases c with
  | read offset nBytes =>
    exact h.inCall hwf .addressing (keepsPointer_same s t) (fun _ _ hphase => by cases hphase)
      fun mem' hmem' => hmem'.goOn rfl hstored (fun _ => rfl) _
  | write offset data =>
    show Inv mem (s.settle t _ (Phase.storingFrom offset data 0))
    rw [Phase.storingFrom]
    split
    · rename_i hlt
      exact h.inCall hwf (.storing hlt ⟨0, rfl⟩) (keepsPointer_same s t)
        (fun _ _ hphase => by cases hphase)
        fun mem' hmem' => hmem'.goOn rfl hstored (storedAt_storing_zero offset data _) _
    · rename_i hempty
      obtain rfl : data = [] := List.eq_nil_of_length_eq_zero (by omega)
      refine h.leave (keepsPointer_same s t) fun mem' hmem' =>
        ⟨stored mem' offset [], Returned.explains_write, ?_⟩
      rw [stored_nil]
      exact hmem'.quit rfl hstored _

/-- A `read` that sends its address. -/
theorem addressing (h : Inv mem s) {c : Call} {offset nBytes left : ℕ}
    (hcall : s.calls t = some (c, .addressing offset nBytes left)) (bus : Bus)
    (hund : Undisturbing s (.transfer t bus)) :
    Inv mem (State.settle { s with chip := (s.chip.transfer (.write (addressBytes offset)) bus).2 }
      t c ((Phase.addressing offset nBytes left).next
        (s.chip.transfer (.write (addressBytes offset)) bus).1)) := by
  obtain ⟨hwf, hreach⟩ := h.calls t _ hcall
  have hstored : ∀ a, s.storedBy t a = none := fun a => storedBy_of_calls hcall a
  cases hreach
  cases bus with
  | error =>
    show Inv mem (s.settle t _ (if left = 0 then .returned (-1) [] else _))
    split
    · exact h.leave (keepsPointer_same s t) fun mem' hmem' =>
        ⟨mem', Returned.explains_read (fun hret => absurd hret (by omega)),
          hmem'.quit rfl hstored _⟩
    · exact h.inCall hwf .addressing (keepsPointer_same s t) (fun _ _ hphase => by cases hphase)
        fun mem' hmem' => hmem'.goOn rfl hstored (fun _ => rfl) _
  | acknowledged results =>
    have hrange : offset + nBytes ≤ size := hwf
    have hchip := s.chip.write_addressBytes (show offset ≤ size by omega)
    have hmem : (s.chip.write (addressBytes offset)).mem = s.chip.mem := by rw [hchip]
    show Inv mem (State.settle { s with chip := s.chip.write (addressBytes offset) } t _
      (.reading offset nBytes))
    refine h.inCall hwf .reading (keepsPointer_of_undisturbing hund hcall _)
      (fun offset' nBytes' hphase => ?_)
      fun mem' hmem' => hmem'.goOn hmem hstored (fun _ => rfl) _
    injection hphase with hoffset
    rw [hchip, hoffset]

/-- A `read` that fetches its data. -/
theorem reading (h : Inv mem s) {c : Call} {offset nBytes : ℕ}
    (hcall : s.calls t = some (c, .reading offset nBytes)) (bus : Bus)
    (hund : Undisturbing s (.transfer t bus)) :
    Inv mem (State.settle { s with chip := (s.chip.transfer (.read nBytes) bus).2 } t c
      ((Phase.reading offset nBytes).next (s.chip.transfer (.read nBytes) bus).1)) := by
  obtain ⟨hwf, hreach⟩ := h.calls t _ hcall
  have hstored : ∀ a, s.storedBy t a = none := fun a => storedBy_of_calls hcall a
  have hpointer := h.pointing t c offset nBytes hcall
  cases hreach
  cases bus with
  | error =>
    have hne : ¬ ((-1 : ℤ) = nBytes) := by omega
    show Inv mem (s.settle t _
      (if (-1 : ℤ) = nBytes then .returned nBytes [] else .returned (-1) []))
    rw [if_neg hne]
    exact h.leave (keepsPointer_same s t) fun mem' hmem' =>
      ⟨mem', Returned.explains_read fun hret => absurd hret hne,
        hmem'.quit rfl hstored _⟩
  | acknowledged results =>
    have hkeeps := keepsPointer_of_undisturbing hund hcall
      (s.chip.readLoop nBytes [] results).2
    have hmem := s.chip.readLoop_mem results nBytes []
    show Inv mem (State.settle { s with chip := (s.chip.readLoop nBytes [] results).2 } t _
      (if (s.chip.readLoop nBytes [] results).1.ret = nBytes then _ else _))
    split
    · rename_i hret
      refine h.leave hkeeps fun mem' hmem' => ⟨mem', Returned.explains_read fun _ => ?_,
        hmem'.quit hmem hstored _⟩
      refine (Chip.read_bytes hwf hpointer hret).trans ?_
      -- nothing in the range is in the hands of a `write` that is under way
      refine List.map_congr_left fun i hi => hmem'.others _ fun u => ?_
      by_cases hu : u = t
      · rw [hu, hstored]
      · refine storedBy_eq_none_of_undisturbing h hund hcall hu ?_
        exact List.mem_range'_1.mpr (by have := List.mem_range.mp hi; omega)
    · exact h.leave hkeeps fun mem' hmem' =>
        ⟨mem', Returned.explains_read fun hret => absurd hret (by omega),
          hmem'.quit hmem hstored _⟩

/-- A `write` that stores its next packet. -/
theorem storing (h : Inv mem s) {c : Call} {offset : ℕ} {data : List UInt8}
    {bytesWritten left : ℕ} (hcall : s.calls t = some (c, .storing offset data bytesWritten left))
    (bus : Bus) (hund : Undisturbing s (.transfer t bus)) :
    Inv mem (State.settle { s with
        chip := (s.chip.transfer
          (.write (addressBytes (offset + bytesWritten) ++ packetAt data bytesWritten)) bus).2 } t c
      ((Phase.storing offset data bytesWritten left).next (s.chip.transfer
        (.write (addressBytes (offset + bytesWritten) ++ packetAt data bytesWritten)) bus).1)) := by
  obtain ⟨hwf, hreach⟩ := h.calls t _ hcall
  cases hreach with
  | storing hlt hpage =>
    have hwf' : offset + data.length ≤ size ∧ pageSize ∣ offset := hwf
    obtain ⟨hrange, haligned⟩ := hwf'
    cases bus with
    | error =>
      show Inv mem (s.settle t _ (if left = 0 then .returned (-1) [] else _))
      split
      · exact h.leave (keepsPointer_same s t) fun mem' hmem' =>
          ⟨_, Returned.explains_write_take bytesWritten (by omega),
            hmem'.leave hcall (Nat.le_of_lt hlt) _⟩
      · refine h.inCall hwf (.storing hlt hpage) (keepsPointer_same s t)
          (fun _ _ hphase => by cases hphase) fun mem' hmem' => hmem'.congr rfl fun u a => ?_
        by_cases hu : u = t
        · rw [hu, storedBy_update_self, storedBy_of_calls hcall]
          rfl
        · exact storedBy_update_of_ne hu _ _ _ _
    | acknowledged results =>
      have hkeeps := keepsPointer_of_undisturbing hund hcall (s.chip.write
        (addressBytes (offset + bytesWritten) ++ packetAt data bytesWritten))
      have hlength := length_packetAt data bytesWritten
      have hmem : (s.chip.write (addressBytes (offset + bytesWritten)
          ++ packetAt data bytesWritten)).mem
            = stored s.chip.mem (offset + bytesWritten) (packetAt data bytesWritten) :=
        s.chip.write_packet_mem (by omega) (by
          rw [Nat.mod_eq_zero_of_dvd (Nat.dvd_add haligned hpage)]
          omega)
      have hstore : ∀ mem', s.Holds mem' → ∀ left', State.Holds ⟨_, Function.update s.calls t
          (some (.write offset data, .storing offset data
            (bytesWritten + min pageSize (data.length - bytesWritten)) left')), s.returned⟩ mem' :=
        fun mem' hmem' left' => hmem'.store hcall (by omega) hmem (fun u hu a ha =>
          storedBy_eq_none_of_undisturbing h hund hcall hu
            (List.mem_range'_1.mpr (by omega))) s.returned
      have hret : (s.chip.transfer (.write (addressBytes (offset + bytesWritten)
          ++ packetAt data bytesWritten)) (.acknowledged results)).1.ret
          = (packetAt data bytesWritten).length + 2 := by
        have hsent : (addressBytes (offset + bytesWritten) ++ packetAt data bytesWritten).length
            = (packetAt data bytesWritten).length + 2 :=
          List.length_append.trans (Nat.add_comm 2 _)
        exact congrArg Int.ofNat hsent
      rw [Phase.next, if_neg (by omega), if_pos hret, Phase.storingFrom]
      split
      · rename_i hlt'
        refine h.inCall hwf (.storing hlt' (Nat.dvd_add hpage ?_)) hkeeps
          (fun _ _ hphase => by cases hphase) fun mem' hmem' => hstore mem' hmem' _
        -- more is to be stored, so that this packet was a whole page
        have hwhole : min pageSize (data.length - bytesWritten) = pageSize := by omega
        exact ⟨1, by omega⟩
      · rename_i hdone
        refine h.leave hkeeps fun mem' hmem' =>
          ⟨_, Returned.explains_write, ?_⟩
        have hleave := (hstore mem' hmem' 0).leave (t := t) (Function.update_self _ _ _) (by omega)
          (s.returned ++ [⟨.write offset data, data.length, []⟩])
        rwa [Function.update_idem, List.take_of_length_le (by omega)] at hleave

/-- **A step that disturbs nobody keeps the invariant.** -/
theorem step (h : Inv mem s) {l : Label threads} {s' : State threads} (hund : Undisturbing s l)
    (hstep : Eeprom.step s l = some s') : Inv mem s' := by
  cases l with
  | call t c =>
    obtain ⟨⟨hnone, hwf⟩, hs'⟩ := Option.ite_none_right_eq_some.mp hstep
    obtain rfl := Option.some.inj hs'
    exact h.call hnone hwf
  | transfer t bus =>
    obtain ⟨⟨c, phase⟩, hcall, hrest⟩ := Option.bind_eq_some_iff.mp hstep
    obtain ⟨e, he, hs'⟩ := Option.bind_eq_some_iff.mp hrest
    obtain rfl := Option.some.inj hs'
    cases phase with
    | addressing offset nBytes left =>
      obtain rfl := Option.some.inj he
      exact h.addressing hcall bus hund
    | reading offset nBytes =>
      obtain rfl := Option.some.inj he
      exact h.reading hcall bus hund
    | storing offset data bytesWritten left =>
      obtain rfl := Option.some.inj he
      exact h.storing hcall bus hund
    | returned ret bytes => cases he

end Inv

/-- **Undisturbed calls are serializable.**  In every run of the threads none of whose
transfers comes between those of another call in a way that matters to it, the calls that have
returned come to a serial order of them. -/
theorem serializable_of_undisturbed (threads : ℕ) (chip : Chip) (ls : List (Label threads))
    (h : Along step Undisturbing (start threads chip) ls) :
    Throughout step (Serializable chip.mem) (start threads chip) ls :=
  (throughout_of_along (fun _ _ _ hinv hund hstep => Inv.step hinv hund hstep)
    (inv_start threads chip) h).mono
    fun s hinv => by
      obtain ⟨mem', hserial, hmem'⟩ := hinv.serial
      exact ⟨s.returned, List.Perm.refl _, mem', hserial, hmem'⟩

instance (other : Phase) : (phase : Phase) → Decidable (other.Undisturbed phase)
  | .addressing _ _ _ => isTrue trivial
  | .reading _ _ => isFalse id
  | .storing offset data bytesWritten _ => inferInstanceAs (Decidable (0 < bytesWritten →
      ∀ a ∈ other.touches, ¬ (offset ≤ a ∧ a < offset + data.length)))
  | .returned _ _ => isTrue trivial

instance (s : State threads) : (l : Label threads) → Decidable (Undisturbing s l)
  | .call _ _ => isTrue trivial
  | .transfer _ .error => isTrue trivial
  | .transfer t (.acknowledged _) =>
    decidable_of_iff (((s.calls t).all fun call => (List.finRange threads).all fun u =>
        decide (u = t) ||
          (s.calls u).all fun call' => decide (call.2.Undisturbed call'.2)) = true) <| by
      simp only [Undisturbing, Option.all_eq_true, List.all_eq_true, List.mem_finRange,
        Bool.or_eq_true, decide_eq_true_eq, forall_true_left, Option.mem_def, or_iff_not_imp_left]

/-- A chip whose bytes are their own addresses. -/
def countingChip : Chip := ⟨fun a => UInt8.ofNat a, 0⟩

/-- Two pages are written by thread 0, with the chip busy in between, and thread 1 reads behind
them. -/
def undisturbedRun : List (Label 2) :=
  [.call 0 (.write 0 (List.replicate 40 7)), .transfer 0 (.acknowledged []), .call 1 (.read 64 4),
    .transfer 1 .error, .transfer 1 (.acknowledged []), .transfer 0 .error,
    .transfer 1 (.acknowledged [3, 1]), .transfer 0 (.acknowledged [])]

theorem serializable_of_undisturbed_pages :
    Throughout step (Serializable countingChip.mem) (start 2 countingChip) undisturbedRun :=
  serializable_of_undisturbed 2 countingChip undisturbedRun (by decide +kernel)

theorem serial_nil_iff {mem mem' : ℕ → UInt8} : Serial mem [] mem' ↔ mem' = mem := by
  constructor
  · generalize hrs : ([] : List Returned) = rs
    intro h
    cases h with
    | nil => rfl
    | concat _ _ =>
      exact absurd hrs.symm (List.append_ne_nil_of_right_ne_nil _ (List.cons_ne_nil _ []))
  · rintro rfl
    exact .nil

theorem serial_concat_iff {mem mem'' : ℕ → UInt8} {rs : List Returned} {r : Returned} :
    Serial mem (rs ++ [r]) mem'' ↔ ∃ mem', Serial mem rs mem' ∧ r.Explains mem' mem'' := by
  constructor
  · generalize hrs : rs ++ [r] = rs'
    intro h
    cases h with
    | nil => exact absurd hrs (List.append_ne_nil_of_right_ne_nil rs (List.cons_ne_nil r []))
    | concat h hr =>
      obtain ⟨rfl, hlast⟩ := List.append_inj' hrs rfl
      obtain rfl := List.singleton_inj.mp hlast
      exact ⟨_, h, hr⟩
  · rintro ⟨mem', h, hr⟩
    exact .concat h hr

/-- Two calls of `read`, the address of the second one between the transfers of the first. -/
def disturbedRun : List (Label 2) :=
  [.call 0 (.read 0x100 1), .call 1 (.read 0x220 1), .transfer 0 (.acknowledged []),
    .transfer 1 (.acknowledged []), .transfer 0 (.acknowledged [1])]

theorem returned_disturbedRun :
    (run step (start 2 countingChip) disturbedRun).map State.returned
      = some [⟨.read 0x100 1, 1, [0x20]⟩] := rfl

/-- The first `read` gets the byte of the second one. -/
theorem not_serializable_disturbedRun :
    ¬ Throughout step (Serializable countingChip.mem) (start 2 countingChip) disturbedRun := by
  intro h
  obtain ⟨s, hrun, hreturned⟩ := Option.map_eq_some_iff.mp returned_disturbedRun
  obtain ⟨order, hperm, mem', hserial, -⟩ := h.last hrun
  rw [hreturned, List.perm_singleton] at hperm
  rw [hperm] at hserial
  obtain ⟨mem'', hnil, hr⟩ := serial_concat_iff.mp (show Serial _ ([] ++ [_]) _ from hserial)
  rw [serial_nil_iff.mp hnil] at hr
  exact absurd (hr.2 rfl) (by decide)

theorem not_serializable :
    ¬ ∀ (threads : ℕ) (chip : Chip) (ls : List (Label threads)),
      Throughout step (Serializable chip.mem) (start threads chip) ls :=
  fun h => not_serializable_disturbedRun (h 2 countingChip disturbedRun)

end Eeprom
end KoheronSdk
