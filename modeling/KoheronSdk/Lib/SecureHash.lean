import Mathlib.Data.List.GetD
import KoheronSdk.Lib.ByteOrder

/-!
# SHA-1

The hash function of FIPS 180-1, on strings of bytes, written down as the standard has it.

A message is padded by a 1, zeros and its length in bits to whole blocks of 64 bytes.  Each block is
sixteen words, which the schedule extends to eighty; eighty turns mix them into five registers, and
what comes out is added to the registers before the block.

The schedule is the recurrence of the standard on an unbounded index, not the sixteen words that a
program keeps and overwrites, and the message is padded before it is hashed, where a program
receives it in pieces and pads at the end.  So nothing here is about how the hash is computed.  The
lemmas are the two that a computation needs: the schedule depends on the sixteen words of the block
only (`schedule_congr`), and the registers behind some blocks do not change when more bytes come
(`chain_append`).

* `schedule`: the 80 words of a block, by the recurrence of the standard.
* `compress`: a block.
* `pad`: a message that is padded to whole blocks.
* `sha1`: the hash of a message; `chain` is what its blocks come to, one after the other.
-/

namespace SecureHash

open ByteOrder

/-- `S^n(X)` -/
def rotl (n : ℕ) (x : UInt32) : UInt32 := UInt32.ofBitVec (x.toBitVec.rotateLeft n)

/-- Five words. -/
structure Registers where
  a : UInt32
  b : UInt32
  c : UInt32
  d : UInt32
  e : UInt32
  deriving DecidableEq

/-- `H0` to `H4` before the first block. -/
def initial : Registers := ⟨0x67452301, 0xefcdab89, 0x98badcfe, 0x10325476, 0xc3d2e1f0⟩

/-- `f(t;B,C,D)` -/
def choice (t : ℕ) (b c d : UInt32) : UInt32 :=
  if t < 20 then (b &&& c) ||| (~~~b &&& d)
  else if t < 40 then b ^^^ c ^^^ d
  else if t < 60 then (b &&& c) ||| (b &&& d) ||| (c &&& d)
  else b ^^^ c ^^^ d

/-- `K(t)` -/
def constant (t : ℕ) : UInt32 :=
  if t < 20 then 0x5a827999
  else if t < 40 then 0x6ed9eba1
  else if t < 60 then 0x8f1bbcdc
  else 0xca62c1d6

/-- The words of a block. -/
def wordOf (block : List UInt8) (i : ℕ) : UInt32 :=
  UInt32.ofNat (ofBe ((block.drop (4 * i)).take 4))

/-- `W(t)` -/
def schedule (word : ℕ → UInt32) (t : ℕ) : UInt32 :=
  if _h : t < 16 then word t
  else rotl 1 (schedule word (t - 3) ^^^ schedule word (t - 8) ^^^ schedule word (t - 14) ^^^
    schedule word (t - 16))

/-- One of the 80 turns. -/
def turn (word : UInt32) (t : ℕ) (r : Registers) : Registers where
  a := rotl 5 r.a + choice t r.b r.c r.d + r.e + word + constant t
  b := r.a
  c := rotl 30 r.b
  d := r.c
  e := r.d

/-- The first `n` turns. -/
def turns (word : ℕ → UInt32) : ℕ → Registers → Registers
  | 0, r => r
  | t + 1, r => turn (word t) t (turns word t r)

/-- The registers are added up. -/
def Registers.add (h r : Registers) : Registers :=
  ⟨h.a + r.a, h.b + r.b, h.c + r.c, h.d + r.d, h.e + r.e⟩

/-- One block. -/
def compress (h : Registers) (block : List UInt8) : Registers :=
  h.add (turns (schedule (wordOf block)) 80 h)

/-- The first `n` blocks of some bytes. -/
def chain (bytes : List UInt8) : ℕ → Registers
  | 0 => initial
  | n + 1 => compress (chain bytes n) ((bytes.drop (64 * n)).take 64)

/-- The zeros between the 1 and the length, which fill up a block. -/
def paddingZeros (len : ℕ) : ℕ := (119 - len % 64) % 64

/-- The padded message: a 1, some zeros, and the length in bits. -/
def pad (message : List UInt8) : List UInt8 :=
  message ++ [UInt8.ofNat 0x80] ++ List.replicate (paddingZeros message.length) (UInt8.ofNat 0) ++
    be 8 (8 * message.length)

/-- The registers as bytes. -/
def Registers.digest (h : Registers) : List UInt8 :=
  be 4 h.a.toNat ++ be 4 h.b.toNat ++ be 4 h.c.toNat ++ be 4 h.d.toNat ++ be 4 h.e.toNat

/-- **The hash of a message.** -/
def sha1 (message : List UInt8) : List UInt8 :=
  (chain (pad message) ((pad message).length / 64)).digest

/-! ## Blocks -/

theorem schedule_of_lt (word : ℕ → UInt32) {t : ℕ} (h : t < 16) : schedule word t = word t := by
  rw [schedule, dif_pos h]

theorem schedule_of_le (word : ℕ → UInt32) {t : ℕ} (h : 16 ≤ t) :
    schedule word t = rotl 1 (schedule word (t - 3) ^^^ schedule word (t - 8) ^^^
      schedule word (t - 14) ^^^ schedule word (t - 16)) := by
  rw [schedule, dif_neg (Nat.not_lt.mpr h)]

/-- Only 16 words are taken from a block. -/
theorem schedule_congr {word word' : ℕ → UInt32} (h : ∀ i < 16, word i = word' i) :
    schedule word = schedule word' := by
  funext t
  induction t using Nat.strong_induction_on with
  | _ t ih =>
    by_cases ht : t < 16
    · rw [schedule_of_lt word ht, schedule_of_lt word' ht, h t ht]
    · have hle : 16 ≤ t := Nat.not_lt.mp ht
      rw [schedule_of_le word hle, schedule_of_le word' hle, ih (t - 3) (by omega),
        ih (t - 8) (by omega), ih (t - 14) (by omega), ih (t - 16) (by omega)]

/-- What follows the blocks does not matter. -/
theorem chain_append {bytes : List UInt8} (more : List UInt8) {n : ℕ}
    (h : 64 * n ≤ bytes.length) : chain (bytes ++ more) n = chain bytes n := by
  induction n with
  | zero => rfl
  | succ n ih =>
    have hblock : ((bytes ++ more).drop (64 * n)).take 64 = (bytes.drop (64 * n)).take 64 := by
      rw [List.drop_append_of_le_length (by omega), List.take_append_of_le_length]
      rw [List.length_drop]
      omega
    rw [chain, chain, ih (by omega), hblock]

end SecureHash
