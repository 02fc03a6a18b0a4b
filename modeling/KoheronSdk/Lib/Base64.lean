import KoheronSdk.Lib.HttpText

/-!
# Base64

The encoding of RFC 4648, section 4, as the standard describes it.  Three bytes are a number of 24
bits, which is written with four letters of six bits each.  One or two bytes that are left at the
end are filled up with zeros to a whole group; only the letters that have something of them are
written, and `=` stands for each of the others, so that the length of the text is a multiple of 4.

The definitions are by numbers, `a * 2^16 + b * 2^8 + c` and its quotients by powers of 64.  A
program shifts and masks bytes instead, and goes through its input with indices; that it computes
the same is for whoever uses this as a specification.  The recursion of `encode` is by groups, so
that `encode.induct` has one case for each of the four endings of a program's loop: nothing left,
one byte, two bytes, a whole group.

* `letter`, `letters`: the alphabet, and the letters of one group.
* `encode`: the encoding.
* `idxOf_letter`: the letters are all different, which is what a decoder rests on.
* `length_encode`: the length of the text.
-/

namespace Base64

open HttpText

/-- The alphabet. -/
def alphabet : List UInt8 :=
  ascii "ABCDEFGHIJKLMNOPQRSTUVWXYZabcdefghijklmnopqrstuvwxyz0123456789+/"

/-- `=` -/
def filler : UInt8 := UInt8.ofNat 61

/-- The letter for six bits. -/
def letter (n : ℕ) : UInt8 := alphabet.getD n filler

/-- Three bytes as one number. -/
def group (a b c : UInt8) : ℕ := a.toNat * 2 ^ 16 + b.toNat * 2 ^ 8 + c.toNat

/-- The six bits with the number `k`, from the left. -/
def sextet (n k : ℕ) : ℕ := n / 2 ^ (18 - 6 * k) % 64

/-- The first `k` letters of a group. -/
def letters (n k : ℕ) : List UInt8 := (List.range k).map fun i => letter (sextet n i)

/-- **The encoding.** -/
def encode : List UInt8 → List UInt8
  | [] => []
  | [a] => letters (group a (UInt8.ofNat 0) (UInt8.ofNat 0)) 2 ++ [filler, filler]
  | [a, b] => letters (group a b (UInt8.ofNat 0)) 3 ++ [filler]
  | a :: b :: c :: rest => letters (group a b c) 4 ++ encode rest

theorem sextet_lt (n k : ℕ) : sextet n k < 64 := Nat.mod_lt _ (by decide)

/-- The letters are all different. -/
theorem idxOf_letter : ∀ n < 64, alphabet.idxOf (letter n) = n := by decide +kernel

theorem letter_mem : ∀ n < 64, letter n ∈ alphabet := by decide +kernel

theorem length_letters (n k : ℕ) : (letters n k).length = k := by
  rw [letters, List.length_map, List.length_range]

/-- Every group is four letters, the last one with its fillers. -/
theorem length_encode (bytes : List UInt8) :
    (encode bytes).length = 4 * ((bytes.length + 2) / 3) := by
  induction bytes using encode.induct with
  | case1 => rfl
  | case2 a => simp [encode, length_letters]
  | case3 a b => simp [encode, length_letters]
  | case4 a b c rest ih =>
    rw [encode, List.length_append, length_letters, ih]
    simp only [List.length_cons]
    omega

end Base64
