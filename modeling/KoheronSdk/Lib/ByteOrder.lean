import Mathlib.Data.Nat.Basic
import Mathlib.Data.List.Basic
import Mathlib.Tactic.Ring

/-!
# Fixed-width numbers as bytes

A number below `256 ^ w` is `w` bytes, and the two orders in which a program can
lay them down are the big-endian one (most significant byte first) and its
reverse.  Everything is proved for the big-endian order; the little-endian
statements are the same statements read backwards.

The numbers are natural ones, with the width as an argument.  A program has one
function for each of its types, with shifts, masks or unions of bytes; each of them
is shown to be `be` or `le` at its width, and the round trips need not be done again.
What does not fit in `w` bytes is dropped, as it is by a conversion to a narrower type.
A negative number is sent by its low bytes (`beInt`), which are those of its residue, so
that a reader who takes them for an unsigned number can restore the sign.

* `be w n`, `ofBe`: the `w` big-endian bytes of `n`, and the number some bytes
  spell, with the round trips `ofBe_be` and `be_ofBe`.
* `beInt w value`: the `w` low bytes of an integer.
* `le w n`, `ofLe`: the same for the little-endian order.
-/

namespace ByteOrder

/-! ## Big-endian -/

/-- The `w` big-endian bytes of `n`; what does not fit in `w` bytes is dropped. -/
def be : ℕ → ℕ → List UInt8
  | 0, _ => []
  | w + 1, n => UInt8.ofNat (n / 256 ^ w) :: be w n

/-- The number with the given big-endian bytes. -/
def ofBe : List UInt8 → ℕ
  | [] => 0
  | b :: bs => b.toNat * 256 ^ bs.length + ofBe bs

@[simp] theorem be_zero (n : ℕ) : be 0 n = [] := rfl

theorem be_succ (w n : ℕ) : be (w + 1) n = UInt8.ofNat (n / 256 ^ w) :: be w n := rfl

/-- A byte by itself. -/
theorem be_one (v : UInt8) : be 1 v.toNat = [v] := by
  simp [be_succ]

@[simp] theorem ofBe_nil : ofBe [] = 0 := rfl

theorem ofBe_cons (b : UInt8) (bs : List UInt8) :
    ofBe (b :: bs) = b.toNat * 256 ^ bs.length + ofBe bs := rfl

@[simp] theorem length_be (w n : ℕ) : (be w n).length = w := by
  induction w with
  | zero => rfl
  | succ w ih => rw [be_succ, List.length_cons, ih]

theorem ofBe_lt (bs : List UInt8) : ofBe bs < 256 ^ bs.length := by
  induction bs with
  | nil => simp
  | cons b bs ih =>
    have hb : b.toNat + 1 ≤ 256 := b.toNat_lt
    calc ofBe (b :: bs) < b.toNat * 256 ^ bs.length + 256 ^ bs.length := by
          rw [ofBe_cons]; omega
      _ = (b.toNat + 1) * 256 ^ bs.length := by ring
      _ ≤ 256 * 256 ^ bs.length := Nat.mul_le_mul_right _ hb
      _ = 256 ^ (b :: bs).length := by rw [List.length_cons, pow_succ, Nat.mul_comm]

/-- Writing a number and reading it back loses what does not fit. -/
theorem ofBe_be (w n : ℕ) : ofBe (be w n) = n % 256 ^ w := by
  induction w with
  | zero => simp [Nat.mod_one]
  | succ w ih =>
    have hb : (UInt8.ofNat (n / 256 ^ w)).toNat = n / 256 ^ w % 256 := by simp
    rw [be_succ, ofBe_cons, length_be, ih, hb, pow_succ, Nat.mod_mul]
    ring

theorem ofBe_be_of_lt {w n : ℕ} (h : n < 256 ^ w) : ofBe (be w n) = n := by
  rw [ofBe_be, Nat.mod_eq_of_lt h]

/-- Only the number modulo `256 ^ w` is written. -/
theorem be_add_mul (w n k : ℕ) : be w (n + 256 ^ w * k) = be w n := by
  induction w generalizing k with
  | zero => rfl
  | succ w ih =>
    have hsplit : n + 256 ^ (w + 1) * k = n + 256 ^ w * (256 * k) := by ring
    have hpos : 0 < 256 ^ w := Nat.pow_pos (by decide)
    rw [be_succ, be_succ, hsplit, ih (256 * k), Nat.add_mul_div_left _ _ hpos]
    congr 1
    apply UInt8.toNat_inj.mp
    simp

/-- Reading bytes and writing them back changes nothing. -/
theorem be_ofBe (bs : List UInt8) : be bs.length (ofBe bs) = bs := by
  induction bs with
  | nil => rfl
  | cons b bs ih =>
    have hpos : 0 < 256 ^ bs.length := Nat.pow_pos (by decide)
    have hdiv : (b.toNat * 256 ^ bs.length + ofBe bs) / 256 ^ bs.length = b.toNat := by
      rw [Nat.mul_comm, Nat.mul_add_div hpos, Nat.div_eq_of_lt (ofBe_lt bs), Nat.add_zero]
    rw [List.length_cons, be_succ, ofBe_cons, hdiv, UInt8.ofNat_toNat]
    congr 1
    rw [Nat.add_comm, Nat.mul_comm, be_add_mul, ih]

/-! ## Integers -/

/-- The `w` low bytes of an integer, taken out with `(value >> (8 * i)) & 0xff`. -/
def beInt (w : ℕ) (value : ℤ) : List UInt8 :=
  (List.range w).reverse.map fun i : ℕ => UInt8.ofNat (value >>> (8 * i) % 256).toNat

theorem beInt_succ (w : ℕ) (value : ℤ) :
    beInt (w + 1) value = UInt8.ofNat (value >>> (8 * w) % 256).toNat :: beInt w value := by
  rw [beInt, List.range_succ, List.reverse_append, List.reverse_singleton,
    List.singleton_append, List.map_cons]
  rfl

/-- The bytes of an integer are those of its remainder. -/
theorem beInt_eq {value : ℤ} {n w : ℕ} {k : ℤ} (h : value = n + 256 ^ w * k) :
    beInt w value = be w n := by
  induction w generalizing k with
  | zero => rfl
  | succ w ih =>
    have hsplit : value = n + 256 ^ w * (256 * k) := by rw [h]; ring
    have hpos : (256 ^ w : ℤ) ≠ 0 := pow_ne_zero w (by decide)
    have hpow : (2 : ℤ) ^ (8 * w) = 256 ^ w := by rw [pow_mul]; norm_num
    have hshift : value >>> (8 * w) % 256 = ((n / 256 ^ w % 256 : ℕ) : ℤ) := by
      rw [Int.shiftRight_eq_div_pow]
      push_cast
      rw [hpow, hsplit, Int.add_mul_ediv_left _ _ hpos, Int.add_mul_emod_self_left]
    rw [beInt_succ, be_succ, hshift, Int.toNat_natCast, ih hsplit]
    congr 1
    apply UInt8.toNat_inj.mp
    simp

theorem beInt_natCast (w n : ℕ) : beInt w (n : ℤ) = be w n :=
  beInt_eq (k := 0) (by rw [mul_zero, add_zero])

/-- Only the integer modulo `256 ^ w` is written. -/
theorem beInt_add_mul (w : ℕ) (value k : ℤ) : beInt w (value + 256 ^ w * k) = beInt w value := by
  obtain ⟨n, hn⟩ := Int.eq_ofNat_of_zero_le
    (Int.emod_nonneg value (pow_ne_zero w (by decide) : (256 ^ w : ℤ) ≠ 0))
  have hvalue : value = n + 256 ^ w * (value / 256 ^ w) := by
    rw [← hn, Int.emod_add_mul_ediv]
  have hsum : value + 256 ^ w * k = n + 256 ^ w * (value / 256 ^ w + k) := by
    rw [mul_add, ← add_assoc, ← hvalue]
  rw [beInt_eq hsum, beInt_eq hvalue]

/-- The bytes above and the bytes below. -/
theorem beInt_add (value : ℤ) (m w : ℕ) :
    beInt (m + w) value = beInt m (value >>> (8 * w)) ++ beInt w value := by
  induction m with
  | zero => rw [Nat.zero_add]; rfl
  | succ m ih =>
    have hshift : (value >>> (8 * w)) >>> (8 * m) = value >>> (8 * (m + w)) := by
      rw [← Int.shiftRight_add]
      congr 1
      omega
    rw [Nat.add_right_comm, beInt_succ, beInt_succ, List.cons_append, ih, hshift]

/-! ## Little-endian -/

/-- The `w` little-endian bytes of `n`. -/
def le (w n : ℕ) : List UInt8 := (be w n).reverse

/-- The number with the given little-endian bytes. -/
def ofLe (bs : List UInt8) : ℕ := ofBe bs.reverse

@[simp] theorem length_le (w n : ℕ) : (le w n).length = w := by
  rw [le, List.length_reverse, length_be]

theorem ofLe_le_of_lt {w n : ℕ} (h : n < 256 ^ w) : ofLe (le w n) = n := by
  rw [ofLe, le, List.reverse_reverse, ofBe_be_of_lt h]

end ByteOrder
