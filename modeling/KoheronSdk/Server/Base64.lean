import Mathlib.Data.List.TakeWhile
import KoheronSdk.Lib.Base64

/-!
# Base64 in the server

`base64_encode` and `base64_decode` of `base64.cpp`.  Both collect bytes in a small array, which
they convert when it is full, and what is left of it at the end.

The loops are translated with the array as a list that grows to three or four bytes, and the code
behind a loop, which fills the array up with zeros and converts it once more, is a definition of its
own.  An encoder state is therefore what has been written and what is still in the array, and
`encodeRest_encodeLoop` is an induction over the input in which the two are at hand: the loop has
encoded what it has converted, and the rest is encoded behind it.

The conversions between three bytes and four times six bits are shifts and masks on bytes, whose
intermediate results wrap around at 256.  They are compared with the quotients of `Lib/Base64` on
numbers (`charArray4_eq`, `charArray3_eq`).

The decoder ends at the first character that is not of the alphabet.  It counts the characters that
are left in an `unsigned int`; the texts here are lists, which is the same up to 2^32 of them.

* `base64Encode_eq`: the encoder is the one of RFC 4648.
* `base64Decode_base64Encode`: the decoder undoes it.
-/

namespace KoheronSdk

open Base64

/-! ## The code -/

/-- `base64_chars` -/
def base64Chars : List UInt8 := alphabet

/-- `is_base64(c)` -/
def isBase64 (c : UInt8) : Bool :=
  (48 ≤ c && c ≤ 57 || 65 ≤ c && c ≤ 90 || 97 ≤ c && c ≤ 122) || (c == 43 || c == 47)

/-- `char_array_4` from `char_array_3` -/
def charArray4 (charArray3 : List UInt8) : List UInt8 :=
  let a := charArray3.getD 0 (UInt8.ofNat 0)
  let b := charArray3.getD 1 (UInt8.ofNat 0)
  let c := charArray3.getD 2 (UInt8.ofNat 0)
  [(a &&& 0xfc) >>> 2, ((a &&& 0x03) <<< 4) + ((b &&& 0xf0) >>> 4),
    ((b &&& 0x0f) <<< 2) + ((c &&& 0xc0) >>> 6), c &&& 0x3f]

/-- `base64_chars[x]` -/
def base64Char (x : UInt8) : UInt8 := base64Chars.getD x.toNat (UInt8.ofNat 0)

/-- The loop of `base64_encode`: the first `i` bytes of `char_array_3`, and `ret`. -/
def encodeLoop : List UInt8 → List UInt8 → List UInt8 → List UInt8 × List UInt8
  | [], charArray3, ret => (charArray3, ret)
  | x :: bytesToEncode, charArray3, ret =>
    let charArray3 := charArray3 ++ [x]
    if charArray3.length = 3 then
      encodeLoop bytesToEncode [] (ret ++ (charArray4 charArray3).map base64Char)
    else encodeLoop bytesToEncode charArray3 ret

/-- `base64_encode` behind its loop. -/
def encodeRest : List UInt8 × List UInt8 → List UInt8 := fun (charArray3, ret) =>
  let i := charArray3.length
  if i ≠ 0 then
    let charArray3 := charArray3 ++ List.replicate (3 - i) (UInt8.ofNat 0)
    ret ++ ((charArray4 charArray3).take (i + 1)).map base64Char ++ List.replicate (3 - i) filler
  else ret

/-- `base64_encode` -/
def base64Encode (bytesToEncode : List UInt8) : List UInt8 :=
  encodeRest (encodeLoop bytesToEncode [] [])

/-- `base64_chars.find(c)`, as an `unsigned char`: `npos` becomes 255. -/
def base64Find (c : UInt8) : UInt8 :=
  if c ∈ base64Chars then UInt8.ofNat (base64Chars.idxOf c) else UInt8.ofNat 255

/-- `char_array_3` from `char_array_4` -/
def charArray3 (charArray4 : List UInt8) : List UInt8 :=
  let a := charArray4.getD 0 (UInt8.ofNat 0)
  let b := charArray4.getD 1 (UInt8.ofNat 0)
  let c := charArray4.getD 2 (UInt8.ofNat 0)
  let d := charArray4.getD 3 (UInt8.ofNat 0)
  [(a <<< 2) + ((b &&& 0x30) >>> 4), ((b &&& 0xf) <<< 4) + ((c &&& 0x3c) >>> 2),
    ((c &&& 0x3) <<< 6) + d]

/-- The loop of `base64_decode`: the first `i` bytes of `char_array_4`, and `ret`. -/
def decodeLoop : List UInt8 → List UInt8 → List UInt8 → List UInt8 × List UInt8
  | [], charArray4, ret => (charArray4, ret)
  | x :: encodedString, charArray4, ret =>
    if x ≠ filler ∧ isBase64 x = true then
      let charArray4 := charArray4 ++ [x]
      if charArray4.length = 4 then
        decodeLoop encodedString [] (ret ++ charArray3 (charArray4.map base64Find))
      else decodeLoop encodedString charArray4 ret
    else (charArray4, ret)

/-- `base64_decode` behind its loop. -/
def decodeRest : List UInt8 × List UInt8 → List UInt8 := fun (charArray4, ret) =>
  let i := charArray4.length
  if i ≠ 0 then
    let charArray4 := charArray4 ++ List.replicate (4 - i) (UInt8.ofNat 0)
    ret ++ (charArray3 (charArray4.map base64Find)).take (i - 1)
  else ret

/-- `base64_decode` -/
def base64Decode (encodedString : List UInt8) : List UInt8 :=
  decodeRest (decodeLoop encodedString [] [])

/-! ## Six bits and eight bits -/

section Bits

/-- What holds of all numbers below 256 holds of all bytes. -/
theorem forall_byte {P : UInt8 → Prop} (h : ∀ n < 256, P (UInt8.ofNat n)) (x : UInt8) : P x := by
  have hx := h x.toNat x.toNat_lt
  rwa [UInt8.ofNat_toNat] at hx

/-- The fields of a byte, as the masks and shifts of the encoder take them. -/
theorem encoder_fields (x : UInt8) :
    ((x &&& 0xfc) >>> 2).toNat = x.toNat / 4 ∧ ((x &&& 0x03) <<< 4).toNat = x.toNat % 4 * 16 ∧
      ((x &&& 0xf0) >>> 4).toNat = x.toNat / 16 ∧ ((x &&& 0x0f) <<< 2).toNat = x.toNat % 16 * 4 ∧
      ((x &&& 0xc0) >>> 6).toNat = x.toNat / 64 ∧ (x &&& 0x3f).toNat = x.toNat % 64 :=
  forall_byte (P := fun x => ((x &&& 0xfc) >>> 2).toNat = x.toNat / 4 ∧
    ((x &&& 0x03) <<< 4).toNat = x.toNat % 4 * 16 ∧ ((x &&& 0xf0) >>> 4).toNat = x.toNat / 16 ∧
    ((x &&& 0x0f) <<< 2).toNat = x.toNat % 16 * 4 ∧ ((x &&& 0xc0) >>> 6).toNat = x.toNat / 64 ∧
    (x &&& 0x3f).toNat = x.toNat % 64) (by decide +kernel) x

/-- The fields of six bits, as the decoder takes them. -/
theorem decoder_fields {n : ℕ} (h : n < 64) :
    (UInt8.ofNat n <<< 2).toNat = n * 4 ∧ ((UInt8.ofNat n &&& 0x30) >>> 4).toNat = n / 16 ∧
      ((UInt8.ofNat n &&& 0xf) <<< 4).toNat = n % 16 * 16 ∧
      ((UInt8.ofNat n &&& 0x3c) >>> 2).toNat = n / 4 ∧
      ((UInt8.ofNat n &&& 0x3) <<< 6).toNat = n % 4 * 64 ∧ (UInt8.ofNat n).toNat = n := by
  revert n
  decide +kernel

/-- **Three bytes are four times six bits.** -/
theorem charArray4_eq (a b c : UInt8) :
    charArray4 [a, b, c] = (List.range 4).map fun i => UInt8.ofNat (sextet (group a b c) i) := by
  have ha := a.toNat_lt
  have hb := b.toNat_lt
  have hc := c.toNat_lt
  obtain ⟨ha₁, ha₂, -⟩ := encoder_fields a
  obtain ⟨-, -, hb₁, hb₂, -⟩ := encoder_fields b
  obtain ⟨-, -, -, -, hc₁, hc₂⟩ := encoder_fields c
  have hfirst : (a &&& 0xfc) >>> 2 = UInt8.ofNat (sextet (group a b c) 0) := by
    apply UInt8.toNat_inj.mp
    rw [ha₁, UInt8.toNat_ofNat', sextet, group]
    omega
  have hsecond : ((a &&& 0x03) <<< 4) + ((b &&& 0xf0) >>> 4)
      = UInt8.ofNat (sextet (group a b c) 1) := by
    apply UInt8.toNat_inj.mp
    rw [UInt8.toNat_add, ha₂, hb₁, UInt8.toNat_ofNat', sextet, group]
    omega
  have hthird : ((b &&& 0x0f) <<< 2) + ((c &&& 0xc0) >>> 6)
      = UInt8.ofNat (sextet (group a b c) 2) := by
    apply UInt8.toNat_inj.mp
    rw [UInt8.toNat_add, hb₂, hc₁, UInt8.toNat_ofNat', sextet, group]
    omega
  have hfourth : c &&& 0x3f = UInt8.ofNat (sextet (group a b c) 3) := by
    apply UInt8.toNat_inj.mp
    rw [hc₂, UInt8.toNat_ofNat', sextet, group]
    omega
  have hbytes : charArray4 [a, b, c] = [(a &&& 0xfc) >>> 2,
      ((a &&& 0x03) <<< 4) + ((b &&& 0xf0) >>> 4), ((b &&& 0x0f) <<< 2) + ((c &&& 0xc0) >>> 6),
      c &&& 0x3f] := rfl
  rw [hbytes, hfirst, hsecond, hthird, hfourth]
  rfl

/-- **And back.** -/
theorem charArray3_eq (a b c : UInt8) :
    charArray3 ((List.range 4).map fun i => UInt8.ofNat (sextet (group a b c) i)) = [a, b, c] := by
  have ha := a.toNat_lt
  have hb := b.toNat_lt
  have hc := c.toNat_lt
  obtain ⟨h₀, -⟩ := decoder_fields (sextet_lt (group a b c) 0)
  obtain ⟨-, h₁, h₁', -⟩ := decoder_fields (sextet_lt (group a b c) 1)
  obtain ⟨-, -, -, h₂, h₂', -⟩ := decoder_fields (sextet_lt (group a b c) 2)
  obtain ⟨-, -, -, -, -, h₃⟩ := decoder_fields (sextet_lt (group a b c) 3)
  have hbytes : charArray3 ((List.range 4).map fun i => UInt8.ofNat (sextet (group a b c) i))
      = [(UInt8.ofNat (sextet (group a b c) 0) <<< 2)
            + ((UInt8.ofNat (sextet (group a b c) 1) &&& 0x30) >>> 4),
          ((UInt8.ofNat (sextet (group a b c) 1) &&& 0xf) <<< 4)
            + ((UInt8.ofNat (sextet (group a b c) 2) &&& 0x3c) >>> 2),
          ((UInt8.ofNat (sextet (group a b c) 2) &&& 0x3) <<< 6)
            + UInt8.ofNat (sextet (group a b c) 3)] := rfl
  rw [hbytes]
  congr 1
  · apply UInt8.toNat_inj.mp
    rw [UInt8.toNat_add, h₀, h₁, sextet, sextet, group]
    omega
  congr 1
  · apply UInt8.toNat_inj.mp
    rw [UInt8.toNat_add, h₁', h₂, sextet, sextet, group]
    omega
  congr 1
  apply UInt8.toNat_inj.mp
  rw [UInt8.toNat_add, h₂', h₃, sextet, sextet, group]
  omega

end Bits

/-! ## The encoder -/

theorem base64Char_ofNat {n : ℕ} (h : n < 64) : base64Char (UInt8.ofNat n) = letter n := by
  revert n
  decide +kernel

/-- The letters of three bytes. -/
theorem map_base64Char (a b c : UInt8) {k : ℕ} (hk : k ≤ 4) :
    ((charArray4 [a, b, c]).take k).map base64Char = letters (group a b c) k := by
  rw [charArray4_eq, letters, ← List.map_take, List.take_range, min_eq_left hk, List.map_map]
  exact List.map_congr_left fun i _ => base64Char_ofNat (sextet_lt _ _)

/-- **The loop encodes what it has converted**, and the rest is encoded behind it. -/
theorem encodeRest_encodeLoop (bytes ret : List UInt8) :
    encodeRest (encodeLoop bytes [] ret) = ret ++ encode bytes := by
  induction bytes using encode.induct generalizing ret with
  | case1 => rw [encode, List.append_nil, encodeLoop, encodeRest, if_neg (by simp)]
  | case2 a =>
    have hletters := map_base64Char a (UInt8.ofNat 0) (UInt8.ofNat 0) (k := 2) (by decide)
    have hloop : encodeLoop [a] [] ret = ([a], ret) := by
      rw [encodeLoop, if_neg (by simp), encodeLoop]
      rfl
    have hrest : [a] ++ List.replicate (3 - [a].length) (UInt8.ofNat 0)
        = [a, UInt8.ofNat 0, UInt8.ofNat 0] := rfl
    rw [encode, ← hletters, ← List.append_assoc, hloop, encodeRest, if_pos (by simp), hrest]
    rfl
  | case3 a b =>
    have hletters := map_base64Char a b (UInt8.ofNat 0) (k := 3) (by decide)
    have hloop : encodeLoop [a, b] [] ret = ([a, b], ret) := by
      rw [encodeLoop, if_neg (by simp), encodeLoop, if_neg (by simp), encodeLoop]
      rfl
    have hrest : [a, b] ++ List.replicate (3 - [a, b].length) (UInt8.ofNat 0)
        = [a, b, UInt8.ofNat 0] := rfl
    rw [encode, ← hletters, ← List.append_assoc, hloop, encodeRest, if_pos (by simp), hrest]
    rfl
  | case4 a b c rest ih =>
    have hletters := map_base64Char a b c (k := 4) (le_refl 4)
    have hloop : encodeLoop (a :: b :: c :: rest) [] ret
        = encodeLoop rest [] (ret ++ ((charArray4 [a, b, c]).take 4).map base64Char) := rfl
    rw [hloop, ih, hletters, encode, List.append_assoc]

/-- **`base64_encode` is the encoding of RFC 4648.** -/
theorem base64Encode_eq (bytes : List UInt8) : base64Encode bytes = encode bytes :=
  encodeRest_encodeLoop bytes []

/-! ## The decoder -/

theorem isBase64_letter {n : ℕ} (h : n < 64) : letter n ≠ filler ∧ isBase64 (letter n) = true := by
  revert n
  decide +kernel

theorem base64Find_letter {n : ℕ} (h : n < 64) : base64Find (letter n) = UInt8.ofNat n := by
  rw [base64Find, base64Chars, if_pos (letter_mem n h), idxOf_letter n h]

/-- What the array is filled up with is no letter. -/
theorem base64Find_zero : base64Find (UInt8.ofNat 0) = UInt8.ofNat 255 := by decide +kernel

/-- Letters that do not fill `char_array_4`. -/
theorem decodeLoop_letters (n : ℕ) {k : ℕ} (hk : k < 4) (rest ret : List UInt8) :
    decodeLoop (letters n k ++ rest) [] ret = decodeLoop rest (letters n k) ret := by
  suffices h : ∀ (is : List ℕ) (charArray4 : List UInt8), charArray4.length + is.length < 4 →
      decodeLoop (is.map (fun i => letter (sextet n i)) ++ rest) charArray4 ret
        = decodeLoop rest (charArray4 ++ is.map fun i => letter (sextet n i)) ret by
    have hletters := h (List.range k) [] (by rw [List.length_range]; simpa using hk)
    rwa [List.nil_append] at hletters
  intro is
  induction is with
  | nil =>
    intro charArray4 _
    rw [List.map_nil, List.nil_append, List.append_nil]
  | cons i is ih =>
    intro charArray4 hlen
    rw [List.length_cons] at hlen
    have hne : (charArray4 ++ [letter (sextet n i)]).length ≠ 4 := by
      rw [List.length_append, List.length_singleton]
      omega
    have hnext := ih (charArray4 ++ [letter (sextet n i)])
      (by rw [List.length_append, List.length_singleton]; omega)
    rw [List.append_assoc, List.singleton_append] at hnext
    rw [List.map_cons, List.cons_append, decodeLoop, if_pos (isBase64_letter (sextet_lt n i)),
      if_neg hne, hnext]

/-- The letters of a group, looked up. -/
theorem map_base64Find_letters (n k : ℕ) :
    (letters n k).map base64Find = (List.range k).map fun i => UInt8.ofNat (sextet n i) := by
  rw [letters, List.map_map]
  exact List.map_congr_left fun i _ => base64Find_letter (sextet_lt n i)

/-- Four letters are three bytes. -/
theorem decodeLoop_group (a b c : UInt8) (rest ret : List UInt8) :
    decodeLoop (letters (group a b c) 4 ++ rest) [] ret
      = decodeLoop rest [] (ret ++ [a, b, c]) := by
  have hsplit : letters (group a b c) 4
      = letters (group a b c) 3 ++ [letter (sextet (group a b c) 3)] := rfl
  rw [hsplit, List.append_assoc, decodeLoop_letters _ (by decide), List.singleton_append,
    decodeLoop, if_pos (isBase64_letter (sextet_lt _ _)), ← hsplit,
    if_pos (length_letters _ _), map_base64Find_letters, charArray3_eq]

/-- The text ends, or goes on with a filler. -/
theorem decodeLoop_filler {rest : List UInt8} (h : rest.head? = none ∨ rest.head? = some filler)
    (charArray4 ret : List UInt8) : decodeLoop rest charArray4 ret = (charArray4, ret) := by
  cases rest with
  | nil => rw [decodeLoop]
  | cons x rest =>
    have hx : x = filler := by simpa using h
    rw [decodeLoop, if_neg fun hnot => hnot.1 hx]

/-- Letters and what the array is filled up with. -/
theorem decodeRest_letters (n : ℕ) {k : ℕ} (hk : k ≠ 0) (ret : List UInt8) :
    decodeRest (letters n k, ret) = ret ++ (charArray3 (((List.range k).map fun i =>
      UInt8.ofNat (sextet n i)) ++ List.replicate (4 - k) (UInt8.ofNat 255))).take (k - 1) := by
  have hmap : (letters n k ++ List.replicate (4 - k) (UInt8.ofNat 0)).map base64Find
      = ((List.range k).map fun i => UInt8.ofNat (sextet n i))
        ++ List.replicate (4 - k) (UInt8.ofNat 255) := by
    rw [List.map_append, map_base64Find_letters, List.map_replicate, base64Find_zero]
  rw [← hmap, decodeRest, length_letters, if_pos hk]

/-- The first byte of `char_array_3` is one of the first two of `char_array_4`. -/
theorem charArray3_take_one (x y z z' w w' : UInt8) :
    (charArray3 [x, y, z, w]).take 1 = (charArray3 [x, y, z', w']).take 1 := rfl

/-- The first two are of the first three. -/
theorem charArray3_take_two (x y z w w' : UInt8) :
    (charArray3 [x, y, z, w]).take 2 = (charArray3 [x, y, z, w']).take 2 := rfl

/-- Two letters and what the array is filled up with are a byte. -/
theorem decodeRest_two (a : UInt8) (ret : List UInt8) :
    decodeRest (letters (group a (UInt8.ofNat 0) (UInt8.ofNat 0)) 2, ret) = ret ++ [a] := by
  have hbytes := congrArg (List.take 1) (charArray3_eq a (UInt8.ofNat 0) (UInt8.ofNat 0))
  rw [decodeRest_letters _ (by decide)]
  exact congrArg (ret ++ ·) ((charArray3_take_one _ _ _ _ _ _).trans hbytes)

/-- Three letters are two bytes. -/
theorem decodeRest_three (a b : UInt8) (ret : List UInt8) :
    decodeRest (letters (group a b (UInt8.ofNat 0)) 3, ret) = ret ++ [a, b] := by
  have hbytes := congrArg (List.take 2) (charArray3_eq a b (UInt8.ofNat 0))
  rw [decodeRest_letters _ (by decide)]
  exact congrArg (ret ++ ·) ((charArray3_take_two _ _ _ _ _).trans hbytes)

/-- What the loop has decoded, and the rest. -/
theorem decodeRest_decodeLoop (bytes ret : List UInt8) :
    decodeRest (decodeLoop (encode bytes) [] ret) = ret ++ bytes := by
  induction bytes using encode.induct generalizing ret with
  | case1 => rw [encode, decodeLoop_filler (Or.inl rfl), decodeRest, if_neg (by simp),
      List.append_nil]
  | case2 a =>
    rw [encode, decodeLoop_letters _ (by decide), decodeLoop_filler (Or.inr rfl), decodeRest_two]
  | case3 a b =>
    rw [encode, decodeLoop_letters _ (by decide), decodeLoop_filler (Or.inr rfl),
      decodeRest_three]
  | case4 a b c rest ih =>
    rw [encode, decodeLoop_group, ih, List.append_assoc]
    rfl

/-- **The decoder undoes the encoder**, on all bytes. -/
theorem base64Decode_base64Encode (bytes : List UInt8) :
    base64Decode (base64Encode bytes) = bytes := by
  rw [base64Encode_eq, base64Decode, decodeRest_decodeLoop, List.nil_append]

end KoheronSdk
