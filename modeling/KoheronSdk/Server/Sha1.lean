import Mathlib.Logic.Function.Basic
import KoheronSdk.Lib.SecureHash

/-!
# The hash of the WebSocket handshake

`SHA1` of `sha1.cpp`, which feeds a message into a context in pieces of at most 64 bytes.  The
words of a block are expanded in place, in a ring of 16, and the padding is written byte by byte
behind the message.  The host is little-endian.

## One block

`sha1_step` swaps the bytes of the words of the buffer and then has four loops of twenty turns,
each with its own function and constant.  From turn 16 on a turn first expands the word that it
uses, over the word that is sixteen turns old.  `Ring` says that the last sixteen words of the
schedule of FIPS 180-1 are in the ring, at their index modulo 16, and `At` what the five variables
are before turn `t`; the loops keep both.

## Feeding and padding

A context into which some bytes have been fed holds the hash of the whole blocks and the rest in its
buffer (`Fed`).  `sha1_loop` copies what fits and runs a block whenever the buffer is full, so that
the pieces in which a message comes do not matter.  `sha1_pad` writes the 1, zeros and the length;
when there is no room left for the length, it fills the block up and begins another one.  The length
is the counted bits, as a number of 64 bits that wraps around like the standard's.

* `Sha1.step`: `sha1_step`; `step_h`: it is one block of the standard.
* `Fed`: a context into which some bytes have been fed.
* `SHA1_eq`: `SHA1` is the hash function of FIPS 180-1.
* `sha1Result_pieces`: so is what comes out of any cutting of the message.
-/

namespace KoheronSdk

open ByteOrder SecureHash

namespace Sha1

/-! ## The code -/

/-- `struct sha1_ctxt`: `h.b32`, `c.b64[0]`, `m.b8` and `count`. -/
structure Ctxt where
  h : Registers
  c : UInt64
  m : ℕ → UInt8
  count : UInt8

/-- `S(n, x)` -/
def S (n : UInt32) (x : UInt32) : UInt32 := (x <<< n) ||| (x >>> (32 - n))

/-- `F0(b, c, d)` -/
def F0 (b c d : UInt32) : UInt32 := (b &&& c) ||| (~~~b &&& d)

/-- `F1(b, c, d)` -/
def F1 (b c d : UInt32) : UInt32 := (b ^^^ c) ^^^ d

/-- `F2(b, c, d)` -/
def F2 (b c d : UInt32) : UInt32 := ((b &&& c) ||| (b &&& d)) ||| (c &&& d)

/-- `F3(b, c, d)` -/
def F3 (b c d : UInt32) : UInt32 := (b ^^^ c) ^^^ d

/-- `_K` -/
def constants : List UInt32 := [0x5a827999, 0x6ed9eba1, 0x8f1bbcdc, 0xca62c1d6]

/-- `K(t)` -/
def K (t : ℕ) : UInt32 := constants.getD (t / 20) (UInt32.ofNat 0)

/-- The bytes of each word the other way around, as the 64 assignments at the begin of
`sha1_step` put them. -/
def swapped (m : ℕ → UInt8) (i : ℕ) : UInt8 := m (4 * (i / 4) + (3 - i % 4))

/-- `W(n)`, which is `m.b32[n]` -/
def b32 (m : ℕ → UInt8) (n : ℕ) : UInt32 :=
  UInt32.ofNat (ofLe [m (4 * n), m (4 * n + 1), m (4 * n + 2), m (4 * n + 3)])

/-- `W(s) = S(1, W((s+13) & 0x0f) ^ W((s+8) & 0x0f) ^ W((s+2) & 0x0f) ^ W(s))` -/
def expand (w : ℕ → UInt32) (s : ℕ) : ℕ → UInt32 :=
  Function.update w s (S 1 (w ((s + 13) &&& 0x0f) ^^^ w ((s + 8) &&& 0x0f) ^^^
    w ((s + 2) &&& 0x0f) ^^^ w s))

/-- `W`, and the variables `a` to `e` -/
structure Vars where
  w : ℕ → UInt32
  r : Registers

/-- `tmp = S(5, a) + F(b, c, d) + e + W(s) + K(t)`, and the assignments behind it -/
def mix (F : UInt32 → UInt32 → UInt32 → UInt32) (t s : ℕ) (v : Vars) : Vars where
  w := v.w
  r := ⟨S 5 v.r.a + F v.r.b v.r.c v.r.d + v.r.e + v.w s + K t, v.r.a, S 30 v.r.b, v.r.c, v.r.d⟩

/-- The body of the first loop. -/
def body0 (t : ℕ) (v : Vars) : Vars :=
  let s := t &&& 0x0f
  let v := if 16 ≤ t then { v with w := expand v.w s } else v
  mix F0 t s v

/-- The body of the other three. -/
def body (F : UInt32 → UInt32 → UInt32 → UInt32) (t : ℕ) (v : Vars) : Vars :=
  let s := t &&& 0x0f
  let v := { v with w := expand v.w s }
  mix F t s v

/-- `for (t = t0; t < t0 + n; t++)` -/
def loop (f : ℕ → Vars → Vars) (t0 : ℕ) : ℕ → Vars → Vars
  | 0, v => v
  | n + 1, v => f (t0 + n) (loop f t0 n v)

/-- `sha1_step` -/
def step (ctxt : Ctxt) : Ctxt :=
  let m := swapped ctxt.m
  let v := loop body0 0 20 ⟨b32 m, ctxt.h⟩
  let v := loop (body F1) 20 20 v
  let v := loop (body F2) 40 20 v
  let v := loop (body F3) 60 20 v
  { ctxt with
    h := ⟨ctxt.h.a + v.r.a, ctxt.h.b + v.r.b, ctxt.h.c + v.r.c, ctxt.h.d + v.r.d,
      ctxt.h.e + v.r.e⟩
    m := fun _ => UInt8.ofNat 0 }

/-- `sha1_init` -/
def init : Ctxt where
  h := ⟨0x67452301, 0xefcdab89, 0x98badcfe, 0x10325476, 0xc3d2e1f0⟩
  c := UInt64.ofNat 0
  m := fun _ => UInt8.ofNat 0
  count := UInt8.ofNat 0

/-- `memcpy(&ctxt->m.b8[start], ...)` -/
def copy (m : ℕ → UInt8) (start : ℕ) (bs : List UInt8) : ℕ → UInt8 := fun i =>
  if start ≤ i ∧ i < start + bs.length then bs.getD (i - start) (UInt8.ofNat 0) else m i

/-- `bzero(&ctxt->m.b8[start], n)` -/
def zero (m : ℕ → UInt8) (start n : ℕ) : ℕ → UInt8 :=
  copy m start (List.replicate n (UInt8.ofNat 0))

/-- `COUNT += n; COUNT %= 64;` -/
def Ctxt.counted (ctxt : Ctxt) (n : ℕ) : Ctxt :=
  { ctxt with count := (ctxt.count + UInt8.ofNat n) % 64 }

/-- `if (COUNT % 64 == 0) sha1_step(ctxt);` -/
def Ctxt.stepped (ctxt : Ctxt) : Ctxt := if ctxt.count.toNat % 64 = 0 then step ctxt else ctxt

/-- `PUTPAD(x)` -/
def putPad (ctxt : Ctxt) (x : UInt8) : Ctxt :=
  let ctxt := { ctxt with m := Function.update ctxt.m (ctxt.count.toNat % 64) x }
  (ctxt.counted 1).stepped

/-- `c.b8[i]` -/
def Ctxt.lengthByte (ctxt : Ctxt) (i : ℕ) : UInt8 := (le 8 ctxt.c.toNat).getD i (UInt8.ofNat 0)

/-- `padlen`, with `padstart` the position in the buffer. -/
def Ctxt.padlen (ctxt : Ctxt) : ℕ := 64 - ctxt.count.toNat % 64

/-- `bzero(&ctxt->m.b8[padstart], n); COUNT += n; COUNT %= 64;` -/
def Ctxt.zeroed (ctxt : Ctxt) (n : ℕ) : Ctxt :=
  { ctxt with m := zero ctxt.m (ctxt.count.toNat % 64) n }.counted n

/-- `if (padlen < 8) ...`: a block without room for the length is filled up. -/
def Ctxt.filled (ctxt : Ctxt) : Ctxt :=
  if ctxt.padlen < 8 then step (ctxt.zeroed ctxt.padlen) else ctxt

/-- `sha1_pad` -/
def sha1Pad (ctxt : Ctxt) : Ctxt :=
  let ctxt := putPad ctxt (UInt8.ofNat 0x80)
  let ctxt := ctxt.filled
  let ctxt := ctxt.zeroed (ctxt.padlen - 8)
  [7, 6, 5, 4, 3, 2, 1, 0].foldl (fun ctxt i => putPad ctxt (ctxt.lengthByte i)) ctxt

/-- `sha1_loop`, for what is left of the input. -/
def sha1Loop : ℕ → Ctxt → List UInt8 → Ctxt
  | 0, ctxt, _ => ctxt
  | fuel + 1, ctxt, input =>
    if 0 < input.length then
      let gapstart := ctxt.count.toNat % 64
      let gaplen := 64 - gapstart
      let copysiz := if gaplen < input.length then gaplen else input.length
      let ctxt := { ctxt with m := copy ctxt.m gapstart (input.take copysiz) }.counted copysiz
      let ctxt := { ctxt with c := ctxt.c + UInt64.ofNat (copysiz * 8) }
      sha1Loop fuel ctxt.stepped (input.drop copysiz)
    else ctxt

/-- `h.b8` -/
def Ctxt.hashBytes (ctxt : Ctxt) : List UInt8 :=
  le 4 ctxt.h.a.toNat ++ le 4 ctxt.h.b.toNat ++ le 4 ctxt.h.c.toNat ++ le 4 ctxt.h.d.toNat ++
    le 4 ctxt.h.e.toNat

/-- `sha1_result` -/
def sha1Result (ctxt : Ctxt) : List UInt8 :=
  let ctxt := sha1Pad ctxt
  [3, 2, 1, 0, 7, 6, 5, 4, 11, 10, 9, 8, 15, 14, 13, 12, 19, 18, 17, 16].map
    fun i => ctxt.hashBytes.getD i (UInt8.ofNat 0)

end Sha1

namespace Sha1

/-! ## One block -/

section Block

variable {word : ℕ → UInt32} {h : Registers} {n t : ℕ} {w : ℕ → UInt32} {v : Vars}

/-- `S` is a rotation. -/
theorem S_eq {k : ℕ} (hpos : 0 < k) (hlt : k < 32) (x : UInt32) :
    S (UInt32.ofNat k) x = rotl k x := by
  apply UInt32.toBitVec_inj.mp
  have h32 : (32#32).toNat = 32 := rfl
  have hleft : (BitVec.ofNat 32 k % 32#32).toNat = k := by
    rw [BitVec.toNat_umod, h32, BitVec.toNat_ofNat]
    omega
  have hright : ((32#32 - BitVec.ofNat 32 k) % 32#32).toNat = 32 - k := by
    rw [BitVec.toNat_umod, BitVec.toNat_sub, h32, BitVec.toNat_ofNat]
    omega
  calc (S (UInt32.ofNat k) x).toBitVec
      = x.toBitVec <<< (BitVec.ofNat 32 k % 32#32).toNat |||
          x.toBitVec >>> ((32#32 - BitVec.ofNat 32 k) % 32#32).toNat := rfl
    _ = x.toBitVec <<< k ||| x.toBitVec >>> (32 - k) := by rw [hleft, hright]
    _ = (rotl k x).toBitVec := by
      rw [rotl, UInt32.toBitVec_ofBitVec, BitVec.rotateLeft_def, Nat.mod_eq_of_lt hlt]

theorem S_one (x : UInt32) : S 1 x = rotl 1 x := S_eq (by decide) (by decide) x

theorem S_five (x : UInt32) : S 5 x = rotl 5 x := S_eq (by decide) (by decide) x

theorem S_thirty (x : UInt32) : S 30 x = rotl 30 x := S_eq (by decide) (by decide) x

/-- The last 16 of the first `n` words of the schedule are in the ring. -/
def Ring (word : ℕ → UInt32) (n : ℕ) (w : ℕ → UInt32) : Prop :=
  ∀ i < n, n ≤ i + 16 → w (i % 16) = schedule word i

theorem ring_words (word : ℕ → UInt32) : Ring word 16 word := by
  intro i hi _
  rw [Nat.mod_eq_of_lt hi, schedule_of_lt word hi]

theorem and_15 (x : ℕ) : x &&& 0x0f = x % 16 := Nat.and_two_pow_sub_one_eq_mod x 4

/-- The next word takes the place of the oldest one. -/
theorem Ring.expand (hw : Ring word n w) (hn : 16 ≤ n) :
    Ring word (n + 1) (expand w (n &&& 0x0f)) := by
  have h3 : w ((n % 16 + 13) % 16) = schedule word (n - 3) := by
    rw [← hw (n - 3) (by omega) (by omega)]
    exact congrArg w (by omega)
  have h8 : w ((n % 16 + 8) % 16) = schedule word (n - 8) := by
    rw [← hw (n - 8) (by omega) (by omega)]
    exact congrArg w (by omega)
  have h14 : w ((n % 16 + 2) % 16) = schedule word (n - 14) := by
    rw [← hw (n - 14) (by omega) (by omega)]
    exact congrArg w (by omega)
  have h16 : w (n % 16) = schedule word (n - 16) := by
    rw [← hw (n - 16) (by omega) (by omega)]
    exact congrArg w (by omega)
  intro i hi hle
  simp only [Sha1.expand, and_15, h3, h8, h14, h16, S_one]
  by_cases hin : i = n
  · subst hin
    rw [Function.update_self, schedule_of_le word hn]
  · have hne : i % 16 ≠ n % 16 := by omega
    rw [Function.update_of_ne hne]
    exact hw i (by omega) (by omega)

/-- The variables before turn `t`. -/
def At (word : ℕ → UInt32) (h : Registers) (t : ℕ) (v : Vars) : Prop :=
  Ring word (max t 16) v.w ∧ v.r = turns (schedule word) t h

theorem mix_eq {F : UInt32 → UInt32 → UInt32 → UInt32} (hF : F = choice t)
    (hK : K t = constant t) (hw : v.w (t % 16) = schedule word t)
    (hv : v.r = turns (schedule word) t h) :
    (mix F t (t % 16) v).r = turns (schedule word) (t + 1) h := by
  rw [turns, turn, ← hv, mix, hw, hF, hK, S_five, S_thirty]

/-- A turn of the loops that expand the words. -/
theorem At.body {F : UInt32 → UInt32 → UInt32 → UInt32} (hv : At word h t v) (ht : 16 ≤ t)
    (hF : F = choice t) (hK : K t = constant t) : At word h (t + 1) (body F t v) := by
  obtain ⟨hring, hr⟩ := hv
  rw [max_eq_left ht] at hring
  have hring' := hring.expand ht
  have hw := hring' t (Nat.lt_succ_self t) (by omega)
  refine ⟨?_, ?_⟩
  · rw [max_eq_left (by omega)]
    exact hring'
  · rw [Sha1.body, and_15]
    rw [and_15] at hw
    exact mix_eq hF hK hw hr

/-- A turn of the first loop. -/
theorem At.body0 (hv : At word h t v) (ht : t < 20) : At word h (t + 1) (body0 t v) := by
  have hF : F0 = choice t := by
    funext b c d
    rw [choice, if_pos ht]
    rfl
  have hK : K t = constant t := by
    rw [constant, if_pos ht, K, Nat.div_eq_of_lt ht]
    rfl
  by_cases h16 : 16 ≤ t
  · rw [Sha1.body0, if_pos h16]
    exact hv.body h16 hF hK
  · obtain ⟨hring, hr⟩ := hv
    rw [Sha1.body0, if_neg h16, and_15]
    rw [max_eq_right (by omega)] at hring
    refine ⟨?_, ?_⟩
    · rw [max_eq_right (by omega)]
      exact hring
    · exact mix_eq hF hK (hring t (by omega) (by omega)) hr

/-- A loop goes on from where the one before it has stopped. -/
theorem At.loop {f : ℕ → Vars → Vars} {t₀ : ℕ} (hv : At word h t₀ v)
    (hf : ∀ t v, t₀ ≤ t → t < t₀ + n → At word h t v → At word h (t + 1) (f t v)) :
    At word h (t₀ + n) (loop f t₀ n v) := by
  induction n with
  | zero => exact hv
  | succ n ih =>
    have hprev := ih fun t v hle hlt => hf t v hle (by omega)
    exact hf (t₀ + n) _ (Nat.le_add_right _ _) (by omega) hprev

/-- The function and the constant of each loop are those of its turns. -/
theorem choice_constant (ht : 20 ≤ t) :
    (t < 40 → F1 = choice t ∧ K t = constant t) ∧
      (40 ≤ t → t < 60 → F2 = choice t ∧ K t = constant t) ∧
      (60 ≤ t → t < 80 → F3 = choice t ∧ K t = constant t) := by
  have h20 : ¬ t < 20 := by omega
  refine ⟨fun h40 => ⟨?_, ?_⟩, fun h40 h60 => ⟨?_, ?_⟩, fun h60 h80 => ⟨?_, ?_⟩⟩
  · funext b c d
    rw [choice, if_neg h20, if_pos h40]
    rfl
  · have hdiv : t / 20 = 1 := by omega
    rw [constant, if_neg h20, if_pos h40, K, hdiv]
    rfl
  · funext b c d
    rw [choice, if_neg h20, if_neg (by omega), if_pos h60]
    rfl
  · have hdiv : t / 20 = 2 := by omega
    rw [constant, if_neg h20, if_neg (by omega), if_pos h60, K, hdiv]
    rfl
  · funext b c d
    rw [choice, if_neg h20, if_neg (by omega), if_neg (by omega)]
    rfl
  · have hdiv : t / 20 = 3 := by omega
    rw [constant, if_neg h20, if_neg (by omega), if_neg (by omega), K, hdiv]
    rfl

/-- The words of the bytes of a block. -/
theorem b32_swapped (m : ℕ → UInt8) (n : ℕ) :
    b32 (swapped m) n = UInt32.ofNat (ofBe ((List.range 4).map fun k => m (4 * n + k))) := by
  have hswap : ∀ k < 4, swapped m (4 * n + k) = m (4 * n + (3 - k)) := by
    intro k hk
    rw [swapped]
    exact congrArg m (by omega)
  have h0 := hswap 0 (by decide)
  rw [b32, ← Nat.add_zero (4 * n), h0, Nat.add_zero, hswap 1 (by decide), hswap 2 (by decide),
    hswap 3 (by decide)]
  rfl

/-- The words of a block that is in the buffer. -/
theorem b32_eq_wordOf {m : ℕ → UInt8} {block : List UInt8} (hlen : block.length = 64)
    (hblock : ∀ i < 64, m i = block.getD i (UInt8.ofNat 0)) {n : ℕ} (hn : n < 16) :
    b32 (swapped m) n = wordOf block n := by
  have hbytes : (List.range 4).map (fun k => m (4 * n + k)) = (block.drop (4 * n)).take 4 := by
    refine List.ext_getElem ?_ fun k hk _ => ?_
    · rw [List.length_map, List.length_range, List.length_take, List.length_drop, hlen]
      omega
    · rw [List.length_map, List.length_range] at hk
      rw [List.getElem_map, List.getElem_range, List.getElem_take, List.getElem_drop,
        hblock _ (by omega), List.getD_eq_getElem]
  rw [b32_swapped, hbytes, wordOf]

/-- **`sha1_step` is one block.** -/
theorem step_h (ctxt : Ctxt) {block : List UInt8} (hlen : block.length = 64)
    (hblock : ∀ i < 64, ctxt.m i = block.getD i (UInt8.ofNat 0)) :
    (step ctxt).h = compress ctxt.h block := by
  let word := b32 (swapped ctxt.m)
  have h0 : At word ctxt.h 0 ⟨word, ctxt.h⟩ := ⟨ring_words _, rfl⟩
  have h20 : At word ctxt.h 20 (loop body0 0 20 ⟨word, ctxt.h⟩) :=
    h0.loop (n := 20) fun t v _ hlt hv => hv.body0 hlt
  have h40 : At word ctxt.h 40 (loop (body F1) 20 20 (loop body0 0 20 ⟨word, ctxt.h⟩)) :=
    h20.loop (n := 20) fun t v hle hlt hv => by
      obtain ⟨hF, hK⟩ := (choice_constant hle).1 hlt
      exact hv.body (by omega) hF hK
  have h60 := h40.loop (f := body F2) (n := 20) fun t v hle hlt hv => by
    obtain ⟨hF, hK⟩ := (choice_constant (by omega)).2.1 hle hlt
    exact hv.body (by omega) hF hK
  have h80 := h60.loop (f := body F3) (n := 20) fun t v hle hlt hv => by
    obtain ⟨hF, hK⟩ := (choice_constant (by omega)).2.2 hle hlt
    exact hv.body (by omega) hF hK
  have hwords : schedule word = schedule (wordOf block) :=
    schedule_congr fun n hn => b32_eq_wordOf hlen hblock hn
  have hr := h80.2
  rw [hwords] at hr
  rw [compress, ← hr, step, Registers.add]

theorem step_count (ctxt : Ctxt) : (step ctxt).count = ctxt.count := by rw [step]

theorem step_c (ctxt : Ctxt) : (step ctxt).c = ctxt.c := by rw [step]

end Block

/-! ## Feeding -/

/-- Some bytes have been fed: the whole blocks are in `h`, the rest is in the buffer. -/
structure Fed (bytes : List UInt8) (ctxt : Ctxt) : Prop where
  count : ctxt.count.toNat = bytes.length % 64
  h : ctxt.h = chain bytes (bytes.length / 64)
  m : ∀ i < bytes.length % 64,
    ctxt.m i = bytes.getD (64 * (bytes.length / 64) + i) (UInt8.ofNat 0)

/-- Some more bytes are in the buffer, which may be full now. -/
structure Held (bytes bs : List UInt8) (ctxt : Ctxt) : Prop where
  fits : bytes.length % 64 + bs.length ≤ 64
  count : ctxt.count.toNat = (bytes.length % 64 + bs.length) % 64
  h : ctxt.h = chain bytes (bytes.length / 64)
  m : ∀ i < bytes.length % 64 + bs.length,
    ctxt.m i = (bytes ++ bs).getD (64 * (bytes.length / 64) + i) (UInt8.ofNat 0)

section Feeding

variable {bytes bs : List UInt8} {ctxt : Ctxt}

theorem fed_init : Fed [] init := ⟨rfl, rfl, fun _ h => absurd h (Nat.not_lt_zero _)⟩

/-- The buffer has room for some bytes. -/
theorem Fed.copy (hfed : Fed bytes ctxt) (hfits : bytes.length % 64 + bs.length ≤ 64) :
    Held bytes bs
      ({ ctxt with m := Sha1.copy ctxt.m (ctxt.count.toNat % 64) bs }.counted bs.length) := by
  have hstart : ctxt.count.toNat % 64 = bytes.length % 64 := by
    rw [hfed.count, Nat.mod_mod]
  refine ⟨hfits, ?_, hfed.h, fun i hi => ?_⟩
  · change ((ctxt.count + UInt8.ofNat bs.length) % 64).toNat = _
    rw [UInt8.toNat_mod, UInt8.toNat_add, hfed.count, UInt8.toNat_ofNat']
    change (bytes.length % 64 + bs.length % 256) % 256 % 64 = _
    omega
  · change Sha1.copy ctxt.m (ctxt.count.toNat % 64) bs i = _
    rw [hstart, Sha1.copy]
    by_cases hold : i < bytes.length % 64
    · rw [if_neg (by omega), hfed.m i hold, List.getD_append _ _ _ _ (by omega)]
    · rw [if_pos (by omega), List.getD_append_right _ _ _ _ (by omega)]
      exact congrArg (fun k => bs.getD k _) (by omega)

/-- The number of bytes is not affected by the length. -/
theorem Held.withLength (h : Held bytes bs ctxt) (c : UInt64) :
    Held bytes bs { ctxt with c := c } :=
  ⟨h.fits, h.count, h.h, h.m⟩

/-- The buffer is not full. -/
theorem Held.fed (h : Held bytes bs ctxt) (hlt : bytes.length % 64 + bs.length < 64) :
    Fed (bytes ++ bs) ctxt := by
  have hdiv : (bytes ++ bs).length / 64 = bytes.length / 64 := by
    rw [List.length_append]
    omega
  have hmod : (bytes ++ bs).length % 64 = bytes.length % 64 + bs.length := by
    rw [List.length_append]
    omega
  refine ⟨?_, ?_, fun i hi => ?_⟩
  · rw [h.count, hmod, Nat.mod_eq_of_lt hlt]
  · rw [h.h, hdiv, chain_append bs (by omega)]
  · rw [hdiv]
    exact h.m i (by omega)

/-- The buffer is full, and is one more block. -/
theorem Held.fed_step (h : Held bytes bs ctxt) (heq : bytes.length % 64 + bs.length = 64) :
    Fed (bytes ++ bs) (step ctxt) := by
  have hdiv : (bytes ++ bs).length / 64 = bytes.length / 64 + 1 := by
    rw [List.length_append]
    omega
  have hmod : (bytes ++ bs).length % 64 = 0 := by
    rw [List.length_append]
    omega
  refine ⟨?_, ?_, fun i hi => ?_⟩
  · rw [step_count, h.count, hmod, heq]
  · let block := ((bytes ++ bs).drop (64 * (bytes.length / 64))).take 64
    have hlen : block.length = 64 := by
      rw [List.length_take, List.length_drop, List.length_append]
      omega
    have hblock : ∀ i < 64, ctxt.m i = block.getD i (UInt8.ofNat 0) := by
      intro i hi
      rw [h.m i (by omega), List.getD_eq_getElem block _ (by omega), List.getElem_take,
        List.getElem_drop, List.getD_eq_getElem]
    rw [step_h ctxt hlen hblock, hdiv, h.h, ← chain_append bs (by omega), chain]
  · rw [hmod] at hi
    exact absurd hi (Nat.not_lt_zero i)

/-- In either case. -/
theorem Held.fed_stepped (h : Held bytes bs ctxt) (hne : bs ≠ []) :
    Fed (bytes ++ bs) ctxt.stepped := by
  have hpos : 0 < bs.length := List.length_pos_of_ne_nil hne
  have hfits := h.fits
  by_cases heq : bytes.length % 64 + bs.length = 64
  · rw [Ctxt.stepped, if_pos (by rw [h.count, heq])]
    exact h.fed_step heq
  · have hlt : bytes.length % 64 + bs.length < 64 := by omega
    rw [Ctxt.stepped, if_neg (by rw [h.count]; omega)]
    exact h.fed hlt

theorem copy_singleton (m : ℕ → UInt8) (start : ℕ) (x : UInt8) :
    Function.update m start x = Sha1.copy m start [x] := by
  funext i
  by_cases hi : i = start
  · subst hi
    rw [Function.update_self, Sha1.copy, if_pos (by simp), Nat.sub_self]
    rfl
  · have hnot : ¬ (start ≤ i ∧ i < start + [x].length) := by
      rw [List.length_singleton]
      omega
    rw [Function.update_of_ne hi, Sha1.copy, if_neg hnot]

theorem Fed.putPad (hfed : Fed bytes ctxt) (x : UInt8) : Fed (bytes ++ [x]) (putPad ctxt x) := by
  have hfits : bytes.length % 64 + [x].length ≤ 64 := Nat.mod_lt _ (by decide)
  have hheld := hfed.copy hfits
  rw [← copy_singleton] at hheld
  exact hheld.fed_stepped (List.cons_ne_nil x [])

/-- A block is hashed, or not, and the length stays. -/
theorem c_stepped (ctxt : Ctxt) : ctxt.stepped.c = ctxt.c := by
  rw [Ctxt.stepped]
  split
  · exact step_c ctxt
  · rfl

theorem c_putPad (ctxt : Ctxt) (x : UInt8) : (putPad ctxt x).c = ctxt.c := c_stepped _

/-- **The loop feeds the input**, and counts its bits. -/
theorem Fed.sha1Loop {fuel : ℕ} {input : List UInt8} (hfed : Fed bytes ctxt)
    (hc : ctxt.c = UInt64.ofNat (8 * bytes.length)) (hfuel : input.length ≤ fuel) :
    Fed (bytes ++ input) (sha1Loop fuel ctxt input) ∧
      (Sha1.sha1Loop fuel ctxt input).c = UInt64.ofNat (8 * (bytes ++ input).length) := by
  induction fuel generalizing bytes ctxt input with
  | zero =>
    obtain rfl : input = [] := List.length_eq_zero_iff.mp (by omega)
    rw [List.append_nil]
    exact ⟨hfed, hc⟩
  | succ fuel ih =>
    by_cases hpos : 0 < input.length
    · let gap := 64 - bytes.length % 64
      let size := if gap < input.length then gap else input.length
      have hmod : bytes.length % 64 < 64 := Nat.mod_lt _ (by decide)
      have hsize : size ≤ gap ∧ size ≤ input.length ∧ 0 < size := by
        change (if gap < input.length then gap else input.length) ≤ gap ∧
          (if gap < input.length then gap else input.length) ≤ input.length ∧
          0 < if gap < input.length then gap else input.length
        split <;> omega
      obtain ⟨hgap, hle, hsize⟩ := hsize
      have hlen : (input.take size).length = size := by
        rw [List.length_take, min_eq_left hle]
      have hfits : bytes.length % 64 + (input.take size).length ≤ 64 := by
        rw [hlen]
        omega
      have hheld := hfed.copy hfits
      rw [hlen] at hheld
      have hne : input.take size ≠ [] := by
        rw [← List.length_pos_iff_ne_nil, hlen]
        exact hsize
      have hstepped := (hheld.withLength (ctxt.c + UInt64.ofNat (size * 8))).fed_stepped hne
      have hcount : ctxt.c + UInt64.ofNat (size * 8)
          = UInt64.ofNat (8 * (bytes ++ input.take size).length) := by
        rw [hc, ← UInt64.ofNat_add, List.length_append, hlen]
        exact congrArg UInt64.ofNat (by omega)
      have hrest : (input.drop size).length ≤ fuel := by
        rw [List.length_drop]
        omega
      have hih := ih hstepped ((c_stepped _).trans hcount) hrest
      rw [List.append_assoc, List.take_append_drop] at hih
      have hstart : ctxt.count.toNat % 64 = bytes.length % 64 := by
        rw [hfed.count, Nat.mod_mod]
      rw [Sha1.sha1Loop, if_pos hpos]
      simp only [hstart] at hih ⊢
      exact hih
    · obtain rfl : input = [] := List.length_eq_zero_iff.mp (by omega)
      rw [Sha1.sha1Loop, if_neg hpos, List.append_nil]
      exact ⟨hfed, hc⟩

end Feeding

/-! ## The padding -/

section Padding

variable {bytes : List UInt8} {ctxt : Ctxt}

/-- Eight little-endian bytes from the last one on. -/
theorem map_le_eight (n : ℕ) :
    [7, 6, 5, 4, 3, 2, 1, 0].map (fun i => (le 8 n).getD i (UInt8.ofNat 0)) = be 8 n := rfl

/-- What is written of the length is its last 64 bits. -/
theorem be_eight_mod (n : ℕ) : be 8 (n % 2 ^ 64) = be 8 n := by
  have hsplit : n = n % 2 ^ 64 + 256 ^ 8 * (n / 2 ^ 64) := (Nat.mod_add_div n (2 ^ 64)).symm
  conv_rhs => rw [hsplit, be_add_mul]

theorem Fed.putLength (hfed : Fed bytes ctxt) (is : List ℕ) :
    Fed (bytes ++ is.map ctxt.lengthByte)
      (is.foldl (fun ctxt i => Sha1.putPad ctxt (ctxt.lengthByte i)) ctxt) := by
  induction is generalizing bytes ctxt with
  | nil =>
    rw [List.map_nil, List.append_nil]
    exact hfed
  | cons i is ih =>
    have hbyte : (Sha1.putPad ctxt (ctxt.lengthByte i)).lengthByte = ctxt.lengthByte := by
      unfold Ctxt.lengthByte
      rw [c_putPad]
    have hnext := ih (hfed.putPad (ctxt.lengthByte i))
    rw [hbyte, List.append_assoc, List.singleton_append] at hnext
    exact hnext

/-- Zeros that fit in the buffer. -/
theorem Fed.zeroed (hfed : Fed bytes ctxt) {n : ℕ} (hfits : bytes.length % 64 + n ≤ 64) :
    Held bytes (List.replicate n (UInt8.ofNat 0)) (ctxt.zeroed n) := by
  have hzeros : bytes.length % 64 + (List.replicate n (UInt8.ofNat 0)).length ≤ 64 := by
    rw [List.length_replicate]
    exact hfits
  have hheld := hfed.copy hzeros
  rwa [List.length_replicate] at hheld

theorem Fed.padlen (hfed : Fed bytes ctxt) : ctxt.padlen = 64 - bytes.length % 64 := by
  rw [Ctxt.padlen, hfed.count, Nat.mod_mod]

/-- The zeros in front of the length.  They go on in another block if there is no room for the
length. -/
theorem Fed.padded (hfed : Fed bytes ctxt) :
    Fed (bytes ++ List.replicate ((120 - bytes.length % 64) % 64) (UInt8.ofNat 0))
      (ctxt.filled.zeroed (ctxt.filled.padlen - 8)) := by
  have hmod : bytes.length % 64 < 64 := Nat.mod_lt _ (by decide)
  by_cases hfull : 64 - bytes.length % 64 < 8
  · have hheld := hfed.zeroed (n := 64 - bytes.length % 64) (by omega)
    have hstep := hheld.fed_step (by rw [List.length_replicate]; omega)
    have hfilled : ctxt.filled = step (ctxt.zeroed (64 - bytes.length % 64)) := by
      rw [Ctxt.filled, hfed.padlen, if_pos hfull]
    rw [← hfilled] at hstep
    have hlen : (bytes ++ List.replicate (64 - bytes.length % 64) (UInt8.ofNat 0)).length % 64
        = 0 := by
      rw [List.length_append, List.length_replicate]
      omega
    have hpadlen : ctxt.filled.padlen - 8 = 56 := by
      rw [hstep.padlen, hlen]
    have hsum : 64 - bytes.length % 64 + 56 = (120 - bytes.length % 64) % 64 := by omega
    have hheld' := hstep.zeroed (n := 56) (by omega)
    have hfed' := hheld'.fed (by rw [List.length_replicate]; omega)
    rw [List.append_assoc, List.replicate_append_replicate, hsum] at hfed'
    rw [hpadlen]
    exact hfed'
  · have hfilled : ctxt.filled = ctxt := by
      rw [Ctxt.filled, hfed.padlen, if_neg hfull]
    have hsum : 64 - bytes.length % 64 - 8 = (120 - bytes.length % 64) % 64 := by omega
    have hheld := hfed.zeroed (n := 64 - bytes.length % 64 - 8) (by omega)
    rw [hfilled, hfed.padlen, ← hsum]
    exact hheld.fed (by rw [List.length_replicate]; omega)

/-- The length stays that of the message. -/
theorem c_padded (ctxt : Ctxt) (n : ℕ) : (ctxt.filled.zeroed n).c = ctxt.c := by
  change ctxt.filled.c = ctxt.c
  rw [Ctxt.filled]
  split
  · exact step_c _
  · rfl

/-- **`sha1_pad` pads.** -/
theorem Fed.sha1Pad (hfed : Fed bytes ctxt) (hc : ctxt.c = UInt64.ofNat (8 * bytes.length)) :
    Fed (pad bytes) (sha1Pad ctxt) := by
  have hfed' := hfed.putPad (UInt8.ofNat 0x80)
  have hzeros := hfed'.padded
  have hlength := hzeros.putLength [7, 6, 5, 4, 3, 2, 1, 0]
  have hbytes : ∀ ctxt' : Ctxt, ctxt'.c = ctxt.c →
      [7, 6, 5, 4, 3, 2, 1, 0].map ctxt'.lengthByte = be 8 (8 * bytes.length) := by
    intro ctxt' hctxt'
    have hmap := map_le_eight ctxt'.c.toNat
    rw [hctxt', hc, UInt64.toNat_ofNat', be_eight_mod] at hmap
    rw [← hmap]
    refine List.map_congr_left fun i _ => ?_
    rw [Ctxt.lengthByte, hctxt', hc, UInt64.toNat_ofNat']
  have hzeros' : (120 - (bytes ++ [UInt8.ofNat 0x80]).length % 64) % 64
      = paddingZeros bytes.length := by
    rw [List.length_append, List.length_singleton, paddingZeros]
    omega
  rw [hbytes _ ((c_padded _ _).trans (c_putPad _ _)), hzeros'] at hlength
  rw [pad]
  exact hlength

end Padding

/-- Each word of the result is turned around. -/
theorem map_hashBytes (ctxt : Ctxt) :
    [3, 2, 1, 0, 7, 6, 5, 4, 11, 10, 9, 8, 15, 14, 13, 12, 19, 18, 17, 16].map
      (fun i => ctxt.hashBytes.getD i (UInt8.ofNat 0)) = ctxt.h.digest := rfl

end Sha1

/-- `SHA1`: every turn of the loop takes a byte at least. -/
def SHA1 (d : List UInt8) : List UInt8 := Sha1.sha1Result (Sha1.sha1Loop d.length Sha1.init d)

/-- A message that has been fed is hashed. -/
theorem Sha1.Fed.sha1Result {bytes : List UInt8} {ctxt : Ctxt} (hfed : Fed bytes ctxt)
    (hc : ctxt.c = UInt64.ofNat (8 * bytes.length)) : Sha1.sha1Result ctxt = sha1 bytes := by
  rw [Sha1.sha1Result, map_hashBytes, (hfed.sha1Pad hc).h, sha1]

/-- `SHA1` is the hash function of FIPS 180-1. -/
theorem SHA1_eq (d : List UInt8) : SHA1 d = sha1 d := by
  obtain ⟨hfed, hc⟩ := Sha1.fed_init.sha1Loop rfl (le_refl d.length)
  rw [List.nil_append] at hfed hc
  exact hfed.sha1Result hc

/-- The pieces go on where the last one has ended. -/
theorem Sha1.Fed.foldl {bytes : List UInt8} {ctxt : Ctxt} (hfed : Fed bytes ctxt)
    (hc : ctxt.c = UInt64.ofNat (8 * bytes.length)) (pieces : List (List UInt8)) :
    Fed (bytes ++ pieces.flatten)
        (pieces.foldl (fun ctxt d => Sha1.sha1Loop d.length ctxt d) ctxt) ∧
      (pieces.foldl (fun ctxt d => Sha1.sha1Loop d.length ctxt d) ctxt).c
        = UInt64.ofNat (8 * (bytes ++ pieces.flatten).length) := by
  induction pieces generalizing bytes ctxt with
  | nil =>
    rw [List.flatten_nil, List.append_nil]
    exact ⟨hfed, hc⟩
  | cons d pieces ih =>
    obtain ⟨hfed', hc'⟩ := hfed.sha1Loop hc (le_refl d.length)
    rw [List.foldl_cons, List.flatten_cons, ← List.append_assoc]
    exact ih hfed' hc'

/-- **A message may be fed in pieces**, whatever their lengths: what comes out is the hash of
FIPS 180-1 of the whole of it. -/
theorem sha1Result_pieces (pieces : List (List UInt8)) :
    Sha1.sha1Result (pieces.foldl (fun ctxt d => Sha1.sha1Loop d.length ctxt d) Sha1.init)
      = sha1 pieces.flatten := by
  obtain ⟨hfed, hc⟩ := Sha1.fed_init.foldl rfl pieces
  rw [List.nil_append] at hfed hc
  exact hfed.sha1Result hc

/-- The first example of the standard, `abc`. -/
example : SHA1 [97, 98, 99] = [0xa9, 0x99, 0x3e, 0x36, 0x47, 0x06, 0x81, 0x6a, 0xba, 0x3e, 0x25,
    0x71, 0x78, 0x50, 0xc2, 0x6c, 0x9c, 0xd0, 0xd8, 0x9d] := by decide +kernel

end KoheronSdk
