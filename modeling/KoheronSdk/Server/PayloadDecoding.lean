import KoheronSdk.Server.Truncation

/-!
# Arguments in the payload of a command

On a WebSocket the parser reads the payload of the command, by a cursor that nothing
stops at the end of the message.  It rejects a container that announces more bytes
than the buffer has, and this is its only check.

## Memory behind the message

The payload buffer is larger than most messages, and behind a message lies what an earlier one has
left there.  A parser whose cursor goes beyond the message takes its arguments from this memory.
That this does not happen can only be said for all contents of the memory at once: `FromMessage`
asks that in every run, whatever lies behind the message, the arguments are those that the message
itself spells, or that the parser makes an error of it.  The condition for this, `Fits`, goes
through the packs with the cursor.  It is also necessary, since zeros behind the message let the
parser succeed with a container of no bytes.

## Two decoders

A stream and a payload are read by different code, with different arithmetic on lengths: the one
divides the byte count of a vector as an `int64_t` and receives the quotient, the other one divides
a `uint32_t` and copies.  `Buffer.walk` is how far the cursor gets, as `Pack.bytes` is for a stream,
and `parser_websock_of_tcp` compares the two pack by pack.

* `Buffer.walk`: how far the cursor gets.
* `parser_fromMessage_iff`: the messages whose arguments are taken from the message
  alone are those that hold what they announce (`Fits`).
* `parser_websock_of_tcp`: what the parser makes of a stream it makes of a payload.
-/

namespace KoheronSdk

open Effects ByteOrder

/-! ## The first bytes of a pack -/

theorem elemCount_take {n : ℕ} (h : 4 ≤ n) (t : ScalarType) (bs : List UInt8) :
    elemCount t (bs.take n) = elemCount t bs := by
  rw [elemCount, elemCount, extractU32_take h]

/-- The length of a pack is found in its first bytes. -/
theorem Pack.bytes_take {p : Pack} {n : ℕ} (h : p.prefixBytes ≤ n) (bs : List UInt8) :
    p.bytes (bs.take n) = p.bytes bs := by
  cases p with
  | vector name t => rw [Pack.bytes, Pack.bytes, Pack.dataBytes, Pack.dataBytes, elemCount_take h]
  | string name => rw [Pack.bytes, Pack.bytes, Pack.dataBytes, Pack.dataBytes, extractU32_take h]
  | _ => rfl

/-- The values of a pack are found in its bytes. -/
theorem Pack.values_take {p : Pack} {n : ℕ} {bs : List UInt8} (h : p.bytes bs ≤ n) :
    p.values (bs.take n) = p.values bs := by
  cases p with
  | scalar args =>
    rw [Pack.values, Pack.values, extractAll_take (le_trans (Nat.le_add_left _ _) h)]
  | array name t k =>
    have hk : k * t.size ≤ n := le_trans (Nat.le_add_left _ _) h
    rw [Pack.values, Pack.values, List.take_take, Nat.min_eq_left hk]
  | vector name t =>
    have h' : 4 + elemCount t bs * t.size ≤ n := h
    rw [Pack.values, Pack.values, elemCount_take (by omega), List.drop_take, List.take_take,
      Nat.min_eq_left (by omega)]
  | string name =>
    have h' : 4 + (extractU32 bs).toNat ≤ n := h
    rw [Pack.values, Pack.values, extractU32_take (by omega), List.drop_take, List.take_take,
      Nat.min_eq_left (by omega)]

/-- Arguments that lie in the first bytes are read from these. -/
theorem readArgs_packs_take {packs : List Pack} {bs : List UInt8} {vals : List ArgVal} {k n : ℕ}
    (hk : k ≤ bs.length) (hread : readArgs (packTypes packs) bs = some (vals, bs.drop k))
    (hn : k ≤ n) :
    readArgs (packTypes packs) (bs.take n) = some (vals, (bs.take n).drop k) := by
  induction packs generalizing bs vals k n with
  | nil =>
    simp only [packTypes, List.flatMap_nil, readArgs, Option.some.injEq, Prod.mk.injEq] at hread
    have hk0 : k = 0 := by
      have := congrArg List.length hread.2
      rw [List.length_drop] at this
      omega
    subst hk0
    rw [← hread.1]
    rfl
  | cons p packs ih =>
    obtain ⟨us, vs, mid, hp, hps, rfl⟩ := readArgs_packs_cons.mp hread
    rw [readArgs_pack, Option.ite_none_right_eq_some, Option.some.injEq, Prod.mk.injEq] at hp
    obtain ⟨hle, rfl, rfl⟩ := hp
    obtain ⟨m, hm, hrest⟩ := length_of_readArgs hps
    rw [List.length_drop] at hm
    have hkm : k = p.bytes bs + m := by
      have := congrArg List.length hrest
      rw [List.drop_drop, List.length_drop, List.length_drop] at this
      omega
    have hpre : p.prefixBytes ≤ n := by
      rw [Pack.bytes] at hkm
      omega
    subst hkm
    rw [← List.drop_drop] at hps
    refine readArgs_packs_cons.mpr ⟨p.values bs, vs, (bs.take n).drop (p.bytes bs), ?_, ?_, rfl⟩
    · rw [readArgs_pack, Pack.bytes_take hpre, Pack.values_take (by omega),
        if_pos (by rw [List.length_take]; omega)]
    · rw [← List.drop_drop, List.drop_take]
      exact ih (by rw [List.length_drop]; omega) hps (by omega)

/-! ## The cursor -/

/-- The container announces more bytes than the payload buffer has. -/
def Pack.Oversized (p : Pack) (bs : List UInt8) : Prop :=
  0 < p.prefixBytes ∧ cmdPayloadBufferLen < (extractU32 bs).toNat

instance (p : Pack) (bs : List UInt8) : Decidable (p.Oversized bs) :=
  inferInstanceAs (Decidable (_ ∧ _))

/-- How many bytes the parser takes from a buffer, `none` when it rejects them. -/
def Buffer.walk : List Pack → Buffer → Option ℕ
  | [], _ => some 0
  | p :: packs, b =>
    if p.Oversized (b.bytes 4) then none
    else (Buffer.walk packs (b.skip (p.bytes (b.bytes 4)))).map (p.bytes (b.bytes 4) + ·)

/-- The size of a pack is the same for all bytes that the buffer holds. -/
theorem Buffer.Holds.packBytes_eq {b : Buffer} {bs : List UInt8} (h : b.Holds bs) {p : Pack}
    (hp : p.prefixBytes ≤ bs.length) : p.bytes (b.bytes 4) = p.bytes bs := by
  cases p with
  | vector name t => rw [h.bytes_eq (show 4 ≤ bs.length from hp), Pack.bytes_take (Nat.le_refl 4)]
  | string name => rw [h.bytes_eq (show 4 ≤ bs.length from hp), Pack.bytes_take (Nat.le_refl 4)]
  | _ => rfl

section Payload

variable {drivers : List Driver} {env : Env} {w : View} {arch : Arch}
  {driver operation : ℕ} {cmd : Command} {packs : List Pack} {p : Pack}

/-- The command when `n` bytes of its payload have been taken. -/
def Command.skipPayload (cmd : Command) (n : ℕ) : Command :=
  { cmd with payload := cmd.payload.skip n }

@[simp] theorem Command.payload_skipPayload (cmd : Command) (n : ℕ) :
    (cmd.skipPayload n).payload = cmd.payload.skip n := rfl

theorem Command.skipPayload_skipPayload (cmd : Command) (n m : ℕ) :
    (cmd.skipPayload n).skipPayload m = cmd.skipPayload (n + m) := by
  rw [skipPayload, skipPayload, skipPayload, Buffer.skip_skip]

/-- **One pack of a payload.** -/
theorem wp_parsePack_payload (hw : w.held = some driver)
    {post : Result Stop View (ℤ × Command) → Prop} :
    (session drivers env).wp (parsePack arch .websock driver operation cmd p) post w ↔
      if p.Oversized (cmd.payload.bytes 4) then post (.ret (-1, cmd.skipPayload 4) w)
      else post (.ret (0, cmd.skipPayload (p.bytes (cmd.payload.bytes 4)))
        (w.setArgs operation (p.names.zip
          (p.values (cmd.payload.bytes (p.bytes (cmd.payload.bytes 4))))))) := by
  -- the data of a container lie behind its length
  have hdata : ∀ n, ((cmd.payload.bytes (4 + n)).drop 4).take n
      = (cmd.payload.skip 4).bytes n := by
    intro n
    rw [Buffer.bytes_add, List.drop_left' (Buffer.length_bytes _ 4),
      List.take_of_length_le (Nat.le_of_eq (Buffer.length_bytes _ n))]
  have hhead : ∀ n, (cmd.payload.bytes (4 + n)).take 4 = cmd.payload.bytes 4 := by
    intro n
    rw [Buffer.bytes_add, List.take_left' (Buffer.length_bytes _ 4)]
  cases p with
  | scalar args =>
    have hover : ¬ Pack.Oversized (.scalar args) (cmd.payload.bytes 4) := fun h => by
      exact absurd h.1 (Nat.lt_irrefl 0)
    have hbytes : Pack.bytes (.scalar args) (cmd.payload.bytes 4)
        = requiredBufferSize (args.map Prod.snd) := Nat.zero_add _
    rw [if_neg hover, hbytes, Pack.names_scalar, parsePack, Handler.wp_bind]
    cases args with
    | nil => rfl
    | cons arg args =>
      have hlen : (extractAll ((arg :: args).map Prod.snd) (cmd.payload.bytes
          (requiredBufferSize ((arg :: args).map Prod.snd)))).length = (arg :: args).length := by
        simp
      rw [List.map_cons, deserialize, ← List.map_cons]
      change (session drivers env).wp (do
        storeScalars driver operation (arg :: args) _
        return (0, _)) post w ↔ _
      rw [Handler.wp_bind, wp_storeScalars hw hlen]
      rfl
  | array name t n =>
    have hover : ¬ Pack.Oversized (.array name t n) (cmd.payload.bytes 4) := fun h => by
      exact absurd h.1 (Nat.lt_irrefl 0)
    have hbytes : Pack.bytes (.array name t n) (cmd.payload.bytes 4) = n * t.size :=
      Nat.zero_add _
    have hvalues : Pack.values (.array name t n) (cmd.payload.bytes (n * t.size))
        = [.array (ofMemOf t n (cmd.payload.bytes (n * t.size)))] := by
      rw [Pack.values, List.take_of_length_le (Nat.le_of_eq (Buffer.length_bytes _ _))]
    rw [if_neg hover, hbytes, hvalues, parsePack, Handler.wp_bind, recvArray, WebSocket.recvArray,
      Handler.wp_bind, wp_store hw]
    rfl
  | vector name t =>
    have hcount : elemCount t (cmd.payload.bytes (4 + elemCount t (cmd.payload.bytes 4) * t.size))
        = elemCount t (cmd.payload.bytes 4) := by
      rw [← elemCount_take (Nat.le_refl 4), hhead]
    have hvalues : Pack.values (.vector name t)
        (cmd.payload.bytes (Pack.bytes (.vector name t) (cmd.payload.bytes 4)))
          = [.vector (ofMemOf t (elemCount t (cmd.payload.bytes 4))
            ((cmd.payload.skip 4).bytes (elemCount t (cmd.payload.bytes 4) * t.size)))] := by
      rw [Pack.bytes, Pack.prefixBytes, Pack.dataBytes, Pack.values, hcount, hdata]
    have hover : Pack.Oversized (.vector name t) (cmd.payload.bytes 4) ↔
        cmdPayloadBufferLen < cmd.payload.deserializeU32.1 :=
      ⟨And.right, fun h => ⟨Nat.succ_pos 3, h⟩⟩
    rw [parsePack, Handler.wp_bind, recvVector, WebSocket.recvVector]
    by_cases h : cmdPayloadBufferLen < cmd.payload.deserializeU32.1
    · rw [if_pos (hover.mpr h)]
      simp only [if_pos h]
      rfl
    · rw [if_neg (mt hover.mp h), hvalues]
      simp only [if_neg h]
      rw [Handler.wp_bind, wp_store hw, Handler.andThen_ret, Handler.wp_pure, Handler.andThen_ret,
        Command.skipPayload, Pack.bytes, ← Buffer.skip_skip]
      rfl
  | string name =>
    obtain ⟨n, hn⟩ : ∃ n, (extractU32 (cmd.payload.bytes 4)).toNat = n := ⟨_, rfl⟩
    have hlength : cmd.payload.deserializeU32 = (n, cmd.payload.skip 4) := by
      rw [← hn]
      rfl
    have hbytes : Pack.bytes (.string name) (cmd.payload.bytes 4) = 4 + n := by
      rw [← hn]
      rfl
    have hcount : (extractU32 (cmd.payload.bytes (4 + n))).toNat = n := by
      rw [← extractU32_take (Nat.le_refl 4), hhead, hn]
    have hvalues : Pack.values (.string name) (cmd.payload.bytes (4 + n))
        = [.string ((cmd.payload.skip 4).bytes n)] := by
      rw [Pack.values, hcount, hdata]
    have hover : Pack.Oversized (.string name) (cmd.payload.bytes 4) ↔ cmdPayloadBufferLen < n := by
      rw [← hn]
      exact ⟨And.right, fun h => ⟨Nat.succ_pos 3, h⟩⟩
    rw [parsePack, Handler.wp_bind, recvString, WebSocket.recvString, hlength, hbytes, hvalues]
    by_cases h : cmdPayloadBufferLen < n
    · rw [if_pos (hover.mpr h)]
      simp only [if_pos h]
      rfl
    · rw [if_neg (mt hover.mp h)]
      simp only [if_neg h]
      rw [Handler.wp_bind, wp_store hw, Handler.andThen_ret, Handler.wp_pure, Handler.andThen_ret,
        Command.skipPayload, ← Buffer.skip_skip]
      rfl

/-- A payload with a container that is too large is rejected. -/
theorem wp_parser_payload_of_none (hw : w.held = some driver)
    (hwalk : Buffer.walk packs cmd.payload = none) {post : Result Stop View (ℤ × Command) → Prop}
    (hpost : ∀ c w', post (.ret (-1, c) w')) :
    (session drivers env).wp (parser arch .websock driver operation packs cmd) post w := by
  induction packs generalizing cmd w with
  | nil => cases hwalk
  | cons p packs ih =>
    rw [Buffer.walk] at hwalk
    rw [parser, Handler.wp_bind, wp_parsePack_payload hw]
    split
    · exact hpost _ _
    · rename_i hover
      rw [if_neg hover, Option.map_eq_none_iff] at hwalk
      exact ih (by rw [View.held_setArgs, hw]) hwalk

/-- **What the parser takes from a payload**: `k` bytes, and from these the arguments. -/
theorem exists_wp_parser_payload (drivers : List Driver) (env : Env) (arch : Arch)
    (operation : ℕ) {k : ℕ} (hw : w.held = some driver)
    (hwalk : Buffer.walk packs cmd.payload = some k) :
    ∃ vals, (packNames packs).length = vals.length ∧
      (∀ bs, cmd.payload.Holds bs → k ≤ bs.length →
        readArgs (packTypes packs) bs = some (vals, bs.drop k)) ∧
      ∀ post : Result Stop View (ℤ × Command) → Prop,
        (session drivers env).wp (parser arch .websock driver operation packs cmd) post w ↔
          post (.ret (0, cmd.skipPayload k)
            (w.setArgs operation ((packNames packs).zip vals))) := by
  induction packs generalizing cmd w k with
  | nil =>
    obtain rfl : 0 = k := Option.some.inj hwalk
    exact ⟨[], rfl, fun bs _ _ => rfl, fun post => Iff.rfl⟩
  | cons p packs ih =>
    rw [Buffer.walk] at hwalk
    split at hwalk
    · cases hwalk
    · rename_i hover
      obtain ⟨m, hm, rfl⟩ := Option.map_eq_some_iff.mp hwalk
      obtain ⟨n, hn⟩ : ∃ n, p.bytes (cmd.payload.bytes 4) = n := ⟨_, rfl⟩
      rw [hn] at hm ⊢
      have hm' : Buffer.walk packs (cmd.skipPayload n).payload = some m := hm
      obtain ⟨vals, hlen, hread, hrest⟩ := ih
        (w := w.setArgs operation (p.names.zip (p.values (cmd.payload.bytes n))))
        (by rw [View.held_setArgs, hw]) hm'
      refine ⟨p.values (cmd.payload.bytes n) ++ vals, ?_, ?_, ?_⟩
      · rw [packNames_cons, List.length_append, List.length_append, hlen, p.length_values]
      · intro bs hholds hle
        have hbytes : p.bytes bs = n := by
          rw [← hn, hholds.packBytes_eq]
          exact le_trans (le_trans (Nat.le_add_right _ _) (Nat.le_of_eq hn))
            (le_trans (Nat.le_add_right n m) hle)
        have hn_le : n ≤ bs.length := le_trans (Nat.le_add_right n m) hle
        refine readArgs_packs_cons.mpr ⟨p.values bs, vals, bs.drop n, ?_, ?_, ?_⟩
        · rw [readArgs_pack, hbytes, if_pos hn_le]
        · rw [← List.drop_drop]
          exact hread (bs.drop n) (hholds.skip hn_le) (by rw [List.length_drop]; omega)
        · rw [hholds.bytes_eq hn_le, Pack.values_take (Nat.le_of_eq hbytes)]
      · intro post
        have hzip : (packNames (p :: packs)).zip (p.values (cmd.payload.bytes n) ++ vals)
            = p.names.zip (p.values (cmd.payload.bytes n)) ++ (packNames packs).zip vals := by
          rw [packNames_cons, List.zip_append (p.length_values _).symm]
        rw [parser, Handler.wp_bind, wp_parsePack_payload hw, if_neg hover, hn]
        simp only [Handler.andThen_ret, lt_self_iff_false, if_false]
        rw [hrest, hzip, View.setArgs_append, Command.skipPayload_skipPayload]

end Payload

/-! ## Messages that hold what they announce -/

/-- The message holds what the packs announce, as far as they are looked at: a container
that is too large is rejected, and what is behind it does not matter.  The bytes of a
length that are missing count as zeros. -/
def Fits : List Pack → List UInt8 → Prop
  | [], _ => True
  | p :: packs, bs =>
    p.Oversized bs ∨ p.bytes bs ≤ bs.length ∧ Fits packs (bs.drop (p.bytes bs))

instance decidableFits : ∀ (packs : List Pack) (bs : List UInt8), Decidable (Fits packs bs)
  | [], _ => inferInstanceAs (Decidable True)
  | p :: packs, bs =>
    have := decidableFits packs (bs.drop (p.bytes bs))
    inferInstanceAs (Decidable (p.Oversized bs ∨ p.bytes bs ≤ bs.length ∧
      Fits packs (bs.drop (p.bytes bs))))

theorem toNat_extractU32_eq (buff : List UInt8) :
    (extractU32 buff).toNat
      = ofBe [byteAt buff 0, byteAt buff 1, byteAt buff 2, byteAt buff 3] :=
  toNat_extractU32 (byteAt buff 0) (byteAt buff 1) (byteAt buff 2) (byteAt buff 3) []

/-- The size of a pack depends on the number in front of it. -/
theorem Pack.bytes_congr {p : Pack} {bs bs' : List UInt8} (h : extractU32 bs = extractU32 bs') :
    p.bytes bs = p.bytes bs' := by
  cases p with
  | vector name t => rw [Pack.bytes, Pack.bytes, Pack.dataBytes, Pack.dataBytes, elemCount,
      elemCount, h]
  | string name => rw [Pack.bytes, Pack.bytes, Pack.dataBytes, Pack.dataBytes, h]
  | _ => rfl

theorem Buffer.byteAt_bytes (b : Buffer) {n i : ℕ} (h : i < n) :
    byteAt (b.bytes n) i = b.data (b.position + i) := by
  rw [byteAt, List.getD_eq_getElem?_getD, List.getElem?_eq_getElem (by rwa [length_bytes])]
  simp [bytes]

/-- Bytes that are missing can only make a length larger. -/
theorem Buffer.Holds.extractU32_le {b : Buffer} {bs : List UInt8} (h : b.Holds bs) :
    (extractU32 bs).toNat ≤ (extractU32 (b.bytes 4)).toNat := by
  have hbyte : ∀ i, i < 4 → (byteAt bs i).toNat ≤ (byteAt (b.bytes 4) i).toNat := by
    intro i hi
    by_cases hlt : i < bs.length
    · have hb : byteAt (b.bytes bs.length) i = byteAt (b.bytes 4) i := by
        rw [b.byteAt_bytes hlt, b.byteAt_bytes hi]
      rw [← hb, h]
    · have hb : byteAt bs i = 0 := by
        rw [byteAt, List.getD_eq_getElem?_getD, List.getElem?_eq_none (Nat.not_lt.mp hlt),
          Option.getD_none]
      rw [hb]
      exact Nat.zero_le _
  rw [toNat_extractU32_eq, toNat_extractU32_eq]
  have h0 := hbyte 0 (by decide)
  have h1 := hbyte 1 (by decide)
  have h2 := hbyte 2 (by decide)
  have h3 := hbyte 3 (by decide)
  simp only [ofBe_cons, ofBe_nil, List.length_cons, List.length_nil]
  omega

theorem Buffer.Holds.oversized {b : Buffer} {bs : List UInt8} (h : b.Holds bs) {p : Pack}
    (hp : p.Oversized bs) : p.Oversized (b.bytes 4) :=
  ⟨hp.1, lt_of_lt_of_le hp.2 h.extractU32_le⟩

/-- The cursor stays in a message that holds what it announces. -/
theorem walk_le {packs : List Pack} {bs : List UInt8} {b : Buffer} (hholds : b.Holds bs)
    (hfits : Fits packs bs) {k : ℕ} (hwalk : Buffer.walk packs b = some k) : k ≤ bs.length := by
  induction packs generalizing bs b k with
  | nil =>
    obtain rfl : 0 = k := Option.some.inj hwalk
    exact Nat.zero_le _
  | cons p packs ih =>
    rw [Buffer.walk] at hwalk
    split at hwalk
    · cases hwalk
    · rename_i hover
      obtain ⟨hle, hrest⟩ := hfits.resolve_left fun h => hover (hholds.oversized h)
      have hbytes : p.bytes (b.bytes 4) = p.bytes bs :=
        hholds.packBytes_eq (le_trans (Nat.le_add_right _ _) hle)
      rw [hbytes] at hwalk
      obtain ⟨m, hm, rfl⟩ := Option.map_eq_some_iff.mp hwalk
      have := ih (hholds.skip hle) hrest hm
      rw [List.length_drop] at this
      omega

/-- The buffer holds `bs`, and zeros behind it. -/
def Buffer.ZerosAfter (b : Buffer) (bs : List UInt8) : Prop :=
  ∀ i, b.data (b.position + i) = byteAt bs i

theorem Buffer.ZerosAfter.extractU32_eq {b : Buffer} {bs : List UInt8} (h : b.ZerosAfter bs) :
    extractU32 (b.bytes 4) = extractU32 bs := by
  have hbyte : ∀ i, i < 4 → byteAt (b.bytes 4) i = byteAt bs i :=
    fun i hi => (b.byteAt_bytes hi).trans (h i)
  rw [extractU32, extractU32, hbyte 0 (by decide), hbyte 1 (by decide), hbyte 2 (by decide),
    hbyte 3 (by decide)]

theorem Buffer.ZerosAfter.skip {b : Buffer} {bs : List UInt8} (h : b.ZerosAfter bs) (n : ℕ) :
    (b.skip n).ZerosAfter (bs.drop n) := by
  intro i
  rw [position_skip, data_skip, Nat.add_assoc, h (n + i), byteAt, byteAt,
    List.getD_eq_getElem?_getD, List.getD_eq_getElem?_getD, List.getElem?_drop]

/-- Zeros are not rejected: they are empty containers. -/
theorem exists_walk_zeros (packs : List Pack) {b : Buffer} (h : b.ZerosAfter []) :
    ∃ k, Buffer.walk packs b = some k := by
  induction packs generalizing b with
  | nil => exact ⟨0, rfl⟩
  | cons p packs ih =>
    have hover : ¬ p.Oversized (b.bytes 4) := by
      rw [Pack.Oversized, h.extractU32_eq]
      exact fun hp => absurd hp.2 (by decide)
    have hskip := h.skip (p.bytes (b.bytes 4))
    rw [List.drop_nil] at hskip
    obtain ⟨m, hm⟩ := ih hskip
    exact ⟨_, by rw [Buffer.walk, if_neg hover, hm, Option.map_some]⟩

/-- When the message does not hold what it announces, and zeros happen to follow it, the
cursor leaves it. -/
theorem exists_walk_gt {packs : List Pack} {bs : List UInt8} {b : Buffer} (h : b.ZerosAfter bs)
    (hfits : ¬ Fits packs bs) : ∃ k, Buffer.walk packs b = some k ∧ bs.length < k := by
  induction packs generalizing bs b with
  | nil => exact absurd trivial hfits
  | cons p packs ih =>
    rw [Fits, not_or, not_and] at hfits
    obtain ⟨hover, hrest⟩ := hfits
    have hover' : ¬ p.Oversized (b.bytes 4) := by
      rwa [Pack.Oversized, h.extractU32_eq]
    have hbytes : p.bytes (b.bytes 4) = p.bytes bs := Pack.bytes_congr h.extractU32_eq
    have hskip := h.skip (p.bytes bs)
    by_cases hle : p.bytes bs ≤ bs.length
    · obtain ⟨m, hm, hlt⟩ := ih hskip (hrest hle)
      rw [List.length_drop] at hlt
      refine ⟨p.bytes bs + m, ?_, by omega⟩
      rw [Buffer.walk, if_neg hover', hbytes, hm, Option.map_some]
    · rw [List.drop_eq_nil_of_le (Nat.le_of_not_le hle)] at hskip
      obtain ⟨m, hm⟩ := exists_walk_zeros packs hskip
      refine ⟨p.bytes bs + m, ?_, by omega⟩
      rw [Buffer.walk, if_neg hover', hbytes, hm, Option.map_some]

/-- The arguments were taken from the message: the parser made an error of it, or it
stored what the message begins with, and its cursor is behind that. -/
def FromMessage (op : Operation) (operation : ℕ) (bs : List UInt8)
    (r : Result Stop View (ℤ × Command)) : Prop :=
  ∃ err cmd w, r = .ret (err, cmd) w ∧
    (err < 0 ∨ cmd.payload.position ≤ bs.length ∧
      ∃ vals, readArgs op.types bs = some (vals, bs.drop cmd.payload.position) ∧
        (op.arguments.map Arg.name).map (w.args operation) = vals.map some)

section Message

variable {drivers : List Driver} {env : Env} {w : View} {arch : Arch}
  {driver operation : ℕ} {op : Operation}

theorem wp_parser_fromMessage (hw : w.held = some driver) {cmd : Command} {bs : List UInt8}
    (hpos : cmd.payload.position = 0) (hholds : cmd.payload.Holds bs)
    (hfits : Fits op.packs bs) :
    (session drivers env).wp (parser arch .websock driver operation op.packs cmd)
      (FromMessage op operation bs) w := by
  cases hwalk : Buffer.walk op.packs cmd.payload with
  | none => exact wp_parser_payload_of_none hw hwalk fun _ _ => ⟨_, _, _, rfl, Or.inl (by decide)⟩
  | some k =>
    obtain ⟨vals, hlen, hread, hwp⟩ :=
      exists_wp_parser_payload drivers env arch operation hw hwalk
    have hle := walk_le hholds hfits hwalk
    have hk : (cmd.skipPayload k).payload.position = k := by
      rw [Command.payload_skipPayload, Buffer.position_skip, hpos, Nat.zero_add]
    rw [op.packNames_packs] at hlen
    rw [hwp, op.packNames_packs]
    refine ⟨_, _, _, rfl, Or.inr ⟨by rw [hk]; exact hle, vals, ?_,
      Operation.map_args_setArgs w operation op hlen⟩⟩
    rw [hk, ← op.packTypes_packs]
    exact hread bs hholds hle

theorem fits_of_fromMessage {bs : List UInt8} (hw : w.held = some driver)
    (h : ∀ cmd : Command, cmd.payload.position = 0 → cmd.payload.Holds bs →
      ∀ pick, (session drivers .any).Allows pick →
        FromMessage op operation bs ((session drivers .any).exec pick 0
          (parser arch .websock driver operation op.packs cmd) w)) :
    Fits op.packs bs := by
  by_contra hfits
  -- a command with zeros behind the message
  obtain ⟨cmd, hcmd⟩ : ∃ cmd : Command, cmd.payload = ⟨Buffer.overlay bs fun _ => 0, 0⟩ :=
    ⟨⟨0, 0, ⟨fun _ => 0, 0⟩, ⟨Buffer.overlay bs fun _ => 0, 0⟩⟩, rfl⟩
  have hzeros : cmd.payload.ZerosAfter bs := by
    rw [hcmd]
    intro i
    rw [Nat.zero_add]
    rfl
  obtain ⟨k, hwalk, hlt⟩ := exists_walk_gt hzeros hfits
  obtain ⟨vals, -, -, hwp⟩ := exists_wp_parser_payload drivers .any arch operation hw hwalk
  have hrun := h cmd (by rw [hcmd]) (by rw [hcmd]; exact Buffer.holds_overlay bs _)
  rw [(session drivers .any).forall_exec_iff_wp (session_live drivers Env.any_possible), hwp]
    at hrun
  obtain ⟨err, cmd', w', hret, hrun⟩ := hrun
  simp only [Result.ret.injEq, Prod.mk.injEq] at hret
  obtain ⟨⟨rfl, rfl⟩, rfl⟩ := hret
  rcases hrun with hneg | ⟨hle, -⟩
  · exact absurd hneg (Int.lt_irrefl 0)
  · rw [Command.payload_skipPayload, Buffer.position_skip, hcmd, Nat.zero_add] at hle
    omega

/-- **When WebSocket arguments come from the message alone**: in every run, whatever the
memory behind the message holds, if and only if the message holds what it announces. -/
theorem parser_fromMessage_iff (arch : Arch) (drivers : List Driver) (op : Operation)
    (operation : ℕ) (bs : List UInt8) (hw : w.held = some driver) :
    (∀ cmd : Command, cmd.payload.position = 0 → cmd.payload.Holds bs →
      ∀ pick, (session drivers .any).Allows pick →
        FromMessage op operation bs ((session drivers .any).exec pick 0
          (parser arch .websock driver operation op.packs cmd) w)) ↔
      Fits op.packs bs := by
  refine ⟨fits_of_fromMessage hw, ?_⟩
  intro hfits cmd hpos hholds pick hpick
  exact (session drivers .any).wp_exec hpick (wp_parser_fromMessage hw hpos hholds hfits) 0

end Message

/-- The bytes of arguments for `set`; the length of the vector is odd. -/
def probePayload : List UInt8 :=
  [0, 0, 0, 77, 1, 0, 0, 0, 5, 1, 0, 2, 0, 0, 0, 0, 1, 79, 3, 4]

theorem parser_fromMessage_probeSet :
    FromMessage probeSet 0 probePayload
      ((session probeDrivers .any).exec (eager probeDrivers) 0
        (parser .lp64 .websock 2 0 probeSet.packs
          ⟨2, 0, ⟨fun _ => 0, 0⟩, ⟨Buffer.overlay probePayload fun _ => 7, 0⟩⟩)
        ((View.start [] .eof).locked 2 fun _ _ => none)) :=
  (parser_fromMessage_iff .lp64 probeDrivers probeSet 0 _ rfl).mpr (by decide +kernel) _ rfl
    (Buffer.holds_overlay probePayload fun _ => 7) (eager probeDrivers)
    (eager_allows_any probeDrivers)

/-- A frame of 8 bytes for an operation with arguments: they are taken from memory that
nothing was written to. -/
theorem not_fromMessage_of_empty :
    ¬ ∀ cmd : Command, cmd.payload.position = 0 → cmd.payload.Holds [] →
      ∀ pick, (session probeDrivers .any).Allows pick →
        FromMessage probeSet 0 [] ((session probeDrivers .any).exec pick 0
          (parser .lp64 .websock 2 0 probeSet.packs cmd)
          ((View.start [] .eof).locked 2 fun _ _ => none)) := by
  intro h
  exact absurd (fits_of_fromMessage rfl h) (by decide)

/-! ## The two decoders agree -/

section Agree

variable {drivers : List Driver} {env : Env} {w : View} {arch : Arch} {type : SockType}
  {driver operation : ℕ} {cmd : Command} {packs : List Pack}

/-- On a stream that stays open a parser that succeeds has read its arguments. -/
theorem wp_parser_waiting (htype : type ≠ .websock) (hw : w.held = some driver)
    (hend : w.ending = .waiting) {post : Result Stop View (ℤ × Command) → Prop}
    (hhalt : ∀ s w', post (.halt s w')) (herror : ∀ w', post (.ret (-1, cmd) w'))
    (hpost : ∀ vals k, k ≤ w.input.length →
      readArgs (packTypes packs) w.input = some (vals, w.input.drop k) →
      (∀ p ∈ packs, ¬ toInt p.fixedBytes < 0) → (∀ v ∈ vals, v.Counted) →
      post (.ret (0, cmd) ((w.setArgs operation ((packNames packs).zip vals)).advance k))) :
    (session drivers env).wp (parser arch type driver operation packs cmd) post w := by
  induction packs generalizing w with
  | nil =>
    exact hpost [] 0 (Nat.zero_le _) rfl (fun p hp => (List.not_mem_nil hp).elim)
      fun v hv => (List.not_mem_nil hv).elim
  | cons p packs ih =>
    rw [parser, Handler.wp_bind]
    by_cases hpre : p.prefixBytes ≤ w.input.length
    swap
    · rw [wp_parsePack_prefix_waiting htype hend (Nat.not_le.mp hpre)]
      exact hhalt _ _
    by_cases hmax : p.Allocatable arch w.input
    swap
    · rw [wp_parsePack_of_not_allocatable htype hpre hmax]
      exact hhalt _ _
    by_cases hle : p.bytes w.input ≤ w.input.length
    swap
    · obtain ⟨left, -, hwp⟩ := wp_parsePack_of_lt drivers env arch operation cmd htype hw hpre
        hmax (Nat.not_le.mp hle)
      rw [hwp, hend]
      exact fun _ => hhalt _ _
    by_cases hneg : toInt (p.dataBytes w.input) < 0
    · exact wp_parsePack_of_negative htype hw hle hmax hneg fun w' _ => herror w'
    · rw [wp_parsePack_of_le htype hw hle hmax hneg]
      refine ih ?_ ?_ ?_
      · rw [View.held_advance, View.held_setArgs, hw]
      · rw [View.ending_advance, View.ending_setArgs, hend]
      · intro vals k hk hread hfixed hcounted
        rw [View.input_advance, View.input_setArgs] at hk hread
        rw [List.length_drop] at hk
        obtain ⟨hfixed', hcounted'⟩ := (p.counted_iff arch hle).mp ⟨hmax, hneg⟩
        have hzip : (packNames (p :: packs)).zip (p.values w.input ++ vals)
            = p.names.zip (p.values w.input) ++ (packNames packs).zip vals := by
          rw [packNames_cons, List.zip_append (p.length_values _).symm]
        have h := hpost (p.values w.input ++ vals) (p.bytes w.input + k) (by omega) ?_
          (List.forall_mem_cons.mpr ⟨hfixed', hfixed⟩)
          (List.forall_mem_append.mpr ⟨hcounted', hcounted⟩)
        · rw [hzip, View.setArgs_append, ← View.advance_advance] at h
          rw [View.advance_setArgs]
          exact h
        · refine readArgs_packs_cons.mpr ⟨_, vals, w.input.drop (p.bytes w.input), ?_, ?_, rfl⟩
          · rw [readArgs_pack, if_pos hle]
          · rw [← List.drop_drop]
            exact hread

/-- A container that is in the payload is not too large for it. -/
theorem Pack.not_oversized {p : Pack} {bs : List UInt8} (hle : p.bytes bs ≤ bs.length)
    (hlen : bs.length ≤ 262080) : ¬ p.Oversized bs := by
  rintro ⟨hpre, hover⟩
  rw [cmdPayloadBufferLen] at hover
  cases p with
  | vector name t =>
    have hle' : 4 + (extractU32 bs).toNat / t.size * t.size ≤ bs.length := hle
    have hlt := Nat.lt_div_mul_add t.size_pos (a := (extractU32 bs).toNat)
    have hsize := t.size_le
    omega
  | string name =>
    have hle' : 4 + (extractU32 bs).toNat ≤ bs.length := hle
    omega
  | _ => exact absurd hpre (Nat.lt_irrefl 0)

/-- The cursor gets as far as the arguments reach. -/
theorem walk_of_readArgs {bs : List UInt8} {b : Buffer} (hholds : b.Holds bs)
    (hlen : bs.length ≤ 262080) {vals : List ArgVal} {k : ℕ} (hk : k ≤ bs.length)
    (hread : readArgs (packTypes packs) bs = some (vals, bs.drop k)) :
    Buffer.walk packs b = some k := by
  induction packs generalizing bs b vals k with
  | nil =>
    simp only [packTypes, List.flatMap_nil, readArgs, Option.some.injEq, Prod.mk.injEq] at hread
    have h := congrArg List.length hread.2
    rw [List.length_drop] at h
    rw [Buffer.walk, Option.some.injEq]
    omega
  | cons p packs ih =>
    obtain ⟨us, vs, mid, hp, hps, rfl⟩ := readArgs_packs_cons.mp hread
    rw [readArgs_pack, Option.ite_none_right_eq_some, Option.some.injEq, Prod.mk.injEq] at hp
    obtain ⟨hle, rfl, rfl⟩ := hp
    obtain ⟨m, hm, hrest⟩ := length_of_readArgs hps
    rw [List.length_drop] at hm
    have hkm : k = p.bytes bs + m := by
      have h := congrArg List.length hrest
      rw [List.drop_drop, List.length_drop, List.length_drop] at h
      omega
    subst hkm
    rw [← List.drop_drop] at hps
    have hbytes : p.bytes (b.bytes 4) = p.bytes bs :=
      hholds.packBytes_eq (le_trans (Nat.le_add_right _ _) hle)
    have hover : ¬ p.Oversized (b.bytes 4) := by
      intro h
      have hpre : p.prefixBytes = 4 := by
        cases p with
        | vector name t => rfl
        | string name => rfl
        | _ => exact absurd h.1 (Nat.lt_irrefl 0)
      have h4 : 4 ≤ bs.length := by
        rw [← hpre]
        exact le_trans (Nat.le_add_right _ _) hle
      rw [hholds.bytes_eq h4, Pack.Oversized, extractU32_take (Nat.le_refl 4)] at h
      exact Pack.not_oversized hle hlen h
    rw [Buffer.walk, if_neg hover, hbytes]
    rw [ih (hholds.skip hle) (by rw [List.length_drop]; omega) (by rw [List.length_drop]; omega)
      hps, Option.map_some]

/-- **The decoders agree.**  When the parser succeeds on a stream, however it is cut,
and has read bytes of `payload` only, it succeeds on a command with this payload, with
the same arguments and with the cursor as far as the stream was read. -/
theorem parser_websock_of_tcp (arch : Arch) (drivers : List Driver) (op : Operation)
    (operation : ℕ) {payload more : List UInt8} (hlen : payload.length ≤ 262080)
    (htype : type ≠ .websock) {stream : View} (hheld : stream.held = some driver)
    (hstream : stream.input = payload ++ more) (hopen : stream.ending = .waiting)
    {frame : View} (hheld' : frame.held = some driver) {cmd' : Command}
    (hholds : cmd'.payload.Holds payload) :
    ∀ pick, (session drivers .any).Allows pick → ∀ err c w,
      (session drivers .any).exec pick 0 (parser arch type driver operation op.packs cmd) stream
        = .ret (err, c) w →
      0 ≤ err → w.consumed ≤ stream.consumed + payload.length →
      ∀ pick', (session drivers .any).Allows pick' → ∃ (vals : List ArgVal) (c' : Command)
        (w' : View),
        (session drivers .any).exec pick' 0
            (parser arch .websock driver operation op.packs cmd') frame = .ret (0, c') w' ∧
          (op.arguments.map Arg.name).map (w.args operation) = vals.map some ∧
          (op.arguments.map Arg.name).map (w'.args operation) = vals.map some ∧
          c'.payload.position = cmd'.payload.position + (w.consumed - stream.consumed) := by
  intro pick hpick err c w hrun herr hconsumed pick' hpick'
  have htcp : (session drivers .any).wp (parser arch type driver operation op.packs cmd)
      (fun r => ∀ err c w, r = .ret (err, c) w → 0 ≤ err →
        ∃ vals k, k ≤ stream.input.length ∧
          readArgs (packTypes op.packs) stream.input = some (vals, stream.input.drop k) ∧
          w = (stream.setArgs operation ((packNames op.packs).zip vals)).advance k) stream := by
    refine wp_parser_waiting htype hheld hopen ?_ ?_ ?_
    · intro s w' err c w h
      cases h
    · intro w' err c w h herr
      cases h
      exact absurd herr (by decide)
    · intro vals k hk hread _ _ err c w h _
      cases h
      exact ⟨vals, k, hk, hread, rfl⟩
  obtain ⟨vals, k, hk, hread, rfl⟩ :=
    (session drivers .any).wp_exec hpick htcp 0 err c w hrun herr
  rw [View.consumed_advance, View.consumed_setArgs] at hconsumed ⊢
  rw [View.args_advance]
  have hk' : k ≤ payload.length := by omega
  have hpayload : readArgs (packTypes op.packs) payload = some (vals, payload.drop k) := by
    have h := readArgs_packs_take hk hread hk'
    rwa [hstream, List.take_left] at h
  have hwalk := walk_of_readArgs hholds hlen hk' hpayload
  obtain ⟨vals', hlen', hread', hwp⟩ :=
    exists_wp_parser_payload drivers .any arch operation hheld' hwalk
  obtain rfl : vals' = vals := by
    have h := (hread' payload hholds hk').symm.trans hpayload
    simp only [Option.some.injEq, Prod.mk.injEq, and_true] at h
    exact h
  have hframe := (session drivers .any).wp_exec hpick' ((hwp fun r =>
    r = .ret (0, cmd'.skipPayload k)
      (frame.setArgs operation ((packNames op.packs).zip vals'))).mpr rfl) 0
  rw [op.packNames_packs] at hlen' hframe ⊢
  refine ⟨vals', _, _, hframe, Operation.map_args_setArgs stream operation op hlen',
    Operation.map_args_setArgs frame operation op hlen', ?_⟩
  rw [Command.payload_skipPayload, Buffer.position_skip]
  omega

end Agree

/-- A command with this payload, in memory that is not zero. -/
def probeFrame : Command := ⟨2, 0, ⟨fun _ => 0, 0⟩, ⟨Buffer.overlay probePayload fun _ => 7, 0⟩⟩

/-- Both decoders take the 20 bytes of the payload. -/
theorem parser_websock_of_tcp_probePayload :
    ∃ (vals : List ArgVal) (c' : Command) (w' : View),
      (session probeDrivers .any).exec (eager probeDrivers) 0
          (parser .lp64 .websock 2 0 probeSet.packs probeFrame)
          ((View.start [] .waiting).locked 2 fun _ _ => none) = .ret (0, c') w' ∧
        (probeSet.arguments.map Arg.name).map (w'.args 0) = vals.map some ∧
        c'.payload.position = 20 := by
  have hlen : probePayload.length ≤ 262080 := by decide
  have htype : SockType.tcp ≠ .websock := by decide
  have hread : readArgs (packTypes probeSet.packs) (probePayload ++ [1, 2]) =
      some ([.scalar (.uint32 77), .scalar (.bool true), .vector [.uint16 1, .uint16 2],
        .string [79], .array [.int8 3, .int8 4]], [1, 2]) := by decide +kernel
  have hwp : (session probeDrivers .any).wp (parser .lp64 .tcp 2 0 probeSet.packs probeFrame)
      (fun r => ∃ w, r = .ret (0, probeFrame) w ∧ w.consumed = 20)
      ((View.start (probePayload ++ [1, 2]) .waiting).locked 2 fun _ _ => none) := by
    refine (wp_parser_stream htype rfl hread (by decide) (by decide)).mpr ⟨_, rfl, ?_⟩
    rw [View.consumed_advance, View.consumed_setArgs]
    rfl
  obtain ⟨w, hrun, hconsumed⟩ :=
    (session probeDrivers .any).wp_exec (eager_allows_any probeDrivers) hwp 0
  have hheld : ((View.start [] .waiting).locked 2 fun _ _ => none).held = some 2 := rfl
  have hholds : probeFrame.payload.Holds probePayload := Buffer.holds_overlay probePayload _
  obtain ⟨vals, c', w', hframe, -, hargs, hpos⟩ :=
    parser_websock_of_tcp .lp64 probeDrivers probeSet 0 hlen htype rfl rfl rfl hheld hholds
      _ (eager_allows_any probeDrivers) _ _ _ hrun (by decide) (Nat.le_of_eq hconsumed)
      _ (eager_allows_any probeDrivers)
  rw [hconsumed] at hpos
  exact ⟨vals, c', w', hframe, hargs, hpos⟩

end KoheronSdk
