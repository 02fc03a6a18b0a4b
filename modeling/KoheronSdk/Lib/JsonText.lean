import KoheronSdk.Lib.QuotedText

/-!
# JSON texts in ASCII

A JSON text, by its tokens: strings, marks, and blanks wherever there may be some.  In a string
all is escaped that is not a printable ASCII character, as serialisers do by default, so that a text
is made of bytes below 128.

## Searching for a key

A program without a JSON parser looks for a key with its quotes, takes what is behind the next
colon, and goes on from there.  What it looks for may also be the end of a longer string: the quote
that ends a string is a quote like the one that begins it, and `"x\"name"` has the text `name"` with
a quote before it.  A string is therefore compared with a key by `EndsWith`, on what the string has
been escaped to.  What saves the search is that a string is no key: it has no colon behind it.
`Avoids` says so of tokens, and `avoids_member` that the members of an object do it, unless they
have the key.

## Objects

A serialiser may write the members in any order and put blanks anywhere.  `Serialises` is this
freedom, and `exists_member` the fact that a search uses: in front of a member of an object nothing
has its key.

* `escape`, `IsBare.ne_quote`: the text of a string, and what is in it as it is.
* `Token`, `text`, `significant`: a text with its blanks, and without them.
* `offset?_of_ends`, `offset?_cons`: where a quoted key is found in a text.
* `Value`, `object`: flat objects, and `exists_member`, the place of a member.
-/

namespace JsonText

open TextSearch
open QuotedText (IsKey IsKeyChar isAlpha_iff)

/-! ## Strings -/

/-- The UTF-8 encoding of a string. -/
def utf8 (s : List Char) : List UInt8 := s.flatMap String.utf8EncodeChar

/-- A hexadecimal digit. -/
def hexDigit (n : ℕ) : UInt8 := UInt8.ofNat (if n < 10 then 48 + n else 87 + n)

/-- `\uXXXX` -/
def unit (n : ℕ) : List UInt8 :=
  [92, 117, hexDigit (n / 4096 % 16), hexDigit (n / 256 % 16), hexDigit (n / 16 % 16),
    hexDigit (n % 16)]

/-- The characters with a short escape, and what stands behind its backslash. -/
def shortEscapes : List (Char × UInt8) :=
  [('"', 34), ('\\', 92), ('\n', 110), ('\r', 114), ('\t', 116), ('\x08', 98), ('\x0c', 102)]

/-- A printable ASCII character. -/
def IsPrintable (c : Char) : Prop := 32 ≤ c.toNat ∧ c.toNat ≤ 126

instance (c : Char) : Decidable (IsPrintable c) := inferInstanceAs (Decidable (_ ∧ _))

/-- A character of a string: as it is, with a short escape, or in UTF-16. -/
def escapeChar (c : Char) : List UInt8 :=
  match shortEscapes.lookup c with
  | some b => [92, b]
  | none =>
    if IsPrintable c then [UInt8.ofNat c.toNat]
    else if c.toNat < 0x10000 then unit c.toNat
    else unit (0xd800 + (c.toNat - 0x10000) / 1024) ++ unit (0xdc00 + (c.toNat - 0x10000) % 1024)

/-- A string, between its quotes. -/
def escape (s : List Char) : List UInt8 := s.flatMap escapeChar

@[simp] theorem escape_nil : escape [] = [] := rfl

@[simp] theorem escape_cons (c : Char) (s : List Char) :
    escape (c :: s) = escapeChar c ++ escape s := rfl

theorem hexDigit_ne : ∀ n < 16, hexDigit n ≠ 34 ∧ hexDigit n ≠ 92 := by decide

theorem unit_quote_notMem (n : ℕ) : 34 ∉ unit n := by
  have hdigit : ∀ m, 34 ≠ hexDigit (m % 16) := fun m =>
    (hexDigit_ne (m % 16) (Nat.mod_lt m (by decide))).1.symm
  simp only [unit, List.mem_cons, List.not_mem_nil, or_false, not_or]
  exact ⟨by decide, by decide, hdigit _, hdigit _, hdigit _, hdigit _⟩

theorem mem_of_lookup {c : Char} {b : UInt8} (h : shortEscapes.lookup c = some b) :
    (c, b) ∈ shortEscapes := by
  obtain ⟨before, after, heq, -⟩ := List.lookup_eq_some_iff.mp h
  rw [heq]
  exact List.mem_append_right _ List.mem_cons_self

/-- A character that is written as it is. -/
def IsBare (c : Char) : Prop := IsPrintable c ∧ c ≠ '"' ∧ c ≠ '\\'

instance (c : Char) : Decidable (IsBare c) := inferInstanceAs (Decidable (_ ∧ _ ∧ _))

theorem IsBare.lookup {c : Char} (h : IsBare c) : shortEscapes.lookup c = none := by
  refine List.lookup_eq_none_iff.mpr fun p hp => ?_
  obtain ⟨⟨hlow, -⟩, hquote, hback⟩ := h
  simp only [shortEscapes, List.mem_cons, List.not_mem_nil, or_false] at hp
  rw [bne_iff_ne]
  rcases hp with rfl | rfl | rfl | rfl | rfl | rfl | rfl
  · exact hquote
  · exact hback
  all_goals
    rintro rfl
    exact absurd hlow (by decide)

theorem IsBare.escapeChar {c : Char} (h : IsBare c) : escapeChar c = [UInt8.ofNat c.toNat] := by
  rw [JsonText.escapeChar, h.lookup]
  exact if_pos h.1

/-- The byte of a printable character is that of no other. -/
theorem ofNat_toNat_inj {c d : Char} (hc : IsPrintable c) (hd : IsPrintable d)
    (h : UInt8.ofNat c.toNat = UInt8.ofNat d.toNat) : c = d := by
  have hnat := congrArg UInt8.toNat h
  obtain ⟨-, hc⟩ := hc
  obtain ⟨-, hd⟩ := hd
  have hsize : UInt8.size = 256 := rfl
  rw [UInt8.toNat_ofNat_of_lt' (by omega), UInt8.toNat_ofNat_of_lt' (by omega)] at hnat
  exact Char.toNat_inj.mp hnat

theorem IsBare.ne_quote {c : Char} (h : IsBare c) : UInt8.ofNat c.toNat ≠ 34 := fun h34 =>
  h.2.1 (ofNat_toNat_inj h.1 (by decide) h34)

theorem IsBare.ne_backslash {c : Char} (h : IsBare c) : UInt8.ofNat c.toNat ≠ 92 := fun h92 =>
  h.2.2 (ofNat_toNat_inj h.1 (by decide) h92)

/-- The others begin with a backslash. -/
theorem head_escapeChar {c : Char} (h : ¬ IsBare c) : ∃ l, escapeChar c = 92 :: l := by
  rw [escapeChar]
  cases hlookup : shortEscapes.lookup c with
  | some b => exact ⟨_, rfl⟩
  | none =>
    have hother : ¬ IsPrintable c := by
      intro hprintable
      refine h ⟨hprintable, ?_, ?_⟩ <;> rintro rfl <;> exact absurd hlookup (by decide)
    simp only [if_neg hother]
    split <;> exact ⟨_, rfl⟩

theorem escapeChar_quote_notMem {c : Char} (h : c ≠ '"') : 34 ∉ escapeChar c := by
  rw [escapeChar]
  cases hlookup : shortEscapes.lookup c with
  | some b =>
    have hb : 34 ≠ b := by
      rintro rfl
      have hmem := mem_of_lookup hlookup
      simp only [shortEscapes, List.mem_cons, List.not_mem_nil, or_false, Prod.mk.injEq] at hmem
      rcases hmem with ⟨rfl, -⟩ | ⟨-, hb⟩ | ⟨-, hb⟩ | ⟨-, hb⟩ | ⟨-, hb⟩ | ⟨-, hb⟩ | ⟨-, hb⟩
      · exact h rfl
      all_goals exact absurd hb (by decide)
    show 34 ∉ [92, b]
    simp only [List.mem_cons, List.not_mem_nil, or_false, not_or]
    exact ⟨by decide, hb⟩
  | none =>
    by_cases hprintable : IsPrintable c
    · have hbare : IsBare c := ⟨hprintable, h, by rintro rfl; exact absurd hlookup (by decide)⟩
      simp only [if_pos hprintable]
      exact fun hmem => hbare.ne_quote (List.mem_singleton.mp hmem).symm
    · simp only [if_neg hprintable]
      split
      · exact unit_quote_notMem _
      · exact fun hmem => (List.mem_append.mp hmem).elim (unit_quote_notMem _) (unit_quote_notMem _)

/-! ## Tokens -/

/-- A blank. -/
inductive Blank where
  | space
  | tab
  | newline
  | carriageReturn
  deriving DecidableEq

/-- The byte of a blank. -/
def Blank.byte : Blank → UInt8
  | space => 32
  | tab => 9
  | newline => 10
  | carriageReturn => 13

/-- A mark. -/
inductive Mark where
  | beginObject
  | endObject
  | beginArray
  | endArray
  | comma
  | colon
  deriving DecidableEq

/-- The byte of a mark. -/
def Mark.byte : Mark → UInt8
  | beginObject => 123
  | endObject => 125
  | beginArray => 91
  | endArray => 93
  | comma => 44
  | colon => 58

/-- A token. -/
inductive Token where
  | str (s : List Char)
  | mark (m : Mark)
  | blank (b : Blank)
  deriving DecidableEq

namespace Token

/-- The text of a token. -/
def text : Token → List UInt8
  | str s => 34 :: (escape s ++ [34])
  | mark m => [m.byte]
  | blank b => [b.byte]

/-- The token is a blank. -/
def isBlank : Token → Bool
  | blank _ => true
  | _ => false

end Token

/-- The text of tokens. -/
def text (toks : List Token) : List UInt8 := toks.flatMap Token.text

/-- The tokens that are not blanks. -/
def significant (toks : List Token) : List Token := toks.filter fun tok => !tok.isBlank

@[simp] theorem text_nil : text [] = [] := rfl

theorem text_cons (tok : Token) (toks : List Token) : text (tok :: toks) = tok.text ++ text toks :=
  rfl

@[simp] theorem text_mark_cons (m : Mark) (toks : List Token) :
    text (.mark m :: toks) = m.byte :: text toks := rfl

@[simp] theorem text_blank_cons (b : Blank) (toks : List Token) :
    text (.blank b :: toks) = b.byte :: text toks := rfl

theorem text_str_cons (s : List Char) (toks : List Token) :
    text (.str s :: toks) = 34 :: (escape s ++ 34 :: text toks) := by
  rw [text_cons]
  show 34 :: ((escape s ++ [34]) ++ text toks) = _
  rw [List.append_assoc]
  rfl

theorem text_append (a b : List Token) : text (a ++ b) = text a ++ text b := List.flatMap_append

@[simp] theorem significant_nil : significant [] = [] := rfl

@[simp] theorem significant_blank_cons (b : Blank) (toks : List Token) :
    significant (.blank b :: toks) = significant toks := rfl

@[simp] theorem significant_mark_cons (m : Mark) (toks : List Token) :
    significant (.mark m :: toks) = .mark m :: significant toks := rfl

@[simp] theorem significant_str_cons (s : List Char) (toks : List Token) :
    significant (.str s :: toks) = .str s :: significant toks := rfl

theorem significant_append (a b : List Token) :
    significant (a ++ b) = significant a ++ significant b := List.filter_append ..

/-- Every token has a byte. -/
theorem length_le_length_text (toks : List Token) : toks.length ≤ (text toks).length := by
  induction toks with
  | nil => exact Nat.zero_le _
  | cons tok toks ih =>
    have htok : 1 ≤ tok.text.length := by
      cases tok with
      | str s => exact Nat.le_add_left 1 _
      | mark m => exact le_rfl
      | blank b => exact le_rfl
    rw [List.length_cons, text_cons, List.length_append]
    omega

/-! ## The search for a quoted key -/

variable {k : List Char}

/-- A key, between quotes. -/
def quoted (k : List Char) : List UInt8 := 34 :: (escape k ++ [34])

theorem isBare_of_isKeyChar {c : Char} (h : IsKeyChar c) : IsBare c := by
  rcases h with halpha | rfl
  · have hletter := isAlpha_iff.mp halpha
    refine ⟨⟨by omega, by omega⟩, ?_, ?_⟩ <;> rintro rfl <;> exact absurd halpha (by decide)
  · decide

/-- A key is at the begin of a string only if it is the string. -/
theorem quoted_prefix_iff (hk : ∀ c ∈ k, IsBare c) (s : List Char) (t : List UInt8) :
    escape k ++ [34] <+: escape s ++ 34 :: t ↔ s = k := by
  induction k generalizing s with
  | nil =>
    constructor
    · intro hpre
      cases s with
      | nil => rfl
      | cons d s =>
        by_cases hd : IsBare d
        · rw [escape_cons, hd.escapeChar] at hpre
          exact absurd (List.cons_prefix_cons.mp hpre).1.symm hd.ne_quote
        · obtain ⟨l, hl⟩ := head_escapeChar hd
          rw [escape_cons, hl] at hpre
          exact absurd (List.cons_prefix_cons.mp hpre).1 (by decide)
    · rintro rfl
      exact List.prefix_append [34] t
  | cons c k ih =>
    have hc := hk c List.mem_cons_self
    have ih' := ih (fun d hd => hk d (List.mem_cons_of_mem c hd))
    rw [escape_cons, hc.escapeChar]
    cases s with
    | nil =>
      refine ⟨fun hpre => ?_, fun h => absurd h (List.cons_ne_nil c k).symm⟩
      exact absurd (List.cons_prefix_cons.mp hpre).1 hc.ne_quote
    | cons d s =>
      rw [escape_cons]
      by_cases hd : IsBare d
      · rw [hd.escapeChar, List.append_assoc, List.append_assoc, List.singleton_append,
          List.singleton_append, List.cons_prefix_cons, ih', List.cons.injEq]
        refine and_congr_left fun _ => ⟨fun h => ?_, fun h => by rw [h]⟩
        exact (ofNat_toNat_inj hc.1 hd.1 h).symm
      · obtain ⟨l, hl⟩ := head_escapeChar hd
        rw [hl]
        refine ⟨fun hpre => ?_, fun h => ?_⟩
        · exact absurd (List.cons_prefix_cons.mp hpre).1 hc.ne_backslash
        · rw [(List.cons.inj h).1] at hd
          exact absurd hc hd

/-- No token begins with a letter. -/
theorem not_prefix_text (hk : IsKey k) (toks : List Token) : ¬ escape k ++ [34] <+: text toks := by
  obtain ⟨c, cs, rfl⟩ := List.exists_cons_of_ne_nil hk.1
  have hc := hk.2 c List.mem_cons_self
  have hbyte : ∀ d, IsPrintable d → ¬ IsKeyChar d → UInt8.ofNat c.toNat ≠ UInt8.ofNat d.toNat :=
    fun d hd hletter heq =>
      hletter (ofNat_toNat_inj (isBare_of_isKeyChar hc).1 hd heq ▸ hc)
  rw [escape_cons, (isBare_of_isKeyChar hc).escapeChar, List.append_assoc, List.singleton_append]
  intro hpre
  cases toks with
  | nil => exact absurd (List.prefix_nil.mp hpre) (List.cons_ne_nil _ _)
  | cons tok toks =>
    cases tok with
    | str s =>
      rw [text_str_cons] at hpre
      exact (isBare_of_isKeyChar hc).ne_quote (List.cons_prefix_cons.mp hpre).1
    | mark m =>
      have hm := (List.cons_prefix_cons.mp hpre).1
      cases m with
      | beginObject => exact hbyte '{' (by decide) (by decide) hm
      | endObject => exact hbyte '}' (by decide) (by decide) hm
      | beginArray => exact hbyte '[' (by decide) (by decide) hm
      | endArray => exact hbyte ']' (by decide) (by decide) hm
      | comma => exact hbyte ',' (by decide) (by decide) hm
      | colon => exact hbyte ':' (by decide) (by decide) hm
    | blank b =>
      have hb := (List.cons_prefix_cons.mp hpre).1
      have hlow := (isBare_of_isKeyChar hc).1
      have hnat := congrArg UInt8.toNat hb
      have hsize : UInt8.size = 256 := rfl
      obtain ⟨hlow, hhigh⟩ := hlow
      rw [UInt8.toNat_ofNat_of_lt' (by omega)] at hnat
      cases b with
      | space => exact hbyte ' ' (by decide) (by decide) hb
      | tab => exact absurd (hnat ▸ hlow) (by decide)
      | newline => exact absurd (hnat ▸ hlow) (by decide)
      | carriageReturn => exact absurd (hnat ▸ hlow) (by decide)

/-- The string ends with the key, with a quote before it. -/
def EndsWith (k s : List Char) : Prop := ∃ s', s = s' ++ '"' :: k

theorem endsWith_cons_quote (s : List Char) : EndsWith k ('"' :: s) ↔ s = k ∨ EndsWith k s := by
  constructor
  · rintro ⟨s', hs'⟩
    cases s' with
    | nil => exact Or.inl (List.cons.inj hs').2
    | cons d s' => exact Or.inr ⟨s', (List.cons.inj hs').2⟩
  · rintro (rfl | ⟨s', rfl⟩)
    · exact ⟨[], rfl⟩
    · exact ⟨'"' :: s', rfl⟩

theorem endsWith_cons {c : Char} (hc : c ≠ '"') (s : List Char) :
    EndsWith k (c :: s) ↔ EndsWith k s := by
  constructor
  · rintro ⟨s', hs'⟩
    cases s' with
    | nil => exact absurd (List.cons.inj hs').1 hc
    | cons d s' => exact ⟨s', (List.cons.inj hs').2⟩
  · rintro ⟨s', rfl⟩
    exact ⟨c :: s', rfl⟩

theorem length_quoted (k : List Char) : (quoted k).length = (escape k).length + 2 := by
  rw [quoted, List.length_cons, List.length_append, List.length_singleton]

/-- The search from within a string: a quote in the string may be taken for that of the key. -/
theorem offset?_within (hk : IsKey k) (s : List Char) (toks : List Token) :
    (EndsWith k s → ∃ n, offset? (quoted k) (escape s ++ 34 :: text toks) = some n ∧
      n + (quoted k).length = (escape s).length + 1) ∧
    (¬ EndsWith k s → offset? (quoted k) (escape s ++ 34 :: text toks)
      = (offset? (quoted k) (text toks)).map (· + ((escape s).length + 1))) := by
  have hbare : ∀ c ∈ k, IsBare c := fun c hc => isBare_of_isKeyChar (hk.2 c hc)
  induction s with
  | nil =>
    refine ⟨fun hends => ?_, fun _ => ?_⟩
    · obtain ⟨s', hs'⟩ := hends
      exact absurd (List.append_eq_nil_iff.mp hs'.symm).2 (List.cons_ne_nil _ _)
    · have hmiss : ¬ quoted k <+: 34 :: text toks := fun hpre =>
        not_prefix_text hk toks (List.cons_prefix_cons.mp hpre).2
      exact offset?_cons_of_mismatch hmiss
  | cons c s ih =>
    rw [escape_cons, List.append_assoc, List.length_append]
    by_cases hc : c = '"'
    · subst hc
      have hescape : escapeChar '"' = [92, 34] := rfl
      have hback : ¬ quoted k <+: 92 :: 34 :: (escape s ++ 34 :: text toks) := fun hpre =>
        absurd (List.cons_prefix_cons.mp hpre).1 (by decide)
      have hquote : quoted k <+: 34 :: (escape s ++ 34 :: text toks) ↔ s = k := by
        rw [quoted, List.cons_prefix_cons, and_iff_right rfl, quoted_prefix_iff hbare]
      rw [hescape, endsWith_cons_quote, List.cons_append, List.cons_append, List.nil_append,
        offset?_cons_of_mismatch hback]
      by_cases hs : s = k
      · refine ⟨fun _ => ⟨1, ?_, ?_⟩, fun hnot => absurd (Or.inl hs) hnot⟩
        · rw [offset?_of_begins (hquote.mpr hs), Option.map_some]
        · rw [length_quoted, hs]
          show 1 + ((escape k).length + 2) = 2 + (escape k).length + 1
          omega
      · rw [offset?_cons_of_mismatch (mt hquote.mp hs), or_iff_right hs]
        refine ⟨fun hends => ?_, fun hnot => ?_⟩
        · obtain ⟨n, hn, hlength⟩ := ih.1 hends
          refine ⟨n + 1 + 1, by rw [hn, Option.map_some, Option.map_some], ?_⟩
          show n + 1 + 1 + (quoted k).length = 2 + (escape s).length + 1
          omega
        · rw [ih.2 hnot, Option.map_map, Option.map_map]
          refine congrArg (Option.map · _) (funext fun n => ?_)
          show n + ((escape s).length + 1) + 1 + 1 = n + (2 + (escape s).length + 1)
          omega
    · rw [endsWith_cons hc, quoted, offset?_append_of_notMem (escapeChar_quote_notMem hc), ← quoted]
      refine ⟨fun hends => ?_, fun hnot => ?_⟩
      · obtain ⟨n, hn, hlength⟩ := ih.1 hends
        exact ⟨n + (escapeChar c).length, by rw [hn, Option.map_some], by omega⟩
      · rw [ih.2 hnot, Option.map_map]
        refine congrArg (Option.map · _) (funext fun n => ?_)
        show n + ((escape s).length + 1) + (escapeChar c).length = _
        omega

/-- The key would be found in the string. -/
def Ends (k s : List Char) : Prop := s = k ∨ EndsWith k s

/-- A string in which the key is found is over with it. -/
theorem offset?_of_ends (hk : IsKey k) {s : List Char} (hs : Ends k s) (toks : List Token) :
    ∃ n, offset? (quoted k) (text (.str s :: toks)) = some n ∧
      n + (quoted k).length = (Token.str s).text.length ∧ (s = k → n = 0) := by
  have hbare : ∀ c ∈ k, IsBare c := fun c hc => isBare_of_isKeyChar (hk.2 c hc)
  have hlength : (Token.str s).text.length = (escape s).length + 2 := length_quoted s
  rw [text_str_cons, hlength]
  by_cases hsk : s = k
  · refine ⟨0, offset?_of_begins ?_, ?_, fun _ => rfl⟩
    · rw [quoted, List.cons_prefix_cons, and_iff_right rfl]
      exact (quoted_prefix_iff hbare s _).mpr hsk
    · rw [length_quoted, hsk]
      omega
  · have hmiss : ¬ quoted k <+: 34 :: (escape s ++ 34 :: text toks) := fun hpre =>
      hsk ((quoted_prefix_iff hbare s _).mp (List.cons_prefix_cons.mp hpre).2)
    obtain ⟨n, hn, hend⟩ := (offset?_within hk s toks).1 (hs.resolve_left hsk)
    refine ⟨n + 1, ?_, by omega, fun h => absurd h hsk⟩
    rw [offset?_cons_of_mismatch hmiss, hn, Option.map_some]

/-- The search passes over a token in which the key is not found. -/
theorem offset?_cons (hk : IsKey k) {tok : Token} (htok : ∀ s, tok = .str s → ¬ Ends k s)
    (toks : List Token) : offset? (quoted k) (text (tok :: toks))
      = (offset? (quoted k) (text toks)).map (· + tok.text.length) := by
  have hbare : ∀ c ∈ k, IsBare c := fun c hc => isBare_of_isKeyChar (hk.2 c hc)
  cases tok with
  | str s =>
    obtain ⟨hsk, hends⟩ := not_or.mp (htok s rfl)
    have hmiss : ¬ quoted k <+: 34 :: (escape s ++ 34 :: text toks) := fun hpre =>
      hsk ((quoted_prefix_iff hbare s _).mp (List.cons_prefix_cons.mp hpre).2)
    have hlength : (Token.str s).text.length = (escape s).length + 2 := length_quoted s
    rw [text_str_cons, offset?_cons_of_mismatch hmiss, (offset?_within hk s toks).2 hends,
      Option.map_map, hlength]
    rfl
  | mark m =>
    have hm : (34 : UInt8) ∉ [m.byte] := by cases m <;> decide
    exact offset?_append_of_notMem hm (text toks)
  | blank b =>
    have hb : (34 : UInt8) ∉ [b.byte] := by cases b <;> decide
    exact offset?_append_of_notMem hb (text toks)

/-! ## Flat objects -/

/-- The values of a flat object. -/
inductive Value where
  | str (s : List Char)
  | array (elems : List (List Char))

/-- Lists of tokens with commas between them. -/
def commaSep : List (List Token) → List Token
  | [] => []
  | [item] => item
  | item :: next :: items => item ++ .mark .comma :: commaSep (next :: items)

/-- The tokens of a value. -/
def Value.tokens : Value → List Token
  | str s => [.str s]
  | array elems =>
    .mark .beginArray :: (commaSep (elems.map fun s => [.str s]) ++ [.mark .endArray])

/-- The tokens of a member. -/
def member (m : List Char × Value) : List Token := .str m.1 :: .mark .colon :: m.2.tokens

/-- The tokens of an object. -/
def object (members : List (List Char × Value)) : List Token :=
  .mark .beginObject :: (commaSep (members.map member) ++ [.mark .endObject])

/-- The tokens are those of an object with these members, in any order and with any spacing. -/
def Serialises (members : List (List Char × Value)) (toks : List Token) : Prop :=
  ∃ members', members'.Perm members ∧ significant toks = object members'

/-- No string in which the key is found has a colon behind it. -/
def Avoids (k : List Char) : List Token → Prop
  | [] => True
  | .str s :: toks => (toks.head? = some (.mark .colon) → ¬ Ends k s) ∧ Avoids k toks
  | _ :: toks => Avoids k toks

theorem avoids_append {a b : List Token} (ha : Avoids k a) (hb : Avoids k b)
    (hcolon : b.head? ≠ some (.mark .colon)) : Avoids k (a ++ b) := by
  induction a with
  | nil => exact hb
  | cons tok a ih =>
    cases tok with
    | mark m => exact ih ha
    | blank c => exact ih ha
    | str s =>
      refine ⟨fun hhead => ?_, ih ha.2⟩
      cases a with
      | nil => exact absurd hhead hcolon
      | cons next a => exact ha.1 hhead

theorem avoids_commaSep {items : List (List Token)} (hitems : ∀ item ∈ items, Avoids k item) :
    Avoids k (commaSep items) := by
  induction items with
  | nil => trivial
  | cons item items ih =>
    have hitem := hitems item List.mem_cons_self
    have ih' := ih fun i hi => hitems i (List.mem_cons_of_mem item hi)
    cases items with
    | nil => exact hitem
    | cons next items =>
      exact avoids_append hitem ih' fun h => absurd (Option.some.inj h) (by decide)

theorem avoids_tokens (v : Value) : Avoids k v.tokens := by
  cases v with
  | str s => exact ⟨fun h => absurd h (Option.some_ne_none _).symm, trivial⟩
  | array elems =>
    refine avoids_append (avoids_commaSep fun item hitem => ?_) trivial fun h =>
      absurd (Option.some.inj h) (by decide)
    obtain ⟨s, -, rfl⟩ := List.mem_map.mp hitem
    exact ⟨fun h => absurd h (Option.some_ne_none _).symm, trivial⟩

/-- Another key is not taken for the key. -/
theorem not_ends_of_ne {k' : List Char} (hk' : IsKey k') (hne : k' ≠ k) : ¬ Ends k k' := by
  rintro (heq | ⟨s', heq⟩)
  · exact hne heq
  · exact hk'.quote_notMem (heq ▸ List.mem_append_right s' List.mem_cons_self)

theorem avoids_member {m : List Char × Value} (hm : IsKey m.1) (hne : m.1 ≠ k) :
    Avoids k (member m) := ⟨fun _ => not_ends_of_ne hm hne, avoids_tokens m.2⟩

/-- The marks that a key may stand behind. -/
def Opens (m : Mark) : Prop := m = .beginObject ∨ m = .comma

theorem exists_member_commaSep {members : List (List Char × Value)} {v : Value}
    (hmem : (k, v) ∈ members) (hkeys : ∀ m ∈ members, IsKey m.1)
    (hnodup : (members.map Prod.fst).Nodup) :
    ∃ pre post, commaSep (members.map member) = pre ++ (member (k, v) ++ post) ∧ Avoids k pre ∧
      (pre = [] ∨ ∃ pre', pre = pre' ++ [.mark .comma]) := by
  induction members with
  | nil => cases hmem
  | cons m members ih =>
    rw [List.map_cons, List.nodup_cons] at hnodup
    rcases List.mem_cons.mp hmem with rfl | hmem'
    · cases members with
      | nil => exact ⟨[], [], (List.append_nil _).symm, trivial, Or.inl rfl⟩
      | cons next rest => exact ⟨[], _, rfl, trivial, Or.inl rfl⟩
    · obtain ⟨pre, post, heq, havoids, hlast⟩ :=
        ih hmem' (fun m' hm' => hkeys m' (List.mem_cons_of_mem m hm')) hnodup.2
      have hne : m.1 ≠ k := fun h => hnodup.1 (h ▸ List.mem_map.mpr ⟨(k, v), hmem', rfl⟩)
      obtain ⟨next, rest, rfl⟩ := List.exists_cons_of_ne_nil (List.ne_nil_of_mem hmem')
      refine ⟨member m ++ (.mark .comma :: pre), post, ?_, ?_, Or.inr ?_⟩
      · rw [List.map_cons, List.map_cons, commaSep, ← List.map_cons, heq, List.append_assoc]
        rfl
      · exact avoids_append (avoids_member (hkeys m List.mem_cons_self) hne) havoids fun h =>
          absurd (Option.some.inj h) (by decide)
      · rcases hlast with rfl | ⟨pre', rfl⟩
        · exact ⟨member m, rfl⟩
        · exact ⟨member m ++ .mark .comma :: pre', by rw [List.append_assoc]; rfl⟩

/-- **The place of a member in an object:** what is in front of it has not its key, and ends with
the brace or a comma. -/
theorem exists_member {members : List (List Char × Value)} {v : Value} (hmem : (k, v) ∈ members)
    (hkeys : ∀ m ∈ members, IsKey m.1) (hnodup : (members.map Prod.fst).Nodup) :
    ∃ pre m post, object members = pre ++ .mark m :: (member (k, v) ++ post) ∧ Opens m ∧
      Avoids k (pre ++ [.mark m]) := by
  obtain ⟨pre, post, heq, havoids, hlast⟩ := exists_member_commaSep hmem hkeys hnodup
  rcases hlast with rfl | ⟨pre', rfl⟩
  · refine ⟨[], .beginObject, post ++ [.mark .endObject], ?_, Or.inl rfl, trivial⟩
    rw [object, heq, List.nil_append, List.append_assoc]
    rfl
  · refine ⟨.mark .beginObject :: pre', .comma, post ++ [.mark .endObject], ?_, Or.inr rfl, havoids⟩
    rw [object, heq]
    simp only [List.append_assoc, List.cons_append, List.nil_append]

end JsonText
