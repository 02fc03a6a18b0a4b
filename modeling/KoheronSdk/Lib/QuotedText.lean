import KoheronSdk.Lib.TextSearch

/-!
# Quoted text and the search for keys

A text is made of tokens: quoted strings, numbers and punctuation.  A program that looks for a
key with a substring search, `"key":` and perhaps what follows it, finds the tokens of the key and
nothing else, whatever the strings are: a quote in the text begins or ends a string, so that the
key can only be a string with a colon behind it.

## Why tokens

Such a program knows nothing of tokens, it has positions in a text.  But what it finds can be said
in tokens alone, and then the searches can be followed without counting characters: `At` says which
tokens are behind a position, a search goes from one such position to another one (`At.find`), or
comes to nothing if no token is the key (`At.find_none`).  The strings must be such as need no
escape (`Token.Plain`).

## Windows

A search with a bound is a search in the tokens before the bound.  The text goes on behind it, and
a search without a bound would go on too, so that the bound must be compared with what is found;
`Window` has both parts, and `Window.find` says that what is in the window is found in it.

* `Token`, `text`: a text by its tokens.
* `offset?_append`: the search passes over tokens that are not the key.
* `At`: a position of the text, by the tokens behind it; `At.find` and `At.find_none`.
* `Window`: the tokens between two positions; `Window.find`.
* `Window.find_string`: the search for a key together with the string behind it.
-/

namespace QuotedText

open TextSearch

/-! ## Tokens -/

/-- A token: a quoted string, a number or a character of punctuation. -/
inductive Token where
  | str (s : List Char)
  | num (n : ℕ)
  | punct (c : Char)
  deriving DecidableEq

/-- The text of a token. -/
def Token.text : Token → List Char
  | .str s => '"' :: s ++ ['"']
  | .num n => Nat.toDigits 10 n
  | .punct c => [c]

/-- A token that can be read back: nothing in its string needs to be escaped. -/
def Token.Plain : Token → Prop
  | .str s => '"' ∉ s ∧ '\\' ∉ s
  | .num _ => True
  | .punct c => c ∈ ['{', '}', '[', ']', ',', ':']

instance : DecidablePred Token.Plain
  | .str s => inferInstanceAs (Decidable ('"' ∉ s ∧ '\\' ∉ s))
  | .num _ => inferInstanceAs (Decidable True)
  | .punct c => inferInstanceAs (Decidable (c ∈ ['{', '}', '[', ']', ',', ':']))

/-- The text of tokens. -/
def text (toks : List Token) : List Char := toks.flatMap Token.text

@[simp] theorem text_nil : text [] = [] := rfl

theorem text_cons (tok : Token) (toks : List Token) : text (tok :: toks) = tok.text ++ text toks :=
  rfl

theorem text_append (a b : List Token) : text (a ++ b) = text a ++ text b := List.flatMap_append

@[simp] theorem text_punct_cons (c : Char) (toks : List Token) :
    text (.punct c :: toks) = c :: text toks := rfl

theorem text_str_cons (s : List Char) (toks : List Token) :
    text (.str s :: toks) = '"' :: (s ++ '"' :: text toks) := by
  rw [text_cons]
  show '"' :: ((s ++ ['"']) ++ text toks) = _
  rw [List.append_assoc]
  rfl

@[simp] theorem length_text_str_cons (s : List Char) (toks : List Token) :
    (text (.str s :: toks)).length = s.length + 2 + (text toks).length := by
  rw [text_str_cons, List.length_cons, List.length_append, List.length_cons]
  omega

/-! ### Letters and digits -/

theorem isUpper_iff {c : Char} : c.isUpper = true ↔ 65 ≤ c.toNat ∧ c.toNat ≤ 90 :=
  decide_eq_true_iff

theorem isLower_iff {c : Char} : c.isLower = true ↔ 97 ≤ c.toNat ∧ c.toNat ≤ 122 := by
  show (decide (97 ≤ c.val) && decide (c.val ≤ 122)) = true ↔ _
  rw [Bool.and_eq_true, decide_eq_true_eq, decide_eq_true_eq]
  exact Iff.rfl

theorem isAlpha_iff {c : Char} : c.isAlpha = true ↔
    65 ≤ c.toNat ∧ c.toNat ≤ 90 ∨ 97 ≤ c.toNat ∧ c.toNat ≤ 122 := by
  show (c.isUpper || c.isLower) = true ↔ _
  rw [Bool.or_eq_true, isUpper_iff, isLower_iff]

theorem isDigit_iff {c : Char} : c.isDigit = true ↔ 48 ≤ c.toNat ∧ c.toNat ≤ 57 := by
  show (decide (48 ≤ c.val) && decide (c.val ≤ 57)) = true ↔ _
  rw [Bool.and_eq_true, decide_eq_true_eq, decide_eq_true_eq]
  exact Iff.rfl

/-! ### Keys -/

/-- A character of a key. -/
def IsKeyChar (c : Char) : Prop := c.isAlpha = true ∨ c = '_'

/-- A key: letters. -/
def IsKey (k : List Char) : Prop := k ≠ [] ∧ ∀ c ∈ k, IsKeyChar c

instance (c : Char) : Decidable (IsKeyChar c) := inferInstanceAs (Decidable (_ ∨ _))

instance (k : List Char) : Decidable (IsKey k) :=
  @instDecidableAnd _ _ _ (List.decidableBAll IsKeyChar k)

/-- The text of a key. -/
def key (k : List Char) : List Char := '"' :: (k ++ ['"', ':'])

theorem IsKey.quote_notMem {k : List Char} (hk : IsKey k) : '"' ∉ k := fun hmem =>
  absurd (hk.2 _ hmem) (by decide)

theorem IsKey.plain {k : List Char} (hk : IsKey k) : (Token.str k).Plain :=
  ⟨hk.quote_notMem, fun hmem => absurd (hk.2 _ hmem) (by decide)⟩

/-- No token begins with a letter. -/
theorem not_isKeyChar_of_head {toks : List Token} (hplain : ∀ tok ∈ toks, tok.Plain) {c : Char}
    {cs : List Char} (h : text toks = c :: cs) : ¬ IsKeyChar c := by
  cases toks with
  | nil => cases h
  | cons tok toks =>
    have htok := hplain tok List.mem_cons_self
    cases tok with
    | str s =>
      rw [text_str_cons] at h
      obtain ⟨rfl, -⟩ := List.cons.inj h
      decide
    | num n =>
      have hmem : c ∈ Nat.toDigits 10 n := by
        rw [text_cons] at h
        show c ∈ (Token.num n).text
        rcases hdigits : (Token.num n).text with _ | ⟨d, ds⟩
        · exact absurd hdigits Nat.toDigits_ne_nil
        · rw [hdigits] at h
          obtain ⟨rfl, -⟩ := List.cons.inj h
          exact List.mem_cons_self
      have hdigit : c.isDigit = true := Nat.isDigit_of_mem_toDigits (by decide) (by decide) hmem
      rintro (halpha | rfl)
      · have hletter := isAlpha_iff.mp halpha
        have hfigure := isDigit_iff.mp hdigit
        omega
      · exact absurd hdigit (by decide)
    | punct p =>
      obtain ⟨rfl, -⟩ := List.cons.inj h
      simp only [Token.Plain, List.mem_cons, List.not_mem_nil, or_false] at htok
      rcases htok with rfl | rfl | rfl | rfl | rfl | rfl <;> decide

/-! ### The search for a key -/

variable {k tail : List Char}

/-- Between the quotes of two strings without quotes there are the strings. -/
theorem prefix_of_quote_notMem {s rest : List Char} (hk : '"' ∉ k) (hs : '"' ∉ s) :
    k ++ '"' :: tail <+: s ++ '"' :: rest ↔ s = k ∧ tail <+: rest := by
  induction k generalizing s with
  | nil =>
    cases s with
    | nil =>
      rw [List.nil_append, List.nil_append, List.cons_prefix_cons]
      exact ⟨fun h => ⟨rfl, h.2⟩, fun h => ⟨rfl, h.2⟩⟩
    | cons c cs =>
      rw [List.nil_append, List.cons_append, List.cons_prefix_cons]
      constructor
      · exact fun h => absurd (h.1 ▸ List.mem_cons_self) hs
      · exact fun h => absurd h.1 (List.cons_ne_nil c cs)
  | cons d ds ih =>
    obtain ⟨hd, hds⟩ := not_or.mp (mt List.mem_cons.mpr hk)
    cases s with
    | nil =>
      rw [List.nil_append, List.cons_append, List.cons_prefix_cons]
      constructor
      · exact fun h => absurd h.1.symm hd
      · exact fun h => absurd h.1.symm (List.cons_ne_nil d ds)
    | cons c cs =>
      obtain ⟨-, hcs⟩ := not_or.mp (mt List.mem_cons.mpr hs)
      rw [List.cons_append, List.cons_append, List.cons_prefix_cons, ih hds hcs]
      constructor
      · rintro ⟨rfl, rfl, h⟩
        exact ⟨rfl, h⟩
      · rintro ⟨heq, h⟩
        obtain ⟨rfl, rfl⟩ := List.cons.inj heq
        exact ⟨rfl, rfl, h⟩

theorem key_append (k tail : List Char) : key k ++ tail = '"' :: (k ++ '"' :: ':' :: tail) := by
  rw [key, List.cons_append, List.append_assoc]
  rfl

/-- A string token is the key, or it is passed over. -/
theorem offset?_str (hk : IsKey k) {s : List Char} (hs : '"' ∉ s) {toks : List Token}
    (hplain : ∀ tok ∈ toks, tok.Plain) :
    offset? (key k ++ tail) (text (.str s :: toks)) =
      if s = k ∧ ':' :: tail <+: text toks then some 0
      else (offset? (key k ++ tail) (text toks)).map (· + (s.length + 2)) := by
  rw [text_str_cons]
  split
  · rename_i h
    refine offset?_of_begins ?_
    rw [key_append, List.cons_prefix_cons, prefix_of_quote_notMem hk.quote_notMem hs]
    exact ⟨rfl, h⟩
  · rename_i h
    have hopen : ¬ key k ++ tail <+: '"' :: (s ++ '"' :: text toks) := by
      rw [key_append, List.cons_prefix_cons, prefix_of_quote_notMem hk.quote_notMem hs]
      exact fun hpre => h hpre.2
    -- at the closing quote the key would have to begin with what follows, no letter
    have hclose : ¬ key k ++ tail <+: '"' :: text toks := by
      rw [key_append, List.cons_prefix_cons]
      rintro ⟨-, hpre⟩
      obtain ⟨hne, hletters⟩ := hk
      cases k with
      | nil => exact hne rfl
      | cons d ds =>
        obtain ⟨t, ht⟩ := hpre
        exact not_isKeyChar_of_head hplain ht.symm (hletters d List.mem_cons_self)
    rw [offset?_cons_of_mismatch hopen, key_append, offset?_append_of_notMem hs, ← key_append,
      offset?_cons_of_mismatch hclose, Option.map_map, Option.map_map]
    refine congrArg (Option.map · _) (funext fun n => ?_)
    simp only [Function.comp]
    omega

theorem offset?_num (n : ℕ) (toks : List Token) :
    offset? (key k ++ tail) (text (.num n :: toks)) =
      (offset? (key k ++ tail) (text toks)).map (· + (Token.num n).text.length) := by
  rw [text_cons, key_append]
  refine offset?_append_of_notMem (fun hmem => ?_) _
  have hdigit : '"'.isDigit = true := Nat.isDigit_of_mem_toDigits (by decide) (by decide) hmem
  exact absurd hdigit (by decide)

theorem offset?_punct {c : Char} (hc : (Token.punct c).Plain) (toks : List Token) :
    offset? (key k ++ tail) (text (.punct c :: toks)) =
      (offset? (key k ++ tail) (text toks)).map (· + 1) := by
  rw [text_punct_cons, key_append]
  refine offset?_append_of_notMem (s := [c]) (fun hmem => ?_) _
  rw [← List.mem_singleton.mp hmem] at hc
  exact absurd hc (by simp [Token.Plain])

/-- The key, with `tail` behind its colon, is none of the tokens of `a` before `b`. -/
def Avoids (k tail : List Char) (b : List Token) : List Token → Prop
  | [] => True
  | .str s :: a => ¬ (s = k ∧ ':' :: tail <+: text (a ++ b)) ∧ Avoids k tail b a
  | _ :: a => Avoids k tail b a

@[simp] theorem avoids_nil (b : List Token) : Avoids k tail b [] := trivial

@[simp] theorem avoids_str_cons (s : List Char) (a b : List Token) :
    Avoids k tail b (.str s :: a) ↔
      ¬ (s = k ∧ ':' :: tail <+: text (a ++ b)) ∧ Avoids k tail b a := Iff.rfl

@[simp] theorem avoids_num_cons (n : ℕ) (a b : List Token) :
    Avoids k tail b (.num n :: a) ↔ Avoids k tail b a := Iff.rfl

@[simp] theorem avoids_punct_cons (c : Char) (a b : List Token) :
    Avoids k tail b (.punct c :: a) ↔ Avoids k tail b a := Iff.rfl

theorem avoids_append (a a' b : List Token) :
    Avoids k tail b (a ++ a') ↔ Avoids k tail (a' ++ b) a ∧ Avoids k tail b a' := by
  induction a with
  | nil => exact ⟨fun h => ⟨trivial, h⟩, And.right⟩
  | cons tok a ih =>
    cases tok with
    | str s => rw [List.cons_append, avoids_str_cons, avoids_str_cons, ih, List.append_assoc,
        and_assoc]
    | num n => exact ih
    | punct c => exact ih

/-- **The search passes over tokens that are not the key.** -/
theorem offset?_append (hk : IsKey k) {a b : List Token} (ha : ∀ tok ∈ a, tok.Plain)
    (hb : ∀ tok ∈ b, tok.Plain) (havoids : Avoids k tail b a) :
    offset? (key k ++ tail) (text (a ++ b)) =
      (offset? (key k ++ tail) (text b)).map (· + (text a).length) := by
  induction a with
  | nil => simp only [List.nil_append, text_nil, List.length_nil, Nat.add_zero, Option.map_id_fun',
      id]
  | cons tok a ih =>
    have htok := ha tok List.mem_cons_self
    have ha' := fun t ht => ha t (List.mem_cons_of_mem tok ht)
    have hplain : ∀ t ∈ a ++ b, t.Plain := fun t ht =>
      (List.mem_append.mp ht).elim (ha' t) (hb t)
    have hlength : (text (tok :: a)).length = tok.text.length + (text a).length := by
      rw [text_cons, List.length_append]
    have hstep : offset? (key k ++ tail) (text (tok :: (a ++ b))) =
        (offset? (key k ++ tail) (text (a ++ b))).map (· + tok.text.length) := by
      cases tok with
      | str s =>
        rw [offset?_str hk htok.1 hplain, if_neg havoids.1]
        refine congrArg (Option.map · _) (funext fun n => ?_)
        show n + (s.length + 2) = n + ('"' :: s ++ ['"']).length
        rw [List.length_append, List.length_cons, List.length_singleton]
      | num n => exact offset?_num n _
      | punct c => exact offset?_punct htok _
    have hrest : Avoids k tail b a := by
      cases tok with
      | str s => exact havoids.2
      | num n => exact havoids
      | punct c => exact havoids
    rw [List.cons_append, hstep, ih ha' hrest, Option.map_map, hlength]
    refine congrArg (Option.map · _) (funext fun n => ?_)
    simp only [Function.comp]
    omega

/-! ## Positions -/

/-- The tokens `rest` are behind the position `p` of the text of `toks`. -/
def At (toks : List Token) (p : ℕ) (rest : List Token) : Prop :=
  ∃ before, toks = before ++ rest ∧ p = (text before).length

theorem at_zero (toks : List Token) : At toks 0 toks := ⟨[], rfl, rfl⟩

namespace At

variable {toks rest : List Token} {p : ℕ}

theorem drop (h : At toks p rest) : (text toks).drop p = text rest := by
  obtain ⟨before, rfl, rfl⟩ := h
  rw [text_append, List.drop_left]

theorem add_length (h : At toks p rest) : p + (text rest).length = (text toks).length := by
  obtain ⟨before, rfl, rfl⟩ := h
  rw [text_append, List.length_append]

/-- Past some tokens. -/
theorem skip {a b : List Token} (h : At toks p (a ++ b)) : At toks (p + (text a).length) b := by
  obtain ⟨before, rfl, rfl⟩ := h
  exact ⟨before ++ a, (List.append_assoc ..).symm, by rw [text_append, List.length_append]⟩

theorem subset (h : At toks p rest) : ∀ tok ∈ rest, tok ∈ toks := by
  obtain ⟨before, rfl, -⟩ := h
  exact fun tok htok => List.mem_append_right _ htok

/-- The key is found behind the tokens that are not it. -/
theorem find {a b : List Token} (hplain : ∀ tok ∈ toks, tok.Plain) (hk : IsKey k)
    (h : At toks p (a ++ .str k :: b)) (havoids : Avoids k tail (.str k :: b) a)
    (htail : ':' :: tail <+: text b) :
    TextSearch.find (text toks) (key k ++ tail) p = some (p + (text a).length) ∧
      At toks (p + (text a).length) (.str k :: b) := by
  have hrest := fun tok htok => hplain tok (h.subset tok htok)
  have hb : ∀ tok ∈ .str k :: b, tok.Plain := fun tok htok =>
    hrest tok (List.mem_append_right a htok)
  refine ⟨?_, h.skip⟩
  rw [TextSearch.find, h.drop, offset?_append hk
    (fun tok htok => hrest tok (List.mem_append_left _ htok)) hb havoids,
    offset?_str hk hk.quote_notMem fun tok htok => hb tok (List.mem_cons_of_mem _ htok),
    if_pos ⟨rfl, htail⟩]
  simp only [Option.map_some, Nat.zero_add]

/-- The search passes over tokens that are not the key. -/
theorem find_skip {a b : List Token} (hplain : ∀ tok ∈ toks, tok.Plain) (hk : IsKey k)
    (h : At toks p (a ++ b)) (havoids : Avoids k tail b a) :
    TextSearch.find (text toks) (key k ++ tail) p
      = TextSearch.find (text toks) (key k ++ tail) (p + (text a).length) := by
  have hrest := fun tok htok => hplain tok (h.subset tok htok)
  rw [TextSearch.find, TextSearch.find, h.drop, h.skip.drop, offset?_append hk
    (fun tok htok => hrest tok (List.mem_append_left _ htok))
    (fun tok htok => hrest tok (List.mem_append_right _ htok)) havoids, Option.map_map]
  refine congrArg (Option.map · _) (funext fun n => ?_)
  simp only [Function.comp]
  omega

theorem find_none (hplain : ∀ tok ∈ toks, tok.Plain) (hk : IsKey k) (h : At toks p rest)
    (havoids : Avoids k tail [] rest) : TextSearch.find (text toks) (key k ++ tail) p = none := by
  have hrest := fun tok htok => hplain tok (h.subset tok htok)
  have hnil : ∀ tok ∈ ([] : List Token), tok.Plain := List.forall_mem_nil _
  have happend := offset?_append hk hrest hnil havoids
  rw [List.append_nil, text_nil] at happend
  rw [TextSearch.find, h.drop, happend, key_append]
  rfl

end At

/-! ### Windows -/

/-- The tokens `w` are between the positions `p` and `last`, and `rest` behind them. -/
structure Window (toks : List Token) (p last : ℕ) (w rest : List Token) : Prop where
  tokens : At toks p (w ++ rest)
  length : p + (text w).length = last

namespace Window

variable {toks a w rest : List Token} {p last : ℕ}

/-- Past some tokens of the window. -/
theorem skip (h : Window toks p last (a ++ w) rest) :
    Window toks (p + (text a).length) last w rest := by
  obtain ⟨htokens, hlength⟩ := h
  rw [List.append_assoc] at htokens
  rw [text_append, List.length_append] at hlength
  exact ⟨htokens.skip, (Nat.add_assoc ..).trans hlength⟩

theorem skip_punct {c : Char} (h : Window toks p last (.punct c :: w) rest) :
    Window toks (p + 1) last w rest := skip (a := [.punct c]) h

/-- Past a key and its colon. -/
theorem skip_key (h : Window toks p last (.str k :: .punct ':' :: w) rest) :
    Window toks (p + (k.length + 3)) last w rest := by
  have hskip := skip (a := [.str k, .punct ':']) h
  rwa [length_text_str_cons] at hskip

/-- What is behind the window. -/
theorem behind (h : Window toks p last w rest) : At toks last rest := by
  obtain ⟨htokens, rfl⟩ := h
  exact htokens.skip

/-- A window within the window. -/
theorem first {b : List Token} (h : Window toks p last (a ++ b) rest) :
    Window toks p (p + (text a).length) a (b ++ rest) :=
  ⟨List.append_assoc a b rest ▸ h.tokens, rfl⟩

/-- **A key that is in the window is found in the window.** -/
theorem find (hplain : ∀ tok ∈ toks, tok.Plain) (hk : IsKey k)
    (h : Window toks p last (a ++ .str k :: .punct ':' :: w) rest)
    (havoids : Avoids k tail (.str k :: .punct ':' :: w ++ rest) a)
    (htail : tail <+: text (w ++ rest)) :
    ∃ q, TextSearch.find (text toks) (key k ++ tail) p = some q ∧ q < last ∧
      Window toks q last (.str k :: .punct ':' :: w) rest := by
  have htokens := h.tokens
  rw [List.append_assoc] at htokens
  have hfind := At.find hplain hk htokens havoids (List.cons_prefix_cons.mpr ⟨rfl, htail⟩)
  have hskip := h.skip
  refine ⟨_, hfind.1, ?_, hskip⟩
  have hlength := hskip.length
  rw [length_text_str_cons] at hlength
  omega

/-- A key that is not in the window is not found in it. -/
theorem le_of_find (hplain : ∀ tok ∈ toks, tok.Plain) (hk : IsKey k) (h : Window toks p last w rest)
    (havoids : Avoids k tail rest w) {q : ℕ}
    (hq : TextSearch.find (text toks) (key k ++ tail) p = some q) : last ≤ q := by
  rw [h.tokens.find_skip hplain hk havoids, h.length] at hq
  obtain ⟨n, -, rfl⟩ := Option.map_eq_some_iff.mp hq
  exact Nat.le_add_right last n

end Window

/-! ### Strings behind keys -/

/-- A string with its quotes. -/
def quoted (s : List Char) : List Char := '"' :: (s ++ ['"'])

/-- A key has the string behind its colon, or another one. -/
theorem quoted_prefix_str {s v : List Char} (hs : '"' ∉ s) (hv : '"' ∉ v) (toks : List Token) :
    quoted s <+: text (.str v :: toks) ↔ v = s := by
  rw [text_str_cons, quoted, List.cons_prefix_cons, prefix_of_quote_notMem hs hv]
  exact ⟨fun h => h.2.1, fun h => ⟨rfl, h, List.nil_prefix ..⟩⟩

/-- **The search for a key with a string finds it, and passes both.** -/
theorem Window.find_string {toks a w rest : List Token} {p last : ℕ} {v : List Char}
    (hplain : ∀ tok ∈ toks, tok.Plain) (hk : IsKey k)
    (h : Window toks p last (a ++ .str k :: .punct ':' :: .str v :: w) rest)
    (havoids : Avoids k (quoted v) (.str k :: .punct ':' :: .str v :: w ++ rest) a) :
    ∃ q, TextSearch.find (text toks) (key k ++ quoted v) p = some q ∧
      q + (key k ++ quoted v).length ≤ last ∧
      Window toks (q + (key k ++ quoted v).length) last w rest := by
  have hv : (Token.str v).Plain := by
    refine hplain _ (h.tokens.subset _ ?_)
    simp only [List.mem_append, List.mem_cons, or_true, true_or]
  obtain ⟨q, hq, -, hfound⟩ := h.find hplain hk havoids
    ((quoted_prefix_str hv.1 hv.1 (w ++ rest)).mpr rfl)
  have hskip := Window.skip (a := [.str k, .punct ':', .str v]) hfound
  have hlength : (text [.str k, .punct ':', .str v]).length = (key k ++ quoted v).length := by
    simp only [length_text_str_cons, text_punct_cons, text_nil, key, quoted, List.length_append,
      List.length_cons, List.length_nil]
    omega
  rw [hlength] at hskip
  have hlast := hskip.length
  exact ⟨q, hq, by omega, hskip⟩

end QuotedText
