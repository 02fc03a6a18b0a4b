import KoheronSdk.Client.Http
import KoheronSdk.Client.TypeStrings
import KoheronSdk.Lib.JsonText

/-!
# The status of the instruments

`instrument_status` reads the names of the instruments from the JSON text of the HTTP API.  Its
reader looks for the keys with a substring search, and undoes the short escapes of JSON but not
the `\uXXXX` ones.

## Finding

The names are arbitrary strings, and may look like the keys that are searched for: an instrument
can be called `live_instrument`, or have quotes in its name.  The search takes a key in its quotes
only when a colon comes behind it and a comma or a brace before it, with blanks in between.  That
this is enough is proved on the tokens of `Lib/JsonText`, for every order of the members and
all blanks that a serialiser may put in (`findValue_object`).

## Reading

The characters of a string are read one by one, up to the first quote that is not escaped.  A
printable character other than the quote and the backslash comes as it is, and the escapes of one
letter are undone.  All else is written as `\uXXXX`, of which `unescape` makes a `u` and the
digits.  So a name survives exactly if it has no such character, and the condition is one on each of
its characters.

* `findValue_object`: the value of a key is found, whatever the strings of the text are.
* `findStringArray_object`, `findString_object`: what is read, string by string.
* `readsNames_iff`: the names that are read back.
-/

namespace KoheronSdk

open TextSearch HttpText JsonText
open QuotedText (IsKey)

namespace InstrumentStatus

/-! ## The code -/

/-- The character behind a backslash, in `unescape` -/
def unescaped (c : UInt8) : List UInt8 :=
  if c = 110 then [10]
  else if c = 116 then [9]
  else if c = 114 then [13]
  else if c = 98 then [8]
  else if c = 102 then [12]
  else if c = 34 then [34]
  else if c = 92 then [92]
  else [92, c]

/-- `unescape` -/
def unescape : List UInt8 → List UInt8
  | [] => []
  | [c] => [c]
  | c :: next :: s => if c = 92 then unescaped next ++ unescape s else c :: unescape (next :: s)

/-- `is_ws` -/
def isWs (c : UInt8) : Bool := c = 32 || c = 9 || c = 10 || c = 13

/-- `while (c < json.size() && is_ws(json[c])) c++` -/
def skipWs (json : List UInt8) (c : ℕ) : ℕ := c + ((json.drop c).takeWhile isWs).length

/-- `while (p > 0 && is_ws(json[p - 1])) p--` -/
def skipWsBack (json : List UInt8) : ℕ → ℕ
  | 0 => 0
  | p + 1 => if isWs (Http.charAt json p) then skipWsBack json p else p + 1

/-- The loop of `find_value`, from `pos` on. -/
def findValueFrom (json quoted : List UInt8) : ℕ → ℕ → Option ℕ
  | 0, _ => none
  | fuel + 1, pos => do
    let k ← find json quoted pos
    let c := skipWs json (k + quoted.length)
    let p := skipWsBack json k
    if (c < json.length ∧ Http.charAt json c = 58) ∧
        (p = 0 ∨ Http.charAt json (p - 1) = 123 ∨ Http.charAt json (p - 1) = 44) then
      some (skipWs json (c + 1))
    else findValueFrom json quoted fuel (k + quoted.length)

/-- `find_value` -/
def findValue (json key : List UInt8) : Option ℕ :=
  findValueFrom json (34 :: (key ++ [34])) (json.length + 1) 0

/-- The loop that reads a string up to its quote: the string, and what is behind it. -/
def rawString : List UInt8 → Option (List UInt8 × List UInt8)
  | [] => none
  | [c] => if c = 34 then some ([], []) else none
  | c :: next :: s =>
    if c = 92 then (rawString s).map fun p => (c :: next :: p.1, p.2)
    else if c = 34 then some ([], next :: s)
    else (rawString (next :: s)).map fun p => (c :: p.1, p.2)

/-- `find_string`: the string, if it returns true -/
def findString (json key : List UInt8) : Option (List UInt8) := do
  let vpos ← findValue json key
  if Http.charAt json vpos ≠ 34 then none
  else (rawString (json.drop (vpos + 1))).map fun p => unescape p.1

/-- The loop of `find_string_array`. -/
def stringArrayFrom : ℕ → List UInt8 → List (List UInt8) → Bool × List (List UInt8)
  | 0, _, out => (false, out)
  | fuel + 1, s, out =>
    match s.dropWhile fun c => isWs c || c = 44 with
    | [] => (true, out)
    | c :: s =>
      if c = 93 then (true, out)
      else if c ≠ 34 then (false, out)
      else
        match rawString s with
        | none => (false, out)
        | some (raw, s) => stringArrayFrom fuel s (out ++ [unescape raw])

/-- `find_string_array`: what it returns, and what `out` is then -/
def findStringArray (json key : List UInt8) (out : List (List UInt8)) :
    Bool × List (List UInt8) :=
  match findValue json key with
  | none => (false, out)
  | some vpos =>
    if Http.charAt json vpos ≠ 91 then (false, out)
    else
      let i := skipWs json (vpos + 1)
      if i < json.length ∧ Http.charAt json i = 93 then (true, out)
      else stringArrayFrom (json.length + 1) (json.drop i) out

/-- The dictionary of `get_instruments_status`, of which `jsonify` makes the text. -/
def getInstrumentsStatus (instruments : List Str) (live : Str) : List (Str × Value) :=
  [("instruments".toList, .array instruments), ("live_instrument".toList, .str live)]

/-! ## Blanks -/

section Blanks

variable {before rest : List Token}

theorem isWs_blank (b : Blank) : isWs b.byte = true := by cases b <;> rfl

/-- No other token begins with a blank. -/
theorem isWs_head {tok : Token} (htok : tok.isBlank = false) (toks : List Token) :
    ∃ c cs, text (tok :: toks) = c :: cs ∧ isWs c = false := by
  cases tok with
  | str s => exact ⟨34, _, text_str_cons s toks, rfl⟩
  | mark m => exact ⟨m.byte, _, rfl, by cases m <;> rfl⟩
  | blank b => cases htok

theorem takeWhile_blanks {blanks : List Token} (hblanks : ∀ b ∈ blanks, b.isBlank = true)
    (rest : List UInt8) :
    (text blanks ++ rest).takeWhile isWs = text blanks ++ rest.takeWhile isWs := by
  induction blanks with
  | nil => rfl
  | cons b blanks ih =>
    have hb := hblanks b List.mem_cons_self
    cases b with
    | str s => cases hb
    | mark m => cases hb
    | blank b =>
      rw [text_blank_cons, List.cons_append, List.takeWhile_cons, if_pos (isWs_blank b),
        ih fun b' hb' => hblanks b' (List.mem_cons_of_mem _ hb'), List.cons_append]

/-- The blanks in front of a token are passed over. -/
theorem skipWs_token {blanks : List Token} (hblanks : ∀ b ∈ blanks, b.isBlank = true) {tok : Token}
    (htok : tok.isBlank = false) (rest : List Token) :
    skipWs (text (before ++ (blanks ++ tok :: rest))) (text before).length
      = (text (before ++ blanks)).length := by
  obtain ⟨c, cs, hc, hws⟩ := isWs_head htok rest
  rw [skipWs, text_append, List.drop_left, text_append blanks, takeWhile_blanks hblanks, hc,
    List.takeWhile_cons, hws, if_neg Bool.false_ne_true, List.append_nil, text_append,
    List.length_append]

/-- The same with nothing but blanks. -/
theorem skipWs_end {blanks : List Token} (hblanks : ∀ b ∈ blanks, b.isBlank = true) :
    skipWs (text (before ++ blanks)) (text before).length = (text (before ++ blanks)).length := by
  have hall := takeWhile_blanks hblanks []
  rw [List.append_nil, List.takeWhile_nil, List.append_nil] at hall
  rw [skipWs, text_append, List.drop_left, hall, List.length_append]

theorem charAt_token (before : List Token) {toks : List Token} {c : UInt8} {cs : List UInt8}
    (h : text toks = c :: cs) :
    Http.charAt (text (before ++ toks)) (text before).length = c := by
  have hat := Http.charAt_append (text before) (text toks) 0
  rw [Nat.add_zero] at hat
  rw [text_append, hat, h]
  rfl

/-- Backwards, over the blanks behind a mark. -/
theorem skipWsBack_mark {blanks : List Token} (hblanks : ∀ b ∈ blanks, b.isBlank = true)
    (before : List Token) (m : Mark) (t : List UInt8) :
    skipWsBack (text (before ++ .mark m :: blanks) ++ t) (text (before ++ .mark m :: blanks)).length
      = (text before).length + 1 := by
  induction blanks using List.reverseRecOn generalizing t with
  | nil =>
    have hm : isWs m.byte = false := by cases m <;> rfl
    have hat : Http.charAt (text (before ++ [.mark m]) ++ t) (text before).length = m.byte := by
      rw [text_append, List.append_assoc]
      exact Http.charAt_append (text before) _ 0
    have hlength : (text (before ++ [.mark m])).length = (text before).length + 1 := by
      rw [text_append, List.length_append]
      rfl
    rw [hlength, skipWsBack, hat, hm, if_neg Bool.false_ne_true]
  | append_singleton blanks b ih =>
    have hb := hblanks b (List.mem_append_right _ (List.mem_singleton_self b))
    cases b with
    | str s => cases hb
    | mark m => cases hb
    | blank b =>
      have hsplit : text (before ++ .mark m :: (blanks ++ [.blank b]))
          = text (before ++ .mark m :: blanks) ++ [b.byte] := by
        rw [← List.cons_append, ← List.append_assoc, text_append]
        rfl
      have hat : Http.charAt (text (before ++ .mark m :: blanks) ++ ([b.byte] ++ t))
          (text (before ++ .mark m :: blanks)).length = b.byte := Http.charAt_append _ _ 0
      rw [hsplit, List.append_assoc, List.length_append, List.length_singleton, skipWsBack, hat,
        if_pos (isWs_blank b)]
      exact ih (fun b' hb' => hblanks b' (List.mem_append_left _ hb')) ([b.byte] ++ t)

end Blanks

/-! ## The search for a key -/

section Keys

variable {k : Str} {before rest : List Token}

/-- The first token that is not a blank. -/
theorem exists_blanks {tok : Token} {more : List Token} (h : significant rest = tok :: more) :
    ∃ blanks rest', rest = blanks ++ tok :: rest' ∧ (∀ b ∈ blanks, b.isBlank = true) ∧
      tok.isBlank = false ∧ significant rest' = more := by
  obtain ⟨blanks, rest', heq, hblanks, htok, hmore⟩ := List.filter_eq_cons_iff.mp h
  refine ⟨blanks, rest', heq, fun b hb => ?_, by simpa using htok, hmore⟩
  simpa using hblanks b hb

/-- What is behind a value is not a colon. -/
theorem not_colon (before : List Token) (h : (significant rest).head? ≠ some (.mark .colon)) :
    ¬ (skipWs (text (before ++ rest)) (text before).length < (text (before ++ rest)).length ∧
      Http.charAt (text (before ++ rest)) (skipWs (text (before ++ rest)) (text before).length)
        = 58) := by
  rintro ⟨hlt, hat⟩
  cases hsig : significant rest with
  | nil =>
    have hblanks : ∀ b ∈ rest, b.isBlank = true := fun b hb => by
      simpa using List.filter_eq_nil_iff.mp hsig b hb
    rw [skipWs_end hblanks] at hlt
    exact absurd hlt (Nat.lt_irrefl _)
  | cons tok more =>
    obtain ⟨blanks, rest', rfl, hblanks, htok, -⟩ := exists_blanks hsig
    rw [skipWs_token hblanks htok] at hat
    cases tok with
    | blank b => cases htok
    | str s =>
      rw [← List.append_assoc, charAt_token _ (text_str_cons s rest')] at hat
      exact absurd hat (by decide)
    | mark m =>
      rw [← List.append_assoc, charAt_token _ (text_mark_cons m rest')] at hat
      cases m with
      | colon => exact h (by rw [hsig]; rfl)
      | _ => exact absurd hat (by decide)

theorem find_eq (pat : List UInt8) (before rest : List Token) :
    find (text (before ++ rest)) pat (text before).length
      = (offset? pat (text rest)).map ((text before).length + ·) := by
  rw [find, text_append, List.drop_left]

/-- A token in which the key is not found. -/
theorem findValueFrom_cons (hk : IsKey k) {tok : Token} (htok : ∀ s, tok = .str s → ¬ Ends k s)
    (fuel : ℕ) :
    findValueFrom (text (before ++ tok :: rest)) (quoted k) fuel (text before).length
      = findValueFrom (text (before ++ tok :: rest)) (quoted k) fuel
          (text (before ++ [tok])).length := by
  have hfind : find (text (before ++ tok :: rest)) (quoted k) (text before).length
      = find (text (before ++ tok :: rest)) (quoted k) (text (before ++ [tok])).length := by
    have hnext := find_eq (quoted k) (before ++ [tok]) rest
    rw [List.append_assoc, List.singleton_append] at hnext
    rw [hnext, find_eq, offset?_cons hk htok, Option.map_map]
    refine congrArg (Option.map · _) (funext fun n => ?_)
    have hlength : (text (before ++ [tok])).length = (text before).length + tok.text.length := by
      rw [text_append, List.length_append]
      exact congrArg (_ + ·) (congrArg List.length (List.append_nil tok.text))
    rw [hlength]
    show (text before).length + (n + tok.text.length) = _
    omega
  cases fuel with
  | zero => rfl
  | succ fuel => rw [findValueFrom, findValueFrom, hfind]

/-- A string in which the key is found, but that has no colon behind it. -/
theorem findValueFrom_value (hk : IsKey k) {s : Str} (hs : Ends k s)
    (hnext : (significant rest).head? ≠ some (.mark .colon)) (fuel : ℕ) :
    findValueFrom (text (before ++ .str s :: rest)) (quoted k) (fuel + 1) (text before).length
      = findValueFrom (text (before ++ .str s :: rest)) (quoted k) fuel
          (text (before ++ [.str s])).length := by
  obtain ⟨n, hn, hend, -⟩ := offset?_of_ends hk hs rest
  have hat : (text before).length + n + (quoted k).length = (text (before ++ [.str s])).length := by
    rw [text_append, List.length_append, Nat.add_assoc, hend]
    exact congrArg (_ + ·) (congrArg List.length (List.append_nil (Token.str s).text).symm)
  have hcolon := not_colon (before ++ [.str s]) hnext
  rw [List.append_assoc, List.singleton_append] at hcolon
  rw [findValueFrom, find_eq, hn]
  show ite _ _ _ = _
  rw [hat, if_neg fun h => hcolon h.1]

/-- **The search passes over what has not the key.** -/
theorem findValueFrom_append (before : List Token) (hk : IsKey k) {a : List Token}
    (havoids : Avoids k (significant a))
    (hrest : (significant rest).head? ≠ some (.mark .colon)) {r : Option ℕ}
    (hfound : ∀ fuel, 0 < fuel → findValueFrom (text (before ++ (a ++ rest))) (quoted k) fuel
      (text (before ++ a)).length = r) :
    ∀ fuel, a.length < fuel →
      findValueFrom (text (before ++ (a ++ rest))) (quoted k) fuel (text before).length = r := by
  induction a generalizing before with
  | nil =>
    intro fuel hfuel
    rw [List.append_nil] at hfound
    exact hfound fuel hfuel
  | cons tok a ih =>
    intro fuel hfuel
    obtain ⟨fuel, rfl⟩ : ∃ f, fuel = f + 1 := ⟨fuel - 1, by omega⟩
    rw [List.length_cons] at hfuel
    have hassoc : before ++ (tok :: a ++ rest) = (before ++ [tok]) ++ (a ++ rest) := by
      rw [List.append_assoc]
      rfl
    have hassoc' : before ++ tok :: a = (before ++ [tok]) ++ a := by
      rw [List.append_assoc]
      rfl
    rw [hassoc, hassoc'] at hfound
    cases tok with
    | mark m =>
      rw [List.cons_append, findValueFrom_cons hk (fun s h => by cases h), ← List.cons_append,
        hassoc]
      exact ih _ havoids hfound (fuel + 1) (by omega)
    | blank b =>
      rw [List.cons_append, findValueFrom_cons hk (fun s h => by cases h), ← List.cons_append,
        hassoc]
      exact ih _ havoids hfound (fuel + 1) (by omega)
    | str s =>
      by_cases hs : Ends k s
      · have hnext : (significant (a ++ rest)).head? ≠ some (.mark .colon) := by
          rw [significant_append]
          intro hhead
          cases hsig : significant a with
          | nil => exact hrest (by rwa [hsig] at hhead)
          | cons next more =>
            refine havoids.1 ?_ hs
            change (significant a).head? = _
            rw [hsig] at hhead ⊢
            exact hhead
        rw [List.cons_append, findValueFrom_value hk hs hnext, ← List.cons_append, hassoc]
        exact ih _ havoids.2 hfound fuel (by omega)
      · rw [List.cons_append, findValueFrom_cons hk (fun s' h => by cases h; exact hs),
          ← List.cons_append, hassoc]
        exact ih _ havoids.2 hfound (fuel + 1) (by omega)

/-- The key itself: the value is behind its colon. -/
theorem findValueFrom_key (hk : IsKey k) {m : Mark} (hm : Opens m) {x blanks : List Token}
    (hblanks : ∀ b ∈ blanks, b.isBlank = true) {blanks' blanks'' : List Token}
    (hblanks' : ∀ b ∈ blanks', b.isBlank = true) (hblanks'' : ∀ b ∈ blanks'', b.isBlank = true)
    {tok : Token} (htok : tok.isBlank = false) (rest : List Token) {fuel : ℕ} (hfuel : 0 < fuel) :
    findValueFrom (text ((x ++ .mark m :: blanks) ++ .str k :: (blanks' ++ .mark .colon ::
        (blanks'' ++ tok :: rest)))) (quoted k) fuel (text (x ++ .mark m :: blanks)).length
      = some (text ((x ++ .mark m :: blanks) ++ .str k :: (blanks' ++ .mark .colon ::
          blanks''))).length := by
  obtain ⟨fuel, rfl⟩ : ∃ f, fuel = f + 1 := ⟨fuel - 1, by omega⟩
  generalize ha : x ++ .mark m :: blanks = a
  generalize hb : blanks'' ++ tok :: rest = b
  obtain ⟨n, hn, hend, hzero⟩ :=
    offset?_of_ends hk (Or.inl rfl) (blanks' ++ .mark .colon :: b)
  obtain rfl := hzero rfl
  rw [Nat.zero_add] at hend
  have hstr : a ++ .str k :: (blanks' ++ .mark .colon :: b)
      = (a ++ [.str k]) ++ (blanks' ++ .mark .colon :: b) := by
    rw [List.append_assoc]
    rfl
  have hafter : (text a).length + (quoted k).length = (text (a ++ [.str k])).length := by
    rw [text_append, List.length_append, hend]
    exact congrArg (_ + ·) (congrArg List.length (List.append_nil (Token.str k).text).symm)
  have hcolon : skipWs (text (a ++ .str k :: (blanks' ++ .mark .colon :: b)))
      ((text a).length + (quoted k).length) = (text ((a ++ [.str k]) ++ blanks')).length := by
    rw [hafter, hstr]
    exact skipWs_token hblanks' rfl b
  have hassoc : a ++ .str k :: (blanks' ++ .mark .colon :: b)
      = ((a ++ [.str k]) ++ blanks') ++ .mark .colon :: b := by
    simp only [List.append_assoc, List.cons_append, List.nil_append]
  have hassoc' : a ++ .str k :: (blanks' ++ .mark .colon :: b)
      = ((a ++ [.str k]) ++ blanks' ++ [.mark .colon]) ++ b := by
    simp only [List.append_assoc, List.cons_append, List.nil_append]
  have hat : Http.charAt (text (a ++ .str k :: (blanks' ++ .mark .colon :: b)))
      (text ((a ++ [.str k]) ++ blanks')).length = 58 := by
    rw [hassoc]
    exact charAt_token _ (text_mark_cons .colon b)
  have hlt : (text ((a ++ [.str k]) ++ blanks')).length
      < (text (a ++ .str k :: (blanks' ++ .mark .colon :: b))).length := by
    rw [hassoc, text_append (a ++ [Token.str k] ++ blanks'), List.length_append, text_mark_cons,
      List.length_cons]
    omega
  have hback : skipWsBack (text (a ++ .str k :: (blanks' ++ .mark .colon :: b))) (text a).length
      = (text x).length + 1 := by
    rw [text_append a, ← ha]
    exact skipWsBack_mark hblanks x m _
  have hopen : Http.charAt (text (a ++ .str k :: (blanks' ++ .mark .colon :: b))) (text x).length
      = m.byte := by
    rw [← ha, List.append_assoc]
    exact charAt_token x (text_mark_cons m _)
  have hopens : m.byte = 123 ∨ m.byte = 44 := by
    rcases hm with rfl | rfl
    · exact Or.inl rfl
    · exact Or.inr rfl
  have hvalue : skipWs (text (a ++ .str k :: (blanks' ++ .mark .colon :: b)))
      ((text ((a ++ [.str k]) ++ blanks')).length + 1)
        = (text (a ++ .str k :: (blanks' ++ .mark .colon :: blanks''))).length := by
    have hone : (text ((a ++ [.str k]) ++ blanks')).length + 1
        = (text ((a ++ [.str k]) ++ blanks' ++ [.mark .colon])).length := by
      rw [text_append (a ++ [Token.str k] ++ blanks'), List.length_append]
      rfl
    rw [hassoc', hone, ← hb, skipWs_token hblanks'' htok]
    simp only [List.append_assoc, List.cons_append, List.nil_append]
  have hfind : find (text (a ++ .str k :: (blanks' ++ .mark .colon :: b))) (quoted k)
      (text a).length = some (text a).length := by
    rw [find_eq, hn]
    rfl
  rw [findValueFrom, hfind]
  show ite _ _ _ = _
  rw [hcolon, hback, Nat.add_sub_cancel, hopen, hvalue]
  exact if_pos ⟨⟨hlt, hat⟩, Or.inr hopens⟩

/-- **The value of a key is found,** whatever the other strings are. -/
theorem findValue_object (hk : IsKey k) {members : List (Str × Value)} {v : Value}
    (hmem : (k, v) ∈ members) (hkeys : ∀ m ∈ members, IsKey m.1)
    (hnodup : (members.map Prod.fst).Nodup) {toks : List Token} (htoks : Serialises members toks) :
    ∃ a tok rest post, toks = a ++ tok :: rest ∧ significant (tok :: rest) = v.tokens ++ post ∧
      tok.isBlank = false ∧ findValue (text toks) (escape k) = some (text a).length := by
  obtain ⟨members', hperm, hsig⟩ := htoks
  obtain ⟨pre, m, post, hobject, hm, havoids⟩ := exists_member (hperm.mem_iff.mpr hmem)
    (fun m hm => hkeys m (hperm.mem_iff.mp hm)) ((hperm.map Prod.fst).nodup_iff.mpr hnodup)
  rw [hobject] at hsig
  -- the tokens in front of the mark, the mark, the key, the colon and the value, one by one
  obtain ⟨x, b, rfl, hx, hb⟩ := List.filter_eq_append_iff.mp hsig
  obtain ⟨blanks₀, b₁, rfl, hblanks₀, -, hb₁⟩ := exists_blanks hb
  obtain ⟨blanks₁, b₂, rfl, hblanks₁, -, hb₂⟩ := exists_blanks hb₁
  obtain ⟨blanks₂, b₃, rfl, hblanks₂, -, hb₃⟩ := exists_blanks hb₂
  obtain ⟨first, more, hfirst⟩ : ∃ first more, v.tokens = first :: more := by
    cases v with
    | str s => exact ⟨_, _, rfl⟩
    | array elems => exact ⟨_, _, rfl⟩
  have hb₃' : significant b₃ = first :: (more ++ post) := by
    rw [← List.cons_append, ← hfirst]
    exact hb₃
  obtain ⟨blanks₃, b₄, rfl, hblanks₃, hsome, hb₄⟩ := exists_blanks hb₃'
  have hnil : ∀ {bl : List Token}, (∀ b ∈ bl, b.isBlank = true) → significant bl = [] :=
    fun hbl => List.filter_eq_nil_iff.mpr fun b hb => by simp [hbl b hb]
  have htoks : x ++ (blanks₀ ++ .mark m :: (blanks₁ ++ .str k :: (blanks₂ ++ .mark .colon ::
      (blanks₃ ++ first :: b₄)))) = ((x ++ blanks₀) ++ .mark m :: blanks₁) ++ .str k ::
        (blanks₂ ++ .mark .colon :: (blanks₃ ++ first :: b₄)) := by
    simp only [List.append_assoc, List.cons_append]
  refine ⟨((x ++ blanks₀) ++ .mark m :: blanks₁) ++ .str k :: (blanks₂ ++ .mark .colon :: blanks₃),
    first, b₄, post, ?_, ?_, hsome, ?_⟩
  · simp only [List.append_assoc, List.cons_append]
  · rw [hfirst, List.cons_append, ← hb₄]
    cases first with
    | blank b => cases hsome
    | str s => rfl
    | mark m => rfl
  · have hbefore : significant ((x ++ blanks₀) ++ .mark m :: blanks₁) = pre ++ [.mark m] := by
      rw [significant_append, significant_append, hnil hblanks₀, List.append_nil,
        significant_mark_cons, hnil hblanks₁]
      exact congrArg (· ++ [Token.mark m]) hx
    have hkey := fun fuel (hpos : 0 < fuel) => findValueFrom_key hk hm (x := x ++ blanks₀)
      hblanks₁ hblanks₂ hblanks₃ hsome b₄ hpos
    rw [htoks]
    generalize (x ++ blanks₀) ++ Token.mark m :: blanks₁ = a at hbefore hkey ⊢
    generalize hb : blanks₂ ++ Token.mark .colon :: (blanks₃ ++ first :: b₄) = b at hkey ⊢
    have hrest : (significant (Token.str k :: b)).head? ≠ some (.mark .colon) := fun h => by
      cases Option.some.inj h
    have hfuel : a.length < (text (a ++ .str k :: b)).length + 1 := by
      have hle := length_le_length_text a
      rw [text_append, List.length_append]
      omega
    have havoids' : Avoids k (significant a) := by
      rw [hbefore]
      exact havoids
    exact findValueFrom_append [] hk havoids' hrest hkey _ hfuel

end Keys

/-! ## The strings -/

/-- The characters that are read back. -/
def IsReadable (c : Char) : Prop :=
  IsPrintable c ∨ c = '\n' ∨ c = '\t' ∨ c = '\r' ∨ c = '\x08' ∨ c = '\x0c'

instance (c : Char) : Decidable (IsReadable c) := inferInstanceAs (Decidable (_ ∨ _))

/-- The text of a character: a short escape, itself, or one or two units of UTF-16. -/
theorem escapeChar_cases (c : Char) :
    (∃ b, (c, b) ∈ shortEscapes ∧ escapeChar c = [92, b]) ∨ IsBare c ∨
      (¬ IsReadable c ∧
        ((∃ n, escapeChar c = unit n) ∨ ∃ n m, escapeChar c = unit n ++ unit m)) := by
  cases hlookup : shortEscapes.lookup c with
  | some b => exact Or.inl ⟨b, mem_of_lookup hlookup, by rw [escapeChar, hlookup]⟩
  | none =>
    refine Or.inr ?_
    have hne : ∀ d, shortEscapes.lookup d ≠ none → c ≠ d := by
      rintro d hd rfl
      exact hd hlookup
    by_cases hprintable : IsPrintable c
    · exact Or.inl ⟨hprintable, hne '"' (by decide), hne '\\' (by decide)⟩
    · refine Or.inr ⟨?_, ?_⟩
      · rintro (h | h | h | h | h | h)
        · exact hprintable h
        · exact hne '\n' (by decide) h
        · exact hne '\t' (by decide) h
        · exact hne '\r' (by decide) h
        · exact hne '\x08' (by decide) h
        · exact hne '\x0c' (by decide) h
      · rw [escapeChar, hlookup]
        simp only [if_neg hprintable]
        split
        · exact Or.inl ⟨_, rfl⟩
        · exact Or.inr ⟨_, _, rfl⟩

/-! ### Reading -/

/-- What is read in front of what is behind it. -/
def inFront (l : List UInt8) (p : List UInt8 × List UInt8) : List UInt8 × List UInt8 :=
  (l ++ p.1, p.2)

theorem rawString_quote (l : List UInt8) : rawString (34 :: l) = some ([], l) := by
  cases l <;> rfl

theorem rawString_pair (b : UInt8) (l : List UInt8) :
    rawString (92 :: b :: l) = (rawString l).map (inFront [92, b]) := rfl

theorem rawString_plain {b : UInt8} (h34 : b ≠ 34) (h92 : b ≠ 92) (l : List UInt8) :
    rawString (b :: l) = (rawString l).map (inFront [b]) := by
  cases l with
  | nil => exact if_neg h34
  | cons next l =>
    rw [rawString, if_neg h92, if_neg h34]
    rfl

theorem inFront_comp (l l' : List UInt8) : inFront l ∘ inFront l' = inFront (l ++ l') := by
  funext p
  show (l ++ (l' ++ p.1), p.2) = (l ++ l' ++ p.1, p.2)
  rw [List.append_assoc]

theorem hexDigit_mod (n : ℕ) : hexDigit (n % 16) ≠ 34 ∧ hexDigit (n % 16) ≠ 92 :=
  hexDigit_ne _ (Nat.mod_lt n (by decide))

theorem rawString_unit (n : ℕ) (l : List UInt8) :
    rawString (unit n ++ l) = (rawString l).map (inFront (unit n)) := by
  have hplain := fun m => rawString_plain (hexDigit_mod m).1 (hexDigit_mod m).2
  show rawString (92 :: 117 :: hexDigit _ :: hexDigit _ :: hexDigit _ :: hexDigit _ :: l) = _
  rw [rawString_pair, hplain, hplain, hplain, hplain]
  simp only [Option.map_map, inFront_comp]
  rfl

theorem rawString_escapeChar (c : Char) (l : List UInt8) :
    rawString (escapeChar c ++ l) = (rawString l).map (inFront (escapeChar c)) := by
  rcases escapeChar_cases c with ⟨b, -, hb⟩ | hbare | ⟨-, ⟨n, hn⟩ | ⟨n, m, hnm⟩⟩
  · rw [hb]
    exact rawString_pair b l
  · rw [hbare.escapeChar]
    exact rawString_plain hbare.ne_quote hbare.ne_backslash l
  · rw [hn, rawString_unit]
  · rw [hnm, List.append_assoc, rawString_unit, rawString_unit, Option.map_map, inFront_comp]

/-- A string is read up to its quote. -/
theorem rawString_escape (s : Str) (t : List UInt8) :
    rawString (escape s ++ 34 :: t) = some (escape s, t) := by
  induction s with
  | nil => exact rawString_quote t
  | cons c s ih =>
    rw [escape_cons, List.append_assoc, rawString_escapeChar, ih]
    rfl

/-! ### Undoing the escapes -/

/-- What becomes of a character: itself, or the text of its escape. -/
def readBack (c : Char) : List UInt8 :=
  if IsReadable c then String.utf8EncodeChar c else escapeChar c

theorem unescape_plain {b : UInt8} (h92 : b ≠ 92) (l : List UInt8) :
    unescape (b :: l) = b :: unescape l := by
  cases l with
  | nil => rfl
  | cons next l => exact if_neg h92

theorem unescape_unit (n : ℕ) (l : List UInt8) : unescape (unit n ++ l) = unit n ++ unescape l := by
  have hplain := fun m => unescape_plain (hexDigit_mod m).2
  show unescape (92 :: 117 :: hexDigit _ :: hexDigit _ :: hexDigit _ :: hexDigit _ :: l) = _
  rw [unescape, if_pos rfl, hplain, hplain, hplain, hplain]
  rfl

theorem unescape_escapeChar (c : Char) (l : List UInt8) :
    unescape (escapeChar c ++ l) = readBack c ++ unescape l := by
  rcases escapeChar_cases c with ⟨b, hmem, hb⟩ | hbare | ⟨hnot, hunits⟩
  · rw [hb, List.cons_append, List.cons_append, List.nil_append, unescape, if_pos rfl]
    refine congrArg (· ++ unescape l) ?_
    simp only [shortEscapes, List.mem_cons, List.not_mem_nil, or_false, Prod.mk.injEq] at hmem
    rcases hmem with ⟨rfl, rfl⟩ | ⟨rfl, rfl⟩ | ⟨rfl, rfl⟩ | ⟨rfl, rfl⟩ | ⟨rfl, rfl⟩ | ⟨rfl, rfl⟩ |
      ⟨rfl, rfl⟩ <;> decide
  · have hvalue : String.utf8EncodeChar c = [UInt8.ofNat c.toNat] := by
      have hle : c.val.toNat ≤ 127 := Nat.le_trans hbare.1.2 (by decide)
      rw [String.utf8EncodeChar, if_pos hle]
      rfl
    have hread : IsReadable c := Or.inl hbare.1
    rw [hbare.escapeChar, readBack, if_pos hread, hvalue, List.singleton_append,
      unescape_plain hbare.ne_backslash, List.singleton_append]
  · rw [readBack, if_neg hnot]
    rcases hunits with ⟨n, hn⟩ | ⟨n, m, hnm⟩
    · rw [hn, unescape_unit]
    · rw [hnm, List.append_assoc, unescape_unit, unescape_unit, List.append_assoc]

/-- **What is read of a string.** -/
theorem unescape_escape (s : Str) : unescape (escape s) = s.flatMap readBack := by
  induction s with
  | nil => rfl
  | cons c s ih => rw [escape_cons, unescape_escapeChar, ih, List.flatMap_cons]

/-! ## Reading the values -/

section Values

variable {k : Str} {members : List (Str × Value)} {toks : List Token}

/-- **The string of a key,** as it is read. -/
theorem findString_object (hk : IsKey k) {s : Str} (hmem : (k, .str s) ∈ members)
    (hkeys : ∀ m ∈ members, IsKey m.1) (hnodup : (members.map Prod.fst).Nodup)
    (htoks : Serialises members toks) :
    findString (text toks) (escape k) = some (s.flatMap readBack) := by
  obtain ⟨a, tok, rest, post, rfl, hsig, hsome, hfind⟩ :=
    findValue_object hk hmem hkeys hnodup htoks
  obtain rfl : tok = .str s := by
    cases tok with
    | blank b => cases hsome
    | mark m => cases (List.cons.inj hsig).1
    | str s' => exact (List.cons.inj hsig).1
  have hdrop : (text (a ++ .str s :: rest)).drop ((text a).length + 1)
      = escape s ++ 34 :: text rest := by
    rw [text_append, text_str_cons, List.drop_length_add_append]
    rfl
  rw [findString, hfind]
  show ite _ _ _ = _
  rw [charAt_token a (text_str_cons s rest), if_neg (not_not.mpr rfl), hdrop, rawString_escape,
    Option.map_some, unescape_escape]

/-- The strings among the tokens. -/
def strings : List Token → List Str
  | [] => []
  | .str s :: toks => s :: strings toks
  | _ :: toks => strings toks

theorem strings_significant (toks : List Token) : strings (significant toks) = strings toks := by
  induction toks with
  | nil => rfl
  | cons tok toks ih =>
    cases tok with
    | str s => exact congrArg (s :: ·) ih
    | mark m => exact ih
    | blank c => exact ih

theorem strings_commaSep (elems : List Str) :
    strings (commaSep (elems.map fun s => [.str s])) = elems := by
  induction elems with
  | nil => rfl
  | cons s elems ih =>
    cases elems with
    | nil => rfl
    | cons next elems => exact congrArg (s :: ·) ih

/-- A token of a list: any but the marks other than the comma. -/
def Listed (tok : Token) : Prop := ∀ m, tok = .mark m → m = .comma

theorem listed_commaSep (elems : List Str) :
    ∀ tok ∈ commaSep (elems.map fun s => [.str s]), Listed tok := by
  induction elems with
  | nil =>
    intro tok htok
    cases htok
  | cons s elems ih =>
    cases elems with
    | nil =>
      intro tok htok m hm
      rw [hm] at htok
      cases List.mem_singleton.mp htok
    | cons next elems =>
      intro tok htok
      rcases List.mem_cons.mp htok with rfl | htok
      · intro m hm
        cases hm
      · rcases List.mem_cons.mp htok with rfl | htok
        · intro m hm
          exact (Token.mark.inj hm).symm
        · exact ih tok htok

theorem stringArrayFrom_skip {c : UInt8} (hc : (isWs c || c = 44) = true) (fuel : ℕ)
    (s : List UInt8) (out : List (List UInt8)) :
    stringArrayFrom (fuel + 1) (c :: s) out = stringArrayFrom (fuel + 1) s out := by
  have hdrop : (c :: s).dropWhile (fun c => isWs c || c = 44)
      = s.dropWhile fun c => isWs c || c = 44 := List.dropWhile_cons_of_pos hc
  rw [stringArrayFrom, stringArrayFrom, hdrop]

/-- **The loop of `find_string_array`,** up to the end of the array. -/
theorem stringArrayFrom_listed {d : List Token} (hd : ∀ tok ∈ d, Listed tok) (t : List UInt8)
    {fuel : ℕ} (hfuel : d.length < fuel) (out : List (List UInt8)) :
    stringArrayFrom fuel (text d ++ 93 :: t) out
      = (true, out ++ (strings d).map fun s => s.flatMap readBack) := by
  induction d generalizing fuel out with
  | nil =>
    obtain ⟨fuel, rfl⟩ : ∃ f, fuel = f + 1 := ⟨fuel - 1, by rw [List.length_nil] at hfuel; omega⟩
    show (true, out) = _
    rw [strings, List.map_nil, List.append_nil]
  | cons tok d ih =>
    obtain ⟨fuel, rfl⟩ : ∃ f, fuel = f + 1 := ⟨fuel - 1, by omega⟩
    rw [List.length_cons] at hfuel
    have ih' := fun {f : ℕ} (hf : d.length < f) => ih
      (fun tok' htok' => hd tok' (List.mem_cons_of_mem tok htok')) hf
    cases tok with
    | mark m =>
      obtain rfl := hd _ List.mem_cons_self m rfl
      rw [text_mark_cons, List.cons_append, stringArrayFrom_skip (by decide)]
      exact ih' (by omega) out
    | blank b =>
      rw [text_blank_cons, List.cons_append,
        stringArrayFrom_skip (by rw [isWs_blank]; rfl)]
      exact ih' (by omega) out
    | str s =>
      have hstring := rawString_escape s (text d ++ 93 :: t)
      have hstop : (34 :: (escape s ++ 34 :: (text d ++ 93 :: t))).dropWhile
          (fun c => isWs c || c = 44) = 34 :: (escape s ++ 34 :: (text d ++ 93 :: t)) := rfl
      have hstep : stringArrayFrom (fuel + 1) (34 :: (escape s ++ 34 :: (text d ++ 93 :: t))) out
          = stringArrayFrom fuel (text d ++ 93 :: t) (out ++ [s.flatMap readBack]) := by
        rw [stringArrayFrom, hstop]
        simp only [hstring, ← unescape_escape]
        rfl
      rw [text_str_cons, List.cons_append, List.append_assoc, List.cons_append, hstep,
        ih' (by omega), List.append_assoc]
      rfl

theorem drop_skipWs (json : List UInt8) (c : ℕ) :
    json.drop (skipWs json c) = (json.drop c).dropWhile isWs := by
  have hdrop : ((json.drop c).takeWhile isWs ++ (json.drop c).dropWhile isWs).drop
      ((json.drop c).takeWhile isWs).length = (json.drop c).dropWhile isWs := List.drop_left
  rw [List.takeWhile_append_dropWhile, List.drop_drop] at hdrop
  exact hdrop

theorem stringArrayFrom_dropWhile (fuel : ℕ) (s : List UInt8) (out : List (List UInt8)) :
    stringArrayFrom (fuel + 1) (s.dropWhile isWs) out = stringArrayFrom (fuel + 1) s out := by
  induction s with
  | nil => rfl
  | cons c s ih =>
    by_cases hc : isWs c = true
    · rw [List.dropWhile_cons_of_pos hc, ih, stringArrayFrom_skip (by rw [hc]; rfl)]
    · rw [List.dropWhile_cons_of_neg hc]

/-- An empty array is not read by the loop, which would come to the same. -/
theorem stringArrayFrom_endArray {json : List UInt8} {i : ℕ}
    (h : i < json.length ∧ Http.charAt json i = 93) (fuel : ℕ) (out : List (List UInt8)) :
    stringArrayFrom (fuel + 1) (json.drop i) out = (true, out) := by
  obtain ⟨hlt, hat⟩ := h
  rw [Http.charAt, List.getD_eq_getElem _ _ hlt] at hat
  rw [List.drop_eq_getElem_cons hlt, hat]
  rfl

/-- **The strings of the array of a key,** as they are read. -/
theorem findStringArray_object (hk : IsKey k) {elems : List Str}
    (hmem : (k, .array elems) ∈ members) (hkeys : ∀ m ∈ members, IsKey m.1)
    (hnodup : (members.map Prod.fst).Nodup) (htoks : Serialises members toks)
    (out : List (List UInt8)) :
    findStringArray (text toks) (escape k) out
      = (true, out ++ elems.map fun s => s.flatMap readBack) := by
  obtain ⟨a, tok, rest, post, rfl, hsig, hsome, hfind⟩ :=
    findValue_object hk hmem hkeys hnodup htoks
  rw [Value.tokens, List.cons_append, List.append_assoc] at hsig
  obtain ⟨rfl, hrest⟩ : tok = .mark .beginArray ∧ significant rest
      = commaSep (elems.map fun s => [.str s]) ++ ([.mark .endArray] ++ post) := by
    cases tok with
    | blank b => cases hsome
    | mark m => exact List.cons.inj hsig
    | str s => cases (List.cons.inj hsig).1
  -- what is behind the bracket, up to the other one
  obtain ⟨d, rest', rfl, hd, hrest'⟩ := List.filter_eq_append_iff.mp hrest
  obtain ⟨blanks, t, rfl, hblanks, -, -⟩ := exists_blanks hrest'
  have hlisted : ∀ tok ∈ d ++ blanks, Listed tok := by
    intro tok htok m hm
    subst hm
    rcases List.mem_append.mp htok with htok | htok
    · refine listed_commaSep elems (.mark m) ?_ m rfl
      rw [← hd]
      exact List.mem_filter.mpr ⟨htok, rfl⟩
    · cases hblanks _ htok
  have hstrings : strings (d ++ blanks) = elems := by
    have hblank : significant blanks = [] := List.filter_eq_nil_iff.mpr fun b hb => by
      simp [hblanks b hb]
    rw [← strings_significant, significant_append, hblank, List.append_nil]
    exact (congrArg strings hd).trans (strings_commaSep elems)
  have htext : text (d ++ (blanks ++ .mark .endArray :: t))
      = text (d ++ blanks) ++ 93 :: text t := by
    rw [← List.append_assoc, text_append]
    rfl
  have hdrop : (text (a ++ .mark .beginArray :: (d ++ (blanks ++ .mark .endArray :: t)))).drop
      ((text a).length + 1) = text (d ++ blanks) ++ 93 :: text t := by
    rw [text_append, text_mark_cons, List.drop_length_add_append, htext]
    rfl
  have hfuel : (d ++ blanks).length
      < (text (a ++ .mark .beginArray :: (d ++ (blanks ++ .mark .endArray :: t)))).length + 1 := by
    have hle := length_le_length_text (d ++ blanks)
    have hlength := congrArg List.length hdrop
    rw [List.length_drop, List.length_append, List.length_cons] at hlength
    omega
  have hat := charAt_token a (text_mark_cons .beginArray (d ++ (blanks ++ .mark .endArray :: t)))
  rw [findStringArray, hfind]
  generalize text (a ++ .mark .beginArray :: (d ++ (blanks ++ .mark .endArray :: t))) = json
    at hat hdrop hfuel ⊢
  have hloop : stringArrayFrom (json.length + 1) (json.drop (skipWs json ((text a).length + 1))) out
      = (true, out ++ elems.map fun s => s.flatMap readBack) := by
    rw [drop_skipWs, stringArrayFrom_dropWhile, hdrop, stringArrayFrom_listed hlisted _ hfuel,
      hstrings]
  simp only [hat, Mark.byte, ne_eq, not_true_eq_false, if_false]
  split
  case isTrue h => rw [← hloop, stringArrayFrom_endArray h]
  case isFalse h => exact hloop

end Values

/-! ## The names -/

/-- The names are read back from the text. -/
def ReadsNames (instruments : List Str) (live : Str) (toks : List Token) : Prop :=
  findStringArray (text toks) (ascii "instruments") [] = (true, instruments.map utf8) ∧
    findString (text toks) (ascii "live_instrument") = some (utf8 live)

/-- A character that is not read back gives more bytes than it has. -/
theorem length_readBack {c : Char} (hc : ¬ IsReadable c) :
    (String.utf8EncodeChar c).length < (readBack c).length := by
  have hfour : (String.utf8EncodeChar c).length ≤ 4 := by
    rw [String.length_utf8EncodeChar]
    exact c.utf8Size_le_four
  rw [readBack, if_neg hc]
  rcases escapeChar_cases c with ⟨b, hmem, -⟩ | hbare | ⟨-, ⟨n, hn⟩ | ⟨n, m, hnm⟩⟩
  · simp only [shortEscapes, List.mem_cons, List.not_mem_nil, or_false, Prod.mk.injEq] at hmem
    rcases hmem with ⟨rfl, -⟩ | ⟨rfl, -⟩ | ⟨rfl, -⟩ | ⟨rfl, -⟩ | ⟨rfl, -⟩ | ⟨rfl, -⟩ | ⟨rfl, -⟩ <;>
      exact absurd (by decide) hc
  · exact absurd (Or.inl hbare.1) hc
  · rw [hn]
    exact Nat.lt_of_le_of_lt hfour (show 4 < 6 by decide)
  · rw [hnm]
    exact Nat.lt_of_le_of_lt hfour (show 4 < 12 by decide)

theorem length_utf8_le (s : Str) : (utf8 s).length ≤ (s.flatMap readBack).length := by
  induction s with
  | nil => exact le_rfl
  | cons c s ih =>
    have hc : (String.utf8EncodeChar c).length ≤ (readBack c).length := by
      by_cases hread : IsReadable c
      · rw [readBack, if_pos hread]
      · exact (length_readBack hread).le
    rw [utf8, List.flatMap_cons, List.flatMap_cons, List.length_append, List.length_append]
    exact Nat.add_le_add hc ih

/-- **A string is read back** exactly if all its characters are. -/
theorem flatMap_readBack_iff (s : Str) : s.flatMap readBack = utf8 s ↔ ∀ c ∈ s, IsReadable c := by
  constructor
  · intro heq
    induction s with
    | nil =>
      intro c hc
      cases hc
    | cons c s ih =>
      rw [utf8, List.flatMap_cons, List.flatMap_cons] at heq
      have hread : IsReadable c := by
        by_contra hnot
        have hlt := length_readBack hnot
        have hle := length_utf8_le s
        have hlength := congrArg List.length heq
        rw [List.length_append, List.length_append] at hlength
        rw [utf8] at hle
        omega
      rw [readBack, if_pos hread] at heq
      intro d hd
      rcases List.mem_cons.mp hd with rfl | hd
      · exact hread
      · exact ih (List.append_cancel_left heq) d hd
  · intro hall
    exact List.flatMap_congr fun c hc => if_pos (hall c hc)

theorem map_readBack_iff (names : List Str) :
    names.map (fun s => s.flatMap readBack) = names.map utf8 ↔
      ∀ name ∈ names, ∀ c ∈ name, IsReadable c := by
  rw [List.map_inj_left]
  exact forall_congr' fun name => imp_congr_right fun _ => flatMap_readBack_iff name

/-- **The names survive** exactly if they have only printable ASCII characters and the control
characters that have a short escape. -/
theorem readsNames_iff {instruments : List Str} {live : Str} {toks : List Token}
    (htoks : Serialises (getInstrumentsStatus instruments live) toks) :
    ReadsNames instruments live toks ↔
      ∀ name ∈ live :: instruments, ∀ c ∈ name, IsReadable c := by
  have hkeys : ∀ m ∈ getInstrumentsStatus instruments live, IsKey m.1 := by
    intro m hm
    rcases List.mem_cons.mp hm with rfl | hm
    · exact (by decide : IsKey "instruments".toList)
    · rw [List.mem_singleton.mp hm]
      exact (by decide : IsKey "live_instrument".toList)
  have hnodup : ((getInstrumentsStatus instruments live).map Prod.fst).Nodup :=
    (by decide : ["instruments".toList, "live_instrument".toList].Nodup)
  have hfirst : ascii "instruments" = escape "instruments".toList := by decide
  have hsecond : ascii "live_instrument" = escape "live_instrument".toList := by decide
  have hstring := findString_object (k := "live_instrument".toList) (by decide)
    (List.mem_cons_of_mem _ (List.mem_singleton_self _)) hkeys hnodup htoks
  have harray := findStringArray_object (k := "instruments".toList) (by decide) List.mem_cons_self
    hkeys hnodup htoks []
  rw [ReadsNames, hfirst, hsecond, hstring, harray, List.nil_append, Prod.mk.injEq,
    and_iff_right rfl, Option.some.injEq, map_readBack_iff, flatMap_readBack_iff,
    List.forall_mem_cons, and_comm]

/-- A text with the keys the other way round, a name that is a key and one with a quote. -/
def probeTokens : List Token :=
  [.mark .beginObject, .str "live_instrument".toList, .blank .space, .mark .colon,
    .str "instruments".toList, .mark .comma, .blank .newline, .str "instruments".toList,
    .mark .colon, .blank .tab, .mark .beginArray, .str "a\"instruments".toList, .mark .comma,
    .blank .space, .str "]\n".toList, .mark .endArray, .mark .endObject, .blank .newline]

theorem probeTokens_serialises : Serialises (getInstrumentsStatus
    ["a\"instruments".toList, "]\n".toList] "instruments".toList) probeTokens :=
  ⟨_, List.Perm.swap _ _ [], rfl⟩

theorem readsNames_probeTokens : ReadsNames ["a\"instruments".toList, "]\n".toList]
      "instruments".toList probeTokens ↔
    ∀ name ∈ ["instruments".toList, "a\"instruments".toList, "]\n".toList], ∀ c ∈ name,
      IsReadable c :=
  readsNames_iff probeTokens_serialises

/-- A name that is not ASCII. -/
def accentTokens : List Token :=
  [.mark .beginObject, .str "instruments".toList, .mark .colon, .mark .beginArray,
    .str "é".toList, .mark .endArray, .mark .comma, .str "live_instrument".toList, .mark .colon,
    .str "é".toList, .mark .endObject]

/-- It is read as the text of its escape. -/
theorem not_forall_readsNames : ¬ ∀ (instruments : List Str) (live : Str) (toks : List Token),
    Serialises (getInstrumentsStatus instruments live) toks →
      ReadsNames instruments live toks := by
  intro h
  have hread := h ["é".toList] "é".toList accentTokens ⟨_, List.Perm.refl _, rfl⟩
  exact absurd hread.2 (by decide)

end InstrumentStatus

end KoheronSdk
