import KoheronSdk.Generator.ContextJson

/-!
# The op table of the C++ client

`parse_ops` reads the context JSON into an array of operations.  It is no JSON parser: it looks
for keys with substring searches, each in a window of the text, the block of a class, the object
of a function or the array of its arguments.

## Windows

A window is found by matching brackets (`skip_object`), or ends where the next key of a class is.
Inside a window the keys are found in any order, so that a function object may have
its `args` before its `id`; but a key that is missing would be looked for behind the window, and
the code compares the position with the end of the window afterwards.  The proofs follow this with
`Window` of `Lib/QuotedText`: the tokens between two positions and those behind.  A
key that is in the window is found there, and one that is not is found behind it or nowhere.

## Loops

The loops over classes, functions and arguments advance by at least one character each turn.  They
have the length of the text as fuel, and `objectsLoop_joined` shows that this is enough, together
with what the loop reads.  The three of them are one definition, over what is done with an object.

* `parseString`, `skipObject`, `fillOpExtras`, `parseOps`: the scanner, on positions of the text.
* `OpTable`: the entries, with an index by id.
* `Nested`: tokens whose brackets match, so that `skipObject` passes them.
* `parseFunction_functionTokens`, `classesLoop_fromClass`: the scanner reads from a context the
  operations of its classes.
-/

namespace KoheronSdk

open QuotedText TextSearch Context

namespace OpDetail

/-! ## The scanner -/

/-- `is_ws` -/
def isWs (c : Char) : Bool := c = ' ' || c = '\t' || c = '\n' || c = '\r'

/-- `skip_ws` -/
def skipWs (json : Str) (pos : ℕ) : ℕ := pos + ((json.drop pos).takeWhile isWs).length

/-- `isspace` -/
def isSpace (c : Char) : Bool := isWs c || c = '\x0b' || c = '\x0c'

/-- `strtoul` of base 10, with 64 bits: the number, if there is one. -/
def strtoul (s : Str) : Option ℕ :=
  let s := s.dropWhile isSpace
  let negative : Bool := s.head? = some '-'
  let s := if negative ∨ s.head? = some '+' then s.tail else s
  let digits := s.takeWhile Char.isDigit
  let v := Nat.ofDigitChars 10 digits 0
  if digits = [] then none
  else if 2 ^ 64 ≤ v then some (2 ^ 64 - 1)
  else some (if negative then (2 ^ 64 - v) % 2 ^ 64 else v)

/-- `parse_uint` -/
def parseUint (json : Str) (pos : ℕ) : Option ℕ := (strtoul (json.drop pos)).map (· % 2 ^ 32)

/-- The loop of `parse_string` at the position `i`: the string, and the position behind it. -/
def parseStringLoop (raw : Str) : Str → ℕ → Option (Str × ℕ)
  | [], _ => none
  | '\\' :: c :: rest, i => parseStringLoop (raw ++ [c]) rest (i + 2)
  | '"' :: _, i => some (raw, i + 1)
  | c :: rest, i => parseStringLoop (raw ++ [c]) rest (i + 1)

/-- `parse_string` -/
def parseString (json : Str) (pos : ℕ) : Option (Str × ℕ) :=
  if (json.drop pos).head? = some '"' then parseStringLoop [] (json.drop (pos + 1)) (pos + 1)
  else none

/-- The loop of `skip_object` at the position `i`. -/
def skipObjectLoop (depth : ℤ) (inStr esc : Bool) (i : ℕ) : Str → Option ℕ
  | [] => none
  | c :: rest =>
    if inStr then
      if esc then skipObjectLoop depth inStr false (i + 1) rest
      else if c = '\\' then skipObjectLoop depth inStr true (i + 1) rest
      else if c = '"' then skipObjectLoop depth false esc (i + 1) rest
      else skipObjectLoop depth inStr esc (i + 1) rest
    else if c = '"' then skipObjectLoop depth true esc (i + 1) rest
    else if c = '{' ∨ c = '[' then skipObjectLoop (depth + 1) inStr esc (i + 1) rest
    else if c = '}' ∨ c = ']' then
      if depth - 1 = 0 then some (i + 1) else skipObjectLoop (depth - 1) inStr esc (i + 1) rest
    else skipObjectLoop depth inStr esc (i + 1) rest

/-- `skip_object` -/
def skipObject (json : Str) (pos : ℕ) : Option ℕ :=
  skipObjectLoop 0 false false pos (json.drop pos)

/-- `OpEntry` -/
structure OpEntry where
  id : ℕ
  classId : ℕ
  funcId : ℕ
  className : Str
  funcName : Str
  retType : Str
  args : List Str
  deriving DecidableEq

/-- Behind an element of an array: `skip_ws`, and past a comma. -/
def nextElement (json : Str) (last oend : ℕ) : ℕ :=
  let p := skipWs json oend
  if p < last ∧ (json.drop p).head? = some ',' then skipWs json (p + 1) else p

/-- The loops over the objects of an array, from `p` on: `element` reads the object between two
positions, or ends the loop.  A turn passes at least one character, so that `fuel` for all of them
is enough. -/
def objectsLoop {α : Type} (element : ℕ → ℕ → Option α) (json : Str) (last : ℕ) :
    ℕ → ℕ → List α
  | 0, _ => []
  | fuel + 1, p =>
    if p < last ∧ (json.drop p).head? = some '{' then
      match skipObject json p with
      | none => []
      | some oend =>
        if last < oend then []
        else match element p oend with
          | none => []
          | some e => e :: objectsLoop element json last fuel (nextElement json last oend)
    else []

/-- The type of the argument object from `p` to `oend`. -/
def parseArg (json : Str) (p oend : ℕ) : Option Str :=
  match find json (key "type".toList ++ ['"']) p with
  | none => some []
  | some tp =>
    if tp < oend then some (((parseString json (tp + 7)).map Prod.fst).getD []) else some []

/-- `fill_op_extras`: the return type and the types of the arguments, in the function object
from `first` to `last`. -/
def fillOpExtras (json : Str) (first last : ℕ) : Str × List Str :=
  let retType := match find json (key "ret_type".toList ++ ['"']) first with
    | none => []
    | some rp => if rp < last then ((parseString json (rp + 11)).map Prod.fst).getD [] else []
  let args := match find json (key "args".toList ++ ['[']) first with
    | none => []
    | some ap =>
      if ap < last then
        objectsLoop (parseArg json) json last json.length (skipWs json (ap + 8))
      else []
  (retType, args)

/-- The entry of the function object from `p` to `oend`. -/
def parseFunction (json className : Str) (cid p oend : ℕ) : Option OpEntry := do
  let (funcName, afterFn) ← parseString json (p + 8)
  let ip ← find json (key "id".toList) afterFn
  if oend ≤ ip then none
  else
    let fid ← parseUint json (ip + 5)
    let extras := fillOpExtras json afterFn oend
    return ⟨((cid <<< 16) % 2 ^ 32) ||| fid, cid % 2 ^ 16, fid % 2 ^ 16, className, funcName,
      extras.1, extras.2⟩

/-- The operations of a class, from its name to its end. -/
def parseClass (json className : Str) (afterName cend : ℕ) : Option (List OpEntry) := do
  let cidPos ← find json (key "id".toList) afterName
  if cend ≤ cidPos then none
  else
    let cid ← parseUint json (cidPos + 5)
    match find json (key "functions".toList ++ ['[']) cidPos with
    | none => return []
    | some farr =>
      if cend ≤ farr then return []
      else
        let p := skipWs json (farr + 13)
        return objectsLoop (parseFunction json className cid) json cend json.length p

/-- The loop of `parse_ops` over the classes. -/
def classesLoop (json : Str) : ℕ → ℕ → List OpEntry
  | 0, _ => []
  | fuel + 1, pos =>
    match find json (key "class".toList ++ ['"']) pos with
    | none => []
    | some cpos =>
      match parseString json (cpos + 8) with
      | none => classesLoop json fuel (cpos + 9)
      | some (className, afterName) =>
        let cend := (find json (key "class".toList ++ ['"']) afterName).getD json.length
        match parseClass json className afterName cend with
        | none => []
        | some ops => ops ++ classesLoop json fuel cend

/-- `parse_ops` -/
def parseOps (json : Str) : List OpEntry := classesLoop json json.length 0

/-! ## The table -/

/-- `OpTable` -/
structure OpTable where
  ops : List OpEntry
  index : List (ℕ × ℕ)

namespace OpTable

/-- The loop of `OpTable::build`: a position for every id that has none. -/
def indexLoop (index : List (ℕ × ℕ)) : List OpEntry → ℕ → List (ℕ × ℕ)
  | [], _ => index
  | op :: ops, i =>
    indexLoop (if index.lookup op.id = none then index ++ [(op.id, i)] else index) ops (i + 1)

/-- `OpTable::build` -/
def build (json : Str) : OpTable := ⟨parseOps json, indexLoop [] (parseOps json) 0⟩

/-- `OpTable::find` -/
def find (table : OpTable) (id : ℕ) : Option OpEntry :=
  (table.index.lookup id).bind fun i => table.ops[i]?

/-- `OpTable::by_name` -/
def byName (table : OpTable) (classFunc : Str) : Option OpEntry :=
  match offset? [':', ':'] classFunc with
  | none => table.ops.find? fun op => op.funcName = classFunc
  | some sep => table.ops.find? fun op =>
      op.className = classFunc.take sep ∧ op.funcName = classFunc.drop (sep + 2)

end OpTable

/-! ## Reading tokens -/

section Reading

variable {toks rest : List Token} {p : ℕ}

theorem skipWs_punct {c : Char} (hc : isWs c = false) (h : At toks p (.punct c :: rest)) :
    skipWs (text toks) p = p := by
  rw [skipWs, h.drop, text_punct_cons,
    List.takeWhile_cons_of_neg (by rw [hc]; exact Bool.false_ne_true)]
  rfl

theorem parseStringLoop_plain {s : Str} (hquote : '"' ∉ s) (hslash : '\\' ∉ s) (raw t : Str)
    (i : ℕ) : parseStringLoop raw (s ++ '"' :: t) i = some (raw ++ s, i + s.length + 1) := by
  induction s generalizing raw i with
  | nil => rw [List.nil_append, parseStringLoop, List.append_nil]; rfl
  | cons c cs ih =>
    obtain ⟨hq, hqs⟩ := not_or.mp (mt List.mem_cons.mpr hquote)
    obtain ⟨hb, hbs⟩ := not_or.mp (mt List.mem_cons.mpr hslash)
    rw [List.cons_append, parseStringLoop, ih hqs hbs, List.append_assoc, List.length_cons]
    · refine congrArg some (Prod.ext rfl ?_)
      show i + 1 + cs.length + 1 = i + (cs.length + 1) + 1
      omega
    · exact fun _ _ hc _ => hb hc.symm
    · exact fun hc => hq hc.symm

/-- `parse_string` reads a string token. -/
theorem parseString_str {s : Str} (hplain : (Token.str s).Plain) (h : At toks p (.str s :: rest)) :
    parseString (text toks) p = some (s, p + (s.length + 2)) ∧
      At toks (p + (s.length + 2)) rest := by
  have hskip : At toks (p + (text [.str s]).length) rest := h.skip (a := [.str s])
  rw [length_text_str_cons, text_nil, List.length_nil, Nat.add_zero] at hskip
  refine ⟨?_, hskip⟩
  have hdrop : (text toks).drop (p + 1) = s ++ '"' :: text rest := by
    rw [← List.drop_drop, h.drop, text_str_cons]
    rfl
  have hquote : ((text toks).drop p).head? = some '"' := by
    rw [h.drop, text_str_cons]
    rfl
  rw [parseString, if_pos hquote, hdrop, parseStringLoop_plain hplain.1 hplain.2, List.nil_append]
  refine congrArg some (Prod.ext rfl ?_)
  show p + 1 + s.length + 1 = p + (s.length + 2)
  omega

/-- The `uint32_t` that is read for a number. -/
def uint32 (n : ℕ) : ℕ := min n (2 ^ 64 - 1) % 2 ^ 32

theorem strtoul_digits (n : ℕ) {t : Str} (ht : ∀ c ∈ t.head?, c.isDigit = false) :
    strtoul (Nat.toDigits 10 n ++ t) = some (min n (2 ^ 64 - 1)) := by
  have hdigits : ∀ c ∈ Nat.toDigits 10 n, c.isDigit = true := fun c hc =>
    Nat.isDigit_of_mem_toDigits (by decide) (by decide) hc
  obtain ⟨d, ds, hd⟩ := List.exists_cons_of_ne_nil (Nat.toDigits_ne_nil (n := n) (b := 10))
  have hdigit : d.isDigit = true := hdigits d (hd ▸ List.mem_cons_self)
  have hspace : isSpace d = false := by
    by_contra hspace
    have hspace := eq_true_of_ne_false hspace
    simp only [isSpace, isWs, Bool.or_eq_true, decide_eq_true_eq] at hspace
    rcases hspace with ((((rfl | rfl) | rfl) | rfl) | rfl) | rfl <;> exact absurd hdigit (by decide)
  have hhead : ∀ c, d = c → c.isDigit = true := fun c hc => hc ▸ hdigit
  have hminus : d ≠ '-' := fun hc => absurd (hhead _ hc) (by decide)
  have hplus : d ≠ '+' := fun hc => absurd (hhead _ hc) (by decide)
  have hdrop : (Nat.toDigits 10 n ++ t).dropWhile isSpace = Nat.toDigits 10 n ++ t := by
    rw [hd, List.cons_append, List.dropWhile_cons_of_neg (by rw [hspace]; exact Bool.false_ne_true)]
  have htake : (Nat.toDigits 10 n ++ t).takeWhile Char.isDigit = Nat.toDigits 10 n := by
    rw [List.takeWhile_append_of_pos hdigits]
    cases t with
    | nil => exact List.append_nil _
    | cons c cs =>
      rw [List.takeWhile_cons_of_neg (by rw [ht c rfl]; exact Bool.false_ne_true), List.append_nil]
  have hnegative : (Nat.toDigits 10 n ++ t).head? ≠ some '-' := by
    rw [hd]
    exact fun hc => hminus (Option.some.inj hc)
  have hpositive : (Nat.toDigits 10 n ++ t).head? ≠ some '+' := by
    rw [hd]
    exact fun hc => hplus (Option.some.inj hc)
  have hvalue : Nat.ofDigitChars 10 (Nat.toDigits 10 n) 0 = n :=
    Nat.ofDigitChars_toDigits (by decide) (by decide)
  simp only [strtoul, hdrop, hnegative, hpositive, decide_false, Bool.false_eq_true, or_self,
    if_false, htake, hvalue, Nat.toDigits_ne_nil]
  split
  · rw [Nat.min_eq_right (by omega)]
  · rw [Nat.min_eq_left (by omega)]

/-- `parse_uint` reads a number token. -/
theorem parseUint_num {n : ℕ} {c : Char} (hc : c.isDigit = false)
    (h : At toks p (.num n :: .punct c :: rest)) :
    parseUint (text toks) p = some (uint32 n) := by
  rw [parseUint, h.drop]
  show (strtoul (Nat.toDigits 10 n ++ c :: text rest)).map _ = _
  rw [strtoul_digits n]
  · rfl
  · intro d hd
    rw [← Option.some.inj hd, hc]

/-! ### Nesting -/

/-- Tokens whose brackets match: `skip_object` passes them at its depth. -/
def Nested (a : List Token) : Prop := ∀ (d : ℤ) (i : ℕ) (t : Str), 1 ≤ d →
  skipObjectLoop d false false i (text a ++ t)
    = skipObjectLoop d false false (i + (text a).length) t

theorem nested_nil : Nested [] := fun _ _ _ _ => rfl

theorem Nested.append {a b : List Token} (ha : Nested a) (hb : Nested b) : Nested (a ++ b) :=
  fun d i t hd => by
    rw [text_append, List.append_assoc, ha d i _ hd, hb d _ t hd, List.length_append, Nat.add_assoc]

/-- Characters that `skip_object` does not care for. -/
theorem skipObjectLoop_other {c : Char} (hc : c ∉ ['"', '{', '[', '}', ']']) (d : ℤ) (i : ℕ)
    (t : Str) :
    skipObjectLoop d false false i (c :: t) = skipObjectLoop d false false (i + 1) t := by
  simp only [List.mem_cons, List.not_mem_nil, or_false, not_or] at hc
  obtain ⟨hquote, hbrace, hbracket, hbrace', hbracket'⟩ := hc
  rw [skipObjectLoop, if_neg Bool.false_ne_true, if_neg hquote,
    if_neg (not_or.mpr ⟨hbrace, hbracket⟩), if_neg (not_or.mpr ⟨hbrace', hbracket'⟩)]

theorem skipObjectLoop_plain {s : Str} (hquote : '"' ∉ s) (hslash : '\\' ∉ s) (d : ℤ) (i : ℕ)
    (t : Str) : skipObjectLoop d true false i (s ++ '"' :: t)
      = skipObjectLoop d false false (i + s.length + 1) t := by
  induction s generalizing i with
  | nil =>
    rw [List.nil_append, skipObjectLoop, if_pos rfl, if_neg Bool.false_ne_true,
      if_neg (by decide), if_pos rfl]
    rfl
  | cons c cs ih =>
    obtain ⟨hq, hqs⟩ := not_or.mp (mt List.mem_cons.mpr hquote)
    obtain ⟨hb, hbs⟩ := not_or.mp (mt List.mem_cons.mpr hslash)
    rw [List.cons_append, skipObjectLoop, if_pos rfl, if_neg Bool.false_ne_true,
      if_neg (Ne.symm hb), if_neg (Ne.symm hq), ih hqs hbs, List.length_cons]
    congr 1
    omega

theorem nested_str {s : Str} (h : (Token.str s).Plain) : Nested [.str s] := fun d i t hd => by
  rw [text_str_cons, text_nil, List.cons_append, List.append_assoc, skipObjectLoop,
    if_neg Bool.false_ne_true, if_pos rfl, List.singleton_append, skipObjectLoop_plain h.1 h.2,
    List.length_cons, List.length_append]
  congr 1
  simp only [List.length_cons, List.length_nil]
  omega

theorem nested_num (n : ℕ) : Nested [.num n] := fun d i t hd => by
  have hdigits : ∀ c ∈ Nat.toDigits 10 n, c.isDigit = true := fun c hc =>
    Nat.isDigit_of_mem_toDigits (by decide) (by decide) hc
  have hpass : ∀ (digits : Str) (i : ℕ), (∀ c ∈ digits, c.isDigit = true) →
      skipObjectLoop d false false i (digits ++ t)
        = skipObjectLoop d false false (i + digits.length) t := by
    intro digits
    induction digits with
    | nil => exact fun _ _ => rfl
    | cons c cs ih =>
      intro i hall
      rw [List.cons_append, skipObjectLoop_other,
        ih _ fun c' hc' => hall c' (List.mem_cons_of_mem c hc'), List.length_cons]
      · congr 1
        omega
      · intro hmem
        have hc := hall c List.mem_cons_self
        simp only [List.mem_cons, List.not_mem_nil, or_false] at hmem
        rcases hmem with rfl | rfl | rfl | rfl | rfl <;> exact absurd hc (by decide)
  have htext : text [.num n] = Nat.toDigits 10 n := List.append_nil _
  rw [htext]
  exact hpass _ i hdigits

theorem nested_punct {c : Char} (hc : c ∉ ['"', '{', '[', '}', ']']) : Nested [.punct c] :=
  fun d i t _ => skipObjectLoop_other hc d i t

/-- What matches within brackets matches with them. -/
theorem Nested.bracketed {a : List Token} (ha : Nested a) {left right : Char}
    (hbrackets : left = '{' ∧ right = '}' ∨ left = '[' ∧ right = ']') :
    Nested (.punct left :: (a ++ [.punct right])) := fun d i t hd => by
  have hlength : (text (.punct left :: (a ++ [.punct right]))).length = (text a).length + 2 := by
    rw [text_punct_cons, text_append, List.length_cons, List.length_append]
    rfl
  have hleft : left ≠ '"' ∧ (left = '{' ∨ left = '[') := by
    rcases hbrackets with ⟨rfl, -⟩ | ⟨rfl, -⟩ <;> decide
  have hright : right ≠ '"' ∧ ¬ (right = '{' ∨ right = '[') ∧ (right = '}' ∨ right = ']') := by
    rcases hbrackets with ⟨-, rfl⟩ | ⟨-, rfl⟩ <;> decide
  rw [hlength, text_punct_cons, text_append, List.cons_append, List.append_assoc, skipObjectLoop,
    if_neg Bool.false_ne_true, if_neg hleft.1, if_pos hleft.2, ha _ _ _ (by omega)]
  show skipObjectLoop _ false false _ (right :: t) = _
  rw [skipObjectLoop, if_neg Bool.false_ne_true, if_neg hright.1, if_neg hright.2.1,
    if_pos hright.2.2, if_neg (by omega)]
  congr 1
  · omega
  · omega

/-- **`skip_object` passes an object.** -/
theorem skipObject_nested {a : List Token} (ha : Nested a)
    (h : At toks p (.punct '{' :: (a ++ [.punct '}']) ++ rest)) :
    skipObject (text toks) p = some (p + (text (.punct '{' :: (a ++ [.punct '}']))).length) := by
  have hlength : (text (.punct '{' :: (a ++ [.punct '}']))).length = (text a).length + 2 := by
    rw [text_punct_cons, text_append, List.length_cons, List.length_append]
    rfl
  rw [skipObject, h.drop, hlength, List.cons_append, text_punct_cons, List.append_assoc,
    text_append, skipObjectLoop, if_neg Bool.false_ne_true, if_neg (by decide), if_pos (by decide),
    ha _ _ _ (by decide)]
  show skipObjectLoop _ false false _ ('}' :: text rest) = _
  rw [skipObjectLoop, if_neg Bool.false_ne_true, if_neg (by decide), if_neg (by decide),
    if_pos (by decide), if_pos (by decide)]
  refine congrArg some ?_
  omega

theorem nested_joined {values : List (List Token)} (h : ∀ value ∈ values, Nested value) :
    Nested (joined values) := by
  induction values with
  | nil => exact nested_nil
  | cons value values ih =>
    have hvalue := h value List.mem_cons_self
    have hrest := ih fun v hv => h v (List.mem_cons_of_mem value hv)
    cases values with
    | nil => exact hvalue
    | cons next values =>
      exact hvalue.append ((nested_punct (by decide)).append hrest)

theorem nested_listTokens {values : List (List Token)} (h : ∀ value ∈ values, Nested value) :
    Nested (listTokens values) := (nested_joined h).bracketed (Or.inr ⟨rfl, rfl⟩)

/-- The items of a dictionary match if their values do. -/
theorem nested_items {items : List (String × List Token)}
    (h : ∀ item ∈ items, (Token.str item.1.toList).Plain ∧ Nested item.2) :
    Nested (joined (items.map fun item => .str item.1.toList :: .punct ':' :: item.2)) := by
  refine nested_joined fun value hvalue => ?_
  obtain ⟨item, hitem, rfl⟩ := List.mem_map.mp hvalue
  obtain ⟨hkey, hitem⟩ := h item hitem
  exact (nested_str hkey).append ((nested_punct (by decide)).append hitem)

/-! ### Windows -/

variable {w : List Token} {last : ℕ}

/-- `parse_string` in a window. -/
theorem parseString_window {s : Str} (hplain : ∀ tok ∈ toks, tok.Plain)
    (h : Window toks p last (.str s :: w) rest) :
    ∃ q, parseString (text toks) p = some (s, q) ∧ Window toks q last w rest := by
  have hs : (Token.str s).Plain := hplain _ (h.tokens.subset _ List.mem_cons_self)
  have hskip := Window.skip (a := [.str s]) h
  rw [length_text_str_cons] at hskip
  exact ⟨_, (parseString_str hs h.tokens).1, hskip⟩

theorem skipWs_of_head {c : Char} (h : At toks p rest) (hhead : (text rest).head? = some c)
    (hc : isWs c = false) : skipWs (text toks) p = p := by
  obtain ⟨t, ht⟩ : ∃ t, text rest = c :: t := by
    cases htext : text rest with
    | nil => rw [htext] at hhead; cases hhead
    | cons d t =>
      rw [htext] at hhead
      obtain rfl : d = c := Option.some.inj hhead
      exact ⟨t, rfl⟩
  rw [skipWs, h.drop, ht, List.takeWhile_cons_of_neg (by rw [hc]; exact Bool.false_ne_true)]
  rfl

/-- Tokens of an object: what is within its braces matches. -/
def IsObject (a : List Token) : Prop := ∃ b, a = .punct '{' :: (b ++ [.punct '}']) ∧ Nested b

theorem isObject_dictTokens {items : List (String × List Token)}
    (h : ∀ item ∈ items, (Token.str item.1.toList).Plain ∧ Nested item.2) :
    IsObject (dictTokens items) := ⟨_, rfl, nested_items h⟩

theorem IsObject.nested {a : List Token} (h : IsObject a) : Nested a := by
  obtain ⟨b, rfl, hb⟩ := h
  exact hb.bracketed (Or.inl ⟨rfl, rfl⟩)

theorem IsObject.head? {a : List Token} (h : IsObject a) (b : List Token) :
    (text (a ++ b)).head? = some '{' := by
  obtain ⟨c, rfl, -⟩ := h
  rfl

theorem IsObject.length {a : List Token} (h : IsObject a) : 2 ≤ (text a).length := by
  obtain ⟨b, rfl, -⟩ := h
  rw [text_punct_cons, text_append, List.length_cons, List.length_append]
  show 2 ≤ _ + 1 + 1
  omega

/-- **`skip_object` passes an object of a window.** -/
theorem IsObject.skipObject {a : List Token} (ha : IsObject a)
    (h : Window toks p last (a ++ w) rest) :
    OpDetail.skipObject (text toks) p = some (p + (text a).length) := by
  obtain ⟨b, rfl, hb⟩ := ha
  have htokens := h.tokens
  rw [List.append_assoc] at htokens
  exact skipObject_nested hb htokens

section Objects

variable {α β : Type} {object : β → List Token} {xs : List β}

/-- An array of objects begins with a brace, or ends at once. -/
theorem head?_objects (hobject : ∀ x ∈ xs, IsObject (object x)) (a : List Token) :
    (text (joined (xs.map object) ++ .punct ']' :: a)).head?
      = some (if xs = [] then ']' else '{') := by
  cases xs with
  | nil => rfl
  | cons x xs =>
    have hx := (hobject x List.mem_cons_self).head?
    rw [if_neg (List.cons_ne_nil x xs)]
    cases xs with
    | nil => exact hx _
    | cons y ys =>
      show (text (object x ++ .punct ',' :: joined ((y :: ys).map object) ++ _)).head? = _
      rw [List.append_assoc]
      exact hx _

theorem skipWs_objects (hobject : ∀ x ∈ xs, IsObject (object x))
    (h : Window toks p last (joined (xs.map object) ++ .punct ']' :: w) rest) :
    skipWs (text toks) p = p := by
  have htokens := h.tokens
  rw [List.append_assoc, List.cons_append] at htokens
  refine skipWs_of_head htokens (head?_objects hobject _) ?_
  split <;> decide

/-- Behind an object there is the next one, or the end of the array. -/
theorem nextElement_objects (hobject : ∀ x ∈ xs, IsObject (object x)) {x : β}
    (h : Window toks p last (joined ((x :: xs).map object) ++ .punct ']' :: w) rest) :
    Window toks (nextElement (text toks) last (p + (text (object x)).length)) last
      (joined (xs.map object) ++ .punct ']' :: w) rest := by
  cases xs with
  | nil =>
    have hnext : Window toks (p + (text (object x)).length) last (.punct ']' :: w) rest := h.skip
    have hskip := skipWs_punct (c := ']') (by decide) hnext.tokens
    rw [nextElement, hskip, if_neg]
    · exact hnext
    · rw [hnext.tokens.drop]
      exact fun hcomma => absurd hcomma.2 (by simp)
  | cons y ys =>
    have hcons : joined ((x :: y :: ys).map object) ++ .punct ']' :: w
        = object x ++ .punct ',' :: (joined ((y :: ys).map object) ++ .punct ']' :: w) := by
      rw [List.map_cons, List.map_cons, joined, List.append_assoc]
      · rfl
      · exact fun hnil => absurd hnil (List.cons_ne_nil _ _)
    rw [hcons] at h
    have hcomma := h.skip
    have hnext := hcomma.skip_punct
    have hskip := skipWs_punct (c := ',') (by decide) hcomma.tokens
    have hlast := hcomma.length
    rw [text_punct_cons, List.length_cons] at hlast
    have hhead : ((text toks).drop (p + (text (object x)).length)).head? = some ',' := by
      rw [hcomma.tokens.drop]
      rfl
    rw [nextElement, hskip, if_pos ⟨by omega, hhead⟩, skipWs_objects hobject hnext]
    exact hnext

/-- **The loop reads every object of the array.** -/
theorem objectsLoop_joined {element : ℕ → ℕ → Option α} {f : β → α}
    (hobject : ∀ x ∈ xs, IsObject (object x))
    (hreads : ∀ x ∈ xs, ∀ q oend r, Window toks q oend (object x) r → element q oend = some (f x))
    (h : Window toks p last (joined (xs.map object) ++ .punct ']' :: w) rest) {fuel : ℕ}
    (hfuel : xs.length ≤ fuel) : objectsLoop element (text toks) last fuel p = xs.map f := by
  induction xs generalizing p fuel with
  | nil =>
    cases fuel with
    | zero => rfl
    | succ fuel =>
      have hdrop := h.tokens.drop
      rw [objectsLoop, if_neg]
      · rfl
      · rw [hdrop]
        exact fun hbrace => absurd hbrace.2 (by simp [joined])
  | cons x xs ih =>
    cases fuel with
    | zero => exact absurd hfuel (Nat.not_succ_le_zero _)
    | succ fuel =>
      have hx := hobject x List.mem_cons_self
      have hxs := fun y hy => hobject y (List.mem_cons_of_mem x hy)
      obtain ⟨behind, hbehind⟩ : ∃ behind, joined ((x :: xs).map object) ++ .punct ']' :: w
          = object x ++ behind := by
        cases xs with
        | nil => exact ⟨_, rfl⟩
        | cons y ys => exact ⟨_, List.append_assoc ..⟩
      have hwindow := h
      rw [hbehind] at hwindow
      have hhead : ((text toks).drop p).head? = some '{' := by
        rw [hwindow.tokens.drop, List.append_assoc]
        exact hx.head? _
      have hlast := hwindow.length
      rw [text_append, List.length_append] at hlast
      have hlength := hx.length
      rw [objectsLoop, if_pos ⟨by omega, hhead⟩, hx.skipObject hwindow]
      show (if last < p + (text (object x)).length then [] else _) = _
      rw [if_neg (by omega), hreads x List.mem_cons_self _ _ _ hwindow.first]
      refine congrArg (f x :: ·) (ih hxs (fun y hy => hreads y (List.mem_cons_of_mem x hy)) ?_ ?_)
      · exact nextElement_objects hxs h
      · exact Nat.le_of_succ_le_succ hfuel

/-- There are no more objects than characters. -/
theorem length_le_of_objects (hobject : ∀ x ∈ xs, IsObject (object x)) :
    xs.length ≤ (text (joined (xs.map object))).length := by
  induction xs with
  | nil => exact Nat.zero_le _
  | cons x xs ih =>
    have hx := (hobject x List.mem_cons_self).length
    have hrest := ih fun y hy => hobject y (List.mem_cons_of_mem x hy)
    cases xs with
    | nil =>
      show 1 ≤ (text (object x)).length
      omega
    | cons y ys =>
      show _ ≤ (text (object x ++ .punct ',' :: joined ((y :: ys).map object))).length
      rw [text_append, List.length_append, text_punct_cons]
      simp only [List.length_cons] at hrest ⊢
      omega

/-- **The loop over the array of a window**, with the fuel that the scanner gives it. -/
theorem objectsLoop_window {element : ℕ → ℕ → Option α} {f : β → α}
    (hobject : ∀ x ∈ xs, IsObject (object x))
    (hreads : ∀ x ∈ xs, ∀ q oend r, Window toks q oend (object x) r → element q oend = some (f x))
    (h : Window toks p last (joined (xs.map object) ++ .punct ']' :: w) rest) :
    objectsLoop element (text toks) last (text toks).length (skipWs (text toks) p)
      = xs.map f := by
  rw [skipWs_objects hobject h]
  refine objectsLoop_joined hobject hreads h ((length_le_of_objects hobject).trans ?_)
  have hlength := h.tokens.add_length
  rw [List.append_assoc, text_append, List.length_append] at hlength
  omega

end Objects

/-! ### Keys -/

/-- Tokens that have no such key, whatever follows them. -/
def Keyless (k : Str) (a : List Token) : Prop :=
  ∀ tail b, (text b).head? ≠ some ':' → Avoids k tail b a

variable {k : Str}

theorem keyless_str (s : Str) : Keyless k [.str s] := by
  refine fun tail b hb => ⟨fun hkey => hb ?_, trivial⟩
  obtain ⟨t, ht⟩ := hkey.2
  show (text b).head? = _
  rw [show text b = ':' :: (tail ++ t) from ht.symm]
  rfl

theorem keyless_num (n : ℕ) : Keyless k [.num n] := fun _ _ _ => trivial

theorem keyless_joined {values : List (List Token)} (h : ∀ value ∈ values, Keyless k value) :
    Keyless k (joined values) := by
  induction values with
  | nil => exact fun _ _ _ => trivial
  | cons value values ih =>
    have hvalue := h value List.mem_cons_self
    have hrest := ih fun v hv => h v (List.mem_cons_of_mem value hv)
    cases values with
    | nil => exact hvalue
    | cons next values =>
      intro tail b hb
      refine (avoids_append ..).mpr ⟨hvalue _ _ ?_, hrest _ _ hb⟩
      show some ',' ≠ some ':'
      decide

theorem keyless_listTokens {values : List (List Token)} (h : ∀ value ∈ values, Keyless k value) :
    Keyless k (listTokens values) := by
  intro tail b hb
  show Avoids k tail b (joined values ++ [.punct ']'])
  refine (avoids_append ..).mpr ⟨keyless_joined h _ _ ?_, trivial⟩
  show some ']' ≠ some ':'
  decide

theorem keyless_dictTokens {items : List (String × List Token)}
    (h : ∀ item ∈ items, item.1.toList ≠ k ∧ Keyless k item.2) : Keyless k (dictTokens items) := by
  intro tail b hb
  show Avoids k tail b (joined _ ++ [.punct '}'])
  refine (avoids_append ..).mpr ⟨keyless_joined ?_ _ _ ?_, trivial⟩
  · intro value hvalue
    obtain ⟨item, hitem, rfl⟩ := List.mem_map.mp hvalue
    obtain ⟨hne, hitem⟩ := h item hitem
    exact fun tail b hb => ⟨fun hkey => hne hkey.1, hitem tail b hb⟩
  · show some '}' ≠ some ':'
    decide

/-! ### Arguments -/

theorem quote_prefix_str (s : Str) (a : List Token) : ['"'] <+: text (.str s :: a) := by
  rw [text_str_cons]
  exact List.prefix_cons_inj '"' |>.mpr (List.nil_prefix ..)

theorem bracket_prefix_list (values : List (List Token)) (a : List Token) :
    ['['] <+: text (listTokens values ++ a) :=
  List.prefix_cons_inj '[' |>.mpr (List.nil_prefix ..)

theorem isObject_argTokens {arg : Str × Str}
    (h : (Token.str arg.1).Plain ∧ (Token.str arg.2).Plain) : IsObject (argTokens arg) := by
  obtain ⟨hname, htype⟩ := h
  refine isObject_dictTokens fun item hitem => ?_
  simp only [List.mem_cons, List.not_mem_nil, or_false] at hitem
  rcases hitem with rfl | rfl
  · exact ⟨IsKey.plain (k := "name".toList) (by decide), nested_str hname⟩
  · exact ⟨IsKey.plain (k := "type".toList) (by decide), nested_str htype⟩

theorem keyless_argTokens (hname : "name".toList ≠ k) (htype : "type".toList ≠ k)
    (arg : Str × Str) : Keyless k (argTokens arg) := by
  refine keyless_dictTokens fun item hitem => ?_
  simp only [List.mem_cons, List.not_mem_nil, or_false] at hitem
  rcases hitem with rfl | rfl
  · exact ⟨hname, keyless_str _⟩
  · exact ⟨htype, keyless_str _⟩

theorem parseArg_argTokens (hplain : ∀ tok ∈ toks, tok.Plain) {arg : Str × Str} {q oend : ℕ}
    (h : Window toks q oend (argTokens arg) rest) : parseArg (text toks) q oend = some arg.2 := by
  have htokens :
      argTokens arg = [.punct '{', .str "name".toList, .punct ':', .str arg.1, .punct ',']
      ++ .str "type".toList :: .punct ':' :: [.str arg.2, .punct '}'] := rfl
  rw [htokens] at h
  obtain ⟨tp, htp, hlt, h⟩ := h.find (k := "type".toList) hplain (by decide)
    (by simp) (quote_prefix_str _ _)
  obtain ⟨_, htype, -⟩ := parseString_window hplain h.skip_key
  rw [parseArg, htp]
  show (if tp < oend then _ else _) = _
  rw [if_pos hlt]
  show some (((parseString (text toks) (tp + ("type".toList.length + 3))).map _).getD _) = _
  rw [htype]
  rfl

/-! ### Functions -/

/-- The entry that the scanner makes of a function, where it has read the number `cid`. -/
def entry (className : Str) (cid : ℕ) (f : FunctionJson) : OpEntry :=
  ⟨((cid <<< 16) % 2 ^ 32) ||| uint32 f.id, cid % 2 ^ 16, uint32 f.id % 2 ^ 16, className, f.name,
    f.retType, f.args.map Prod.snd⟩

/-- The array of the arguments. -/
def argsTokens (f : FunctionJson) : List Token := listTokens (f.args.map argTokens)

theorem isObject_of_mem_args {f : FunctionJson} (hf : f.All Token.Plain) :
    ∀ arg ∈ f.args, IsObject (argTokens arg) := fun arg harg =>
      isObject_argTokens (hf.args arg harg)

theorem nested_argsTokens {f : FunctionJson} (hf : f.All Token.Plain) : Nested (argsTokens f) := by
  refine nested_listTokens fun value hvalue => ?_
  obtain ⟨arg, harg, rfl⟩ := List.mem_map.mp hvalue
  exact (isObject_of_mem_args hf arg harg).nested

theorem keyless_argsTokens (hname : "name".toList ≠ k) (htype : "type".toList ≠ k)
    (f : FunctionJson) : Keyless k (argsTokens f) := by
  refine keyless_listTokens fun value hvalue => ?_
  obtain ⟨arg, -, rfl⟩ := List.mem_map.mp hvalue
  exact keyless_argTokens hname htype arg

/-- `fill_op_extras` finds the return type and the arguments, in any order. -/
theorem fillOpExtras_window (hplain : ∀ tok ∈ toks, tok.Plain) {f : FunctionJson}
    (hf : f.All Token.Plain) {a b c d : List Token} {first : ℕ}
    (hret : Window toks first last (a ++ .str "ret_type".toList :: .punct ':' ::
      .str f.retType :: b) rest)
    (hretAvoids : Avoids "ret_type".toList ['"'] (.str "ret_type".toList :: .punct ':' ::
      .str f.retType :: b ++ rest) a)
    (hargs : Window toks first last (c ++ .str "args".toList :: .punct ':' ::
      (argsTokens f ++ d)) rest)
    (hargsAvoids : Avoids "args".toList ['['] (.str "args".toList :: .punct ':' ::
      (argsTokens f ++ d) ++ rest) c) :
    fillOpExtras (text toks) first last = (f.retType, f.args.map Prod.snd) := by
  obtain ⟨rp, hrp, hrplast, hret⟩ := hret.find hplain (by decide) hretAvoids (quote_prefix_str _ _)
  obtain ⟨_, hretType, -⟩ := parseString_window hplain hret.skip_key
  obtain ⟨ap, hap, haplast, hargs⟩ := hargs.find hplain (by decide) hargsAvoids
    (by rw [List.append_assoc]; exact bracket_prefix_list _ _)
  have hlist : argsTokens f ++ d
      = .punct '[' :: (joined (f.args.map argTokens) ++ .punct ']' :: d) := by
    show .punct '[' :: ((joined _ ++ [.punct ']']) ++ d) = _
    rw [List.append_assoc]
    rfl
  have harray := hargs.skip_key
  rw [hlist] at harray
  have hobjects := objectsLoop_window (f := Prod.snd) (isObject_of_mem_args hf)
    (fun arg _ q oend r hwindow => parseArg_argTokens hplain hwindow) harray.skip_punct
  rw [fillOpExtras, hrp, hap]
  show (if rp < last then _ else _, if ap < last then _ else _) = _
  rw [if_pos hrplast, if_pos haplast]
  refine Prod.ext ?_ hobjects
  show ((parseString (text toks) (rp + ("ret_type".toList.length + 3))).map _).getD _ = _
  rw [hretType]
  rfl

/-- A function object: its name, its id, and `w` with the return type and the arguments. -/
theorem parseFunction_window (hplain : ∀ tok ∈ toks, tok.Plain) {f : FunctionJson} {w : List Token}
    (className : Str) (cid : ℕ)
    (hextras : ∀ first, Window toks first last
      ([.punct ',', .str "id".toList, .punct ':', .num f.id, .punct ','] ++ w) rest →
      fillOpExtras (text toks) first last = (f.retType, f.args.map Prod.snd))
    (h : Window toks p last ([.punct '{', .str "name".toList, .punct ':'] ++ .str f.name ::
      ([.punct ','] ++ .str "id".toList :: .punct ':' :: .num f.id :: .punct ',' :: w)) rest) :
    parseFunction (text toks) className cid p last = some (entry className cid f) := by
  obtain ⟨afterFn, hname, h⟩ := parseString_window hplain h.skip
  obtain ⟨ip, hip, hlt, hid⟩ := h.find (k := "id".toList) hplain (by decide)
    (by simp) (List.nil_prefix ..)
  have hnum := parseUint_num (by decide) hid.skip_key.tokens
  have hnum : parseUint (text toks) (ip + 5) = some (uint32 f.id) := hnum
  have hname : parseString (text toks) (p + 8) = some (f.name, afterFn) := hname
  rw [List.append_nil] at hip
  rw [parseFunction, hname]
  show (find (text toks) (key "id".toList) afterFn).bind _ = _
  rw [hip]
  show (if last ≤ ip then none else _) = _
  rw [if_neg (by omega), hnum]
  show some (OpEntry.mk _ _ _ _ _ (fillOpExtras (text toks) afterFn last).1
    (fillOpExtras (text toks) afterFn last).2) = _
  rw [hextras afterFn h]
  rfl

/-- **An operation of a driver is read.** -/
theorem parseFunction_functionTokens (hplain : ∀ tok ∈ toks, tok.Plain) {f : FunctionJson}
    (hf : f.All Token.Plain) (className : Str) (cid : ℕ)
    (h : Window toks p last (functionTokens f) rest) :
    parseFunction (text toks) className cid p last = some (entry className cid f) := by
  have htail : functionTokens f = [.punct '{', .str "name".toList, .punct ':'] ++ .str f.name ::
      ([.punct ','] ++ .str "id".toList :: .punct ':' :: .num f.id :: .punct ',' ::
        (.str "ret_type".toList :: .punct ':' :: .str f.retType :: .punct ',' ::
          .str "args".toList :: .punct ':' :: (argsTokens f ++ [.punct '}']))) := by
    rw [functionTokens, dictTokens]
    simp only [List.map_cons, List.map_nil, joined, argsTokens, List.cons_append, List.nil_append]
  rw [htail] at h
  refine parseFunction_window hplain className cid (fun first hwindow => ?_) h
  refine fillOpExtras_window hplain hf
    (a := [.punct ',', .str "id".toList, .punct ':', .num f.id, .punct ','])
    (b := .punct ',' :: .str "args".toList :: .punct ':' :: (argsTokens f ++ [.punct '}']))
    (c := [.punct ',', .str "id".toList, .punct ':', .num f.id, .punct ',',
      .str "ret_type".toList, .punct ':', .str f.retType, .punct ','])
    (d := [.punct '}']) hwindow ?_ hwindow ?_
  · simp
  · simp

/-- **An operation of the server is read.** -/
theorem parseFunction_serverFunctionTokens (hplain : ∀ tok ∈ toks, tok.Plain) {f : FunctionJson}
    (hf : f.All Token.Plain) (className : Str) (cid : ℕ)
    (h : Window toks p last (serverFunctionTokens f) rest) :
    parseFunction (text toks) className cid p last = some (entry className cid f) := by
  have htail : serverFunctionTokens f
      = [.punct '{', .str "name".toList, .punct ':'] ++ .str f.name ::
      ([.punct ','] ++ .str "id".toList :: .punct ':' :: .num f.id :: .punct ',' ::
        (.str "args".toList :: .punct ':' :: (argsTokens f ++ [.punct ',', .str "ret_type".toList,
          .punct ':', .str f.retType, .punct '}']))) := by
    rw [serverFunctionTokens, dictTokens]
    simp only [List.map_cons, List.map_nil, joined, argsTokens, List.append_assoc, List.cons_append,
      List.nil_append]
  rw [htail] at h
  refine parseFunction_window hplain className cid (fun first hwindow => ?_) h
  refine fillOpExtras_window hplain hf
    (a := [.punct ',', .str "id".toList, .punct ':', .num f.id, .punct ',', .str "args".toList,
      .punct ':'] ++ argsTokens f ++ [.punct ','])
    (b := [.punct '}'])
    (c := [.punct ',', .str "id".toList, .punct ':', .num f.id, .punct ','])
    (d := [.punct ',', .str "ret_type".toList, .punct ':', .str f.retType, .punct '}'])
    ?_ ?_ hwindow ?_
  · simpa only [List.append_assoc, List.cons_append, List.nil_append] using hwindow
  · refine (avoids_append ..).mpr ⟨(avoids_append ..).mpr ⟨by simp, ?_⟩, by simp⟩
    refine keyless_argsTokens (by decide) (by decide) f _ _ ?_
    show some ',' ≠ some ':'
    decide
  · simp

/-! ### Classes -/

/-- How the functions of a class are written: as objects that the scanner reads. -/
structure Reads (toks : List Token) (function : FunctionJson → List Token) (c : ClassJson) :
    Prop where
  isObject : ∀ f ∈ c.functions, IsObject (function f)
  keyless : ∀ f ∈ c.functions, Keyless "class".toList (function f)
  parse : ∀ f ∈ c.functions, ∀ className cid q oend rest, Window toks q oend (function f) rest →
    parseFunction (text toks) className cid q oend = some (entry className cid f)

/-- The operations that the scanner reads in a class. -/
def readOps (c : ClassJson) : List OpEntry := c.functions.map (entry c.name (uint32 c.id))

/-- The tokens behind the name of a class. -/
def behindName (function : FunctionJson → List Token) (c : ClassJson) : List Token :=
  .punct ',' :: .str "id".toList :: .punct ':' :: .num c.id :: .punct ',' ::
    .str "functions".toList :: .punct ':' :: listTokens (c.functions.map function)

/-- **The operations of a class are read.** -/
theorem parseClass_window (hplain : ∀ tok ∈ toks, tok.Plain)
    {function : FunctionJson → List Token} {c : ClassJson} (hreads : Reads toks function c)
    (h : Window toks p last (behindName function c ++ w) rest) :
    parseClass (text toks) c.name p last = some (readOps c) := by
  have hbehind : behindName function c ++ w = [.punct ','] ++ .str "id".toList :: .punct ':' ::
      .num c.id :: .punct ',' :: .str "functions".toList :: .punct ':' ::
        (listTokens (c.functions.map function) ++ w) := rfl
  rw [hbehind] at h
  obtain ⟨cidPos, hcid, hcidlast, hid⟩ := h.find (k := "id".toList) hplain (by decide)
    (by simp) (List.nil_prefix ..)
  have hnum : parseUint (text toks) (cidPos + 5) = some (uint32 c.id) :=
    parseUint_num (by decide) hid.skip_key.tokens
  obtain ⟨farr, hfarr, hfarrlast, hfunctions⟩ := Window.find (a := [.str "id".toList, .punct ':',
    .num c.id, .punct ',']) (k := "functions".toList) hplain (by decide) hid
    (by simp) (show ['['] <+: _ by rw [List.append_assoc]; exact bracket_prefix_list _ _)
  have hlist : listTokens (c.functions.map function) ++ w
      = .punct '[' :: (joined (c.functions.map function) ++ .punct ']' :: w) := by
    show .punct '[' :: ((joined _ ++ [.punct ']']) ++ w) = _
    rw [List.append_assoc]
    rfl
  have harray := hfunctions.skip_key
  rw [hlist] at harray
  have hobjects := objectsLoop_window hreads.isObject
    (fun f hf q oend r => hreads.parse f hf c.name (uint32 c.id) q oend r) harray.skip_punct
  rw [List.append_nil] at hcid
  rw [parseClass, hcid]
  show (if last ≤ cidPos then none else (parseUint (text toks) (cidPos + 5)).bind _) = _
  rw [if_neg (by omega), hnum]
  show (match find (text toks) (key "functions".toList ++ ['[']) cidPos with
    | none => some []
    | some farr => if last ≤ farr then some [] else _) = _
  rw [hfarr]
  show (if last ≤ farr then some [] else some _) = _
  rw [if_neg (by omega)]
  exact congrArg some hobjects

/-- The tokens from the key of the first class on. -/
def fromClass : List ((FunctionJson → List Token) × ClassJson) → List Token
  | [] => []
  | item :: items =>
    .str "class".toList :: .punct ':' :: .str item.2.name :: (behindName item.1 item.2 ++
      .punct '}' ::
        (if items = [] then [.punct ']'] else .punct ',' :: .punct '{' :: fromClass items))

theorem avoids_behindName {function : FunctionJson → List Token} {c : ClassJson}
    (hreads : Reads toks function c) {tail : Str} {b : List Token}
    (hb : (text b).head? ≠ some ':') : Avoids "class".toList tail b (behindName function c) := by
  refine ⟨fun hkey => absurd hkey.1 (by decide), fun hkey => absurd hkey.1 (by decide), ?_⟩
  refine keyless_listTokens (fun value hvalue => ?_) tail b hb
  obtain ⟨f, hf, rfl⟩ := List.mem_map.mp hvalue
  exact hreads.keyless f hf

theorem Window.ends {b : List Token} {q : ℕ} (h : Window toks p last (b ++ w) rest)
    (hq : Window toks q last w rest) : Window toks p q b (w ++ rest) := by
  have hlength := h.length
  rw [text_append, List.length_append] at hlength
  have hqlength := hq.length
  exact ⟨List.append_assoc b w rest ▸ h.tokens, by omega⟩

/-- The end of the block of a class: the key of the next one, or the end of the text. -/
def classEnd (tail json : Str) (pos : ℕ) : ℕ :=
  (find json (key "class".toList ++ tail) pos).getD json.length

/-- **The block of a class ends before the key of the next one.** -/
theorem classEnd_spec {tail : Str} (htail : tail <+: ['"']) (hplain : ∀ tok ∈ toks, tok.Plain)
    {item : (FunctionJson → List Token) × ClassJson}
    {items : List ((FunctionJson → List Token) × ClassJson)} (hitem : Reads toks item.1 item.2)
    (h : Window toks p (text toks).length (behindName item.1 item.2 ++ .punct '}' ::
      (if items = [] then [.punct ']'] else .punct ',' :: .punct '{' :: fromClass items)) []) :
    (∃ w rest, (∀ k tail b, Avoids k tail b w) ∧
        Window toks p (classEnd tail (text toks) p) (behindName item.1 item.2 ++ w) rest) ∧
      Window toks (classEnd tail (text toks) p) (text toks).length (fromClass items) [] := by
  have hpass : ∀ b, Avoids "class".toList tail b
      (behindName item.1 item.2 ++ [.punct '}', .punct ',', .punct '{']) := fun b =>
    (avoids_append ..).mpr ⟨avoids_behindName hitem fun hcolon =>
      absurd (Option.some.inj hcolon) (by decide), trivial⟩
  cases items with
  | nil =>
    rw [if_pos rfl] at h
    have htokens := h.tokens
    rw [List.append_nil] at htokens
    have hnone : find (text toks) (key "class".toList ++ tail) p = none := by
      refine htokens.find_none hplain (by decide) ((avoids_append ..).mpr
        ⟨avoids_behindName hitem fun hcolon => ?_, trivial⟩)
      exact absurd (Option.some.inj hcolon) (by decide)
    rw [classEnd, hnone]
    exact ⟨⟨[.punct '}', .punct ']'], _, fun _ _ _ => trivial, h⟩, h.behind, rfl⟩
  | cons next items =>
    rw [if_neg (List.cons_ne_nil next items)] at h
    have hsplit : behindName item.1 item.2 ++ .punct '}' :: .punct ',' :: .punct '{' ::
        fromClass (next :: items) = (behindName item.1 item.2 ++ [.punct '}', .punct ',',
          .punct '{']) ++ fromClass (next :: items) := by
      rw [List.append_assoc]
      rfl
    rw [hsplit] at h
    obtain ⟨cend, hcend, -, hnext⟩ := h.find hplain (by decide) (hpass _)
      (htail.trans (quote_prefix_str _ _))
    rw [classEnd, hcend]
    exact ⟨⟨[.punct '}', .punct ',', .punct '{'], _, fun _ _ _ => trivial, Window.ends h hnext⟩,
      hnext⟩

/-- **The loop reads the classes that are left.** -/
theorem classesLoop_fromClass (hplain : ∀ tok ∈ toks, tok.Plain)
    {items : List ((FunctionJson → List Token) × ClassJson)}
    (hreads : ∀ item ∈ items, Reads toks item.1 item.2) {a : List Token} {pos fuel : ℕ}
    (h : Window toks pos (text toks).length (a ++ fromClass items) [])
    (havoids : Avoids "class".toList ['"'] (fromClass items) a) (hfuel : items.length ≤ fuel) :
    classesLoop (text toks) fuel pos = items.flatMap fun item => readOps item.2 := by
  induction items generalizing a pos fuel with
  | nil =>
    have hnone : find (text toks) (key "class".toList ++ ['"']) pos = none := by
      have htokens := h.tokens
      rw [List.append_nil, fromClass, List.append_nil] at htokens
      exact htokens.find_none hplain (by decide) havoids
    cases fuel with
    | zero => rfl
    | succ fuel => rw [classesLoop, hnone]; rfl
  | cons item items ih =>
    have hitem := hreads item List.mem_cons_self
    have hitems := fun i hi => hreads i (List.mem_cons_of_mem item hi)
    cases fuel with
    | zero => exact absurd hfuel (Nat.not_succ_le_zero _)
    | succ fuel =>
      obtain ⟨cpos, hcpos, -, hclass⟩ := h.find hplain (by decide)
        (by rw [List.append_nil]; exact havoids) (quote_prefix_str _ _)
      obtain ⟨afterName, hname, hbehind⟩ := parseString_window hplain hclass.skip_key
      have hname : parseString (text toks) (cpos + 8) = some (item.2.name, afterName) := hname
      obtain ⟨⟨w, rest, -, hblock⟩, hrest⟩ :=
        classEnd_spec (List.prefix_refl _) hplain hitem hbehind
      have hops := parseClass_window hplain hitem hblock
      have hrestOps := ih hitems (a := []) hrest trivial (Nat.le_of_succ_le_succ hfuel)
      rw [classEnd] at hops hrestOps
      simp only [classesLoop, hcpos, hname, hops, hrestOps, List.flatMap_cons]

/-- The classes of a context, with the way they are written. -/
def contextItems (classes : List ClassJson) : List ((FunctionJson → List Token) × ClassJson) :=
  (serverFunctionTokens, kserver) :: classes.map (functionTokens, ·)

theorem fromClass_cons (item : (FunctionJson → List Token) × ClassJson)
    (items : List ((FunctionJson → List Token) × ClassJson)) :
    fromClass (item :: items) = .str "class".toList :: .punct ':' :: .str item.2.name ::
      (behindName item.1 item.2 ++ .punct '}' :: (if items = [] then [.punct ']']
        else .punct ',' :: .punct '{' :: fromClass items)) := by rw [fromClass]

theorem contextTokens_eq (classes : List ClassJson) :
    contextTokens classes = .punct '[' :: .punct '{' :: fromClass (contextItems classes) := by
  have hjoined : ∀ (item : (FunctionJson → List Token) × ClassJson) items,
      joined ((item :: items).map fun item => classTokens item.1 item.2) ++ [.punct ']']
        = .punct '{' :: fromClass (item :: items) := by
    intro item items
    induction items generalizing item with
    | nil =>
      simp only [List.map_cons, List.map_nil, joined, fromClass, if_pos, classTokens, dictTokens,
        behindName, List.cons_append, List.nil_append, List.append_assoc]
    | cons next items ih =>
      have hnext := ih next
      rw [List.map_cons] at hnext ⊢
      rw [List.map_cons, joined, List.append_assoc, List.cons_append, hnext]
      · rw [fromClass_cons item, if_neg (List.cons_ne_nil next items)]
        simp only [List.map_cons, List.map_nil, joined, classTokens, dictTokens,
          behindName, List.cons_append, List.nil_append, List.append_assoc]
      · exact fun hnil => absurd hnil (List.cons_ne_nil _ _)
  have hcontext := hjoined (serverFunctionTokens, kserver) (classes.map (functionTokens, ·))
  rw [List.map_cons, List.map_map] at hcontext
  exact congrArg (.punct '[' :: ·) hcontext

end Reading

end OpDetail
end KoheronSdk
