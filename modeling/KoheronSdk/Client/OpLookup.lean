import KoheronSdk.Client.ContextRoundTrip

/-!
# Two lookups of an operation

`find_op_in_json` looks an operation up by name with four substring searches, in the block of its
class.  It takes the first place where the name stands, be it that of an operation or that of an
argument, and then the next id.  `OpTable::by_name` walks over the operations.

## What the flat search finds

The block of a class ends where the key of the next one begins.  In it the search for
`"name":"..."` passes all tokens that are not this key with this string, and stops at the first
that are.  If these are those of an operation, its id is the next one.  If they are those of an
argument, the next id is that of the operation behind, since arguments have none, or there is
none in the block.  `flatFind` is this search on the operations of a class, without a text, and
`findOpInJson_contextTokens` says that the search on the text comes to it.

## When the two agree

`Clear` goes through the operations: one that is not the last must not have an argument of the
name, unless an operation of the name has come before, is this one, or is the next, whose id is
then found by accident.  For operations with different ids the condition is also necessary.  The
flat search looks in the first class of the name only, and the table in all of them; that is
the second part of `Unambiguous`.

Names have no double quote, here and in the results: a lookup for a name with a quote in it would
compare with the text across its tokens.

* `findOpInJson`: the flat search.
* `flatFind`: what it finds, in terms of the operations of a class.
* `flatFind_of_clear`, `clear_of_flatFind`: when that is the operation of that name.
* `lookups_agree_iff`: the two lookups give the same ids as long as no earlier operation has an
  argument with the name.
-/

namespace KoheronSdk

open QuotedText TextSearch Context

namespace OpDetail

/-! ## The flat search -/

/-- The search of `find_op_in_json` for a function, in the block of its class. -/
def findFunction (json funcName : Str) (cidPos cend : ℕ) : Option ℕ := do
  let fkey := key "name".toList ++ quoted funcName
  let fpos ← find json fkey cidPos
  if cend ≤ fpos then none
  else
    let fidPos ← find json (key "id".toList) (fpos + fkey.length)
    if cend ≤ fidPos then none else parseUint json (fidPos + 5)

/-- `find_op_in_json` -/
def findOpInJson (json className funcName : Str) : Option (ℕ × ℕ) := do
  let ckey := key "class".toList ++ quoted className
  let cpos ← find json ckey 0
  let cend := (find json (key "class".toList) (cpos + ckey.length)).getD json.length
  let cidPos ← find json (key "id".toList) (cpos + ckey.length)
  if cend ≤ cidPos then none
  else
    let cid ← parseUint json (cidPos + 5)
    let fid ← findFunction json funcName cidPos cend
    return (cid % 2 ^ 16, fid % 2 ^ 16)

instance (name : Str) (names : List Str) : Decidable (name ∈ names) :=
  @decidable_of_iff _ (∃ n ∈ names, n = name) exists_eq_right (List.decidableBEx (· = name) names)

/-- What the search finds among the operations of a class: the id of the operation whose name
comes first, or of the one behind an argument whose name does. -/
def flatFind (funcName : Str) : List FunctionJson → Option ℕ
  | [] => none
  | f :: fs =>
    if f.name = funcName then some f.id
    else if funcName ∈ f.args.map Prod.fst then fs.head?.map FunctionJson.id
    else flatFind funcName fs

/-! ## The search in the block of a class -/

section Block

variable {toks rest w : List Token} {p last : ℕ} {name : Str}

/-- How an operation is written: its name, its id, and its arguments among tokens that are no
names and no ids. -/
def Layout (function : FunctionJson → List Token) (f : FunctionJson) : Prop :=
  ∃ x y : List Token, function f = .punct '{' :: .str "name".toList :: .punct ':' :: .str f.name ::
      .punct ',' :: .str "id".toList :: .punct ':' :: .num f.id :: .punct ',' ::
        (x ++ .punct '[' :: (joined (f.args.map argTokens) ++ .punct ']' :: y)) ∧
    ∀ k, k = "name".toList ∨ k = "id".toList → ∀ tail b,
      Avoids k tail (.punct '[' :: b) x ∧ ((text b).head? ≠ some ':' → Avoids k tail b y)

theorem layout_functionTokens (f : FunctionJson) : Layout functionTokens f := by
  refine ⟨[.str "ret_type".toList, .punct ':', .str f.retType, .punct ',', .str "args".toList,
    .punct ':'], [.punct '}'], ?_, ?_⟩
  · rw [functionTokens, dictTokens]
    simp only [List.map_cons, List.map_nil, joined, listTokens, List.append_assoc, List.cons_append,
      List.nil_append]
  · rintro k (rfl | rfl) tail b <;> simp

theorem layout_serverFunctionTokens (f : FunctionJson) : Layout serverFunctionTokens f := by
  refine ⟨[.str "args".toList, .punct ':'], [.punct ',', .str "ret_type".toList, .punct ':',
    .str f.retType, .punct '}'], ?_, ?_⟩
  · rw [serverFunctionTokens, dictTokens]
    simp only [List.map_cons, List.map_nil, joined, listTokens, List.append_assoc, List.cons_append,
      List.nil_append]
  · rintro k (rfl | rfl) tail b <;> simp

theorem joined_cons (value : List Token) (values : List (List Token)) :
    joined (value :: values)
      = value ++ (if values = [] then [] else .punct ',' :: joined values) := by
  cases values with
  | nil => exact (List.append_nil _).symm
  | cons next values =>
    rw [joined, if_neg (List.cons_ne_nil next values)]
    exact fun h => List.cons_ne_nil next values h

theorem not_prefix_of_ne {v : Str} (hname : '"' ∉ name) (hv : '"' ∉ v) (hne : v ≠ name)
    (a : List Token) : ¬ ':' :: quoted name <+: text (.punct ':' :: .str v :: a) := by
  rw [text_punct_cons, List.cons_prefix_cons, quoted_prefix_str hname hv]
  exact fun h => hne h.2

/-- An argument of another name is passed over. -/
theorem avoids_argTokens (hname : '"' ∉ name) {arg : Str × Str} (harg : '"' ∉ arg.1)
    (hne : arg.1 ≠ name) (b : List Token) :
    Avoids "name".toList (quoted name) b (argTokens arg) := by
  have hfirst := not_prefix_of_ne hname harg hne
    ([.punct ',', .str "type".toList, .punct ':', .str arg.2, .punct '}'] ++ b)
  refine ⟨fun h => hfirst h.2, ?_⟩
  show Avoids _ _ b [.str arg.1, .punct ',', .str "type".toList, .punct ':', .str arg.2, .punct '}']
  simp

/-- The names of other arguments are passed over. -/
theorem avoids_args (hname : '"' ∉ name) {args : List (Str × Str)}
    (hargs : ∀ arg ∈ args, '"' ∉ arg.1) (hmem : name ∉ args.map Prod.fst) (b : List Token) :
    Avoids "name".toList (quoted name) b (joined (args.map argTokens)) := by
  induction args with
  | nil => trivial
  | cons arg args ih =>
    obtain ⟨hne, hrest⟩ := not_or.mp (mt List.mem_cons.mpr hmem)
    have harg := avoids_argTokens hname (hargs arg List.mem_cons_self) (Ne.symm hne)
    have hargs := ih (fun a ha => hargs a (List.mem_cons_of_mem arg ha)) hrest
    rw [List.map_cons, joined_cons]
    refine (avoids_append ..).mpr ⟨harg _, ?_⟩
    split
    · trivial
    · exact hargs

/-- **The search finds an argument of the name**, and no id stands behind it in the array. -/
theorem find_arg (hplain : ∀ tok ∈ toks, tok.Plain) (hname : '"' ∉ name) {args : List (Str × Str)}
    (hargs : ∀ arg ∈ args, '"' ∉ arg.1) (hmem : name ∈ args.map Prod.fst)
    (h : Window toks p last (joined (args.map argTokens) ++ .punct ']' :: w) rest) :
    ∃ q d, find (text toks) (key "name".toList ++ quoted name) p = some q ∧
      (∀ b, Avoids "id".toList [] (.punct ']' :: b) d) ∧
      Window toks (q + (key "name".toList ++ quoted name).length) last
        (d ++ .punct ']' :: w) rest := by
  induction args generalizing p with
  | nil => exact absurd hmem List.not_mem_nil
  | cons arg args ih =>
    have hrest := fun a ha => hargs a (List.mem_cons_of_mem arg ha)
    rw [List.map_cons, joined_cons, List.append_assoc] at h
    by_cases hne : arg.1 = name
    · obtain ⟨q, hq, -, hwindow⟩ := Window.find_string (a := [.punct '{']) (k := "name".toList)
        (v := name) (w := [.punct ',', .str "type".toList, .punct ':', .str arg.2, .punct '}'] ++
          ((if args.map argTokens = [] then [] else .punct ',' :: joined (args.map argTokens)) ++
            .punct ']' :: w)) hplain (by decide) (by rw [← hne]; exact h) trivial
      refine ⟨q, [.punct ',', .str "type".toList, .punct ':', .str arg.2, .punct '}'] ++
        (if args.map argTokens = [] then [] else .punct ',' :: joined (args.map argTokens)), hq,
        fun b => ?_, ?_⟩
      · refine (avoids_append ..).mpr ⟨by simp, ?_⟩
        split
        · trivial
        · refine keyless_joined (fun value hvalue => ?_) [] (.punct ']' :: b) ?_
          · obtain ⟨a, -, rfl⟩ := List.mem_map.mp hvalue
            exact keyless_argTokens (by decide) (by decide) a
          · exact fun hcolon => absurd (Option.some.inj hcolon) (by decide)
      · rw [List.append_assoc]
        exact hwindow
    · have hmem : name ∈ args.map Prod.fst := (List.mem_cons.mp hmem).resolve_left (Ne.symm hne)
      have hnil : args.map argTokens ≠ [] := fun hnil => by
        rw [List.map_eq_nil_iff.mp hnil] at hmem
        exact absurd hmem List.not_mem_nil
      rw [if_neg hnil] at h
      have hskip : Window toks (p + (text (argTokens arg ++ [.punct ','])).length) last
          (joined (args.map argTokens) ++ .punct ']' :: w) rest := by
        refine Window.skip ?_
        rw [List.append_assoc]
        exact h
      obtain ⟨q, d, hq, hd, hwindow⟩ := ih hrest hmem hskip
      refine ⟨q, d, ?_, hd, hwindow⟩
      rw [← hq]
      have htokens := h.tokens
      have hsplit : argTokens arg ++ (.punct ',' :: joined (args.map argTokens) ++
          .punct ']' :: w) ++ rest = (argTokens arg ++ [.punct ',']) ++
            (joined (args.map argTokens) ++ .punct ']' :: w ++ rest) := by
        simp only [List.append_assoc, List.cons_append, List.nil_append]
      rw [hsplit] at htokens
      refine htokens.find_skip hplain (by decide) ((avoids_append ..).mpr ⟨?_, trivial⟩)
      exact avoids_argTokens hname (hargs arg List.mem_cons_self) hne _

/-- **The next id is found and read.** -/
theorem find_id (hplain : ∀ tok ∈ toks, tok.Plain) {a : List Token} {n : ℕ}
    (h : Window toks p last (a ++ .str "id".toList :: .punct ':' :: .num n :: .punct ',' :: w) rest)
    (havoids : Avoids "id".toList [] (.str "id".toList :: .punct ':' :: .num n :: .punct ',' :: w
      ++ rest) a) :
    ∃ q, find (text toks) (key "id".toList) p = some q ∧ q < last ∧
      parseUint (text toks) (q + 5) = some (uint32 n) ∧
      Window toks q last (.str "id".toList :: .punct ':' :: .num n :: .punct ',' :: w) rest := by
  obtain ⟨q, hq, hlt, hid⟩ := h.find hplain (by decide) havoids (List.nil_prefix ..)
  have hnum : parseUint (text toks) (q + 5) = some (uint32 n) :=
    parseUint_num (by decide) hid.skip_key.tokens
  rw [List.append_nil] at hq
  exact ⟨q, hq, hlt, hnum, hid⟩

/-- The tokens of an operation up to its arguments. -/
def beforeArgs (f : FunctionJson) (x : List Token) : List Token :=
  [.punct '{', .str "name".toList, .punct ':', .str f.name, .punct ',', .str "id".toList,
    .punct ':', .num f.id, .punct ','] ++ x ++ [.punct '[']

theorem avoids_beforeArgs (hname : '"' ∉ name) {f : FunctionJson} (hf : '"' ∉ f.name)
    (hne : f.name ≠ name) {x : List Token}
    (hx : ∀ b, Avoids "name".toList (quoted name) (.punct '[' :: b) x) (b : List Token) :
    Avoids "name".toList (quoted name) b (beforeArgs f x) := by
  refine (avoids_append ..).mpr ⟨(avoids_append ..).mpr ⟨?_, hx b⟩, trivial⟩
  have hfirst := not_prefix_of_ne hname hf hne
    ([.punct ',', .str "id".toList, .punct ':', .num f.id, .punct ','] ++
      (x ++ ([.punct '['] ++ b)))
  refine ⟨fun h => hfirst h.2, ?_⟩
  show Avoids _ _ _ [.str f.name, .punct ',', .str "id".toList, .punct ':', .num f.id, .punct ',']
  simp

variable {function : FunctionJson → List Token} {fs : List FunctionJson}

/-- The searches depend on the first one only. -/
theorem findFunction_congr {json : Str} {p q last : ℕ}
    (h : find json (key "name".toList ++ quoted name) p
      = find json (key "name".toList ++ quoted name) q) :
    findFunction json name p last = findFunction json name q last := by
  rw [findFunction, findFunction, h]

theorem findFunction_some {json : Str} {p q r last n : ℕ}
    (hq : find json (key "name".toList ++ quoted name) p = some q)
    (hqlast : q + (key "name".toList ++ quoted name).length ≤ last)
    (hr : find json (key "id".toList) (q + (key "name".toList ++ quoted name).length) = some r)
    (hrlast : r < last) (hn : parseUint json (r + 5) = some n) :
    findFunction json name p last = some n := by
  have hlength : 0 < (key "name".toList ++ quoted name).length := by
    rw [key, List.cons_append, List.length_cons]
    omega
  rw [findFunction, hq]
  show (if last ≤ q then none else (find json (key "id".toList) (q + _)).bind _) = _
  rw [if_neg (by omega), hr]
  show (if last ≤ r then none else parseUint json (r + 5)) = _
  rw [if_neg (by omega), hn]

theorem findFunction_none {json : Str} {p q last : ℕ}
    (hq : find json (key "name".toList ++ quoted name) p = some q)
    (hr : ∀ r,
      find json (key "id".toList) (q + (key "name".toList ++ quoted name).length) = some r →
        last ≤ r) : findFunction json name p last = none := by
  rw [findFunction, hq]
  show (if last ≤ q then none else (find json (key "id".toList) (q + _)).bind _) = _
  split
  · rfl
  · cases hfind : find json (key "id".toList) (q + (key "name".toList ++ quoted name).length) with
    | none => rfl
    | some r => exact if_pos (hr r hfind)

/-- The tokens of an operation, taken apart at its arguments. -/
theorem Layout.exists_beforeArgs {f : FunctionJson} (h : Layout function f) :
    ∃ x y, function f = beforeArgs f x ++ (joined (f.args.map argTokens) ++ .punct ']' :: y) ∧
      ∀ k, k = "name".toList ∨ k = "id".toList → ∀ tail b,
        Avoids k tail (.punct '[' :: b) x ∧ ((text b).head? ≠ some ':' → Avoids k tail b y) := by
  obtain ⟨x, y, htokens, hxy⟩ := h
  refine ⟨x, y, ?_, hxy⟩
  rw [htokens, beforeArgs]
  simp only [List.append_assoc, List.cons_append, List.nil_append]

/-- An operation of the name is found, and its id right behind it. -/
theorem findFunction_of_name (hplain : ∀ tok ∈ toks, tok.Plain) {f : FunctionJson}
    (hlayout : Layout function f) (hf : f.name = name)
    (h : Window toks p last (function f ++ w) rest) :
    findFunction (text toks) name p last = some (uint32 f.id) := by
  obtain ⟨x, y, htokens, -⟩ := hlayout
  rw [htokens] at h
  obtain ⟨q, hq, -, hwindow⟩ := Window.find_string (a := [.punct '{']) (k := "name".toList)
    (v := name) hplain (by decide) (by rw [← hf]; exact h) trivial
  obtain ⟨r, hr, hrlast, hnum, -⟩ := find_id (a := [.punct ',']) hplain hwindow trivial
  have hlast := hwindow.length
  exact findFunction_some hq (by omega) hr hrlast hnum

/-- An argument of the name is found, and then the id of the next operation, if there is one. -/
theorem findFunction_of_arg (hplain : ∀ tok ∈ toks, tok.Plain) (hname : '"' ∉ name)
    {f : FunctionJson} (hlayout : Layout function f) (hrest : ∀ g ∈ fs, Layout function g)
    (hquote : '"' ∉ f.name) (hargs : ∀ arg ∈ f.args, '"' ∉ arg.1)
    (hw : ∀ k tail b, Avoids k tail b w) (hf : f.name ≠ name) (hmem : name ∈ f.args.map Prod.fst)
    (h : Window toks p last (function f ++
      ((if fs.map function = [] then [] else .punct ',' :: joined (fs.map function)) ++
        .punct ']' :: w)) rest) :
    findFunction (text toks) name p last = fs.head?.map fun g => uint32 g.id := by
  obtain ⟨x, y, hsplit, hxy⟩ := hlayout.exists_beforeArgs
  have hbefore := avoids_beforeArgs hname hquote hf fun b => (hxy _ (Or.inl rfl) _ b).1
  rw [hsplit, List.append_assoc, List.append_assoc, List.cons_append] at h
  obtain ⟨q, d, hq, hd, hwindow⟩ := find_arg hplain hname hargs hmem h.skip
  have htokens := h.tokens
  rw [List.append_assoc] at htokens
  have hskip := htokens.find_skip hplain (by decide) (hbefore _)
  rw [hq] at hskip
  have hlast := hwindow.length
  cases fs with
  | nil =>
    refine findFunction_none hskip fun r hr => ?_
    rw [← List.append_nil (key "id".toList)] at hr
    refine hwindow.le_of_find hplain (by decide) ((avoids_append ..).mpr ⟨hd _, ?_⟩) hr
    refine (avoids_append ..).mpr ⟨(hxy _ (Or.inr rfl) [] _).2 ?_, hw _ _ _⟩
    exact fun hcolon => absurd (Option.some.inj hcolon) (by decide)
  | cons g gs =>
    obtain ⟨x', y', htokens', -⟩ := hrest g List.mem_cons_self
    rw [if_neg (by simp), List.map_cons, joined_cons, htokens'] at hwindow
    have hnext : ∀ v v', d ++ .punct ']' :: (y ++ (.punct ',' :: (.punct '{' ::
        .str "name".toList :: .punct ':' :: .str g.name :: .punct ',' :: .str "id".toList ::
          .punct ':' :: .num g.id :: .punct ',' :: v ++ v') ++ .punct ']' :: w))
        = (d ++ .punct ']' :: (y ++ [.punct ',', .punct '{', .str "name".toList, .punct ':',
          .str g.name, .punct ','])) ++ .str "id".toList :: .punct ':' :: .num g.id ::
            .punct ',' :: (v ++ v' ++ .punct ']' :: w) := fun v v' => by
      simp only [List.append_assoc, List.cons_append, List.nil_append]
    rw [hnext] at hwindow
    obtain ⟨r, hr, hrlast, hnum, -⟩ := find_id hplain hwindow <| by
      refine (avoids_append ..).mpr ⟨hd _, (avoids_append ..).mpr
        ⟨(hxy _ (Or.inr rfl) [] _).2 ?_, by simp⟩⟩
      exact fun hcolon => absurd (Option.some.inj hcolon) (by decide)
    exact findFunction_some hskip (by omega) hr hrlast hnum

/-- An operation that has the name nowhere is passed over. -/
theorem findFunction_passes (hplain : ∀ tok ∈ toks, tok.Plain) (hname : '"' ∉ name)
    {f : FunctionJson} (hlayout : Layout function f) (hquote : '"' ∉ f.name)
    (hargs : ∀ arg ∈ f.args, '"' ∉ arg.1) (hf : f.name ≠ name)
    (hmem : name ∉ f.args.map Prod.fst)
    (h : Window toks p last (function f ++
      ((if fs.map function = [] then [] else .punct ',' :: joined (fs.map function)) ++
        .punct ']' :: w)) rest) :
    ∃ q, Window toks q last (joined (fs.map function) ++ .punct ']' :: w) rest ∧
      findFunction (text toks) name p last = findFunction (text toks) name q last := by
  obtain ⟨x, y, hsplit, hxy⟩ := hlayout.exists_beforeArgs
  have hpass : ∀ b, (text b).head? ≠ some ':' →
      Avoids "name".toList (quoted name) b (function f) := fun b hb => by
    rw [hsplit]
    exact (avoids_append ..).mpr
      ⟨avoids_beforeArgs hname hquote hf (fun b => (hxy _ (Or.inl rfl) _ b).1) _,
        (avoids_append ..).mpr ⟨avoids_args hname hargs hmem _, (hxy _ (Or.inl rfl) _ b).2 hb⟩⟩
  split at h
  · rename_i hnil
    obtain rfl := List.map_eq_nil_iff.mp hnil
    rw [List.nil_append] at h
    have htokens := h.tokens
    rw [List.append_assoc] at htokens
    refine ⟨_, h.skip, findFunction_congr (htokens.find_skip hplain (by decide) (hpass _ ?_))⟩
    exact fun hcolon => absurd (Option.some.inj hcolon) (by decide)
  · have hcomma : function f ++ (.punct ',' :: joined (fs.map function) ++ .punct ']' :: w)
        = (function f ++ [.punct ',']) ++ (joined (fs.map function) ++ .punct ']' :: w) := by
      simp only [List.append_assoc, List.cons_append, List.nil_append]
    rw [hcomma] at h
    have htokens := h.tokens
    rw [List.append_assoc] at htokens
    refine ⟨_, h.skip, findFunction_congr (htokens.find_skip hplain (by decide)
      ((avoids_append ..).mpr ⟨hpass _ ?_, trivial⟩))⟩
    exact fun hcolon => absurd (Option.some.inj hcolon) (by decide)

/-- **The flat search among the operations of a class.** -/
theorem findFunction_joined (hplain : ∀ tok ∈ toks, tok.Plain) (hname : '"' ∉ name)
    (hlayout : ∀ f ∈ fs, Layout function f)
    (hquotes : ∀ f ∈ fs, '"' ∉ f.name ∧ ∀ arg ∈ f.args, '"' ∉ arg.1)
    (hw : ∀ k tail b, Avoids k tail b w)
    (h : Window toks p last (joined (fs.map function) ++ .punct ']' :: w) rest) :
    findFunction (text toks) name p last = (flatFind name fs).map uint32 := by
  induction fs generalizing p with
  | nil =>
    rw [findFunction, flatFind]
    cases hq : find (text toks) (key "name".toList ++ quoted name) p with
    | none => rfl
    | some q =>
      have hle := h.le_of_find hplain (by decide) (hw _ _ rest) hq
      exact if_pos hle
  | cons f fs ih =>
    have hfirst := hlayout f List.mem_cons_self
    have hrest := fun g hg => hlayout g (List.mem_cons_of_mem f hg)
    have hquotesRest := fun g hg => hquotes g (List.mem_cons_of_mem f hg)
    obtain ⟨hquote, hargs⟩ := hquotes f List.mem_cons_self
    rw [List.map_cons, joined_cons, List.append_assoc] at h
    rw [flatFind]
    by_cases hf : f.name = name
    · rw [if_pos hf]
      exact findFunction_of_name hplain hfirst hf h
    rw [if_neg hf]
    by_cases hmem : name ∈ f.args.map Prod.fst
    · rw [if_pos hmem, findFunction_of_arg hplain hname hfirst hrest hquote hargs hw hf hmem h]
      cases fs <;> rfl
    · rw [if_neg hmem]
      obtain ⟨q, hwindow, heq⟩ := findFunction_passes hplain hname hfirst hquote hargs hf hmem h
      rw [heq, ih hrest hquotesRest hwindow]

end Block

/-! ## The search for the class -/

section Class

variable {toks : List Token} {className : Str}

/-- The block of a class of another name is passed over. -/
theorem avoids_block (hclass : '"' ∉ className) {item : (FunctionJson → List Token) × ClassJson}
    (hitem : Reads toks item.1 item.2) (hquote : '"' ∉ item.2.name) (hne : item.2.name ≠ className)
    {w b : List Token} (hw : ∀ k tail b, Avoids k tail b w)
    (hhead : (text (w ++ b)).head? ≠ some ':') :
    Avoids "class".toList (quoted className) b (.str "class".toList :: .punct ':' ::
      .str item.2.name :: (behindName item.1 item.2 ++ w)) := by
  have hfirst := not_prefix_of_ne hclass hquote hne (behindName item.1 item.2 ++ w ++ b)
  refine ⟨fun h => hfirst h.2, ?_⟩
  show ¬ (_ ∧ _) ∧ Avoids _ _ b (behindName item.1 item.2 ++ w)
  refine ⟨fun h => ?_, (avoids_append ..).mpr ⟨avoids_behindName hitem hhead, hw _ _ _⟩⟩
  have hcomma : ':' :: quoted className <+: ',' :: _ := h.2
  exact absurd (List.cons_prefix_cons.mp hcomma).1 (by decide)

/-- **The search for a class** finds the first one of that name, or nothing. -/
theorem find_class (hplain : ∀ tok ∈ toks, tok.Plain) (hclass : '"' ∉ className)
    {items : List ((FunctionJson → List Token) × ClassJson)}
    (hreads : ∀ item ∈ items, Reads toks item.1 item.2) {a : List Token} {pos : ℕ}
    (h : Window toks pos (text toks).length (a ++ fromClass items) [])
    (havoids : Avoids "class".toList (quoted className) (fromClass items) a) :
    (items.find? (·.2.name = className) = none →
        find (text toks) (key "class".toList ++ quoted className) pos = none) ∧
      ∀ item, items.find? (·.2.name = className) = some item → ∃ q after,
        find (text toks) (key "class".toList ++ quoted className) pos = some q ∧
        Window toks (q + (key "class".toList ++ quoted className).length) (text toks).length
          (behindName item.1 item.2 ++ .punct '}' :: (if after = [] then [.punct ']']
            else .punct ',' :: .punct '{' :: fromClass after)) [] := by
  induction items generalizing a with
  | nil =>
    have htokens := h.tokens
    rw [fromClass, List.append_nil, List.append_nil] at htokens
    exact ⟨fun _ => htokens.find_none hplain (by decide) havoids,
      fun item hitem => absurd hitem (Option.some_ne_none item).symm⟩
  | cons item items ih =>
    have hitem := hreads item List.mem_cons_self
    have hitems := fun i hi => hreads i (List.mem_cons_of_mem item hi)
    have hquote : '"' ∉ item.2.name := by
      refine (hplain (.str item.2.name) (h.tokens.subset _ ?_)).1
      rw [fromClass_cons]
      simp only [List.mem_append, List.mem_cons, or_true, true_or]
    by_cases hname : item.2.name = className
    · rw [List.find?_cons_of_pos (by simpa using hname)]
      refine ⟨fun hnone => absurd hnone (Option.some_ne_none item), fun item' hitem' => ?_⟩
      obtain rfl := Option.some.inj hitem'
      rw [fromClass_cons] at h havoids
      rw [hname] at h havoids
      obtain ⟨q, hq, -, hwindow⟩ := h.find_string hplain (by decide) (by
        rw [List.append_nil]
        exact havoids)
      exact ⟨q, items, hq, hwindow⟩
    · rw [List.find?_cons_of_neg (by simpa using hname)]
      rw [fromClass_cons] at h havoids
      cases items with
      | nil =>
        rw [if_pos rfl] at h havoids
        refine ⟨fun _ => ?_, fun item' hitem' => absurd hitem' (Option.some_ne_none item').symm⟩
        have htokens := h.tokens
        rw [List.append_nil] at htokens
        refine htokens.find_none hplain (by decide) ((avoids_append ..).mpr ⟨?_, ?_⟩)
        · rw [List.append_nil]
          exact havoids
        · refine avoids_block hclass hitem hquote hname (fun _ _ _ => trivial) ?_
          exact fun hcolon => absurd (Option.some.inj hcolon) (by decide)
      | cons next items =>
        rw [if_neg (List.cons_ne_nil next items)] at h havoids
        have hsplit : .str "class".toList :: .punct ':' :: .str item.2.name ::
            (behindName item.1 item.2 ++ .punct '}' :: .punct ',' :: .punct '{' ::
              fromClass (next :: items)) = (.str "class".toList :: .punct ':' :: .str item.2.name ::
            (behindName item.1 item.2 ++ [.punct '}', .punct ',', .punct '{'])) ++
              fromClass (next :: items) := by
          simp only [List.append_assoc, List.cons_append, List.nil_append]
        rw [hsplit] at h havoids
        rw [← List.append_assoc] at h
        refine ih hitems h ((avoids_append ..).mpr ⟨havoids, ?_⟩)
        refine avoids_block hclass hitem hquote hname (fun _ _ _ => trivial) ?_
        exact fun hcolon => absurd (Option.some.inj hcolon) (by decide)

theorem map_contextItems (classes : List ClassJson) :
    (contextItems classes).map Prod.snd = kserver :: classes := by
  rw [contextItems, List.map_cons, List.map_map]
  exact congrArg (kserver :: ·) (List.map_id _)

theorem all_of_mem_contextItems {classes : List ClassJson} (h : ∀ c ∈ classes, c.All Token.Plain)
    {item : (FunctionJson → List Token) × ClassJson} (hitem : item ∈ contextItems classes) :
    item.2.All Token.Plain := by
  have hmem : item.2 ∈ kserver :: classes := map_contextItems classes ▸ List.mem_map_of_mem hitem
  rcases List.mem_cons.mp hmem with heq | hmem
  · rw [heq]
    exact kserver_plain
  · exact h _ hmem

theorem layout_of_mem_contextItems {classes : List ClassJson}
    {item : (FunctionJson → List Token) × ClassJson} (hitem : item ∈ contextItems classes)
    (f : FunctionJson) : Layout item.1 f := by
  rcases List.mem_cons.mp hitem with rfl | hitem
  · exact layout_serverFunctionTokens f
  · obtain ⟨c, -, rfl⟩ := List.mem_map.mp hitem
    exact layout_functionTokens f

/-- **What the flat search finds in a context.** -/
theorem findOpInJson_contextTokens {classes : List ClassJson} {funcName : Str}
    (h : ∀ c ∈ classes, c.All Token.Plain) (hclass : '"' ∉ className) (hfunc : '"' ∉ funcName) :
    findOpInJson (text (contextTokens classes)) className funcName
      = ((kserver :: classes).find? (·.name = className)).bind fun c =>
        (flatFind funcName c.functions).map fun id =>
          (uint32 c.id % 2 ^ 16, uint32 id % 2 ^ 16) := by
  have hplain := forall_contextTokens structural_plain kserver_plain h
  have hreads := reads_contextItems h
  have hitems : (kserver :: classes).find? (·.name = className)
      = ((contextItems classes).find? (·.2.name = className)).map Prod.snd := by
    rw [← map_contextItems, List.find?_map]
    rfl
  obtain ⟨hnone, hsome⟩ := find_class hplain hclass hreads (window_contextTokens classes) trivial
  rw [hitems]
  cases hitem : (contextItems classes).find? (·.2.name = className) with
  | none => rw [findOpInJson, hnone hitem]; rfl
  | some item =>
    obtain ⟨q, after, hq, hbehind⟩ := hsome item hitem
    have hmem : item ∈ contextItems classes := List.mem_of_find?_eq_some hitem
    have hc : item.2.All Token.Plain := all_of_mem_contextItems h hmem
    obtain ⟨⟨w, rest, hw, hblock⟩, -⟩ :=
      classEnd_spec (List.nil_prefix ..) hplain (hreads item hmem) hbehind
    obtain ⟨cend, hcend⟩ : ∃ cend, classEnd [] (text (contextTokens classes))
        (q + (key "class".toList ++ quoted className).length) = cend := ⟨_, rfl⟩
    rw [hcend] at hblock
    rw [classEnd, List.append_nil] at hcend
    obtain ⟨cidPos, hcid, hlt, hnum, hfunctions⟩ :=
      find_id (a := [.punct ',']) hplain hblock trivial
    have hsplit : .str "id".toList :: .punct ':' :: .num item.2.id :: .punct ',' ::
        (.str "functions".toList :: .punct ':' :: listTokens (item.2.functions.map item.1) ++ w)
          = [.str "id".toList, .punct ':', .num item.2.id, .punct ',', .str "functions".toList,
              .punct ':', .punct '['] ++
            (joined (item.2.functions.map item.1) ++ .punct ']' :: w) := by
      simp only [listTokens, List.append_assoc, List.cons_append, List.nil_append]
    have hfunctions : Window (contextTokens classes) cidPos cend (.str "id".toList :: .punct ':' ::
      .num item.2.id :: .punct ',' :: (.str "functions".toList :: .punct ':' ::
        listTokens (item.2.functions.map item.1) ++ w)) rest := hfunctions
    rw [hsplit] at hfunctions
    have htokens := hfunctions.tokens
    rw [List.append_assoc] at htokens
    have hfunction : findFunction (text (contextTokens classes)) funcName cidPos cend
        = (flatFind funcName item.2.functions).map uint32 := by
      refine (findFunction_congr (htokens.find_skip hplain (by decide) (by simp))).trans
        (findFunction_joined hplain hfunc (fun f _ => layout_of_mem_contextItems hmem f)
          (fun f hf => ⟨(hc.functions f hf).name.1, fun arg harg =>
            ((hc.functions f hf).args arg harg).1.1⟩) hw hfunctions.skip)
    simp only [findOpInJson, hq, hcid, hcend, hnum, hfunction, Option.bind_eq_bind,
      Option.bind_some]
    rw [if_neg (by omega), Option.map_some, Option.bind_some]
    cases flatFind funcName item.2.functions <;> rfl

end Class

/-! ## The lookup in the table -/

section Table

variable {className funcName : Str}

/-- **The lookup by name in the table** finds the first entry with the two names, where no name
has a colon. -/
theorem byName_build {json : Str} {ops : List OpEntry} (hops : parseOps json = ops)
    (hnames : ∀ op ∈ ops, ':' ∉ op.className ∧ ':' ∉ op.funcName) :
    (OpTable.build json).byName (className ++ ':' :: ':' :: funcName)
      = ops.find? fun op => op.className = className ∧ op.funcName = funcName := by
  have htable : (OpTable.build json).ops = ops := hops
  have hfirst : ':' ∈ className ++ ':' :: ':' :: funcName :=
    List.mem_append_right _ List.mem_cons_self
  by_cases hcolon : ':' ∈ className
  · -- no class has such a name, and what is split off has a colon in one of its parts
    have hnone : (ops.find? fun op => op.className = className ∧ op.funcName = funcName) = none :=
      List.find?_eq_none.mpr fun op hop heq =>
        (hnames op hop).1 ((of_decide_eq_true heq).1 ▸ hcolon)
    rw [OpTable.byName, htable, hnone]
    split
    · refine List.find?_eq_none.mpr fun op hop heq => (hnames op hop).2 ?_
      rw [of_decide_eq_true heq]
      exact hfirst
    · rename_i sep _
      refine List.find?_eq_none.mpr fun op hop heq => ?_
      obtain ⟨hclass, hfunc⟩ := of_decide_eq_true heq
      obtain ⟨hclassColon, hfuncColon⟩ := hnames op hop
      rw [hclass] at hclassColon
      rw [hfunc] at hfuncColon
      have hsep : sep < className.length := by
        by_contra hle
        rw [List.take_append, List.take_of_length_le (by omega)] at hclassColon
        exact hclassColon (List.mem_append_left _ hcolon)
      refine hfuncColon (List.mem_of_getElem? (i := className.length + 1 - (sep + 2)) ?_)
      rw [List.getElem?_drop, List.getElem?_append_right (by omega)]
      have hindex : sep + 2 + (className.length + 1 - (sep + 2)) - className.length = 1 := by omega
      rw [hindex]
      rfl
  · have hcolons : [':', ':'] <+: ':' :: ':' :: funcName := ⟨funcName, rfl⟩
    have hsep : offset? [':', ':'] (className ++ ':' :: ':' :: funcName)
        = some className.length := by
      rw [offset?_append_of_notMem hcolon, offset?_of_begins hcolons, Option.map_some, Nat.zero_add]
    have hdrop : (className ++ ':' :: ':' :: funcName).drop (className.length + 2) = funcName := by
      rw [← List.drop_drop, List.drop_left]
      rfl
    rw [OpTable.byName, hsep, htable]
    simp only [List.take_left, hdrop]

/-- The entry that a class gives to the lookup in the table. -/
def classEntry (className funcName : Str) (c : ClassJson) : Option OpEntry :=
  if c.name = className then
    (c.functions.find? (·.name = funcName)).map (entry c.name (uint32 c.id)) else none

/-- The first entry with two names. -/
theorem find?_flatMap_readOps (classes : List ClassJson) :
    ((classes.flatMap readOps).find? fun op => op.className = className ∧ op.funcName = funcName)
      = classes.findSome? (classEntry className funcName) := by
  rw [List.find?_flatMap]
  refine congrArg (List.findSome? · classes) (funext fun c => ?_)
  rw [readOps, List.find?_map, classEntry]
  split
  · rename_i hname
    refine congrArg (Option.map _) (congrArg (List.find? · c.functions) (funext fun f => ?_))
    show decide (c.name = className ∧ f.name = funcName) = _
    rw [hname]
    simp only [true_and]
  · rename_i hname
    rw [List.find?_eq_none.mpr]
    · rfl
    · exact fun f _ heq => hname (of_decide_eq_true heq).1

end Table

/-! ## When the lookups agree -/

/-- The names of an operation. -/
structure OpNames where
  name : Str
  args : List Str

/-- The names of a class. -/
structure ClassNames where
  name : Str
  operations : List OpNames

/-- The names in a driver. -/
def driverNames (driver : Context.Driver) : ClassNames :=
  ⟨driver.name, driver.operations.map fun op => ⟨op.name, op.arguments.map Prod.fst⟩⟩

/-- The names in the context of an operation. -/
def opNames (f : FunctionJson) : OpNames := ⟨f.name, f.args.map Prod.fst⟩

/-- The names in the context of a class. -/
def classNames (c : ClassJson) : ClassNames := ⟨c.name, c.functions.map opNames⟩

/-- The names in an instrument. -/
def instrumentNames (drivers : List Context.Driver) : List ClassNames :=
  classNames kserver :: drivers.map driverNames

/-- An operation that is not the last one has no argument of the name, unless an operation of the
name is before it, is itself or is the next one. -/
def Clear (funcName : Str) (ops : List OpNames) : Prop :=
  ∀ before op next behind, ops = before ++ op :: next :: behind → funcName ∈ op.args →
    ∃ op' ∈ before ++ [op, next], op'.name = funcName

/-- The two names are clear in the first class of the name, and no other class of that name has the
operation if this one has not. -/
def Unambiguous (classes : List ClassNames) (className funcName : Str) : Prop :=
  ∀ c, classes.find? (·.name = className) = some c → Clear funcName c.operations ∧
    ((∃ op ∈ c.operations, op.name = funcName) ∨
      ∀ c' ∈ classes, c'.name = className → ∀ op ∈ c'.operations, op.name ≠ funcName)

/-- **The two lookups agree**: both find nothing, or both find the same ids. -/
def LookupsAgree (json className funcName : Str) : Prop :=
  findOpInJson json className funcName =
    ((OpTable.build json).byName (className ++ ':' :: ':' :: funcName)).map fun op =>
      (op.classId, op.funcId)

section Clear

variable {funcName : Str} {op : OpNames} {ops : List OpNames}

theorem clear_nil : Clear funcName [] := fun before op next behind h =>
  absurd h.symm (by simp)

theorem clear_cons_of_name (h : op.name = funcName) : Clear funcName (op :: ops) := by
  intro before op' next behind hsplit _
  refine ⟨op, ?_, h⟩
  cases before with
  | nil =>
    obtain ⟨rfl, -⟩ := List.cons.inj hsplit
    exact List.mem_cons_self
  | cons first before =>
    obtain ⟨rfl, -⟩ := List.cons.inj hsplit
    exact List.mem_cons_self

/-- Behind an operation with an argument of the name there has to be the operation of the name. -/
theorem clear_cons_of_mem (hname : op.name ≠ funcName) (hmem : funcName ∈ op.args) :
    Clear funcName (op :: ops) ↔ ∀ next ∈ ops.head?, next.name = funcName := by
  constructor
  · intro h next hnext
    cases ops with
    | nil => cases hnext
    | cons first ops =>
      obtain rfl : first = next := Option.some.inj hnext
      obtain ⟨op', hop', heq⟩ := h [] op first ops rfl hmem
      rcases List.mem_pair.mp hop' with rfl | rfl
      · exact absurd heq hname
      · exact heq
  · intro h before op' next behind hsplit _
    cases before with
    | nil =>
      obtain ⟨rfl, rfl⟩ := List.cons.inj hsplit
      exact ⟨next, List.mem_pair.mpr (Or.inr rfl), h next rfl⟩
    | cons first before =>
      obtain ⟨rfl, rfl⟩ := List.cons.inj hsplit
      cases before with
      | nil => exact ⟨op', by simp, h op' rfl⟩
      | cons second before => exact ⟨second, by simp, h second rfl⟩

theorem clear_cons_of_notMem (hname : op.name ≠ funcName) (hmem : funcName ∉ op.args) :
    Clear funcName (op :: ops) ↔ Clear funcName ops := by
  constructor
  · intro h before op' next behind hsplit hmem'
    obtain ⟨found, hfound, heq⟩ := h (op :: before) op' next behind (by rw [hsplit]; rfl) hmem'
    rcases List.mem_cons.mp hfound with rfl | hfound
    · exact absurd heq hname
    · exact ⟨found, hfound, heq⟩
  · intro h before op' next behind hsplit hmem'
    cases before with
    | nil =>
      obtain ⟨rfl, -⟩ := List.cons.inj hsplit
      exact absurd hmem' hmem
    | cons first before =>
      obtain ⟨rfl, htail⟩ := List.cons.inj hsplit
      obtain ⟨found, hfound, heq⟩ := h before op' next behind htail hmem'
      exact ⟨found, List.mem_cons_of_mem _ hfound, heq⟩

/-- Where the names are clear, the flat search finds the operation of the name. -/
theorem flatFind_of_clear {fs : List FunctionJson} (h : Clear funcName (fs.map opNames)) :
    flatFind funcName fs = (fs.find? (·.name = funcName)).map FunctionJson.id := by
  induction fs with
  | nil => rfl
  | cons f fs ih =>
    rw [flatFind]
    by_cases hname : f.name = funcName
    · rw [if_pos hname, List.find?_cons_of_pos (by simpa using hname)]
      rfl
    · rw [if_neg hname, List.find?_cons_of_neg (by simpa using hname)]
      by_cases hmem : funcName ∈ f.args.map Prod.fst
      · have hnext := (clear_cons_of_mem (show (opNames f).name ≠ funcName from hname) hmem).mp h
        rw [if_pos hmem]
        cases fs with
        | nil => rfl
        | cons g gs =>
          have hg : g.name = funcName := hnext (opNames g) rfl
          rw [List.find?_cons_of_pos (by simpa using hg)]
          rfl
      · rw [if_neg hmem]
        exact ih ((clear_cons_of_notMem (show (opNames f).name ≠ funcName from hname) hmem).mp h)

/-- **And only there**, if the operations have different ids. -/
theorem clear_of_flatFind {fs : List FunctionJson} (hids : (fs.map FunctionJson.id).Nodup)
    (h : flatFind funcName fs = (fs.find? (·.name = funcName)).map FunctionJson.id) :
    Clear funcName (fs.map opNames) := by
  induction fs with
  | nil => exact clear_nil
  | cons f fs ih =>
    rw [List.map_cons] at hids ⊢
    obtain ⟨-, hids⟩ := List.nodup_cons.mp hids
    by_cases hname : f.name = funcName
    · exact clear_cons_of_name hname
    · rw [flatFind, if_neg hname, List.find?_cons_of_neg (by simpa using hname)] at h
      by_cases hmem : funcName ∈ f.args.map Prod.fst
      · refine (clear_cons_of_mem (show (opNames f).name ≠ funcName from hname) hmem).mpr
          fun next hnext => ?_
        rw [if_pos hmem] at h
        cases fs with
        | nil => cases hnext
        | cons g gs =>
          obtain rfl : opNames g = next := Option.some.inj hnext
          by_contra hg
          -- the operation that is found is not the next one, so it has another id
          rw [List.find?_cons_of_neg (by simpa [opNames] using hg)] at h
          obtain ⟨found, hfound, heq⟩ := Option.map_eq_some_iff.mp h.symm
          refine (List.nodup_cons.mp hids).1 ?_
          rw [← heq]
          exact List.mem_map_of_mem (List.mem_of_find?_eq_some hfound)
      · rw [if_neg hmem] at h
        exact (clear_cons_of_notMem (show (opNames f).name ≠ funcName from hname) hmem).mpr
          (ih hids h)

end Clear

/-! ### The lookups on the classes of a context -/

section Agreement

variable {className funcName : Str} {classes : List ClassJson}

/-- What the flat search finds in some classes. -/
def flatIds (className funcName : Str) (classes : List ClassJson) : Option (ℕ × ℕ) :=
  (classes.find? (·.name = className)).bind fun c =>
    (flatFind funcName c.functions).map fun id => (uint32 c.id % 2 ^ 16, uint32 id % 2 ^ 16)

/-- What the lookup in the table finds in some classes. -/
def tableIds (className funcName : Str) (classes : List ClassJson) : Option (ℕ × ℕ) :=
  (classes.findSome? (classEntry className funcName)).map fun op => (op.classId, op.funcId)

theorem find?_classNames : (classes.map classNames).find? (·.name = className)
    = (classes.find? (·.name = className)).map classNames := by
  rw [List.find?_map]
  rfl

/-- The table is searched in the first class of the name, then in the classes behind it. -/
theorem exists_findSome? (funcName : Str) {c : ClassJson}
    (h : classes.find? (·.name = className) = some c) :
    c.name = className ∧ ∃ before behind, classes = before ++ c :: behind ∧
      classes.findSome? (classEntry className funcName)
        = ((c.functions.find? (·.name = funcName)).map (entry c.name (uint32 c.id))).or
          (behind.findSome? (classEntry className funcName)) := by
  obtain ⟨hname, before, behind, hsplit, hbefore⟩ := List.find?_eq_some_iff_append.mp h
  have hname : c.name = className := of_decide_eq_true hname
  have hnone : before.findSome? (classEntry className funcName) = none :=
    List.findSome?_eq_none_iff.mpr fun c' hc' => if_neg (by simpa using hbefore c' hc')
  refine ⟨hname, before, behind, hsplit, ?_⟩
  rw [hsplit, List.findSome?_append, hnone, Option.none_or, List.findSome?_cons, classEntry,
    if_pos hname]
  cases c.functions.find? (·.name = funcName) <;> rfl

/-- What the table finds is an operation of the two names. -/
theorem exists_of_findSome? {op : OpEntry}
    (h : classes.findSome? (classEntry className funcName) = some op) :
    ∃ c ∈ classes, c.name = className ∧ ∃ f ∈ c.functions, f.name = funcName ∧
      op = entry c.name (uint32 c.id) f := by
  obtain ⟨c, hc, h⟩ := List.exists_of_findSome?_eq_some h
  obtain ⟨hname, h⟩ := Option.ite_none_right_eq_some.mp h
  obtain ⟨f, hf, rfl⟩ := Option.map_eq_some_iff.mp h
  have hfname := List.find?_some hf
  exact ⟨c, hc, hname, f, List.mem_of_find?_eq_some hf, of_decide_eq_true hfname, rfl⟩

/-- **Unambiguous names are found alike.** -/
theorem flatIds_of_unambiguous (h : Unambiguous (classes.map classNames) className funcName) :
    flatIds className funcName classes = tableIds className funcName classes := by
  rw [flatIds, tableIds]
  cases hfind : classes.find? (·.name = className) with
  | none =>
    have hnone : classes.findSome? (classEntry className funcName) = none :=
      List.findSome?_eq_none_iff.mpr fun c hc =>
        if_neg (by simpa using List.find?_eq_none.mp hfind c hc)
    rw [hnone]
    rfl
  | some c =>
    obtain ⟨-, before, behind, hsplit, hentry⟩ := exists_findSome? funcName hfind
    obtain ⟨hclear, hothers⟩ := h (classNames c) (by rw [find?_classNames, hfind]; rfl)
    rw [hentry, Option.bind_some, flatFind_of_clear hclear]
    cases hfunc : c.functions.find? (·.name = funcName) with
    | some f => rfl
    | none =>
      rw [Option.map_none, Option.map_none, Option.map_none, Option.none_or]
      cases hop : behind.findSome? (classEntry className funcName) with
      | none => rfl
      | some op =>
        -- an operation of another class of the name, which there is not
        obtain ⟨c', hc', hname', f, hf, hfname, -⟩ := exists_of_findSome? hop
        exfalso
        rcases hothers with ⟨found, hfound, hname⟩ | hothers
        · obtain ⟨g, hg, rfl⟩ := List.mem_map.mp hfound
          exact List.find?_eq_none.mp hfunc g hg (decide_eq_true hname)
        · have hmem : c' ∈ classes := hsplit ▸ List.mem_append_right _ (List.mem_cons_of_mem c hc')
          exact hothers (classNames c') (List.mem_map_of_mem hmem) hname' (opNames f)
            (List.mem_map_of_mem hf) hfname

theorem uint32_mod_of_lt {n : ℕ} (h : n < 2 ^ 16) : uint32 n % 2 ^ 16 = n := by
  rw [uint32_of_lt h, Nat.mod_eq_of_lt h]

/-- The id that the flat search finds is one of the operations. -/
theorem mem_of_flatFind {fs : List FunctionJson} {id : ℕ} (h : flatFind funcName fs = some id) :
    id ∈ fs.map FunctionJson.id := by
  induction fs with
  | nil => cases h
  | cons f fs ih =>
    rw [flatFind] at h
    split at h
    · rw [← Option.some.inj h]
      exact List.mem_cons_self
    · split at h
      · cases fs with
        | nil => cases h
        | cons g gs =>
          rw [← Option.some.inj h]
          exact List.mem_cons_of_mem _ List.mem_cons_self
      · exact List.mem_cons_of_mem _ (ih h)

/-- **Names that are found alike are unambiguous**, where the ids are different and fit. -/
theorem unambiguous_of_flatIds (hnumbered : Numbered classes)
    (h : flatIds className funcName classes = tableIds className funcName classes) :
    Unambiguous (classes.map classNames) className funcName := by
  intro names hnames
  rw [find?_classNames] at hnames
  obtain ⟨c, hfind, rfl⟩ := Option.map_eq_some_iff.mp hnames
  obtain ⟨hname, before, behind, hsplit, hentry⟩ := exists_findSome? funcName hfind
  have hc : c ∈ classes := List.mem_of_find?_eq_some hfind
  obtain ⟨hcid, hfids⟩ := hnumbered.fits c hc
  have hids := hnumbered.functions c hc
  have hidlt : ∀ id ∈ c.functions.map FunctionJson.id, id < 2 ^ 16 := fun id hid => by
    obtain ⟨f, hf, rfl⟩ := List.mem_map.mp hid
    exact hfids f hf
  rw [flatIds, tableIds, hfind, hentry, Option.bind_some] at h
  cases hfunc : c.functions.find? (·.name = funcName) with
  | some f =>
    have hf : f ∈ c.functions := List.mem_of_find?_eq_some hfunc
    have hfound := List.find?_some hfunc
    have hfname : f.name = funcName := of_decide_eq_true hfound
    refine ⟨clear_of_flatFind hids ?_, Or.inl ⟨opNames f, List.mem_map_of_mem hf, hfname⟩⟩
    rw [hfunc] at h ⊢
    obtain ⟨id, hid, heq⟩ := Option.map_eq_some_iff.mp h
    have hfid : uint32 id % 2 ^ 16 = uint32 f.id % 2 ^ 16 := (Prod.mk.inj heq).2
    rw [uint32_mod_of_lt (hidlt id (mem_of_flatFind hid)), uint32_mod_of_lt (hfids f hf)] at hfid
    rw [hid, hfid]
    rfl
  | none =>
    rw [hfunc, Option.map_none, Option.none_or] at h
    have hnone : flatFind funcName c.functions = none := by
      by_contra hsome
      obtain ⟨id, hid⟩ := Option.ne_none_iff_exists'.mp hsome
      rw [hid] at h
      obtain ⟨op, hop, heq⟩ := Option.map_eq_some_iff.mp h.symm
      obtain ⟨c', hc', -, f, -, -, rfl⟩ := exists_of_findSome? hop
      have hmem : c' ∈ classes := hsplit ▸ List.mem_append_right _ (List.mem_cons_of_mem c hc')
      -- another class has another id
      have hclass : uint32 c'.id % 2 ^ 16 = uint32 c.id % 2 ^ 16 := (Prod.mk.inj heq).1
      rw [uint32_mod_of_lt (hnumbered.fits c' hmem).1, uint32_mod_of_lt hcid] at hclass
      have hnodup := hnumbered.ids
      rw [hsplit, List.map_append, List.map_cons] at hnodup
      refine (List.nodup_cons.mp (List.nodup_append.mp hnodup).2.1).1 ?_
      rw [← hclass]
      exact List.mem_map_of_mem hc'
    refine ⟨clear_of_flatFind hids (by rw [hnone, hfunc]; rfl), Or.inr ?_⟩
    rw [hnone] at h
    have hbehind := Option.map_eq_none_iff.mp h.symm
    intro names' hnames' hname' op hop
    obtain ⟨c', hc', rfl⟩ := List.mem_map.mp hnames'
    obtain ⟨f, hf, rfl⟩ := List.mem_map.mp hop
    intro hfname
    have hname' : c'.name = className := hname'
    rw [hfunc, Option.map_none, Option.none_or, hbehind] at hentry
    have hentry' := List.findSome?_eq_none_iff.mp hentry c' hc'
    rw [classEntry, if_pos hname', Option.map_eq_none_iff] at hentry'
    exact List.find?_eq_none.mp hentry' f hf (decide_eq_true hfname)

/-! ### The lookups on the context of some drivers -/

variable {drivers : List Context.Driver}

/-- The names of a class, without the ids. -/
def ClassNames.of (names : Str × ℕ × List (Str × ℕ × List Str)) : ClassNames :=
  ⟨names.1, names.2.2.map fun f => ⟨f.1, f.2.2⟩⟩

theorem classNames_eq (c : ClassJson) : classNames c = .of c.names := by
  show _ = ClassNames.mk c.name ((c.functions.map FunctionJson.names).map _)
  rw [List.map_map]
  rfl

/-- The names in the context are those of the drivers. -/
theorem map_classNames {P : Str → Prop} (hparsed : ∀ driver ∈ drivers, driver.Parsed P)
    (hnames : classes.map ClassJson.names = drivers.map fun driver => driver.json.names) :
    (kserver :: classes).map classNames = instrumentNames drivers := by
  have hdriver : ∀ driver ∈ drivers, driverNames driver = .of driver.json.names := by
    intro driver hdriver
    rw [← classNames_eq, driverNames, classNames]
    refine congrArg (ClassNames.mk driver.name) ?_
    show _ = (driver.operations.map _).map opNames
    rw [List.map_map]
    refine List.map_congr_left fun op hop => ?_
    show OpNames.mk op.name _ = ⟨op.name, op.argsClient.map Prod.fst⟩
    rw [((hparsed driver hdriver).operations op hop).map_argsClient]
  rw [List.map_cons, instrumentNames, List.map_congr_left hdriver]
  have hmap : classes.map classNames = (classes.map ClassJson.names).map .of := by
    rw [List.map_map]
    exact List.map_congr_left fun c _ => classNames_eq c
  rw [hmap, hnames, List.map_map]
  rfl

/-- The id of a class and those of its operations. -/
def classIds (c : ClassJson) : ℕ × List ℕ := (c.id, c.functions.map FunctionJson.id)

/-- The ids among the names of a class. -/
def idsOf (names : Str × ℕ × List (Str × ℕ × List Str)) : ℕ × List ℕ :=
  (names.2.1, names.2.2.map fun f => f.2.1)

theorem classIds_eq (c : ClassJson) : classIds c = idsOf c.names := by
  show _ = (c.id, (c.functions.map FunctionJson.names).map _)
  rw [List.map_map]
  rfl

theorem map_classIds_fst (cs : List ClassJson) :
    (cs.map classIds).map Prod.fst = cs.map ClassJson.id := by
  rw [List.map_map]
  rfl

/-- The ids in the context are those of the drivers. -/
theorem numbered_of_names {P : Str → Prop} (hparsed : ∀ driver ∈ drivers, driver.Parsed P)
    (hids : drivers.map Context.Driver.id = List.range' 2 drivers.length) (hfits : Fits drivers)
    (hnames : classes.map ClassJson.names = drivers.map fun driver => driver.json.names) :
    Numbered (kserver :: classes) := by
  have hclient : Numbered (clientClasses (fun _ => []) drivers) :=
    numbered_clientClasses hparsed hids hfits
  have hsame : (kserver :: classes).map classIds
      = (clientClasses (fun _ => []) drivers).map classIds := by
    rw [List.map_cons, clientClasses, List.map_cons, List.map_map]
    have hmap : classes.map classIds = (classes.map ClassJson.names).map idsOf := by
      rw [List.map_map]
      exact List.map_congr_left fun c _ => classIds_eq c
    rw [hmap, hnames, List.map_map]
    refine congrArg (classIds kserver :: ·) (List.map_congr_left fun driver _ => ?_)
    show idsOf driver.json.names = classIds (clientClass _ driver)
    rw [← classIds_eq]
    show (driver.id, (driver.operations.map _).map _) = (driver.id, (driver.operations.map _).map _)
    rw [List.map_map, List.map_map]
    rfl
  have hmem : ∀ c ∈ kserver :: classes,
      ∃ c' ∈ clientClasses (fun _ => []) drivers, classIds c' = classIds c := by
    intro c hc
    exact List.mem_map.mp (hsame ▸ List.mem_map_of_mem hc)
  refine ⟨?_, fun c hc => ?_, fun c hc => ?_⟩
  · rw [← map_classIds_fst, hsame, map_classIds_fst]
    exact hclient.ids
  · obtain ⟨c', hc', heq⟩ := hmem c hc
    have hfunctions : c'.functions.map FunctionJson.id = c.functions.map FunctionJson.id :=
      (Prod.mk.inj heq).2
    rw [← hfunctions]
    exact hclient.functions c' hc'
  · obtain ⟨c', hc', heq⟩ := hmem c hc
    obtain ⟨hid, hfunctions⟩ := Prod.mk.inj heq
    obtain ⟨hfit, hfits⟩ := hclient.fits c' hc'
    refine ⟨hid ▸ hfit, fun f hf => ?_⟩
    have hfid : f.id ∈ c'.functions.map FunctionJson.id := hfunctions ▸ List.mem_map_of_mem hf
    obtain ⟨f', hf', heq'⟩ := List.mem_map.mp hfid
    exact heq' ▸ hfits f' hf'

/-- The two lookups, in terms of the classes of a context. -/
theorem lookupsAgree_contextTokens (hplain : ∀ c ∈ classes, c.All Token.Plain)
    (hcolon : ∀ c ∈ classes, ':' ∉ c.name ∧ ∀ f ∈ c.functions, ':' ∉ f.name)
    (hclass : '"' ∉ className) (hfunc : '"' ∉ funcName) :
    LookupsAgree (text (contextTokens classes)) className funcName ↔
      flatIds className funcName (kserver :: classes)
        = tableIds className funcName (kserver :: classes) := by
  have hops := parseOps_contextTokens hplain
  have hnames : ∀ op ∈ (kserver :: classes).flatMap readOps,
      ':' ∉ op.className ∧ ':' ∉ op.funcName := by
    intro op hop
    obtain ⟨c, hc, hop⟩ := List.mem_flatMap.mp hop
    obtain ⟨f, hf, rfl⟩ := List.mem_map.mp hop
    rcases List.mem_cons.mp hc with rfl | hc
    · refine ⟨by show ':' ∉ kserver.name; decide, ?_⟩
      have hserver : ∀ f ∈ kserver.functions, ':' ∉ f.name := by decide
      exact hserver f hf
    · exact ⟨(hcolon c hc).1, (hcolon c hc).2 f hf⟩
  rw [LookupsAgree, findOpInJson_contextTokens hplain hclass hfunc, byName_build hops hnames,
    find?_flatMap_readOps]
  rfl

/-- The condition under which the lookups agree. -/
def HoldsWhen (drivers : List Context.Driver) (className funcName : Str) : Prop :=
  Unambiguous (instrumentNames drivers) className funcName

/-- A context of drivers with identifier names, as the lookups see it. -/
theorem exists_classes {eval : Str → Str} (heval : ∀ e, '"' ∉ e → Unquoted (eval e))
    {headers : List (Str × List Method)}
    (hnamed : ∀ header ∈ headers, NamedHeader (fun _ => True) header)
    (hdrivers : getDrivers headers = some drivers) {json : Str}
    (hjson : resolve eval (getJson drivers) = some json) (className funcName : Str) :
    ∃ classes : List ClassJson, (kserver :: classes).map classNames = instrumentNames drivers ∧
      (Fits drivers → Numbered (kserver :: classes)) ∧
      ('"' ∉ className → '"' ∉ funcName → (LookupsAgree json className funcName ↔
        flatIds className funcName (kserver :: classes)
          = tableIds className funcName (kserver :: classes))) := by
  obtain ⟨hparsed, hids⟩ := parsed_getDrivers hnamed hdrivers
  obtain ⟨classes, rfl, hplain, hnames⟩ := exists_context heval hparsed hjson
  refine ⟨classes, map_classNames hparsed hnames,
    fun hfits => numbered_of_names hparsed hids hfits hnames, fun hclass hfunc => ?_⟩
  refine lookupsAgree_contextTokens hplain (fun c hc => ?_) hclass hfunc
  obtain ⟨driver, hdriver, heq⟩ := List.mem_map.mp (hnames ▸ List.mem_map_of_mem hc)
  obtain ⟨hname, heq⟩ := Prod.mk.inj heq
  have hparsed := hparsed driver hdriver
  have hname : driver.name = c.name := hname
  refine ⟨hname ▸ hparsed.name.notMem (by decide), fun f hf => ?_⟩
  have hfunctions : driver.json.functions.map FunctionJson.names
      = c.functions.map FunctionJson.names := (Prod.mk.inj heq).2
  have hmem : f.names ∈ driver.json.functions.map FunctionJson.names :=
    hfunctions ▸ List.mem_map_of_mem hf
  obtain ⟨f', hf', heq'⟩ := List.mem_map.mp hmem
  obtain ⟨op, hop, rfl⟩ := List.mem_map.mp hf'
  have hopName : op.name = f.name := (Prod.mk.inj heq').1
  exact hopName ▸ (hparsed.operations op hop).name.notMem (by decide)

/-- **The lookups agree on names that are unambiguous, and on no others.**  They are asked for
names without a double quote, as those of classes and operations are. -/
theorem lookups_agree_iff {eval : Str → Str} (heval : ∀ e, '"' ∉ e → Unquoted (eval e))
    {headers : List (Str × List Method)}
    (hnamed : ∀ header ∈ headers, NamedHeader (fun _ => True) header)
    (hdrivers : getDrivers headers = some drivers) {json : Str}
    (hjson : resolve eval (getJson drivers) = some json) {className funcName : Str}
    (hclass : '"' ∉ className) (hfunc : '"' ∉ funcName) :
    (HoldsWhen drivers className funcName → LookupsAgree json className funcName) ∧
      (Fits drivers → LookupsAgree json className funcName →
        HoldsWhen drivers className funcName) := by
  obtain ⟨classes, hnames, hnumbered, hagree⟩ :=
    exists_classes heval hnamed hdrivers hjson className funcName
  constructor
  · intro hunambiguous
    rw [HoldsWhen, ← hnames] at hunambiguous
    exact (hagree hclass hfunc).mpr (flatIds_of_unambiguous hunambiguous)
  · intro hfits hlookups
    rw [HoldsWhen, ← hnames]
    exact unambiguous_of_flatIds (hnumbered hfits) ((hagree hclass hfunc).mp hlookups)

/-- The methods of a mixer: the argument of the first one has the name of the last one. -/
def mixerHeader : Str × List Method :=
  ("Mixer".toList, [⟨"set".toList, "void".toList, [("gain".toList, "float".toList)], false⟩,
    ⟨"reset".toList, "void".toList, [], false⟩, ⟨"gain".toList, "float".toList, [], false⟩])

/-- The driver of the mixer. -/
def mixer : Context.Driver :=
  ⟨"Mixer".toList, 2, [⟨"set".toList, 0, "void".toList, [("gain".toList, "float".toList)],
      [("gain".toList, "float".toList)]⟩,
    ⟨"reset".toList, 1, "void".toList, [], []⟩, ⟨"gain".toList, 2, "float".toList, [], []⟩]⟩

theorem mixer_named (P : Str → Prop) (hP : ∀ type, P type) :
    ∀ header ∈ [mixerHeader], NamedHeader P header := by
  refine List.forall_mem_singleton.mpr ⟨by decide, ?_⟩
  refine List.forall_mem_cons.mpr ⟨fun _ => ⟨by decide, hP _, ?_⟩, List.forall_mem_cons.mpr
    ⟨fun _ => ⟨by decide, hP _, List.forall_mem_nil _⟩, List.forall_mem_singleton.mpr
      fun _ => ⟨by decide, hP _, List.forall_mem_nil _⟩⟩⟩
  exact List.forall_mem_singleton.mpr ⟨by decide, hP _⟩

theorem mixer_printable : ∀ driver ∈ [mixer], driver.json.All PrintableToken := by
  refine List.forall_mem_singleton.mpr ⟨by decide, ?_⟩
  refine List.forall_mem_cons.mpr ⟨⟨by decide, by decide, ?_⟩, List.forall_mem_cons.mpr
    ⟨⟨by decide, by decide, List.forall_mem_nil _⟩, List.forall_mem_singleton.mpr
      ⟨by decide, by decide, List.forall_mem_nil _⟩⟩⟩
  exact List.forall_mem_singleton.mpr ⟨by decide, by decide⟩

/-- The lookups agree on the operation whose name is that of no argument. -/
theorem lookups_agree_mixer :
    LookupsAgree (text (contextTokens [mixer.json])) "Mixer".toList "reset".toList := by
  have heval : ∀ e : Str, '"' ∉ e → Unquoted ((fun _ => []) e) := fun _ _ =>
    ⟨List.not_mem_nil, List.not_mem_nil⟩
  have hdrivers : getDrivers [mixerHeader] = some [mixer] := rfl
  refine (lookups_agree_iff heval (mixer_named _ fun _ => trivial) hdrivers
    (resolve_getJson_printable _ mixer_printable) (by decide) (by decide)).1 ?_
  intro c hc
  obtain rfl : driverNames mixer = c := Option.some.inj hc
  refine ⟨?_, Or.inl ⟨⟨"reset".toList, []⟩, ?_, rfl⟩⟩
  · exact (clear_cons_of_notMem (by decide) (by decide)).mpr (clear_cons_of_name rfl)
  · exact List.mem_cons_of_mem _ List.mem_cons_self

/-- **The flat search takes the argument for the operation**: it returns the id of `reset`. -/
theorem not_lookupsAgree :
    ∃ (eval : Str → Str) (headers : List (Str × List Method)) (drivers : List Context.Driver)
      (json className funcName : Str), (∀ e, '"' ∉ e → Unquoted (eval e)) ∧
        (∀ header ∈ headers, NamedHeader (fun _ => True) header) ∧
        getDrivers headers = some drivers ∧ resolve eval (getJson drivers) = some json ∧
        IsIdentifier className ∧ IsIdentifier funcName ∧
          ¬ LookupsAgree json className funcName := by
  refine ⟨fun _ => [], [mixerHeader], [mixer], text (contextTokens [mixer.json]), "Mixer".toList,
    "gain".toList, fun _ _ => ⟨List.not_mem_nil, List.not_mem_nil⟩, mixer_named _ fun _ => trivial,
    rfl, resolve_getJson_printable _ mixer_printable, by decide, by decide, ?_⟩
  have hplain : ∀ c ∈ [mixer.json], c.All Token.Plain := by
    refine List.forall_mem_singleton.mpr ⟨by decide, ?_⟩
    refine List.forall_mem_cons.mpr ⟨⟨by decide, by decide, ?_⟩, List.forall_mem_cons.mpr
      ⟨⟨by decide, by decide, List.forall_mem_nil _⟩, List.forall_mem_singleton.mpr
        ⟨by decide, by decide, List.forall_mem_nil _⟩⟩⟩
    exact List.forall_mem_singleton.mpr ⟨by decide, by decide⟩
  have hcolon : ∀ c ∈ [mixer.json], ':' ∉ c.name ∧ ∀ f ∈ c.functions, ':' ∉ f.name := by decide
  rw [lookupsAgree_contextTokens hplain hcolon (by decide) (by decide)]
  decide

end Agreement

end OpDetail
end KoheronSdk
