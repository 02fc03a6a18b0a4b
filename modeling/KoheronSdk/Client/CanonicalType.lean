import Mathlib.Data.List.DropRight
import KoheronSdk.Client.OpTable

/-!
# The canonical name of a type

The C++ client compares the types that an operation declares with those of a call.  The names
come from two sources, the header of the instrument and the demangler of gcc, and
`canonical_type` brings both to one form: it takes a name apart at its outermost brackets,
drops the allocators, and writes the rest in the instrument's way.

## The functions

They work on strings, and are translated as they are: `replace_all` with its scan, `split_top` with
its depth, and `canonical_type` as a recursion on what stands between the brackets.  The
recursion ends since every part is shorter than the whole, which takes a few lemmas about
`split_top`.  `TypeView` is the branch that is taken, so that the recursion is a match on it.

## The spellings

There are three relations between a type and a string: how an instrument declares it, how gcc
demangles it on a host of either size, and how its canonical name is written.  Each is an
inductive predicate over the nesting of the type, with a parameter for the leaves.  What
they have in common is enough for `canonical_type`: between its blanks a spelling has a name, a
bracket, parts that `split_top` does not cut, and the closing bracket (`IsSpelling`).  The main
result is then one induction over the type, with the parts of a vector and of an array.

* `replaceAll`, `splitTop`, `canonicalType`: the functions of the client.
* `Passed`: text that `split_top` does not cut.
* `Declares`, `Host.Demangles`: the spellings of a type, in the source of an instrument and by gcc.
* `canonicalType_spellings`: all spellings of a type have the same canonical name.
-/

namespace KoheronSdk

namespace OpDetail

/-! ## The functions of the client -/

/-- The loop of `replace_all`, with the characters of a match that are still to be passed. -/
def replaceAllLoop (src dst : Str) : ℕ → Str → Str
  | _, [] => []
  | skip + 1, _ :: s => replaceAllLoop src dst skip s
  | 0, c :: s =>
    if src <+: c :: s then dst ++ replaceAllLoop src dst (src.length - 1) s
    else c :: replaceAllLoop src dst 0 s

/-- `replace_all` -/
def replaceAll (s src dst : Str) : Str := if src = [] then s else replaceAllLoop src dst 0 s

/-- The brackets that are open behind a character. -/
def nextDepth (depth : ℤ) (c : Char) : ℤ :=
  if c = '<' ∨ c = '(' then depth + 1 else if c = '>' ∨ c = ')' then depth - 1 else depth

/-- The loop of `split_top`. -/
def splitTopLoop (depth : ℤ) (inStr : Bool) (cur : Str) : Str → List Str
  | [] => [cur]
  | c :: s =>
    if inStr then splitTopLoop depth (c ≠ '"') (cur ++ [c]) s
    else if c = '"' then splitTopLoop depth true (cur ++ [c]) s
    else if c = ',' ∧ nextDepth depth c = 0 then cur :: splitTopLoop (nextDepth depth c) false [] s
    else splitTopLoop (nextDepth depth c) false (cur ++ [c]) s

/-- `split_top` -/
def splitTop (s : Str) : List Str := splitTopLoop 0 false [] s

/-- What is taken off behind a name. -/
def isTail (c : Char) : Bool := c = '&' || isWs c

/-- The first lines of `canonical_type`. -/
def normalize (s : Str) : Str :=
  let s := strip isWs s
  let s := replaceAll s "std::__cxx11::".toList "std::".toList
  let s := s.rdropWhile isTail
  strip isWs s

/-- The names that `canonical_type` knows, with what it returns for them. -/
def knownNames : List (Str × Str) :=
  [("bool", "bool"), ("char", "char"), ("float", "float"), ("double", "double"),
    ("signed char", "int8_t"), ("signed int", "int8_t"), ("signed", "int8_t"),
    ("unsigned char", "uint8_t"), ("short", "int16_t"), ("short int", "int16_t"),
    ("unsigned short", "uint16_t"), ("unsigned short int", "uint16_t"), ("int", "int32_t"),
    ("unsigned int", "uint32_t"), ("unsigned", "uint32_t"), ("long", "int64_t"),
    ("long int", "int64_t"), ("long long", "int64_t"), ("long long int", "int64_t"),
    ("unsigned long", "uint64_t"), ("unsigned long int", "uint64_t"),
    ("unsigned long long", "uint64_t"), ("unsigned long long int", "uint64_t")].map
    fun p : String × String => (p.1.toList, p.2.toList)

/-- What is returned for a name that is not taken apart. -/
def leafName? (s : Str) : Option Str :=
  (knownNames.lookup s).or
    (if "std::basic_string<".toList <+: s then some "std::string".toList else none)

/-- The parts of a name. -/
inductive TypeView where
  | name (s : Str)
  | vector (element : Str)
  | array (element size : Str)
  deriving DecidableEq

/-- `s.substr(pos, n)` -/
def substr (s : Str) (pos n : ℕ) : Str := (s.drop pos).take n

/-- The branch that `canonical_type` takes. -/
def typeView (s : Str) : TypeView :=
  match leafName? s with
  | some name => .name name
  | none =>
    if "std::vector<".toList <+: s ∧ s.getLast? = some '>' then
      .vector ((splitTop (substr s 12 (s.length - 13))).headD [])
    else if "std::array<".toList <+: s ∧ s.getLast? = some '>' ∧
        (splitTop (substr s 11 (s.length - 12))).length = 2 then
      let parts := splitTop (substr s 11 (s.length - 12))
      .array (parts.headD [])
        ((strip isWs (parts.getD 1 [])).rdropWhile fun c => c = 'u' || c = 'l')
    else .name s

/-! ## Lengths -/

theorem length_strip_le (space : Char → Bool) (s : Str) : (strip space s).length ≤ s.length := by
  have hfirst := (List.dropWhile_sublist (p := space) (l := s)).length_le
  have hsecond := (List.dropWhile_sublist (p := space)
    (l := (s.dropWhile space).reverse)).length_le
  rw [List.length_reverse] at hsecond
  rw [strip, List.length_reverse]
  omega

theorem length_replaceAllLoop_le {src dst : Str} (hle : dst.length ≤ src.length) (skip : ℕ)
    (s : Str) : (replaceAllLoop src dst skip s).length + min skip s.length ≤ s.length := by
  induction s generalizing skip with
  | nil => simp [replaceAllLoop]
  | cons c s ih =>
    cases skip with
    | zero =>
      rw [replaceAllLoop]
      split
      · next hprefix =>
        have hlen := hprefix.length_le
        have hrest := ih (src.length - 1)
        rw [List.length_cons] at hlen
        rw [List.length_append, List.length_cons]
        omega
      · have hrest := ih 0
        rw [List.length_cons, List.length_cons]
        omega
    | succ skip =>
      have hrest := ih skip
      rw [replaceAllLoop, List.length_cons]
      omega

theorem length_normalize_le (s : Str) : (normalize s).length ≤ s.length := by
  have hreplace : ∀ t : Str,
      (replaceAll t "std::__cxx11::".toList "std::".toList).length ≤ t.length := by
    intro t
    have hle : "std::".toList.length ≤ "std::__cxx11::".toList.length := by decide
    have h := length_replaceAllLoop_le hle 0 t
    rw [replaceAll, if_neg (by decide)]
    omega
  have hdrop : ∀ (p : Char → Bool) (t : Str), (t.rdropWhile p).length ≤ t.length := fun p t =>
    (List.rdropWhile_prefix p t).length_le
  exact (length_strip_le _ _).trans ((hdrop _ _).trans ((hreplace _).trans (length_strip_le _ _)))

theorem length_headD_splitTopLoop_le (depth : ℤ) (inStr : Bool) (cur s : Str) :
    ((splitTopLoop depth inStr cur s).headD []).length ≤ cur.length + s.length := by
  induction s generalizing depth inStr cur with
  | nil => exact Nat.le_refl _
  | cons c s ih =>
    have hnext : ∀ (d : ℤ) (b : Bool),
        ((splitTopLoop d b (cur ++ [c]) s).headD []).length ≤ cur.length + (c :: s).length := by
      intro d b
      have h := ih d b (cur ++ [c])
      rw [List.length_append, List.length_singleton] at h
      rw [List.length_cons]
      omega
    rw [splitTopLoop]
    split_ifs
    · exact hnext _ _
    · exact hnext _ _
    · exact Nat.le_add_right _ _
    · exact hnext _ _

theorem length_headD_splitTop_substr_lt {s : Str} {pos n : ℕ} (h : 0 < s.length) (hpos : 0 < pos) :
    ((splitTop (substr s pos n)).headD []).length < s.length := by
  have hle := length_headD_splitTopLoop_le 0 false [] (substr s pos n)
  have hsub : (substr s pos n).length ≤ s.length - pos := by
    rw [substr, List.length_take, List.length_drop]
    exact Nat.min_le_right _ _
  rw [List.length_nil] at hle
  rw [splitTop]
  omega

/-- The parts of a name are shorter than the name. -/
theorem length_element_lt {s element : Str}
    (h : typeView s = .vector element ∨ ∃ size, typeView s = .array element size) :
    element.length < s.length := by
  have hlen : ∀ {pre : Str}, pre ≠ [] → pre <+: s → 0 < s.length := fun hne hpre =>
    lt_of_lt_of_le (List.length_pos_of_ne_nil hne) hpre.length_le
  unfold typeView at h
  split at h
  · rcases h with h | ⟨_, h⟩ <;> cases h
  · split at h
    · next hvector =>
      rcases h with h | ⟨_, h⟩
      · obtain rfl := TypeView.vector.inj h
        exact length_headD_splitTop_substr_lt (hlen (by decide) hvector.1) (by decide)
      · cases h
    · split at h
      · next harray =>
        rcases h with h | ⟨_, h⟩
        · cases h
        · obtain ⟨rfl, -⟩ := TypeView.array.inj h
          exact length_headD_splitTop_substr_lt (hlen (by decide) harray.1) (by decide)
      · rcases h with h | ⟨_, h⟩ <;> cases h

/-- `canonical_type` -/
def canonicalType (s : Str) : Str :=
  match _h : typeView (normalize s) with
  | .name name => name
  | .vector element => "std::vector<".toList ++ canonicalType element ++ ['>']
  | .array element size =>
    "std::array<".toList ++ canonicalType element ++ ", ".toList ++ size ++ ['>']
termination_by s.length
decreasing_by
  · exact (length_element_lt (Or.inl _h)).trans_le (length_normalize_le s)
  · exact (length_element_lt (Or.inr ⟨size, _h⟩)).trans_le (length_normalize_le s)

theorem canonicalType_of_name {s name : Str} (h : typeView (normalize s) = .name name) :
    canonicalType s = name := by
  rw [canonicalType]
  split <;> simp_all

/-- Nothing but the normalised name matters. -/
theorem canonicalType_congr {s t : Str} (h : normalize s = normalize t) :
    canonicalType s = canonicalType t := by
  rw [canonicalType, canonicalType.eq_def t, h]

/-! ## Replacing -/

/-- A pattern without a character ends before that character. -/
theorem prefix_append_cons_iff {src a b : Str} {c : Char} (hc : c ∉ src) :
    src <+: a ++ c :: b ↔ src <+: a := by
  constructor
  · intro h
    rcases List.prefix_or_prefix_of_prefix h (List.prefix_append a (c :: b)) with h' | ⟨r, rfl⟩
    · exact h'
    · cases r with
      | nil => simp only [List.append_nil, List.prefix_refl]
      | cons x r =>
        have hx := (List.cons_prefix_cons.mp ((List.prefix_append_right_inj a).mp h)).1
        exact absurd (List.mem_append_right a (hx ▸ List.mem_cons_self ..)) hc
  · exact fun h => h.trans (List.prefix_append a (c :: b))

/-- Matches do not reach over a character that the pattern does not have. -/
theorem replaceAllLoop_append_cons {src a : Str} {c : Char} {skip : ℕ} (dst b : Str)
    (hsrc : src ≠ []) (hc : c ∉ src) (hskip : skip ≤ a.length) :
    replaceAllLoop src dst skip (a ++ c :: b) =
      replaceAllLoop src dst skip a ++ c :: replaceAllLoop src dst 0 b := by
  induction a generalizing skip with
  | nil =>
    obtain rfl := Nat.le_zero.mp hskip
    have hpre : ¬ src <+: c :: b := fun h =>
      hsrc (List.prefix_nil.mp ((prefix_append_cons_iff (a := []) hc).mp h))
    have hnil : replaceAllLoop src dst 0 [] = [] := rfl
    rw [List.nil_append, hnil, List.nil_append, replaceAllLoop, if_neg hpre]
  | cons x a ih =>
    cases skip with
    | zero =>
      rw [List.cons_append, replaceAllLoop, replaceAllLoop, ← List.cons_append]
      by_cases hpre : src <+: x :: a
      · have hlen := hpre.length_le
        rw [List.length_cons] at hlen
        rw [if_pos ((prefix_append_cons_iff hc).mpr hpre), if_pos hpre,
          ih (Nat.sub_le_of_le_add hlen), List.append_assoc]
      · rw [if_neg (mt (prefix_append_cons_iff hc).mp hpre), if_neg hpre, ih (Nat.zero_le _),
          List.cons_append]
    | succ skip =>
      rw [List.cons_append, replaceAllLoop, replaceAllLoop, ih (Nat.le_of_succ_le_succ hskip)]

/-- What `canonical_type` replaces. -/
def withoutCxx11 (s : Str) : Str := replaceAll s "std::__cxx11::".toList "std::".toList

/-- The characters in the name of the inline namespace. -/
def inCxx11 (c : Char) : Bool := "std::__cxx11::".toList.contains c

theorem not_inCxx11_of_all {s : Str} (h : s.all (fun c => !inCxx11 c) = true) :
    ∀ c ∈ s, inCxx11 c = false := fun c hc =>
  (Bool.not_eq_true' _).mp (List.all_eq_true.mp h c hc)

theorem withoutCxx11_append_cons {c : Char} (hc : inCxx11 c = false) (a b : Str) :
    withoutCxx11 (a ++ c :: b) = withoutCxx11 a ++ c :: withoutCxx11 b := by
  have hsrc : "std::__cxx11::".toList ≠ [] := by decide
  have hmem : c ∉ "std::__cxx11::".toList := by
    intro h
    rw [inCxx11, List.contains_iff_mem.mpr h] at hc
    exact Bool.noConfusion hc
  rw [withoutCxx11, withoutCxx11, withoutCxx11, replaceAll, replaceAll, replaceAll, if_neg hsrc,
    if_neg hsrc, if_neg hsrc]
  exact replaceAllLoop_append_cons _ _ hsrc hmem (Nat.zero_le _)

theorem withoutCxx11_append {tail : Str} (htail : ∀ c ∈ tail, inCxx11 c = false) (s : Str) :
    withoutCxx11 (s ++ tail) = withoutCxx11 s ++ tail := by
  induction tail generalizing s with
  | nil => rw [List.append_nil, List.append_nil]
  | cons c tail ih =>
    have hrest : withoutCxx11 tail = tail :=
      ih (fun x hx => htail x (List.mem_cons_of_mem c hx)) []
    rw [withoutCxx11_append_cons (htail c (List.mem_cons_self ..)), hrest]

/-- Text without the inline namespace. -/
def Clean (s : Str) : Prop := withoutCxx11 s = s

theorem replaceAllLoop_of_notMem {src s : Str} {c : Char} (dst : Str) (hc : c ∈ src) (h : c ∉ s) :
    replaceAllLoop src dst 0 s = s := by
  induction s with
  | nil => rfl
  | cons x s ih =>
    have hpre : ¬ src <+: x :: s := fun hpre => h (hpre.subset hc)
    rw [replaceAllLoop, if_neg hpre, ih fun hmem => h (List.mem_cons_of_mem x hmem)]

theorem clean_of_notMem {s : Str} (h : 'x' ∉ s) : Clean s := by
  rw [Clean, withoutCxx11, replaceAll, if_neg (by decide)]
  exact replaceAllLoop_of_notMem _ (by decide) h

theorem Clean.append_cons {a b : Str} (ha : Clean a) (hb : Clean b) {c : Char}
    (hc : inCxx11 c = false) : Clean (a ++ c :: b) := by
  rw [Clean, withoutCxx11_append_cons hc, ha, hb]

theorem Clean.append {s tail : Str} (hs : Clean s) (htail : ∀ c ∈ tail, inCxx11 c = false) :
    Clean (s ++ tail) := by
  rw [Clean, withoutCxx11_append htail, hs]

theorem Clean.append_left {s blanks : Str} (hs : Clean s)
    (hblanks : ∀ c ∈ blanks, inCxx11 c = false) : Clean (blanks ++ s) := by
  induction blanks with
  | nil => exact hs
  | cons c blanks ih =>
    have hnil : Clean [] := clean_of_notMem List.not_mem_nil
    exact hnil.append_cons (ih fun x hx => hblanks x (List.mem_cons_of_mem c hx))
      (hblanks c (List.mem_cons_self ..))

/-! ## Blanks -/

/-- Nothing is taken off a tidy name. -/
structure Tidy (s : Str) : Prop where
  ne_nil : s ≠ []
  head : ∀ c ∈ s.head?, isWs c = false
  last : ∀ c ∈ s.getLast?, isTail c = false

theorem tidy_of_all {s : Str} (hne : s ≠ []) (hhead : s.head?.all (fun c => !isWs c) = true)
    (hlast : s.getLast?.all (fun c => !isTail c) = true) : Tidy s where
  ne_nil := hne
  head := by
    intro c hc
    rw [Option.mem_def.mp hc] at hhead
    exact Bool.not_eq_true' _ ▸ hhead
  last := by
    intro c hc
    rw [Option.mem_def.mp hc] at hlast
    exact Bool.not_eq_true' _ ▸ hlast

theorem rdropWhile_append {p : Char → Bool} {s : Str} (hs : s ≠ [])
    (hlast : ∀ c ∈ s.getLast?, p c = false) (tail : Str) :
    (s ++ tail).rdropWhile p = s ++ tail.rdropWhile p := by
  obtain ⟨s, c, rfl⟩ := (List.eq_nil_or_concat' s).resolve_left hs
  have hc : p c = false := hlast c (by rw [List.getLast?_concat]; rfl)
  induction tail using List.reverseRecOn with
  | nil =>
    rw [List.append_nil, List.rdropWhile_nil, List.append_nil, List.rdropWhile_concat_neg _ _ _]
    rw [hc]
    exact Bool.false_ne_true
  | append_singleton tail x ih =>
    by_cases hx : p x = true
    · rw [← List.append_assoc, List.rdropWhile_concat_pos _ _ _ hx, ih,
        List.rdropWhile_concat_pos _ _ _ hx]
    · rw [← List.append_assoc, List.rdropWhile_concat_neg _ _ _ hx,
        List.rdropWhile_concat_neg _ _ _ hx, List.append_assoc]

theorem rdropWhile_of_forall {p : Char → Bool} {tail : Str} (h : ∀ c ∈ tail, p c = true) :
    tail.rdropWhile p = [] := List.rdropWhile_eq_nil_iff.mpr h

theorem isWs_of_isTail {c : Char} (h : isTail c = false) : isWs c = false :=
  (Bool.or_eq_false_iff.mp h).2

theorem isTail_of_isWs {c : Char} (h : isWs c = true) : isTail c = true := by
  rw [isTail, h, Bool.or_true]

theorem not_inCxx11_of_isTail {c : Char} (h : isTail c = true) : inCxx11 c = false := by
  simp only [isTail, isWs, Bool.or_eq_true, decide_eq_true_eq] at h
  rcases h with rfl | ((rfl | rfl) | rfl) | rfl <;> decide

theorem Tidy.strip_append {s : Str} (hs : Tidy s) {blanks : Str}
    (hblanks : ∀ c ∈ blanks, isWs c = true) (tail : Str) :
    strip isWs (blanks ++ (s ++ tail)) = s ++ tail.rdropWhile isWs := by
  obtain ⟨c, t, rfl⟩ := List.exists_cons_of_ne_nil hs.ne_nil
  have hc : ¬ isWs c = true := by
    rw [hs.head c rfl]
    exact Bool.false_ne_true
  have hdrop : (blanks ++ (c :: t ++ tail)).dropWhile isWs = c :: t ++ tail := by
    rw [List.dropWhile_append_of_pos hblanks, List.cons_append, List.dropWhile_cons_of_neg hc]
  rw [strip, hdrop]
  exact rdropWhile_append hs.ne_nil (fun x hx => isWs_of_isTail (hs.last x hx)) tail

/-- Blanks around a name do not matter, nor do references behind it. -/
theorem normalize_eq {s blanks tail : Str} (hs : Tidy s) (hout : Tidy (withoutCxx11 s))
    (hblanks : ∀ c ∈ blanks, isWs c = true) (htail : ∀ c ∈ tail, isTail c = true) :
    normalize (blanks ++ (s ++ tail)) = withoutCxx11 s := by
  have htail' : ∀ c ∈ tail.rdropWhile isWs, isTail c = true := fun c hc =>
    htail c ((List.rdropWhile_prefix isWs tail).subset hc)
  have hreplace : withoutCxx11 (s ++ tail.rdropWhile isWs) =
      withoutCxx11 s ++ tail.rdropWhile isWs :=
    withoutCxx11_append (fun c hc => not_inCxx11_of_isTail (htail' c hc)) s
  have hdrop : (withoutCxx11 s ++ tail.rdropWhile isWs).rdropWhile isTail = withoutCxx11 s := by
    rw [rdropWhile_append hout.ne_nil hout.last, rdropWhile_of_forall htail', List.append_nil]
  have hstrip : strip isWs (withoutCxx11 s) = withoutCxx11 s := by
    have hnil : ∀ c ∈ ([] : Str), isWs c = true := fun c hc => absurd hc List.not_mem_nil
    have h := hout.strip_append hnil []
    rwa [List.rdropWhile_nil, List.append_nil] at h
  show strip isWs ((withoutCxx11 (strip isWs (blanks ++ (s ++ tail)))).rdropWhile isTail) = _
  rw [hs.strip_append hblanks, hreplace, hdrop, hstrip]

/-! ## Brackets -/

variable {d e f : ℤ} {s t : Str}

/-- Text that `split_top` passes without a cut, from a depth to a depth. -/
def Passed (d e : ℤ) (s : Str) : Prop :=
  ∀ cur rest, splitTopLoop d false cur (s ++ rest) = splitTopLoop e false (cur ++ s) rest

theorem Passed.nil : Passed d d [] := fun cur rest => by rw [List.nil_append, List.append_nil]

theorem Passed.append (hs : Passed d e s) (ht : Passed e f t) : Passed d f (s ++ t) :=
  fun cur rest => by rw [List.append_assoc, hs, ht, List.append_assoc]

/-- A character that `split_top` does not look for. -/
def isFlat (c : Char) : Bool := !([',', '<', '>', '(', ')', '"'].contains c)

theorem passed_char {c : Char} (hquote : c ≠ '"') (hcut : ¬ (c = ',' ∧ nextDepth d c = 0)) :
    Passed d (nextDepth d c) [c] := by
  intro cur rest
  rw [List.singleton_append, splitTopLoop, if_neg Bool.false_ne_true, if_neg hquote, if_neg hcut]

theorem passed_flat (h : ∀ c ∈ s, isFlat c = true) : Passed d d s := by
  induction s with
  | nil => exact Passed.nil
  | cons c s ih =>
    have hc := h c (List.mem_cons_self ..)
    simp only [isFlat, Bool.not_eq_true', List.contains_eq_mem, decide_eq_false_iff_not,
      List.mem_cons, List.not_mem_nil, or_false, not_or] at hc
    obtain ⟨hcomma, hopen, hclose, hparen, hparen', hquote⟩ := hc
    have hdepth : nextDepth d c = d := by
      rw [nextDepth, if_neg (not_or.mpr ⟨hopen, hparen⟩), if_neg (not_or.mpr ⟨hclose, hparen'⟩)]
    have hfirst : Passed d (nextDepth d c) [c] := passed_char hquote fun hcut => hcomma hcut.1
    rw [hdepth] at hfirst
    exact hfirst.append (ih fun x hx => h x (List.mem_cons_of_mem c hx))

theorem passed_open : Passed d (d + 1) ['<'] := passed_char (by decide) fun h => by cases h.1

theorem passed_close : Passed (d + 1) d ['>'] := by
  have h : Passed (d + 1) (nextDepth (d + 1) '>') ['>'] :=
    passed_char (by decide) fun h => by cases h.1
  have hdepth : nextDepth (d + 1) '>' = d := Int.add_sub_cancel d 1
  rwa [hdepth] at h

theorem passed_comma (hd : 0 < d) : Passed d d [','] := passed_char (by decide) fun h => hd.ne' h.2

/-- Text without a comma outside its own brackets. -/
def Inert (s : Str) : Prop := ∀ d : ℤ, 0 ≤ d → Passed d d s

/-- Text that may stand between brackets. -/
def Bracketed (s : Str) : Prop := ∀ d : ℤ, 0 < d → Passed d d s

theorem Inert.bracketed (h : Inert s) : Bracketed s := fun d hd => h d hd.le

theorem inert_of_flat (h : ∀ c ∈ s, isFlat c = true) : Inert s := fun _ _ => passed_flat h

theorem inert_of_all (h : s.all isFlat = true) : Inert s := inert_of_flat (List.all_eq_true.mp h)

theorem Inert.append (hs : Inert s) (ht : Inert t) : Inert (s ++ t) :=
  fun d hd => (hs d hd).append (ht d hd)

theorem Bracketed.append (hs : Bracketed s) (ht : Bracketed t) : Bracketed (s ++ t) :=
  fun d hd => (hs d hd).append (ht d hd)

theorem Bracketed.comma (ht : Bracketed t) : Bracketed (',' :: t) :=
  fun d hd => (passed_comma hd).append (ht d hd)

/-- What stands in brackets does not cut the text around it. -/
theorem Bracketed.brackets (hs : Bracketed s) : Inert ('<' :: (s ++ ['>'])) := by
  intro d hd
  exact passed_open.append ((hs (d + 1) (Int.lt_add_one_of_le hd)).append passed_close)

theorem splitTop_of_inert (h : Inert s) : splitTop s = [s] := by
  have h' := h 0 (Int.le_refl 0) [] []
  rwa [List.append_nil, List.nil_append] at h'

/-- The first cut. -/
theorem splitTop_append_comma (h : Inert s) (t : Str) :
    splitTop (s ++ ',' :: t) = s :: splitTop t := by
  have hcut : ',' = ',' ∧ nextDepth 0 ',' = 0 := ⟨rfl, rfl⟩
  rw [splitTop, h 0 (Int.le_refl 0), splitTopLoop, if_neg Bool.false_ne_true,
    if_neg (by decide : ¬ ',' = '"'), if_pos hcut]
  rfl

/-! ## Views -/

theorem vector_open (inner : Str) :
    "std::vector<".toList ++ inner = "std::vector".toList ++ '<' :: inner := by simp

theorem array_open (inner : Str) :
    "std::array<".toList ++ inner = "std::array".toList ++ '<' :: inner := by simp

theorem notMem_of_mem_knownNames : ∀ p ∈ knownNames, '<' ∉ p.1 := by decide

/-- A name with brackets is taken apart, unless it is that of a string. -/
theorem leafName?_eq_none (h : '<' ∈ s) (hstring : ¬ "std::basic_string<".toList <+: s) :
    leafName? s = none := by
  have hlookup : knownNames.lookup s = none := by
    rw [List.lookup_eq_none_iff]
    intro p hp
    rw [bne_iff_ne]
    rintro rfl
    exact notMem_of_mem_knownNames p hp h
  rw [leafName?, hlookup, if_neg hstring]
  rfl

theorem substr_append (pre inner post : Str) :
    substr (pre ++ (inner ++ post)) pre.length inner.length = inner := by
  rw [substr, List.drop_left, List.take_left]

theorem typeView_vector (inner : Str) :
    typeView ("std::vector<".toList ++ (inner ++ ['>'])) = .vector ((splitTop inner).headD []) := by
  have hleaf : leafName? ("std::vector<".toList ++ (inner ++ ['>'])) = none :=
    leafName?_eq_none (List.mem_append_left _ (by decide)) (by simp)
  have hlast : ("std::vector<".toList ++ (inner ++ ['>'])).getLast? = some '>' := by
    rw [← List.append_assoc, List.getLast?_concat]
  have hlength : ("std::vector<".toList ++ (inner ++ ['>'])).length - 13 = inner.length := by
    simp
  have hsub := substr_append "std::vector<".toList inner ['>']
  rw [typeView, hleaf, hlength]
  dsimp only
  rw [if_pos ⟨List.prefix_append _ _, hlast⟩]
  exact congrArg (fun t => TypeView.vector ((splitTop t).headD [])) hsub

theorem typeView_array {inner element size : Str} (hinner : splitTop inner = [element, size]) :
    typeView ("std::array<".toList ++ (inner ++ ['>'])) =
      .array element ((strip isWs size).rdropWhile fun c => c = 'u' || c = 'l') := by
  have hleaf : leafName? ("std::array<".toList ++ (inner ++ ['>'])) = none :=
    leafName?_eq_none (List.mem_append_left _ (by decide)) (by simp)
  have hlast : ("std::array<".toList ++ (inner ++ ['>'])).getLast? = some '>' := by
    rw [← List.append_assoc, List.getLast?_concat]
  have hlength : ("std::array<".toList ++ (inner ++ ['>'])).length - 12 = inner.length := by
    simp
  have hsub : substr ("std::array<".toList ++ (inner ++ ['>'])) 11 inner.length = inner :=
    substr_append "std::array<".toList inner ['>']
  have hvector : ¬ "std::vector<".toList <+: "std::array<".toList ++ (inner ++ ['>']) := by simp
  rw [typeView, hleaf, hlength, hsub, hinner]
  dsimp only
  rw [if_neg fun h => hvector h.1, if_pos ⟨List.prefix_append _ _, hlast, rfl⟩]
  rfl

/-! ## Spellings -/

end OpDetail

/-- A type over the types of its leaves. -/
inductive TypeExpr (α : Type) where
  | leaf (a : α)
  | vector (element : TypeExpr α)
  | array (element : TypeExpr α) (size : ℕ)

namespace TypeExpr

variable {α : Type}

/-- The canonical name, with the names of the leaves. -/
def print (name : α → Str) : TypeExpr α → Str
  | leaf a => name a
  | vector t => "std::vector<".toList ++ (t.print name ++ ['>'])
  | array t n => "std::array<".toList ++ (t.print name ++ ", ".toList ++ Nat.toDigits 10 n ++ ['>'])

variable (name : α → Str) (t : TypeExpr α)

@[simp] theorem print_leaf (a : α) : (leaf a).print name = name a := rfl

@[simp] theorem print_vector :
    (vector t).print name = "std::vector<".toList ++ (t.print name ++ ['>']) := rfl

@[simp] theorem print_array (n : ℕ) : (array t n).print name =
    "std::array<".toList ++ (t.print name ++ ", ".toList ++ Nat.toDigits 10 n ++ ['>']) := rfl

end TypeExpr

namespace OpDetail

/-- A name that is not taken apart. -/
structure IsLeaf (s name : Str) : Prop where
  tidy : Tidy s
  clean : Clean s
  inert : Inert s
  view : typeView s = .name name

/-- What may stand behind the element of a vector: nothing, or more arguments. -/
structure IsExtra (extra : Str) : Prop where
  head : ∀ c ∈ extra.head?, c = ','
  clean : Clean extra
  bracketed : Bracketed extra

/-- What every spelling is between its blanks, when the canonical name is `name`. -/
structure IsSpelling (s name : Str) : Prop where
  tidy : Tidy s
  clean : Clean s
  inert : Inert s
  canonical : canonicalType s = name

section Spelling

variable {name blanks tail size suffix extra b₁ b₂ b₃ b₄ : Str} {n : ℕ}

theorem normalize_of_tidy (hs : Tidy s) (hclean : Clean s)
    (hblanks : ∀ c ∈ blanks, isWs c = true) (htail : ∀ c ∈ tail, isTail c = true) :
    normalize (blanks ++ (s ++ tail)) = s := by
  have hout : Tidy (withoutCxx11 s) := by rwa [hclean]
  rw [normalize_eq hs hout hblanks htail, hclean]

theorem normalize_self (hs : Tidy s) (hclean : Clean s) : normalize s = s := by
  have hnil : ∀ (p : Char → Bool), ∀ c ∈ ([] : Str), p c = true :=
    fun _ c hc => absurd hc List.not_mem_nil
  have h := normalize_of_tidy hs hclean (hnil isWs) (hnil isTail)
  rwa [List.append_nil, List.nil_append] at h

/-- Blanks around a spelling do not matter, nor do references behind it. -/
theorem IsSpelling.around (h : IsSpelling s name) (hblanks : ∀ c ∈ blanks, isWs c = true)
    (htail : ∀ c ∈ tail, isTail c = true) : canonicalType (blanks ++ (s ++ tail)) = name := by
  rw [← h.canonical]
  apply canonicalType_congr
  rw [normalize_of_tidy h.tidy h.clean hblanks htail, normalize_self h.tidy h.clean]

theorem IsLeaf.spelling (h : IsLeaf s name) : IsSpelling s name where
  tidy := h.tidy
  clean := h.clean
  inert := h.inert
  canonical := canonicalType_of_name (by rw [normalize_self h.tidy h.clean, h.view])

theorem canonicalType_of_vector {element : Str} (h : typeView (normalize s) = .vector element) :
    canonicalType s = "std::vector<".toList ++ (canonicalType element ++ ['>']) := by
  rw [canonicalType]
  split <;> simp_all

theorem canonicalType_of_array {element : Str}
    (h : typeView (normalize s) = .array element size) :
    canonicalType s =
      "std::array<".toList ++ (canonicalType element ++ ", ".toList ++ size ++ ['>']) := by
  rw [canonicalType]
  split <;> simp_all

theorem tidy_template {pre : Str} (hpre : pre ≠ [])
    (hhead : pre.head?.all (fun c => !isWs c) = true) (inner : Str) :
    Tidy (pre ++ (inner ++ ['>'])) := by
  apply tidy_of_all (List.append_ne_nil_of_left_ne_nil hpre _)
  · rwa [List.head?_append_of_ne_nil _ hpre]
  · rw [← List.append_assoc, List.getLast?_concat]
    decide

theorem isFlat_of_isWs {c : Char} (h : isWs c = true) : isFlat c = true := by
  simp only [isWs, Bool.or_eq_true, decide_eq_true_eq] at h
  rcases h with ((rfl | rfl) | rfl) | rfl <;> decide

theorem not_inCxx11_of_isWs {c : Char} (h : isWs c = true) : inCxx11 c = false :=
  not_inCxx11_of_isTail (isTail_of_isWs h)

theorem Inert.padded (hs : Inert s) (hb₁ : ∀ c ∈ b₁, isWs c = true)
    (hb₂ : ∀ c ∈ b₂, isWs c = true) : Inert (b₁ ++ (s ++ b₂)) :=
  (inert_of_flat fun c hc => isFlat_of_isWs (hb₁ c hc)).append
    (hs.append (inert_of_flat fun c hc => isFlat_of_isWs (hb₂ c hc)))

theorem Clean.padded (hs : Clean s) (hb₁ : ∀ c ∈ b₁, isWs c = true)
    (hb₂ : ∀ c ∈ b₂, isWs c = true) : Clean (b₁ ++ (s ++ b₂)) :=
  (hs.append fun c hc => not_inCxx11_of_isWs (hb₂ c hc)).append_left
    fun c hc => not_inCxx11_of_isWs (hb₁ c hc)

theorem IsExtra.nil : IsExtra [] where
  head := fun _ hc => absurd hc (Option.not_mem_none _)
  clean := clean_of_notMem List.not_mem_nil
  bracketed := fun _ _ => Passed.nil

theorem IsExtra.clean_append (hextra : IsExtra extra) (hs : Clean s) : Clean (s ++ extra) := by
  cases extra with
  | nil => rwa [List.append_nil]
  | cons c t =>
    obtain rfl : c = ',' := hextra.head c rfl
    have ht : Clean t := by
      have h := hextra.clean
      rw [Clean, ← List.nil_append (',' :: t), withoutCxx11_append_cons (by decide)] at h
      exact List.cons_injective h
    exact hs.append_cons ht (by decide)

theorem IsExtra.headD_splitTop (hextra : IsExtra extra) (hs : Inert s) :
    (splitTop (s ++ extra)).headD [] = s := by
  cases extra with
  | nil => rw [List.append_nil, splitTop_of_inert hs]; rfl
  | cons c t =>
    obtain rfl : c = ',' := hextra.head c rfl
    rw [splitTop_append_comma hs]
    rfl

theorem IsSpelling.vector (h : IsSpelling s name) (hb₁ : ∀ c ∈ b₁, isWs c = true)
    (hb₂ : ∀ c ∈ b₂, isWs c = true) (hextra : IsExtra extra) :
    IsSpelling ("std::vector<".toList ++ (b₁ ++ (s ++ b₂) ++ extra ++ ['>']))
      ("std::vector<".toList ++ (name ++ ['>'])) := by
  have htidy : Tidy ("std::vector<".toList ++ (b₁ ++ (s ++ b₂) ++ extra ++ ['>'])) :=
    tidy_template (by decide) (by decide) _
  have hclean : Clean ("std::vector<".toList ++ (b₁ ++ (s ++ b₂) ++ extra ++ ['>'])) := by
    have hinner : Clean (b₁ ++ (s ++ b₂) ++ extra ++ ['>']) :=
      (hextra.clean_append (h.clean.padded hb₁ hb₂)).append (not_inCxx11_of_all (by decide))
    have hname : Clean "std::vector".toList := clean_of_notMem (by decide)
    rw [vector_open]
    exact hname.append_cons hinner (by decide)
  have hinert : Inert ("std::vector<".toList ++ (b₁ ++ (s ++ b₂) ++ extra ++ ['>'])) := by
    have hname : Inert "std::vector".toList := inert_of_all (by decide)
    rw [vector_open]
    exact hname.append ((h.inert.padded hb₁ hb₂).bracketed.append hextra.bracketed).brackets
  refine ⟨htidy, hclean, hinert, ?_⟩
  have hview := typeView_vector (b₁ ++ (s ++ b₂) ++ extra)
  rw [hextra.headD_splitTop (h.inert.padded hb₁ hb₂)] at hview
  rw [← normalize_self htidy hclean] at hview
  rw [canonicalType_of_vector hview, h.around hb₁ fun c hc => isTail_of_isWs (hb₂ c hc)]

theorem isDigit_of_mem_size {c : Char} (hc : c ∈ Nat.toDigits 10 n) : c.isDigit = true :=
  Nat.isDigit_of_mem_toDigits (by decide) (by decide) hc

/-- A size with its suffix is what the numeral behind the comma is stripped to. -/
theorem strip_size (hb₃ : ∀ c ∈ b₃, isWs c = true) (hb₄ : ∀ c ∈ b₄, isWs c = true)
    (hsuffix : ∀ c ∈ suffix, c = 'u' ∨ c = 'l') :
    (strip isWs (b₃ ++ (Nat.toDigits 10 n ++ suffix ++ b₄))).rdropWhile
      (fun c => c = 'u' || c = 'l') = Nat.toDigits 10 n := by
  have hdigit : ∀ {c : Char}, c.isDigit = true → isTail c = false ∧
      (decide (c = 'u') || decide (c = 'l')) = false := by
    intro c hc
    have hne : ∀ x : Char, x.isDigit = false → c ≠ x := by
      rintro x hx rfl
      exact Bool.noConfusion (hc.symm.trans hx)
    constructor
    · simp [isTail, isWs, hne '&' rfl, hne ' ' rfl, hne '\t' rfl, hne '\n' rfl, hne '\r' rfl]
    · simp [hne 'u' rfl, hne 'l' rfl]
  have hletter : ∀ c ∈ suffix, isTail c = false := by
    intro c hc
    rcases hsuffix c hc with rfl | rfl <;> decide
  have htail : ∀ c ∈ Nat.toDigits 10 n ++ suffix, isTail c = false := by
    intro c hc
    rcases List.mem_append.mp hc with hc | hc
    · exact (hdigit (isDigit_of_mem_size hc)).1
    · exact hletter c hc
  have htidy : Tidy (Nat.toDigits 10 n ++ suffix) :=
    ⟨List.append_ne_nil_of_left_ne_nil Nat.toDigits_ne_nil _,
      fun c hc => isWs_of_isTail (htail c (List.mem_of_mem_head? hc)),
      fun c hc => htail c (List.mem_of_mem_getLast? hc)⟩
  have hlast : ∀ c ∈ (Nat.toDigits 10 n).getLast?, (decide (c = 'u') || decide (c = 'l')) = false :=
    fun c hc => (hdigit (isDigit_of_mem_size (List.mem_of_mem_getLast? hc))).2
  have hall : ∀ c ∈ suffix, (decide (c = 'u') || decide (c = 'l')) = true := by
    intro c hc
    rcases hsuffix c hc with rfl | rfl <;> decide
  rw [htidy.strip_append hb₃, rdropWhile_of_forall hb₄, List.append_nil,
    rdropWhile_append Nat.toDigits_ne_nil hlast, rdropWhile_of_forall hall, List.append_nil]

theorem IsSpelling.array (h : IsSpelling s name) (hb₁ : ∀ c ∈ b₁, isWs c = true)
    (hb₂ : ∀ c ∈ b₂, isWs c = true) (hb₃ : ∀ c ∈ b₃, isWs c = true)
    (hb₄ : ∀ c ∈ b₄, isWs c = true) (hsuffix : ∀ c ∈ suffix, c = 'u' ∨ c = 'l') :
    IsSpelling ("std::array<".toList ++
        (b₁ ++ (s ++ b₂) ++ ',' :: (b₃ ++ (Nat.toDigits 10 n ++ suffix ++ b₄)) ++ ['>']))
      ("std::array<".toList ++ (name ++ ", ".toList ++ Nat.toDigits 10 n ++ ['>'])) := by
  generalize hsize : b₃ ++ (Nat.toDigits 10 n ++ suffix ++ b₄) = size
  have hchars : ∀ c ∈ size, isFlat c = true ∧ c ≠ 'x' := by
    subst hsize
    have hws : ∀ {c : Char}, isWs c = true → isFlat c = true ∧ c ≠ 'x' := fun hc =>
      ⟨isFlat_of_isWs hc, by rintro rfl; exact absurd hc (by decide)⟩
    intro c hc
    simp only [List.mem_append] at hc
    rcases hc with hc | (hc | hc) | hc
    · exact hws (hb₃ c hc)
    · have hne : ∀ x : Char, x.isDigit = false → c ≠ x := by
        rintro x hx rfl
        exact Bool.noConfusion ((isDigit_of_mem_size hc).symm.trans hx)
      exact ⟨by simp [isFlat, hne ',' rfl, hne '<' rfl, hne '>' rfl, hne '(' rfl, hne ')' rfl,
        hne '"' rfl], hne 'x' rfl⟩
    · rcases hsuffix c hc with rfl | rfl <;> decide
    · exact hws (hb₄ c hc)
  have hflat : Inert size := inert_of_flat fun c hc => (hchars c hc).1
  have hsizeClean : Clean size := clean_of_notMem fun hmem => (hchars 'x' hmem).2 rfl
  have htidy : Tidy ("std::array<".toList ++ (b₁ ++ (s ++ b₂) ++ ',' :: size ++ ['>'])) :=
    tidy_template (by decide) (by decide) _
  have hclean : Clean ("std::array<".toList ++ (b₁ ++ (s ++ b₂) ++ ',' :: size ++ ['>'])) := by
    have hinner : Clean (b₁ ++ (s ++ b₂) ++ ',' :: size ++ ['>']) :=
      ((h.clean.padded hb₁ hb₂).append_cons hsizeClean (by decide)).append
        (not_inCxx11_of_all (by decide))
    have hname : Clean "std::array".toList := clean_of_notMem (by decide)
    rw [array_open]
    exact hname.append_cons hinner (by decide)
  have hinert : Inert ("std::array<".toList ++ (b₁ ++ (s ++ b₂) ++ ',' :: size ++ ['>'])) := by
    have hname : Inert "std::array".toList := inert_of_all (by decide)
    rw [array_open]
    exact hname.append ((h.inert.padded hb₁ hb₂).bracketed.append hflat.bracketed.comma).brackets
  refine ⟨htidy, hclean, hinert, ?_⟩
  have hsplit : splitTop (b₁ ++ (s ++ b₂) ++ ',' :: size) = [b₁ ++ (s ++ b₂), size] := by
    rw [splitTop_append_comma (h.inert.padded hb₁ hb₂), splitTop_of_inert hflat]
  have hview := typeView_array hsplit
  rw [← hsize, strip_size hb₃ hb₄ hsuffix, hsize, ← normalize_self htidy hclean] at hview
  rw [canonicalType_of_array hview, h.around hb₁ fun c hc => isTail_of_isWs (hb₂ c hc)]

end Spelling

end OpDetail

/-! ## The spellings of a type -/

/-- `s` is a spelling of `t` in the source of an instrument, with those of the leaves. -/
inductive Declares {α : Type} (leaf : α → Str → Prop) : TypeExpr α → Str → Prop where
  | leaf {a : α} {s : Str} (h : leaf a s) : Declares leaf (.leaf a) s
  | vector {t : TypeExpr α} {s b₁ b₂ : Str} (h : Declares leaf t s)
    (hb₁ : ∀ c ∈ b₁, OpDetail.isWs c = true) (hb₂ : ∀ c ∈ b₂, OpDetail.isWs c = true) :
    Declares leaf (.vector t) ("std::vector<".toList ++ b₁ ++ s ++ b₂ ++ ['>'])
  | array {t : TypeExpr α} {s b₁ b₂ b₃ b₄ : Str} (n : ℕ) (h : Declares leaf t s)
    (hb₁ : ∀ c ∈ b₁, OpDetail.isWs c = true) (hb₂ : ∀ c ∈ b₂, OpDetail.isWs c = true)
    (hb₃ : ∀ c ∈ b₃, OpDetail.isWs c = true) (hb₄ : ∀ c ∈ b₄, OpDetail.isWs c = true) :
    Declares leaf (.array t n)
      ("std::array<".toList ++ b₁ ++ s ++ b₂ ++ [','] ++ b₃ ++ Nat.toDigits 10 n ++ b₄ ++ ['>'])

/-- A host, by the size of its addresses. -/
inductive Host where
  | bits32
  | bits64
  deriving DecidableEq

namespace Host

/-- What gcc puts behind a number of type `size_t`. -/
def sizeSuffix : Host → Str
  | bits32 => ['u']
  | bits64 => ['u', 'l']

/-- The blank between two closing brackets. -/
def gap (s : Str) : Str := if s.getLast? = some '>' then [' '] else []

/-- `s` is how gcc writes `t`, with what it writes for the leaves. -/
inductive Demangles (host : Host) {α : Type} (leaf : α → Str → Prop) : TypeExpr α → Str → Prop where
  | leaf {a : α} {s : Str} (h : leaf a s) : Demangles host leaf (.leaf a) s
  | vector {t : TypeExpr α} {s : Str} (h : Demangles host leaf t s) :
    Demangles host leaf (.vector t)
      ("std::vector<".toList ++ s ++ ", std::allocator<".toList ++ s ++ gap s ++ "> >".toList)
  | array {t : TypeExpr α} {s : Str} (n : ℕ) (h : Demangles host leaf t s) :
    Demangles host leaf (.array t n)
      ("std::array<".toList ++ s ++ ", ".toList ++ Nat.toDigits 10 n ++ host.sizeSuffix ++ ['>'])

end Host

/-- The types without arguments. -/
inductive LeafType where
  | bool | uint8 | int8 | uint16 | int16 | uint32 | int32 | uint64 | int64
  | float | double | string

/-- The name of a type without arguments in the source of an instrument. -/
def LeafType.sourceName : LeafType → Str
  | bool => "bool".toList
  | uint8 => "uint8_t".toList
  | int8 => "int8_t".toList
  | uint16 => "uint16_t".toList
  | int16 => "int16_t".toList
  | uint32 => "uint32_t".toList
  | int32 => "int32_t".toList
  | uint64 => "uint64_t".toList
  | int64 => "int64_t".toList
  | float => "float".toList
  | double => "double".toList
  | string => "std::string".toList

namespace Host

/-- What gcc calls an integer of 64 bits, behind the sign: `long` is one where addresses have as
many bits. -/
def names64 : Host → List Str
  | bits32 => ["long long".toList]
  | bits64 => ["long".toList, "long long".toList]

/-- What gcc calls a type without arguments. -/
def demangledNames (host : Host) : LeafType → List Str
  | .bool => ["bool".toList]
  | .uint8 => ["unsigned char".toList]
  | .int8 => ["signed char".toList]
  | .uint16 => ["unsigned short".toList]
  | .int16 => ["short".toList]
  | .uint32 => ["unsigned int".toList]
  | .int32 => ["int".toList]
  | .uint64 => host.names64.map ("unsigned ".toList ++ ·)
  | .int64 => host.names64
  | .float => ["float".toList]
  | .double => ["double".toList]
  | .string =>
    ["std::__cxx11::basic_string<char, std::char_traits<char>, std::allocator<char> >".toList,
      "std::basic_string<char, std::char_traits<char>, std::allocator<char> >".toList]

end Host

namespace OpDetail

/-- What makes a name a leaf that has no brackets. -/
abbrev IsFlatLeaf (s name : Str) : Prop :=
  s ≠ [] ∧ s.head?.all (fun c => !isWs c) = true ∧ s.getLast?.all (fun c => !isTail c) = true ∧
    'x' ∉ s ∧ s.all isFlat = true ∧ typeView s = .name name

theorem IsFlatLeaf.isLeaf {s name : Str} (h : IsFlatLeaf s name) : IsLeaf s name where
  tidy := tidy_of_all h.1 h.2.1 h.2.2.1
  clean := clean_of_notMem h.2.2.2.1
  inert := inert_of_flat (List.all_eq_true.mp h.2.2.2.2.1)
  view := h.2.2.2.2.2

theorem isLeaf_sourceName (a : LeafType) : IsLeaf a.sourceName a.sourceName := by
  apply IsFlatLeaf.isLeaf
  cases a <;> decide

theorem isLeaf_basicString :
    IsLeaf "std::basic_string<char, std::char_traits<char>, std::allocator<char> >".toList
      "std::string".toList where
  tidy := tidy_of_all (by decide) (by decide) (by decide)
  clean := clean_of_notMem (by decide)
  inert := by
    have hshape :
        "std::basic_string<char, std::char_traits<char>, std::allocator<char> >".toList =
          "std::basic_string".toList ++ '<' :: ("char".toList ++
            ',' :: (" std::char_traits".toList ++ '<' :: ("char".toList ++ ['>'])) ++
            ',' :: (" std::allocator".toList ++ '<' :: ("char".toList ++ ['>']) ++ [' ']) ++
            ['>']) := by simp
    have hname : Inert "std::basic_string".toList := inert_of_all (by decide)
    have hchar : Inert "char".toList := inert_of_all (by decide)
    have htraits : Inert " std::char_traits".toList := inert_of_all (by decide)
    have hallocator : Inert " std::allocator".toList := inert_of_all (by decide)
    have hblank : Inert [' '] := inert_of_all (by decide)
    have harg := hchar.bracketed.brackets
    rw [hshape]
    exact hname.append ((hchar.bracketed.append (htraits.append harg).bracketed.comma).append
      ((hallocator.append harg).append hblank).bracketed.comma).brackets
  view := by decide

theorem withoutCxx11_basicString :
    withoutCxx11
        "std::__cxx11::basic_string<char, std::char_traits<char>, std::allocator<char> >".toList =
      "std::basic_string<char, std::char_traits<char>, std::allocator<char> >".toList := by
  have hname : withoutCxx11 "std::__cxx11::basic_string".toList = "std::basic_string".toList := by
    decide
  have hargs : Clean "char, std::char_traits<char>, std::allocator<char> >".toList :=
    clean_of_notMem (by decide)
  have hopen : inCxx11 '<' = false := by decide
  have hshape : ∀ name : Str,
      name ++ "<char, std::char_traits<char>, std::allocator<char> >".toList =
        name ++ '<' :: "char, std::char_traits<char>, std::allocator<char> >".toList := by
    intro name
    simp
  have hcxx11 :
      "std::__cxx11::basic_string<char, std::char_traits<char>, std::allocator<char> >".toList =
        "std::__cxx11::basic_string".toList ++
        "<char, std::char_traits<char>, std::allocator<char> >".toList := by simp
  have hplain : "std::basic_string<char, std::char_traits<char>, std::allocator<char> >".toList =
      "std::basic_string".toList ++
        "<char, std::char_traits<char>, std::allocator<char> >".toList := by simp
  rw [hcxx11, hplain, hshape, hshape, withoutCxx11_append_cons hopen, hname, hargs]

theorem isLeaf_demangled {host : Host} {a : LeafType} {s : Str} (h : s ∈ host.demangledNames a) :
    Tidy s ∧ IsLeaf (withoutCxx11 s) a.sourceName := by
  have hflat : ∀ {s name : Str}, IsFlatLeaf s name → Tidy s ∧ IsLeaf (withoutCxx11 s) name := by
    intro s name h
    have hleaf := h.isLeaf
    rw [hleaf.clean]
    exact ⟨hleaf.tidy, hleaf⟩
  cases a with
  | string =>
    rcases List.mem_pair.mp h with rfl | rfl
    · rw [withoutCxx11_basicString]
      exact ⟨tidy_of_all (by decide) (by decide) (by decide), isLeaf_basicString⟩
    · rw [isLeaf_basicString.clean]
      exact ⟨isLeaf_basicString.tidy, isLeaf_basicString⟩
  | uint64 | int64 =>
    cases host with
    | bits32 =>
      obtain rfl := List.mem_singleton.mp h
      exact hflat (by decide)
    | bits64 => rcases List.mem_pair.mp h with rfl | rfl <;> exact hflat (by decide)
  | _ =>
    obtain rfl := List.mem_singleton.mp h
    exact hflat (by decide)

/-- The allocator behind the element of a vector. -/
theorem isExtra_allocator {w name g : Str} (h : IsSpelling w name)
    (hg : ∀ c ∈ g, isWs c = true) :
    IsExtra (", std::allocator<".toList ++ w ++ g ++ "> ".toList) where
  head := by
    rintro c ⟨⟩
    rfl
  clean := by
    have hshape : ", std::allocator<".toList ++ w ++ g ++ "> ".toList =
        ", std::allocator".toList ++ '<' :: (w ++ g ++ "> ".toList) := by simp
    have hname : Clean ", std::allocator".toList := clean_of_notMem (by decide)
    have hargs : Clean (w ++ g ++ "> ".toList) :=
      (h.clean.append fun c hc => not_inCxx11_of_isWs (hg c hc)).append
        (not_inCxx11_of_all (by decide))
    rw [hshape]
    exact hname.append_cons hargs (by decide)
  bracketed := by
    have hshape : ", std::allocator<".toList ++ w ++ g ++ "> ".toList =
        ',' :: (" std::allocator".toList ++ ('<' :: (w ++ g ++ ['>']) ++ [' '])) := by simp
    have hname : Inert " std::allocator".toList := inert_of_all (by decide)
    have hargs : Inert (w ++ g) :=
      h.inert.append (inert_of_flat fun c hc => isFlat_of_isWs (hg c hc))
    have hblank : Inert [' '] := inert_of_all (by decide)
    rw [hshape]
    exact (hname.append (hargs.bracketed.brackets.append hblank)).bracketed.comma

theorem isWs_of_mem_gap {s : Str} : ∀ c ∈ Host.gap s, isWs c = true := by
  rw [Host.gap]
  split_ifs <;> exact List.all_eq_true.mp (by decide)

theorem withoutCxx11_vector {g : Str} (hg : ∀ c ∈ g, isWs c = true) (s : Str) :
    withoutCxx11
        ("std::vector<".toList ++ s ++ ", std::allocator<".toList ++ s ++ g ++ "> >".toList) =
      "std::vector<".toList ++ withoutCxx11 s ++ ", std::allocator<".toList ++ withoutCxx11 s ++
        g ++ "> >".toList := by
  have hshape : ∀ w : Str,
      "std::vector<".toList ++ w ++ ", std::allocator<".toList ++ w ++ g ++ "> >".toList =
        "std::vector".toList ++ '<' :: (w ++ ',' :: (" std::allocator".toList ++
          '<' :: (w ++ g ++ "> >".toList))) := by
    intro w
    simp
  have hvector : Clean "std::vector".toList := clean_of_notMem (by decide)
  have hallocator : Clean " std::allocator".toList := clean_of_notMem (by decide)
  have hopen : inCxx11 '<' = false := by decide
  have hcomma : inCxx11 ',' = false := by decide
  have hclose : ∀ c ∈ "> >".toList, inCxx11 c = false := not_inCxx11_of_all (by decide)
  rw [hshape, hshape, withoutCxx11_append_cons hopen, withoutCxx11_append_cons hcomma,
    withoutCxx11_append_cons hopen, withoutCxx11_append hclose,
    withoutCxx11_append fun c hc => not_inCxx11_of_isWs (hg c hc), hvector, hallocator]

theorem withoutCxx11_array {size : Str} (hsize : 'x' ∉ size) (s : Str) :
    withoutCxx11 ("std::array<".toList ++ s ++ ',' :: size) =
      "std::array<".toList ++ withoutCxx11 s ++ ',' :: size := by
  have hshape : ∀ w : Str, "std::array<".toList ++ w ++ ',' :: size =
      "std::array".toList ++ '<' :: (w ++ ',' :: size) := by
    intro w
    simp
  have harray : Clean "std::array".toList := clean_of_notMem (by decide)
  have hopen : inCxx11 '<' = false := by decide
  have hcomma : inCxx11 ',' = false := by decide
  rw [hshape, hshape, withoutCxx11_append_cons hopen, withoutCxx11_append_cons hcomma, harray,
    clean_of_notMem hsize]

theorem sizeSuffix_spec (host : Host) : ∀ c ∈ host.sizeSuffix, c = 'u' ∨ c = 'l' := by
  cases host <;> simp [Host.sizeSuffix]

theorem x_notMem_size (host : Host) (n : ℕ) :
    'x' ∉ " ".toList ++ Nat.toDigits 10 n ++ host.sizeSuffix ++ ['>'] := by
  have hdigits : 'x' ∉ Nat.toDigits 10 n := fun h => absurd (isDigit_of_mem_size h) (by decide)
  have hsuffix : 'x' ∉ host.sizeSuffix := by cases host <;> decide
  simp [hdigits, hsuffix]

section Leaves

variable {α : Type} {leaf : α → Str → Prop} {name : α → Str} {t : TypeExpr α} {s : Str}

/-- What gcc writes is a spelling, but for the inline namespace. -/
theorem spelling_of_demangles {host : Host} (h : host.Demangles leaf t s)
    (hleaf : ∀ a s, leaf a s → Tidy s ∧ IsLeaf (withoutCxx11 s) (name a)) :
    Tidy s ∧ IsSpelling (withoutCxx11 s) (t.print name) := by
  have hnil : ∀ c ∈ ([] : Str), isWs c = true := fun c hc => absurd hc List.not_mem_nil
  induction h with
  | leaf h => exact ⟨(hleaf _ _ h).1, (hleaf _ _ h).2.spelling⟩
  | @vector t s h ih =>
    have hshape : ∀ w : Str, "std::vector<".toList ++ w ++ ", std::allocator<".toList ++ w ++
        Host.gap s ++ "> >".toList = "std::vector<".toList ++ ([] ++ (w ++ []) ++
          (", std::allocator<".toList ++ w ++ Host.gap s ++ "> ".toList) ++ ['>']) := by
      intro w
      simp
    rw [withoutCxx11_vector isWs_of_mem_gap, hshape, hshape]
    exact ⟨tidy_template (by decide) (by decide) _,
      ih.2.vector hnil hnil (isExtra_allocator ih.2 isWs_of_mem_gap)⟩
  | @array t s n h ih =>
    have hcons : ∀ w : Str, "std::array<".toList ++ w ++ ", ".toList ++ Nat.toDigits 10 n ++
        host.sizeSuffix ++ ['>'] = "std::array<".toList ++ w ++
          ',' :: (" ".toList ++ Nat.toDigits 10 n ++ host.sizeSuffix ++ ['>']) := by
      intro w
      simp
    have hshape : ∀ w : Str, "std::array<".toList ++ w ++
        ',' :: (" ".toList ++ Nat.toDigits 10 n ++ host.sizeSuffix ++ ['>']) =
          "std::array<".toList ++ ([] ++ (w ++ []) ++
            ',' :: (" ".toList ++ (Nat.toDigits 10 n ++ host.sizeSuffix ++ [])) ++ ['>']) := by
      intro w
      simp
    have hblank : ∀ c ∈ " ".toList, isWs c = true := List.all_eq_true.mp (by decide)
    rw [hcons, withoutCxx11_array (x_notMem_size host n), hshape, hshape]
    exact ⟨tidy_template (by decide) (by decide) _,
      ih.2.array hnil hnil hblank hnil (sizeSuffix_spec host)⟩

/-- The canonical name of what gcc writes. -/
theorem canonicalType_of_demangles {host : Host} (h : host.Demangles leaf t s)
    (hleaf : ∀ a s, leaf a s → Tidy s ∧ IsLeaf (withoutCxx11 s) (name a)) :
    canonicalType s = t.print name := by
  have hnil : ∀ (p : Char → Bool), ∀ c ∈ ([] : Str), p c = true :=
    fun _ c hc => absurd hc List.not_mem_nil
  obtain ⟨htidy, hspelling⟩ := spelling_of_demangles h hleaf
  have hnormalize := normalize_eq htidy hspelling.tidy (hnil isWs) (hnil isTail)
  rw [List.nil_append, List.append_nil] at hnormalize
  rw [← hspelling.canonical]
  apply canonicalType_congr
  rw [hnormalize, normalize_self hspelling.tidy hspelling.clean]

/-- What the source of an instrument has is a spelling. -/
theorem spelling_of_declares (h : Declares leaf t s)
    (hleaf : ∀ a s, leaf a s → IsLeaf s (name a)) : IsSpelling s (t.print name) := by
  induction h with
  | leaf h => exact (hleaf _ _ h).spelling
  | @vector t s b₁ b₂ h hb₁ hb₂ ih =>
    have hshape : "std::vector<".toList ++ b₁ ++ s ++ b₂ ++ ['>'] =
        "std::vector<".toList ++ (b₁ ++ (s ++ b₂) ++ [] ++ ['>']) := by simp
    rw [hshape]
    exact ih.vector hb₁ hb₂ IsExtra.nil
  | @array t s b₁ b₂ b₃ b₄ n h hb₁ hb₂ hb₃ hb₄ ih =>
    have hshape : "std::array<".toList ++ b₁ ++ s ++ b₂ ++ [','] ++ b₃ ++ Nat.toDigits 10 n ++
        b₄ ++ ['>'] = "std::array<".toList ++
          (b₁ ++ (s ++ b₂) ++ ',' :: (b₃ ++ (Nat.toDigits 10 n ++ [] ++ b₄)) ++ ['>']) := by simp
    rw [hshape]
    exact ih.array hb₁ hb₂ hb₃ hb₄ fun c hc => absurd hc List.not_mem_nil

end Leaves

/-- The canonical name is a spelling in the source. -/
theorem declares_print (t : TypeExpr LeafType) :
    Declares (fun a s => s = a.sourceName) t (t.print LeafType.sourceName) := by
  have hnil : ∀ c ∈ ([] : Str), isWs c = true := fun c hc => absurd hc List.not_mem_nil
  have hblank : ∀ c ∈ [' '], isWs c = true := List.all_eq_true.mp (by decide)
  induction t with
  | leaf a => exact Declares.leaf rfl
  | vector t ih =>
    have h := Declares.vector ih hnil hnil
    simpa using h
  | array t n ih =>
    have h := Declares.array n ih hnil hnil hblank hnil
    simpa using h

/-- The spelling of gcc, any spelling in the source of an instrument and the canonical name of a
type all have the canonical name of the type. -/
theorem canonicalType_spellings (host : Host) (t : TypeExpr LeafType) {demangled source : Str}
    (hdemangled : host.Demangles (fun a s => s ∈ host.demangledNames a) t demangled)
    (hsource : Declares (fun a s => s = a.sourceName) t source) {blanks tail : Str}
    (hblanks : ∀ c ∈ blanks, isWs c = true) (htail : ∀ c ∈ tail, isTail c = true) :
    canonicalType demangled = t.print LeafType.sourceName ∧
      canonicalType (blanks ++ source ++ tail) = t.print LeafType.sourceName ∧
      canonicalType (t.print LeafType.sourceName) = t.print LeafType.sourceName := by
  have hleaf : ∀ (a : LeafType) (s : Str), s = a.sourceName → IsLeaf s a.sourceName := by
    rintro a _ rfl
    exact isLeaf_sourceName a
  refine ⟨canonicalType_of_demangles hdemangled fun _ _ h => isLeaf_demangled h, ?_, ?_⟩
  · rw [List.append_assoc]
    exact (spelling_of_declares hsource hleaf).around hblanks htail
  · exact (spelling_of_declares (declares_print t) hleaf).canonical

theorem canonicalType_spellings_nested :
    canonicalType
        "std::array<std::vector<unsigned long, std::allocator<unsigned long> >, 4ul>".toList =
      "std::array<std::vector<uint64_t>, 4>".toList ∧
    canonicalType " std::array<std::vector< uint64_t >, 4 >& ".toList =
      "std::array<std::vector<uint64_t>, 4>".toList ∧
    canonicalType "std::array<std::vector<uint64_t>, 4>".toList =
      "std::array<std::vector<uint64_t>, 4>".toList := by
  have hblank : ∀ c ∈ [' '], isWs c = true := List.all_eq_true.mp (by decide)
  have hnil : ∀ c ∈ ([] : Str), isWs c = true := fun c hc => absurd hc List.not_mem_nil
  have htail : ∀ c ∈ "& ".toList, isTail c = true := List.all_eq_true.mp (by decide)
  have hfour : Nat.toDigits 10 4 = ['4'] := by decide
  have hname : LeafType.uint64.sourceName = "uint64_t".toList := rfl
  have hsuffix : Host.bits64.sizeSuffix = "ul".toList := rfl
  have hdemangled : Host.bits64.Demangles (fun a s => s ∈ Host.bits64.demangledNames a)
      (.leaf .uint64) "unsigned long".toList := .leaf (by decide)
  have hsource : Declares (fun (a : LeafType) s => s = a.sourceName) (.leaf .uint64)
      "uint64_t".toList := .leaf rfl
  have h := canonicalType_spellings .bits64 (.array (.vector (.leaf .uint64)) 4)
    (.array 4 (.vector hdemangled))
    (.array 4 (.vector hsource hblank hblank) hnil hnil hblank hblank) hblank htail
  simpa [Host.gap, hsuffix, hname, hfour] using h

end OpDetail

end KoheronSdk
