import KoheronSdk.Serdes.Wire

/-!
# Types as strings

The server tells its clients the types of an operation's arguments as strings, and the
Python and the TypeScript client take these apart to find out how to encode an argument.
A string is the list of its characters here, `split` and `strip` are the methods of both
languages, which differ in what they call a space.

The strings are the C++ source of the types, as the generator prints them: a name, or
`std::array<T, N>`, `std::vector<T>`, `std::string`, with or without `const` in front.  `Spells`
says which strings a type has, and what the clients do with them is what follows from it: the text
between the brackets, the parts at the comma, and the number behind it.  The name of an element is
what a client looks up in a table of its own; the tables are in the modules of the clients.

* `Str`, `split`, `strip`, `decimal`: strings and the methods that are used of them.
* `Spells`: how the server writes a type.
* `split_array`, `split_vector`: the parts of such a string.
-/

namespace KoheronSdk

/-- A string, as its characters. -/
abbrev Str := List Char

/-! ## Taking strings apart -/

/-- `s.split(sep)` -/
def split (sep : Char) : Str → List Str
  | [] => [[]]
  | c :: cs =>
    if c = sep then [] :: split sep cs
    else
      match split sep cs with
      | [] => [[c]]
      | part :: parts => (c :: part) :: parts

/-- `s.strip()` or `s.trim()` -/
def strip (space : Char → Bool) (s : Str) : Str :=
  ((s.dropWhile space).reverse.dropWhile space).reverse

/-- `int(s)`, for a string of decimal digits. -/
def decimal (s : Str) : Option ℕ :=
  if s ≠ [] ∧ s.all Char.isDigit then
    some (s.foldl (fun n c => 10 * n + (c.toNat - '0'.toNat)) 0)
  else none

/-- Different numbers are printed differently. -/
theorem toDigits_injective : Function.Injective (Nat.toDigits 10) := by
  intro m n h
  rw [← Nat.ofDigitChars_ten_toDigits (n := m), h, Nat.ofDigitChars_ten_toDigits]

theorem split_of_notMem {sep : Char} {s : Str} (h : sep ∉ s) : split sep s = [s] := by
  induction s with
  | nil => rfl
  | cons c cs ih =>
    have hc : c ≠ sep := fun hc => h (hc ▸ List.mem_cons_self ..)
    rw [split, if_neg hc, ih fun hmem => h (List.mem_cons_of_mem c hmem)]

/-- What comes before the first separator, and what comes after it. -/
theorem split_append {sep : Char} {s : Str} (h : sep ∉ s) (t : Str) :
    split sep (s ++ sep :: t) = s :: split sep t := by
  induction s with
  | nil => simp [split]
  | cons c cs ih =>
    have hc : c ≠ sep := fun hc => h (hc ▸ List.mem_cons_self ..)
    rw [List.cons_append, split, if_neg hc, ih fun hmem => h (List.mem_cons_of_mem c hmem)]

theorem strip_eq_self {space : Char → Bool} {s : Str} (h : ∀ c ∈ s, space c = false) :
    strip space s = s := by
  have hdrop : ∀ t : Str, (∀ c ∈ t, space c = false) → t.dropWhile space = t := by
    intro t ht
    cases t with
    | nil => rfl
    | cons c cs => rw [List.dropWhile_cons, ht c (List.mem_cons_self ..)]; rfl
  rw [strip, hdrop s h, hdrop s.reverse fun c hc => h c (List.mem_reverse.mp hc),
    List.reverse_reverse]

/-- A space in front is stripped. -/
theorem strip_cons {space : Char → Bool} {c : Char} (hc : space c = true) (s : Str) :
    strip space (c :: s) = strip space s := by
  rw [strip, List.dropWhile_cons, if_pos hc, strip]

theorem isDigit_of_decimal {s : Str} {n : ℕ} (h : decimal s = some n) :
    ∀ c ∈ s, c.isDigit = true := by
  rw [decimal, Option.ite_none_right_eq_some] at h
  exact List.all_eq_true.mp h.1.2

theorem notMem_of_decimal {s : Str} {n : ℕ} (h : decimal s = some n) {c : Char}
    (hc : c.isDigit = false) : c ∉ s := by
  intro hmem
  rw [isDigit_of_decimal h c hmem] at hc
  exact Bool.noConfusion hc

/-- A character is one byte in UTF-8 if and only if it is in ASCII. -/
theorem utf8Size_eq_one_iff (c : Char) : c.utf8Size = 1 ↔ c.toNat < 128 := by
  have hle : c.val ≤ 127 ↔ c.toNat < 128 := by
    rw [UInt32.le_iff_toNat_le, ← Nat.lt_add_one_iff]
    rfl
  rw [Char.utf8Size, ← hle]
  split_ifs with h1 h2 h3
  · exact ⟨fun _ => h1, fun _ => rfl⟩
  · exact ⟨fun h => absurd h (by decide), fun h => absurd h h1⟩
  · exact ⟨fun h => absurd h (by decide), fun h => absurd h h1⟩
  · exact ⟨fun h => absurd h (by decide), fun h => absurd h h1⟩

/-! ## The strings of the server -/

/-- The names of the scalars that an argument can be. -/
def scalarNames : List (String × ScalarType) :=
  [("uint8_t", .uint8), ("int8_t", .int8), ("uint16_t", .uint16), ("int16_t", .int16),
    ("uint32_t", .uint32), ("int32_t", .int32), ("uint64_t", .uint64), ("int64_t", .int64),
    ("float", .float), ("double", .double), ("bool", .bool)]

/-- The names of the types that an element of a container can have. -/
def elementNames : List (String × ScalarType) :=
  [("bool", .bool), ("unsigned char", .uint8), ("char", .int8), ("uint8_t", .uint8),
    ("int8_t", .int8), ("uint16_t", .uint16), ("int16_t", .int16), ("uint32_t", .uint32),
    ("unsigned int", .uint32), ("int32_t", .int32), ("int", .int32), ("uint64_t", .uint64),
    ("int64_t", .int64), ("float", .float), ("double", .double)]

/-- `s` is how the server writes `t`, behind a qualifier. -/
inductive Spells (qualifier : Str) : Str → ArgType → Prop where
  | scalar {name : String} {t : ScalarType} (h : (name, t) ∈ scalarNames) :
    Spells qualifier (qualifier ++ name.toList) (.scalar t)
  | array {name : String} {t : ScalarType} {digits : Str} {n : ℕ}
    (h : (name, t) ∈ elementNames) (hdigits : decimal digits = some n) :
    Spells qualifier (qualifier ++ "std::array".toList ++
      '<' :: (name.toList ++ ',' :: ' ' :: digits ++ ['>'])) (.array t n)
  | vector {name : String} {t : ScalarType} (h : (name, t) ∈ elementNames) :
    Spells qualifier (qualifier ++ "std::vector".toList ++ '<' :: (name.toList ++ ['>']))
      (.vector t)
  | string : Spells qualifier (qualifier ++ "std::string".toList) .string

/-- No name of an element has a bracket or a comma. -/
theorem notMem_elementName {name : String} {t : ScalarType} (h : (name, t) ∈ elementNames) :
    '<' ∉ name.toList ∧ '>' ∉ name.toList ∧ ',' ∉ name.toList := by
  have hall : ∀ p ∈ elementNames, '<' ∉ p.1.toList ∧ '>' ∉ p.1.toList ∧ ',' ∉ p.1.toList := by
    decide
  exact hall (name, t) h

/-- The parts of the string of an array: between the brackets, and on both sides of the
comma. -/
theorem split_array {name : String} {t : ScalarType} (h : (name, t) ∈ elementNames)
    {digits : Str} {n : ℕ} (hdigits : decimal digits = some n) {base : Str} (hbase : '<' ∉ base) :
    split '<' (base ++ '<' :: (name.toList ++ ',' :: ' ' :: digits ++ ['>']))
        = [base, name.toList ++ ',' :: ' ' :: digits ++ ['>']] ∧
      (split '>' (name.toList ++ ',' :: ' ' :: digits ++ ['>']))[0]?
        = some (name.toList ++ ',' :: ' ' :: digits) ∧
      split ',' (name.toList ++ ',' :: ' ' :: digits) = [name.toList, ' ' :: digits] := by
  obtain ⟨hopen, hclose, hcomma⟩ := notMem_elementName h
  have hdigit : ∀ c : Char, c.isDigit = false → c ≠ ' ' → c ∉ ' ' :: digits := by
    intro c hc hspace hmem
    rcases List.mem_cons.mp hmem with h0 | h0
    · exact hspace h0
    · exact notMem_of_decimal hdigits hc h0
  have hinner : ∀ c : Char, c ∉ name.toList → c ≠ ',' → c.isDigit = false → c ≠ ' ' →
      c ∉ name.toList ++ ',' :: ' ' :: digits := by
    intro c hname hne hc hspace hmem
    rcases List.mem_append.mp hmem with h0 | h0
    · exact hname h0
    · rcases List.mem_cons.mp h0 with h1 | h1
      · exact hne h1
      · exact hdigit c hc hspace h1
  have hopen' : '<' ∉ name.toList ++ ',' :: ' ' :: digits ++ ['>'] := by
    intro hmem
    rcases List.mem_append.mp hmem with h0 | h0
    · exact hinner '<' hopen (by decide) (by decide) (by decide) h0
    · exact absurd (List.mem_singleton.mp h0) (by decide)
  refine ⟨?_, ?_, ?_⟩
  · rw [split_append hbase, split_of_notMem hopen']
  · rw [split_append (hinner '>' hclose (by decide) (by decide) (by decide)),
      List.getElem?_cons_zero]
  · rw [split_append hcomma, split_of_notMem (hdigit ',' (by decide) (by decide))]

/-- The parts of the string of a vector. -/
theorem split_vector {name : String} {t : ScalarType} (h : (name, t) ∈ elementNames) {base : Str}
    (hbase : '<' ∉ base) :
    split '<' (base ++ '<' :: (name.toList ++ ['>'])) = [base, name.toList ++ ['>']] ∧
      (split '>' (name.toList ++ ['>']))[0]? = some name.toList ∧
      split ',' name.toList = [name.toList] := by
  obtain ⟨hopen, hclose, hcomma⟩ := notMem_elementName h
  have hopen' : '<' ∉ name.toList ++ ['>'] := by
    intro hmem
    rcases List.mem_append.mp hmem with h0 | h0
    · exact hopen h0
    · exact absurd (List.mem_singleton.mp h0) (by decide)
  refine ⟨?_, ?_, ?_⟩
  · rw [split_append hbase, split_of_notMem hopen']
  · rw [split_append hclose, List.getElem?_cons_zero]
  · exact split_of_notMem hcomma

end KoheronSdk
