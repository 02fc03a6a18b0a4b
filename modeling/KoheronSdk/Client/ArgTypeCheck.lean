import KoheronSdk.Client.CanonicalType
import KoheronSdk.Generator.ContextJson

/-!
# The check of the argument types

`check_arg_types` compares the canonical names of the types that an operation declares with those
of the types that a call passes.  The declared names are the source of the server, which has its
own compiler; the others come from the demangler of the client's.

## Names and encodings

What the check is for is that the server decodes what the client has encoded.  Names are all it
has, and equal names need not stand for equal encodings: `long` has 32 bits on one host and 64
on another, `signed int` is taken for a type of 8 bits since `canonical_type` drops everything up
to the last blank, a string of wide characters has the canonical name of any other, and a class of
the instrument may be called like a standard type.  So two things are kept apart.  `Kind` is
what the check makes of a name; `Encoding` is how a compiler encodes a type.  The compilers are
parameters, `ServerBuild` and `ClientBuild`, with what the standard says of the names that
it knows.

## The condition

The canonical name determines the nesting of vectors and arrays, and the kind of each leaf
(`print_injective`), so a call that passes has the declared nesting and kinds.  Of one
kind there is one encoding, but for the names in `Confused`.  A call that passes is
therefore decoded as it was encoded unless it has a confused leaf, and where it has one it is not:
the condition is exact.

* `checkArgTypes`: the check.
* `ServerBuild`, `ClientBuild`: what the two compilers make of a type without arguments.
* `Kind`: what the check makes of it.
* `Confused`: the types that have one name and not one encoding.
* `checkArgTypes_sound_iff`: when a call that passes the check is decoded as it was meant.
-/

namespace KoheronSdk

namespace OpDetail

/-! ## The check -/

/-- `type_str`, for the demangled name of the type. -/
def typeStr (demangled : Str) : Str := canonicalType demangled

/-- `std::to_string` -/
def decimalText (n : ℕ) : Str := Nat.toDigits 10 n

/-- The loop of `check_arg_types`. -/
def checkLoop (e : OpEntry) : ℕ → List Str → List Str → Except Str Unit
  | i, want :: wants, got :: gots =>
    if want ≠ [] ∧ got ≠ [] ∧ got ≠ canonicalType want then
      .error (e.className ++ "::".toList ++ e.funcName ++ " arg ".toList ++ decimalText i
        ++ ": instrument declares '".toList ++ want ++ "' but call passes '".toList ++ got
        ++ "'".toList)
    else checkLoop e (i + 1) wants gots
  | _, _, _ => .ok ()

/-- `check_arg_types`, for the `type_str` of each argument. -/
def checkArgTypes (opTable : Option OpTable) (id : ℕ) (given : List Str) : Except Str Unit :=
  match opTable with
  | none => .ok ()
  | some table =>
    match table.find id with
    | none => .ok ()
    | some e =>
      if given.length ≠ e.args.length then
        .error (e.className ++ "::".toList ++ e.funcName ++ " takes ".toList
          ++ decimalText e.args.length ++ " args, call passes ".toList ++ decimalText given.length)
      else checkLoop e 0 e.args given

/-- An argument that the check does not stop at. -/
def Passes (want got : Str) : Prop := want ≠ [] → got ≠ [] → got = canonicalType want

theorem checkLoop_eq_ok_iff (e : OpEntry) (i : ℕ) {wants gots : List Str}
    (hlen : gots.length = wants.length) :
    checkLoop e i wants gots = .ok () ↔ List.Forall₂ Passes wants gots := by
  induction wants generalizing i gots with
  | nil =>
    obtain rfl := List.length_eq_zero_iff.mp hlen
    exact ⟨fun _ => .nil, fun _ => rfl⟩
  | cons want wants ih =>
    obtain ⟨got, gots, rfl⟩ := List.exists_cons_of_length_eq_add_one hlen
    have hlen' : gots.length = wants.length := Nat.succ_inj.mp hlen
    have hpasses : ¬ (want ≠ [] ∧ got ≠ [] ∧ got ≠ canonicalType want) ↔ Passes want got := by
      rw [Passes]
      tauto
    rw [List.forall₂_cons, ← ih (i + 1) hlen', ← hpasses, checkLoop]
    split
    · next hstops => exact ⟨fun h => (by cases h), fun h => absurd hstops h.1⟩
    · next hgoes => exact (and_iff_right hgoes).symm

/-- **The check passes** when every argument does. -/
theorem checkArgTypes_eq_ok_iff {table : OpTable} {id : ℕ} {e : OpEntry}
    (hfind : table.find id = some e) {given : List Str} :
    checkArgTypes (some table) id given = .ok () ↔ List.Forall₂ Passes e.args given := by
  rw [checkArgTypes]
  simp only [hfind]
  split
  · next hlen => exact ⟨fun h => (by cases h), fun h => absurd h.length_eq.symm hlen⟩
  · next hlen => exact checkLoop_eq_ok_iff e 0 (not_not.mp hlen)

/-! ## Kinds of names -/

deriving instance DecidableEq for LeafType

/-- What the check makes of a type without arguments. -/
inductive Kind where
  | fixed (a : LeafType)
  | char
  | other (name : Str)
  deriving DecidableEq

/-- The kind is that of one name only. -/
def Kind.isOther : Kind → Bool
  | other _ => true
  | _ => false

/-- The canonical name of a kind. -/
def Kind.print : Kind → Str
  | fixed a => a.sourceName
  | char => "char".toList
  | other name => name

/-- The names that the check knows. -/
def specialNames : List (Str × Kind) :=
  [("bool", .fixed .bool), ("char", .char), ("float", .fixed .float), ("double", .fixed .double),
    ("std::string", .fixed .string), ("int8_t", .fixed .int8), ("signed char", .fixed .int8),
    ("signed int", .fixed .int8), ("signed", .fixed .int8), ("uint8_t", .fixed .uint8),
    ("unsigned char", .fixed .uint8), ("int16_t", .fixed .int16), ("short", .fixed .int16),
    ("short int", .fixed .int16), ("uint16_t", .fixed .uint16),
    ("unsigned short", .fixed .uint16), ("unsigned short int", .fixed .uint16),
    ("int32_t", .fixed .int32), ("int", .fixed .int32), ("uint32_t", .fixed .uint32),
    ("unsigned int", .fixed .uint32), ("unsigned", .fixed .uint32), ("int64_t", .fixed .int64),
    ("long", .fixed .int64), ("long int", .fixed .int64), ("long long", .fixed .int64),
    ("long long int", .fixed .int64), ("uint64_t", .fixed .uint64),
    ("unsigned long", .fixed .uint64), ("unsigned long int", .fixed .uint64),
    ("unsigned long long", .fixed .uint64), ("unsigned long long int", .fixed .uint64)].map
    fun p : String × Kind => (p.1.toList, p.2)

/-- The beginning of the full name of a string. -/
abbrev IsBasicString (s : Str) : Prop := "std::basic_string<".toList <+: s

/-- The kind of a name. -/
def Kind.ofName (s : Str) : Kind :=
  match specialNames.lookup s with
  | some k => k
  | none => if IsBasicString s then .fixed .string else .other s

theorem mem_specialNames_of_lookup {s : Str} {k : Kind} (h : specialNames.lookup s = some k) :
    (s, k) ∈ specialNames := by
  obtain ⟨l₁, l₂, heq, -⟩ := List.lookup_eq_some_iff.mp h
  rw [heq]
  exact List.mem_append_right l₁ List.mem_cons_self

/-- A name that `canonical_type` knows is a special one. -/
theorem lookup_knownNames_eq_none {s : Str} (h : specialNames.lookup s = none) :
    knownNames.lookup s = none := by
  have hkeys : ∀ p ∈ knownNames, p.1 ∈ specialNames.map Prod.fst := by decide +kernel
  rw [List.lookup_eq_none_iff] at h ⊢
  intro p hp
  obtain ⟨q, hq, hqp⟩ := List.mem_map.mp (hkeys p hp)
  rw [← hqp]
  exact h q hq

theorem name_eq_of_typeView {s name : Str} (h : typeView s = .name name) :
    name = (leafName? s).getD s := by
  unfold typeView at h
  split at h
  · next hleaf =>
    rw [hleaf, ← TypeView.name.inj h]
    rfl
  · next hleaf =>
    rw [hleaf]
    split at h
    · cases h
    · split at h
      · cases h
      · exact (TypeView.name.inj h).symm

/-- **What the check makes of a name.** -/
theorem IsLeaf.name_eq {s name : Str} (h : IsLeaf s name) : name = (Kind.ofName s).print := by
  have hspecial : ∀ p ∈ specialNames, (leafName? p.1).getD p.1 = p.2.print := by decide +kernel
  rw [name_eq_of_typeView h.view, Kind.ofName]
  split
  · next k hlookup => exact hspecial _ (mem_specialNames_of_lookup hlookup)
  · next hlookup =>
    rw [leafName?, lookup_knownNames_eq_none hlookup, Option.none_or]
    by_cases hstring : IsBasicString s
    · rw [if_pos hstring, if_pos hstring]
      rfl
    · rw [if_neg hstring, if_neg hstring]
      rfl

/-! ## The nesting -/

end OpDetail

namespace TypeExpr

variable {α β : Type}

/-- The same nesting, with other leaves. -/
def map (f : α → β) : TypeExpr α → TypeExpr β
  | leaf a => .leaf (f a)
  | vector t => .vector (t.map f)
  | array t n => .array (t.map f) n

/-- Something that holds of every leaf. -/
def Leaves (p : α → Prop) : TypeExpr α → Prop
  | leaf a => p a
  | vector t => t.Leaves p
  | array t _ => t.Leaves p

theorem print_map (f : α → β) (name : β → Str) (t : TypeExpr α) :
    (t.map f).print name = t.print (name ∘ f) := by
  induction t with
  | leaf a => rfl
  | vector t ih => rw [map, print_vector, print_vector, ih]
  | array t n ih => rw [map, print_array, print_array, ih]

theorem leaves_map {f : α → β} {p : β → Prop} {t : TypeExpr α} :
    (t.map f).Leaves p ↔ t.Leaves (p ∘ f) := by
  induction t with
  | leaf a => exact Iff.rfl
  | vector t ih => exact ih
  | array t n ih => exact ih

end TypeExpr

namespace OpDetail

/-- A kind whose canonical name is no other one's. -/
structure Kind.Proper (k : Kind) : Prop where
  isLeaf : IsLeaf k.print k.print
  fresh : ∀ name, k = .other name → specialNames.lookup name = none ∧ ¬ IsBasicString name

theorem isLeaf_char : IsLeaf "char".toList "char".toList := by
  apply IsFlatLeaf.isLeaf
  decide

theorem Kind.proper_fixed (a : LeafType) : (Kind.fixed a).Proper :=
  ⟨isLeaf_sourceName a, fun name h => by cases h⟩

theorem Kind.proper_char : Kind.char.Proper := ⟨isLeaf_char, fun name h => by cases h⟩

/-- A name that the check takes as it is. -/
theorem Kind.ofName_eq_other {s name : Str} (h : Kind.ofName s = .other name) :
    name = s ∧ specialNames.lookup s = none ∧ ¬ IsBasicString s := by
  have hspecial : ∀ p ∈ specialNames, p.2 ≠ .other name := by
    intro p hp hother
    have hfresh : ∀ p ∈ specialNames, p.2.isOther = false := by decide +kernel
    have hp := hfresh p hp
    rw [hother] at hp
    cases hp
  rw [Kind.ofName] at h
  split at h
  · next hlookup => exact absurd h (hspecial _ (mem_specialNames_of_lookup hlookup))
  · next hlookup =>
    split at h
    · cases h
    · next hstring => exact ⟨(Kind.other.inj h).symm, hlookup, hstring⟩

/-- **The kind of a name is proper.** -/
theorem IsLeaf.proper {s name : Str} (h : IsLeaf s name) : (Kind.ofName s).Proper := by
  have hname := h.name_eq
  cases hk : Kind.ofName s with
  | fixed a => exact Kind.proper_fixed a
  | char => exact Kind.proper_char
  | other name' =>
    obtain ⟨rfl, hlookup, hstring⟩ := Kind.ofName_eq_other hk
    rw [hk, Kind.print] at hname
    subst hname
    refine ⟨h, fun name' hother => ?_⟩
    obtain rfl := Kind.other.inj hother
    exact ⟨hlookup, hstring⟩

/-- The canonical name has the kind. -/
theorem Kind.Proper.ofName_print {k : Kind} (h : k.Proper) : Kind.ofName k.print = k := by
  cases k with
  | fixed a => cases a <;> decide +kernel
  | char => decide +kernel
  | other name =>
    obtain ⟨hlookup, hstring⟩ := h.fresh name rfl
    rw [Kind.print, Kind.ofName, hlookup]
    exact if_neg hstring

/-- A canonical name is a spelling. -/
theorem isSpelling_print {t : TypeExpr Kind} (h : t.Leaves Kind.Proper) :
    IsSpelling (t.print Kind.print) (t.print Kind.print) := by
  have hnil : ∀ c ∈ ([] : Str), isWs c = true := fun c hc => absurd hc List.not_mem_nil
  have hblank : ∀ c ∈ [' '], isWs c = true := List.all_eq_true.mp (by decide)
  induction t with
  | leaf k => exact (Kind.Proper.isLeaf h).spelling
  | vector t ih =>
    have hvector := (ih h).vector hnil hnil IsExtra.nil
    simpa using hvector
  | array t n ih =>
    have hsuffix : ∀ c ∈ ([] : Str), c = 'u' ∨ c = 'l' :=
      fun c hc => absurd hc List.not_mem_nil
    have harray := (ih h).array (n := n) hnil hnil hblank hnil hsuffix
    simpa using harray

/-- What `canonical_type` takes the canonical name of a type for. -/
def viewOf : TypeExpr Kind → TypeView
  | .leaf k => .name k.print
  | .vector t => .vector (t.print Kind.print)
  | .array t n => .array (t.print Kind.print) (Nat.toDigits 10 n)

theorem isFlat_of_isDigit {c : Char} (h : c.isDigit = true) : isFlat c = true := by
  have hne : ∀ x : Char, x.isDigit = false → c ≠ x := by
    rintro x hx rfl
    exact Bool.noConfusion (h.symm.trans hx)
  simp [isFlat, hne ',' rfl, hne '<' rfl, hne '>' rfl, hne '(' rfl, hne ')' rfl, hne '"' rfl]

theorem typeView_print {t : TypeExpr Kind} (h : t.Leaves Kind.Proper) :
    typeView (t.print Kind.print) = viewOf t := by
  have hnil : ∀ c ∈ ([] : Str), isWs c = true := fun c hc => absurd hc List.not_mem_nil
  have hblank : ∀ c ∈ [' '], isWs c = true := List.all_eq_true.mp (by decide)
  cases t with
  | leaf k => exact (Kind.Proper.isLeaf h).view
  | vector t =>
    have ht : t.Leaves Kind.Proper := h
    rw [TypeExpr.print_vector, typeView_vector, splitTop_of_inert (isSpelling_print ht).inert]
    rfl
  | array t n =>
    have ht : t.Leaves Kind.Proper := h
    have hsize : Inert (' ' :: Nat.toDigits 10 n) := by
      refine inert_of_flat fun c hc => ?_
      rcases List.mem_cons.mp hc with rfl | hc
      · decide
      · exact isFlat_of_isDigit (isDigit_of_mem_size hc)
    have hsplit : splitTop (t.print Kind.print ++ ',' :: ' ' :: Nat.toDigits 10 n) =
        [t.print Kind.print, ' ' :: Nat.toDigits 10 n] := by
      rw [splitTop_append_comma (isSpelling_print ht).inert, splitTop_of_inert hsize]
    have hview := typeView_array hsplit
    have hsuffix : ∀ c ∈ ([] : Str), c = 'u' ∨ c = 'l' :=
      fun c hc => absurd hc List.not_mem_nil
    have hstrip := strip_size (n := n) hblank hnil hsuffix
    rw [List.append_nil, List.append_nil, List.singleton_append] at hstrip
    rw [hstrip] at hview
    rw [viewOf, ← hview]
    simp

/-- **The canonical name determines the nesting and the kinds.** -/
theorem print_injective {t u : TypeExpr Kind} (ht : t.Leaves Kind.Proper)
    (hu : u.Leaves Kind.Proper) (h : t.print Kind.print = u.print Kind.print) : t = u := by
  induction t generalizing u with
  | leaf k =>
    have hview := congrArg typeView h
    rw [typeView_print ht, typeView_print hu] at hview
    cases u with
    | leaf k' =>
      have hprint : k.print = k'.print := TypeView.name.inj hview
      rw [← Kind.Proper.ofName_print ht, hprint, Kind.Proper.ofName_print hu]
    | vector u => cases hview
    | array u n => cases hview
  | vector t ih =>
    have hview := congrArg typeView h
    rw [typeView_print ht, typeView_print hu] at hview
    cases u with
    | leaf k => cases hview
    | vector u =>
      have hu' : u.Leaves Kind.Proper := hu
      rw [ih ht hu' (TypeView.vector.inj hview)]
    | array u n => cases hview
  | array t m ih =>
    have hview := congrArg typeView h
    rw [typeView_print ht, typeView_print hu] at hview
    cases u with
    | leaf k => cases hview
    | vector u => cases hview
    | array u n =>
      have hu' : u.Leaves Kind.Proper := hu
      obtain ⟨helement, hsize⟩ := TypeView.array.inj hview
      rw [ih ht hu' helement, toDigits_injective hsize]

end OpDetail

/-! ## What the compilers make of a type -/

/-- An integer type without its sign. -/
inductive Rank where
  | char | short | int | long | longLong
  deriving DecidableEq

/-- How C++ calls it. -/
def Rank.name : Rank → Str
  | char => "char".toList
  | short => "short".toList
  | int => "int".toList
  | long => "long".toList
  | longLong => "long long".toList

/-- `sizeof`: a `long` is as wide as an address. -/
def Host.bytes (host : Host) : Rank → ℕ
  | .char => 1
  | .short => 2
  | .int => 4
  | .long => match host with
    | .bits32 => 4
    | .bits64 => 8
  | .longLong => 8

/-- How a value of a standard type is encoded. -/
inductive Representation where
  | bool | char | float | double | string
  | integer (signed : Bool) (bytes : ℕ)
  deriving DecidableEq

/-- How a value is encoded; `L` is what there is to know of the other types. -/
inductive Encoding (L : Type) where
  | standard (r : Representation)
  | other (layout : L)
  deriving DecidableEq

/-- What the names of the standard types are in C++. -/
def Host.sourceTypes (host : Host) : List (Str × Representation) :=
  [("bool", .bool), ("char", .char), ("float", .float), ("double", .double),
    ("std::string", .string), ("int8_t", .integer true 1), ("signed char", .integer true 1),
    ("signed int", .integer true 4), ("signed", .integer true 4), ("uint8_t", .integer false 1),
    ("unsigned char", .integer false 1), ("int16_t", .integer true 2), ("short", .integer true 2),
    ("short int", .integer true 2), ("uint16_t", .integer false 2),
    ("unsigned short", .integer false 2), ("unsigned short int", .integer false 2),
    ("int32_t", .integer true 4), ("int", .integer true 4), ("uint32_t", .integer false 4),
    ("unsigned int", .integer false 4), ("unsigned", .integer false 4),
    ("int64_t", .integer true 8), ("long", .integer true (host.bytes .long)),
    ("long int", .integer true (host.bytes .long)),
    ("long long", .integer true (host.bytes .longLong)),
    ("long long int", .integer true (host.bytes .longLong)), ("uint64_t", .integer false 8),
    ("unsigned long", .integer false (host.bytes .long)),
    ("unsigned long int", .integer false (host.bytes .long)),
    ("unsigned long long", .integer false (host.bytes .longLong)),
    ("unsigned long long int", .integer false (host.bytes .longLong))].map
    fun p : String × Representation => (p.1.toList, p.2)

namespace OpDetail

/-- A type that gcc has a name of its own for: a class, an enumeration, a string of other
characters, or a number that `canonical_type` does not know. -/
structure NamedType where
  text : Str
  tidy : Tidy text
  isLeaf : ∃ name, IsLeaf (withoutCxx11 text) name
  fresh : specialNames.lookup (withoutCxx11 text) = none

/-- A type of the client without arguments. -/
inductive PlainType where
  | bool | char | float | double | string
  | integer (signed : Bool) (rank : Rank)
  | named (c : NamedType)

/-- What gcc writes for it. -/
def PlainType.demangledNames : PlainType → List Str
  | bool => ["bool".toList]
  | char => ["char".toList]
  | float => ["float".toList]
  | double => ["double".toList]
  | string => Host.bits64.demangledNames .string
  | integer true .char => ["signed char".toList]
  | integer true rank => [rank.name]
  | integer false rank => ["unsigned ".toList ++ rank.name]
  | named c => [c.text]

/-- The kind that the check makes of it. -/
def PlainType.kind : PlainType → Kind
  | bool => .fixed .bool
  | char => .char
  | float => .fixed .float
  | double => .fixed .double
  | string => .fixed .string
  | integer true .char => .fixed .int8
  | integer true .short => .fixed .int16
  | integer true .int => .fixed .int32
  | integer true _ => .fixed .int64
  | integer false .char => .fixed .uint8
  | integer false .short => .fixed .uint16
  | integer false .int => .fixed .uint32
  | integer false _ => .fixed .uint64
  | named c => Kind.ofName (withoutCxx11 c.text)

/-- What the compiler of the server makes of the names in the source of an instrument. -/
structure ServerBuild (L : Type) where
  host : Host
  encoding : Str → Encoding L
  standard : ∀ p ∈ host.sourceTypes, encoding p.1 = .standard p.2

/-- What the compiler of the client makes of the types that have a name of their own. -/
structure ClientBuild (L : Type) where
  host : Host
  layout : Str → Encoding L

/-- How the client encodes a type without arguments. -/
def ClientBuild.encoding {L : Type} (client : ClientBuild L) : PlainType → Encoding L
  | .bool => .standard .bool
  | .char => .standard .char
  | .float => .standard .float
  | .double => .standard .double
  | .string => .standard .string
  | .integer signed rank => .standard (.integer signed (client.host.bytes rank))
  | .named c => client.layout c.text

/-- What gcc writes is a spelling of the kind. -/
theorem isLeaf_demangledName {t : PlainType} {s : Str} (h : s ∈ t.demangledNames) :
    Tidy s ∧ IsLeaf (withoutCxx11 s) t.kind.print := by
  have hfixed : ∀ a : LeafType, s ∈ Host.bits64.demangledNames a →
      Tidy s ∧ IsLeaf (withoutCxx11 s) (Kind.fixed a).print := fun a h => isLeaf_demangled h
  cases t with
  | bool => exact hfixed .bool h
  | char =>
    obtain rfl := List.mem_singleton.mp h
    exact ⟨tidy_of_all (by decide) (by decide) (by decide), isLeaf_char⟩
  | float => exact hfixed .float h
  | double => exact hfixed .double h
  | string => exact hfixed .string h
  | integer signed rank =>
    cases signed <;> cases rank <;> obtain rfl := List.mem_singleton.mp h
    · exact hfixed .uint8 (by decide)
    · exact hfixed .uint16 (by decide)
    · exact hfixed .uint32 (by decide)
    · exact hfixed .uint64 (by decide)
    · exact hfixed .uint64 (by decide)
    · exact hfixed .int8 (by decide)
    · exact hfixed .int16 (by decide)
    · exact hfixed .int32 (by decide)
    · exact hfixed .int64 (by decide)
    · exact hfixed .int64 (by decide)
  | named c =>
    obtain rfl := List.mem_singleton.mp h
    obtain ⟨name, hleaf⟩ := c.isLeaf
    have hname := hleaf.name_eq
    subst hname
    exact ⟨c.tidy, hleaf⟩

/-! ## Arguments -/

/-- A type that an operation declares, as it stands in the context, with the names of its leaves:
one that `check_type` has let through. -/
structure DeclaredArg where
  text : Str
  expr : TypeExpr Str
  declares : Declares (fun a s => s = a ∧ ∃ name, IsLeaf a name) expr text
  passes : text ∉ Context.forbiddenInts

/-- The type of an argument of a call, and how gcc writes it. -/
structure GivenArg (host : Host) where
  text : Str
  expr : TypeExpr PlainType
  demangled : host.Demangles (fun t s => s ∈ t.demangledNames) expr text

/-- The declared type and that of the argument have the same nesting, and leaves of one kind. -/
def SameKind {host : Host} (want : DeclaredArg) (got : GivenArg host) : Prop :=
  want.expr.map Kind.ofName = got.expr.map PlainType.kind

theorem leaves_of_declares {leaf : Str → Str → Prop} {p : Str → Prop} {t : TypeExpr Str} {s : Str}
    (h : Declares leaf t s) (hleaf : ∀ a s, leaf a s → p a) : t.Leaves p := by
  induction h with
  | leaf h => exact hleaf _ _ h
  | vector h _ _ ih => exact ih
  | array n h _ _ _ _ ih => exact ih

theorem leaves_of_demangles {host : Host} {leaf : PlainType → Str → Prop} {p : PlainType → Prop}
    {t : TypeExpr PlainType} {s : Str} (h : host.Demangles leaf t s)
    (hleaf : ∀ a s, leaf a s → p a) : t.Leaves p := by
  induction h with
  | leaf h => exact hleaf _ _ h
  | vector h ih => exact ih
  | array n h ih => exact ih

/-- The canonical name of a declared type. -/
theorem DeclaredArg.isSpelling (want : DeclaredArg) :
    IsSpelling want.text ((want.expr.map Kind.ofName).print Kind.print) := by
  rw [TypeExpr.print_map]
  refine spelling_of_declares want.declares ?_
  rintro a _ ⟨rfl, name, hleaf⟩
  have hname : name = (Kind.print ∘ Kind.ofName) _ := hleaf.name_eq
  exact hname ▸ hleaf

theorem DeclaredArg.proper (want : DeclaredArg) :
    (want.expr.map Kind.ofName).Leaves Kind.Proper := by
  rw [TypeExpr.leaves_map]
  refine leaves_of_declares want.declares ?_
  rintro a _ ⟨rfl, name, hleaf⟩
  exact hleaf.proper

variable {host : Host}

/-- The canonical name of the type of an argument. -/
theorem GivenArg.typeStr_eq (got : GivenArg host) :
    typeStr got.text = (got.expr.map PlainType.kind).print Kind.print := by
  rw [TypeExpr.print_map]
  exact canonicalType_of_demangles got.demangled fun t s h => isLeaf_demangledName h

theorem PlainType.proper_kind {t : PlainType} : t.kind.Proper := by
  cases t with
  | char => exact Kind.proper_char
  | integer signed rank => cases signed <;> cases rank <;> exact Kind.proper_fixed _
  | named c =>
    obtain ⟨name, hleaf⟩ := c.isLeaf
    exact hleaf.proper
  | _ => exact Kind.proper_fixed _

theorem GivenArg.proper (got : GivenArg host) :
    (got.expr.map PlainType.kind).Leaves Kind.Proper := by
  rw [TypeExpr.leaves_map]
  exact leaves_of_demangles got.demangled fun t s h => PlainType.proper_kind

/-- **What passes the check** is of the same nesting and of the same kinds. -/
theorem passes_iff (want : DeclaredArg) (got : GivenArg host) :
    Passes want.text (typeStr got.text) ↔ SameKind want got := by
  have hne : typeStr got.text ≠ [] := by
    rw [got.typeStr_eq]
    exact (isSpelling_print got.proper).tidy.ne_nil
  have hpasses : Passes want.text (typeStr got.text) ↔
      typeStr got.text = canonicalType want.text :=
    ⟨fun h => h want.isSpelling.tidy.ne_nil hne, fun h _ _ => h⟩
  rw [hpasses, got.typeStr_eq, want.isSpelling.canonical, SameKind]
  exact ⟨fun h => (print_injective got.proper want.proper h).symm, fun h => by rw [h]⟩

/-! ## One name and two encodings -/

/-- The names that the check takes for an integer of 64 bits. -/
def wideNames : Bool → List Str
  | true => ["int64_t", "long", "long int", "long long", "long long int"].map String.toList
  | false => ["uint64_t", "unsigned long", "unsigned long int", "unsigned long long",
      "unsigned long long int"].map String.toList

/-- A string, of whatever characters. -/
def PlainType.IsString : PlainType → Prop
  | string => True
  | named c => IsBasicString (withoutCxx11 c.text)
  | _ => False

section Builds

variable {L : Type} {server : ServerBuild L} {client : ClientBuild L}

/-- The names and types that the check does not tell apart, and the compilers do. -/
inductive Confused (server : ServerBuild L) (client : ClientBuild L) : Str → PlainType → Prop
  | signed {s : Str} (hs : s = "signed".toList ∨ s = "signed int".toList) :
    Confused server client s (.integer true .char)
  | wide {s : Str} {signed : Bool} {rank : Rank} (hs : s ∈ wideNames signed)
    (hrank : rank = .long ∨ rank = .longLong)
    (hwidth : server.encoding s ≠ client.encoding (.integer signed rank)) :
    Confused server client s (.integer signed rank)
  | string {s : Str} {t : PlainType} (hs : s = "std::string".toList ∨ IsBasicString s)
    (ht : t.IsString) (hchars : server.encoding s ≠ client.encoding t) :
    Confused server client s t
  | named {s : Str} {c : NamedType} (hs : specialNames.lookup s = none)
    (hc : withoutCxx11 c.text = s) (hlayout : server.encoding s ≠ client.layout c.text) :
    Confused server client s (.named c)

theorem mem_specialNames {s : Str} {k : Kind} (h : Kind.ofName s = k) (hother : k.isOther = false)
    (hstring : k ≠ .fixed .string) : (s, k) ∈ specialNames := by
  rw [Kind.ofName] at h
  split at h
  · next k' hlookup =>
    subst h
    exact mem_specialNames_of_lookup hlookup
  · split at h
    · exact absurd h.symm hstring
    · subst h
      cases hother

/-- The names of strings. -/
theorem string_of_ofName {s : Str} (h : Kind.ofName s = .fixed .string) :
    s = "std::string".toList ∨ IsBasicString s := by
  rw [Kind.ofName] at h
  split at h
  · next hlookup =>
    subst h
    have hnames : ∀ p ∈ specialNames, p.2 = .fixed .string → p.1 = "std::string".toList := by
      decide +kernel
    exact Or.inl (hnames _ (mem_specialNames_of_lookup hlookup) rfl)
  · split at h
    · next hstring => exact Or.inr hstring
    · cases h

/-- The encoding that goes with a kind, where there is one. -/
def Kind.representation? : Kind → Option Representation
  | .fixed .bool => some .bool
  | .fixed .uint8 => some (.integer false 1)
  | .fixed .int8 => some (.integer true 1)
  | .fixed .uint16 => some (.integer false 2)
  | .fixed .int16 => some (.integer true 2)
  | .fixed .uint32 => some (.integer false 4)
  | .fixed .int32 => some (.integer true 4)
  | .fixed .float => some .float
  | .fixed .double => some .double
  | .char => some .char
  | .fixed .uint64 | .fixed .int64 | .fixed .string | .other _ => none

/-- The special names of such a kind have its encoding, but for those of the signed `int`. -/
theorem ServerBuild.encoding_eq (server : ServerBuild L) {s : Str} {k : Kind}
    (h : (s, k) ∈ specialNames) {r : Representation} (hr : k.representation? = some r)
    (hsigned : ¬ (s = "signed".toList ∨ s = "signed int".toList)) :
    server.encoding s = .standard r := by
  have htable : ∀ host : Host, ∀ p ∈ specialNames, ∀ r ∈ p.2.representation?,
      p.1 = "signed".toList ∨ p.1 = "signed int".toList ∨ (p.1, r) ∈ host.sourceTypes := by
    intro host
    cases host <;> decide +kernel
  rcases htable server.host _ h r hr with h | h | hmem
  · exact absurd (Or.inl h) hsigned
  · exact absurd (Or.inr h) hsigned
  · exact server.standard _ hmem

/-- A name of the kind of a type has its encoding. -/
theorem encoding_eq_of_kind {s : Str} {t : PlainType} (hkind : Kind.ofName s = t.kind)
    {r : Representation} (hr : t.kind.representation? = some r)
    (ht : client.encoding t = .standard r)
    (hsigned : ¬ (s = "signed".toList ∨ s = "signed int".toList)) :
    server.encoding s = client.encoding t := by
  have hother : t.kind.isOther = false := by
    cases hk : t.kind with
    | other name =>
      rw [hk] at hr
      cases hr
    | _ => rfl
  have hstring : t.kind ≠ .fixed .string := by
    intro h
    rw [h] at hr
    cases hr
  rw [ht]
  exact server.encoding_eq (mem_specialNames hkind hother hstring) hr hsigned

/-- The names of integers of 64 bits. -/
theorem mem_wideNames {s : Str} {signed : Bool}
    (h : Kind.ofName s = if signed then .fixed .int64 else .fixed .uint64) :
    s ∈ wideNames signed := by
  have htable : ∀ signed : Bool, ∀ p ∈ specialNames,
      p.2 = (if signed then .fixed .int64 else .fixed .uint64) → p.1 ∈ wideNames signed := by
    decide +kernel
  exact htable signed (s, _) (mem_specialNames h (by cases signed <;> rfl)
    (by cases signed <;> decide)) rfl

/-- **Names of one kind** have one encoding, but for the confused ones. -/
theorem confused_of_ne {s : Str} {t : PlainType} (hkind : Kind.ofName s = t.kind)
    (hne : server.encoding s ≠ client.encoding t) : Confused server client s t := by
  have hplain : ∀ r, t.kind.representation? = some r → client.encoding t = .standard r →
      s = "signed".toList ∨ s = "signed int".toList := by
    intro r hr ht
    by_contra hsigned
    exact hne (encoding_eq_of_kind hkind hr ht hsigned)
  have hint8 : ∀ r, t.kind.representation? = some r → client.encoding t = .standard r →
      t.kind = .fixed .int8 := by
    intro r hr ht
    rw [← hkind]
    rcases hplain r hr ht with rfl | rfl <;> decide
  cases t with
  | bool => exact absurd (hint8 .bool rfl rfl) (by decide)
  | char => exact absurd (hint8 .char rfl rfl) (by decide)
  | float => exact absurd (hint8 .float rfl rfl) (by decide)
  | double => exact absurd (hint8 .double rfl rfl) (by decide)
  | string => exact .string (string_of_ofName hkind) trivial hne
  | integer signed rank =>
    cases rank with
    | char =>
      cases signed with
      | false => exact absurd (hint8 _ rfl rfl) (by decide)
      | true => exact .signed (hplain _ rfl rfl)
    | short => cases signed <;> exact absurd (hint8 _ rfl rfl) (by decide)
    | int => cases signed <;> exact absurd (hint8 _ rfl rfl) (by decide)
    | long => exact .wide (mem_wideNames (by cases signed <;> exact hkind)) (Or.inl rfl) hne
    | longLong => exact .wide (mem_wideNames (by cases signed <;> exact hkind)) (Or.inr rfl) hne
  | named c =>
    have hk : (PlainType.named c).kind = if IsBasicString (withoutCxx11 c.text)
        then .fixed .string else .other (withoutCxx11 c.text) := by
      rw [PlainType.kind, Kind.ofName, c.fresh]
    rw [hk] at hkind
    split at hkind
    · next hstring => exact .string (string_of_ofName hkind) hstring hne
    · obtain ⟨hname, hlookup, -⟩ := Kind.ofName_eq_other hkind
      exact .named hlookup hname hne

theorem lookup_eq_none_of_isBasicString {s : Str} (h : IsBasicString s) :
    specialNames.lookup s = none := by
  have htable : ∀ p ∈ specialNames, ¬ IsBasicString p.1 := by decide +kernel
  rw [List.lookup_eq_none_iff]
  intro p hp
  rw [bne_iff_ne]
  rintro rfl
  exact htable p hp h

/-- The confused ones are of one kind. -/
theorem Confused.ofName_eq {s : Str} {t : PlainType} (h : Confused server client s t) :
    Kind.ofName s = t.kind := by
  cases h with
  | signed hs => rcases hs with rfl | rfl <;> decide
  | @wide signed rank hs hrank hwidth =>
    have htable : ∀ signed : Bool, ∀ name ∈ wideNames signed,
        Kind.ofName name = if signed then .fixed .int64 else .fixed .uint64 := by decide +kernel
    rw [htable signed s hs]
    rcases hrank with rfl | rfl <;> cases signed <;> rfl
  | string hs ht hchars =>
    have hname : ∀ {s}, s = "std::string".toList ∨ IsBasicString s →
        Kind.ofName s = .fixed .string := by
      rintro s (rfl | hs)
      · decide
      · rw [Kind.ofName, lookup_eq_none_of_isBasicString hs]
        exact if_pos hs
    rw [hname hs]
    cases t with
    | string => rfl
    | named c => exact (hname (Or.inr ht)).symm
    | _ => exact ht.elim
  | named hs hc hlayout =>
    subst hc
    rfl

theorem Confused.ne {s : Str} {t : PlainType} (h : Confused server client s t) :
    server.encoding s ≠ client.encoding t := by
  cases h with
  | signed hs =>
    have htable : ∀ host : Host, ("signed".toList, .integer true 4) ∈ host.sourceTypes ∧
        ("signed int".toList, .integer true 4) ∈ host.sourceTypes := by
      intro host
      cases host <;> decide
    have henc : server.encoding s = .standard (.integer true 4) := by
      rcases hs with rfl | rfl
      · exact server.standard _ (htable server.host).1
      · exact server.standard _ (htable server.host).2
    rw [henc]
    intro h
    cases h
  | wide hs hrank hwidth => exact hwidth
  | string hs ht hchars => exact hchars
  | named hs hc hlayout => exact hlayout

/-- The same nesting, with a confused leaf. -/
inductive ConfusedIn (server : ServerBuild L) (client : ClientBuild L) :
    TypeExpr Str → TypeExpr PlainType → Prop
  | leaf {s : Str} {t : PlainType} (h : Confused server client s t) :
    ConfusedIn server client (.leaf s) (.leaf t)
  | vector {t : TypeExpr Str} {u : TypeExpr PlainType} (h : ConfusedIn server client t u) :
    ConfusedIn server client (.vector t) (.vector u)
  | array {t : TypeExpr Str} {u : TypeExpr PlainType} (n : ℕ) (h : ConfusedIn server client t u) :
    ConfusedIn server client (.array t n) (.array u n)

/-- The server decodes the type as the client encodes it. -/
def SameEncoding (server : ServerBuild L) (client : ClientBuild L) (t : TypeExpr Str)
    (u : TypeExpr PlainType) : Prop :=
  t.map server.encoding = u.map client.encoding

/-- Types of one kind have one encoding, unless they are confused. -/
theorem sameEncoding_iff {t : TypeExpr Str} {u : TypeExpr PlainType}
    (hkind : t.map Kind.ofName = u.map PlainType.kind) :
    SameEncoding server client t u ↔ ¬ ConfusedIn server client t u := by
  induction t generalizing u with
  | leaf s =>
    cases u with
    | leaf t =>
      have hkind' : Kind.ofName s = t.kind := TypeExpr.leaf.inj hkind
      constructor
      · rintro hsame (h | _ | _)
        exact h.ne (TypeExpr.leaf.inj hsame)
      · intro hnot
        by_contra hne
        exact hnot (.leaf (confused_of_ne hkind' fun h => hne (congrArg TypeExpr.leaf h)))
    | vector u => cases hkind
    | array u n => cases hkind
  | vector t ih =>
    cases u with
    | leaf s => cases hkind
    | vector u =>
      have ih := ih (TypeExpr.vector.inj hkind)
      constructor
      · rintro hsame (_ | h | _)
        exact ih.mp (TypeExpr.vector.inj hsame) h
      · intro hnot
        exact congrArg TypeExpr.vector (ih.mpr fun h => hnot (.vector h))
    | array u n => cases hkind
  | array t m ih =>
    cases u with
    | leaf s => cases hkind
    | vector u => cases hkind
    | array u n =>
      obtain ⟨helement, rfl⟩ := TypeExpr.array.inj hkind
      have ih := ih helement
      constructor
      · rintro hsame (_ | _ | ⟨_, h⟩)
        exact ih.mp (TypeExpr.array.inj hsame).1 h
      · intro hnot
        exact congrArg (TypeExpr.array · m) (ih.mpr fun h => hnot (.array m h))

end Builds

/-! ## The check and the encodings -/

/-- **The check passes** when there are as many arguments as declared, of the same nesting and of
the same kinds. -/
theorem checkArgTypes_eq_ok_iff_sameKind {table : OpTable} {id : ℕ} {e : OpEntry}
    (hfind : table.find id = some e) {declared : List DeclaredArg}
    (hargs : e.args = declared.map DeclaredArg.text) (given : List (GivenArg host)) :
    checkArgTypes (some table) id (given.map fun got => typeStr got.text) = .ok () ↔
      List.Forall₂ SameKind declared given := by
  rw [checkArgTypes_eq_ok_iff hfind, hargs, List.forall₂_map_left_iff, List.forall₂_map_right_iff]
  simp only [passes_iff]

/-- **What the check is good for.**  A call that passes it is decoded as it was encoded, unless
the types that it passes are of the declared kinds, and among these a name is taken for that of a
type that the server's compiler does not have for it. -/
theorem checkArgTypes_sound_iff {L : Type} (server : ServerBuild L) (client : ClientBuild L)
    {table : OpTable} {id : ℕ} {e : OpEntry} (hfind : table.find id = some e)
    {declared : List DeclaredArg} (hargs : e.args = declared.map DeclaredArg.text)
    (given : List (GivenArg client.host)) :
    (checkArgTypes (some table) id (given.map fun got => typeStr got.text) = .ok () →
      List.Forall₂ (fun want got => SameEncoding server client want.expr got.expr) declared given) ↔
    ¬ (List.Forall₂ SameKind declared given ∧
      ∃ p ∈ declared.zip given, ConfusedIn server client p.1.expr p.2.expr) := by
  rw [checkArgTypes_eq_ok_iff_sameKind hfind hargs]
  constructor
  · rintro hsound ⟨hkinds, ⟨want, got⟩, hmem, hconfused⟩
    have hkind : SameKind want got := (List.forall₂_iff_zip.mp hkinds).2 hmem
    have hsame := (List.forall₂_iff_zip.mp (hsound hkinds)).2 hmem
    exact (sameEncoding_iff hkind).mp hsame hconfused
  · intro hnot hkinds
    obtain ⟨hlen, hzip⟩ := List.forall₂_iff_zip.mp hkinds
    refine List.forall₂_iff_zip.mpr ⟨hlen, fun {want got} hmem => ?_⟩
    have hkind : SameKind want got := hzip hmem
    exact (sameEncoding_iff hkind).mpr fun h => hnot ⟨hkinds, _, hmem, h⟩

/-- A server with 64-bit addresses and no types of its own. -/
def probeServer : ServerBuild Unit where
  host := .bits64
  encoding := fun s => ((Host.bits64.sourceTypes.lookup s).map Encoding.standard).getD (.other ())
  standard := by decide +kernel

def probeClient : ClientBuild Unit := ⟨.bits64, fun _ => .other ()⟩

/-- A table with one operation. -/
def probeTable (arg : Str) : OpTable where
  ops := [⟨0, 0, 0, "Dac".toList, "set".toList, "void".toList, [arg]⟩]
  index := [(0, 0)]

theorem isLeaf_uint64 : IsLeaf "uint64_t".toList "uint64_t".toList := by
  apply IsFlatLeaf.isLeaf
  decide

theorem isLeaf_signedInt : IsLeaf "signed int".toList "int8_t".toList := by
  apply IsFlatLeaf.isLeaf
  decide

/-- `std::vector<uint64_t>` -/
def wantVector : DeclaredArg where
  text := "std::vector<".toList ++ [] ++ "uint64_t".toList ++ [] ++ ['>']
  expr := .vector (.leaf "uint64_t".toList)
  declares := .vector (.leaf ⟨rfl, _, isLeaf_uint64⟩) (fun c hc => absurd hc List.not_mem_nil)
    fun c hc => absurd hc List.not_mem_nil
  passes := by decide

/-- A `std::vector<unsigned long>`. -/
def gotVector : GivenArg probeClient.host where
  text := "std::vector<".toList ++ "unsigned long".toList ++ ", std::allocator<".toList
    ++ "unsigned long".toList ++ Host.gap "unsigned long".toList ++ "> >".toList
  expr := .vector (.leaf (.integer false .long))
  demangled := .vector (.leaf (by decide))

/-- The `uint64_t` of this server is the `unsigned long` of this client, and is taken for it. -/
theorem checkArgTypes_sound_vector :
    checkArgTypes (some (probeTable wantVector.text)) 0 ([gotVector].map fun got =>
        typeStr got.text) = .ok () ∧
      List.Forall₂ (fun want got => SameEncoding probeServer probeClient want.expr got.expr)
        [wantVector] [gotVector] := by
  have hargs : [wantVector.text] = [wantVector].map DeclaredArg.text := rfl
  have hleaf : Kind.ofName "uint64_t".toList = PlainType.kind (.integer false .long) := rfl
  have hkind : SameKind wantVector gotVector :=
    congrArg (fun k => TypeExpr.vector (TypeExpr.leaf k)) hleaf
  have hcheck : checkArgTypes (some (probeTable wantVector.text)) 0
      ([gotVector].map fun got => typeStr got.text) = .ok () :=
    (checkArgTypes_eq_ok_iff_sameKind rfl hargs _).mpr (.cons hkind .nil)
  refine ⟨hcheck, (checkArgTypes_sound_iff probeServer probeClient rfl hargs [gotVector]).mpr ?_
    hcheck⟩
  rintro ⟨-, p, hmem, hconfused⟩
  obtain rfl := List.mem_singleton.mp hmem
  have hencoding : probeServer.encoding "uint64_t".toList =
      probeClient.encoding (.integer false .long) := by decide
  cases hconfused with
  | vector h =>
    cases h with
    | leaf h => exact h.ne hencoding

/-- `signed int`, an `int` of 32 bits. -/
def wantSignedInt : DeclaredArg where
  text := "signed int".toList
  expr := .leaf "signed int".toList
  declares := .leaf ⟨rfl, _, isLeaf_signedInt⟩
  passes := by decide

/-- An `int8_t`. -/
def gotInt8 : GivenArg probeClient.host where
  text := "signed char".toList
  expr := .leaf (.integer true .char)
  demangled := .leaf (by decide)

/-- The check takes an `int8_t` for a `signed int`. -/
theorem not_forall_checkArgTypes_sound :
    ¬ ∀ (L : Type) (server : ServerBuild L) (client : ClientBuild L) (table : OpTable) (id : ℕ)
      (e : OpEntry) (declared : List DeclaredArg) (given : List (GivenArg client.host)),
      table.find id = some e → e.args = declared.map DeclaredArg.text →
      checkArgTypes (some table) id (given.map fun got => typeStr got.text) = .ok () →
        List.Forall₂ (fun want got => SameEncoding server client want.expr got.expr)
          declared given := by
  intro h
  have hconfused : Confused probeServer probeClient "signed int".toList (.integer true .char) :=
    .signed (Or.inr rfl)
  have hkind : SameKind wantSignedInt gotInt8 := congrArg TypeExpr.leaf hconfused.ofName_eq
  have hargs : [wantSignedInt.text] = [wantSignedInt].map DeclaredArg.text := rfl
  have hcheck : checkArgTypes (some (probeTable wantSignedInt.text)) 0
      ([gotInt8].map fun got => typeStr got.text) = .ok () :=
    (checkArgTypes_eq_ok_iff_sameKind rfl hargs _).mpr (.cons hkind .nil)
  have hsound := h Unit probeServer probeClient (probeTable wantSignedInt.text) 0 _ [wantSignedInt]
    [gotInt8] rfl rfl hcheck
  obtain ⟨hsame, -⟩ := List.forall₂_cons.mp hsound
  exact hconfused.ne (TypeExpr.leaf.inj hsame)

end OpDetail

end KoheronSdk
