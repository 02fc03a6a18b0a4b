import KoheronSdk.Lib.TextSearch
import Mathlib.Data.UInt

/-!
# The text of HTTP messages

The first part of a message: lines, each ended by CR LF, and a blank line.  A program reads a
message in pieces and has to tell whether this part is there as a whole, and how long it is.  Most
look for the first CR LF CR LF.

## Where the first part ends

The search is right for two reasons.  A line has neither a CR nor an LF in it, so that the only
place with both line ends one behind the other is the end of the part, whatever body comes behind
it (`offset?_blankLine`).  And a message that is cut short anywhere before has no such place
(`not_infix_blankLine`): not even a cut between the last CR and its LF looks like an end.

## Headers

A header has its name, its value, and blanks around the value that do not belong to it.  Names are
compared in whatever letters, and the condition `WellFormed` is that the line can be read back: no
colon in the name, no blank at either end of the value, and neither CR nor LF.

* `head`, `joined`: the lines with their ends, and with the last end left out.
* `offset?_blankLine`, `not_infix_blankLine`: where the part ends, and that it ends nowhere else.
* `Header`: a line with a name and a value, and the blanks around the value.
-/

namespace HttpText

open TextSearch

/-- The bytes of a string of ASCII characters. -/
def ascii (s : String) : List UInt8 := s.toList.map fun c => UInt8.ofNat c.toNat

/-- The end of a line. -/
def crlf : List UInt8 := [13, 10]

/-- The end of a line that is empty. -/
def blankLine : List UInt8 := [13, 10, 13, 10]

/-- A line: some bytes, no CR and no LF. -/
def IsLine (l : List UInt8) : Prop := l ≠ [] ∧ 13 ∉ l ∧ 10 ∉ l

instance (l : List UInt8) : Decidable (IsLine l) := inferInstanceAs (Decidable (_ ∧ _ ∧ _))

/-- Lines with their ends. -/
def ended (lines : List (List UInt8)) : List UInt8 := lines.flatMap (· ++ crlf)

/-- The first part of a message. -/
def head (lines : List (List UInt8)) : List UInt8 := ended lines ++ crlf

/-- Lines with their ends, but for the end of the last one. -/
def joined : List (List UInt8) → List UInt8
  | [] => []
  | [l] => l
  | l :: next :: lines => l ++ 13 :: 10 :: joined (next :: lines)

@[simp] theorem ended_nil : ended [] = [] := rfl

@[simp] theorem ended_cons (l : List UInt8) (lines : List (List UInt8)) :
    ended (l :: lines) = l ++ 13 :: 10 :: ended lines := by
  rw [ended, List.flatMap_cons, List.append_assoc]
  rfl

theorem head_cons (l : List UInt8) (lines : List (List UInt8)) :
    head (l :: lines) = l ++ 13 :: 10 :: head lines := by
  rw [head, ended_cons, List.append_assoc]
  rfl

theorem ended_eq_joined {lines : List (List UInt8)} (hne : lines ≠ []) :
    ended lines = joined lines ++ crlf := by
  induction lines with
  | nil => exact absurd rfl hne
  | cons l lines ih =>
    cases lines with
    | nil => rw [ended_cons]; rfl
    | cons next lines =>
      rw [ended_cons, ih (List.cons_ne_nil next lines), joined, List.append_assoc]
      rfl

theorem length_le_length_joined {lines : List (List UInt8)} (hlines : ∀ l ∈ lines, IsLine l) :
    lines.length ≤ (joined lines).length := by
  induction lines with
  | nil => exact Nat.zero_le _
  | cons l lines ih =>
    have hsome : 0 < l.length := List.length_pos_of_ne_nil (hlines l List.mem_cons_self).1
    have ih' := ih fun l' hl' => hlines l' (List.mem_cons_of_mem l hl')
    cases lines with
    | nil => exact hsome
    | cons next lines =>
      have hlength : (joined (l :: next :: lines)).length
          = l.length + ((joined (next :: lines)).length + 1 + 1) := List.length_append
      have hcount : (l :: next :: lines).length = (next :: lines).length + 1 := rfl
      omega

theorem two_le_length_ended {lines : List (List UInt8)} (hne : lines ≠ []) :
    2 ≤ (ended lines).length := by
  cases lines with
  | nil => exact absurd rfl hne
  | cons l lines =>
    rw [ended_cons, List.length_append, List.length_cons, List.length_cons]
    omega

/-- The first blank line is the end. -/
theorem offset?_blankLine {lines : List (List UInt8)} (hlines : ∀ l ∈ lines, IsLine l)
    (hne : lines ≠ []) (rest : List UInt8) :
    offset? blankLine (head lines ++ rest) = some ((ended lines).length - 2) := by
  induction lines with
  | nil => exact absurd rfl hne
  | cons l lines ih =>
    obtain ⟨-, hcr, -⟩ := hlines l List.mem_cons_self
    rw [head_cons, List.append_assoc, blankLine, offset?_append_of_notMem hcr, ended_cons,
      List.length_append, List.length_cons, List.length_cons]
    cases lines with
    | nil =>
      have hpre : [13, 10, 13, 10] <+: 13 :: 10 :: head [] ++ rest := List.prefix_append _ _
      rw [offset?_of_begins hpre, ended_nil, List.length_nil, Option.map_some]
      exact congrArg some (by omega)
    | cons next lines =>
      obtain ⟨hsome, hcr', -⟩ := hlines next (List.mem_cons_of_mem l List.mem_cons_self)
      obtain ⟨c, cs, rfl⟩ := List.exists_cons_of_ne_nil hsome
      have hc : (13 : UInt8) ≠ c := fun h => hcr' (h ▸ List.mem_cons_self)
      have hmore := two_le_length_ended (List.cons_ne_nil (c :: cs) lines)
      -- the line goes on behind this CR LF
      have hmiss : ¬ [13, 10, 13, 10] <+: 13 :: 10 :: (head ((c :: cs) :: lines) ++ rest) := by
        rw [head_cons, List.cons_append, List.cons_append, List.cons_prefix_cons,
          List.cons_prefix_cons, List.cons_prefix_cons]
        exact fun h => hc h.2.2.1
      have hmiss' : ¬ [13, 10, 13, 10] <+: 10 :: (head ((c :: cs) :: lines) ++ rest) := fun h =>
        absurd (List.cons_prefix_cons.mp h).1 (by decide)
      rw [List.cons_append, List.cons_append, offset?_cons_of_mismatch hmiss,
        offset?_cons_of_mismatch hmiss', ← blankLine,
        ih (fun l' hl' => hlines l' (List.mem_cons_of_mem l hl')) (List.cons_ne_nil _ _),
        Option.map_some, Option.map_some, Option.map_some]
      exact congrArg some (by omega)

/-- A message that is cut within its first part has no blank line. -/
theorem not_infix_blankLine {lines : List (List UInt8)} (hlines : ∀ l ∈ lines, IsLine l)
    (hne : lines ≠ []) {rest s : List UInt8} (hpre : s <+: head lines ++ rest)
    (hshort : s.length < (head lines).length) : ¬ blankLine <:+: s := by
  intro hinfix
  obtain ⟨t, ht⟩ := hpre
  have hwhole := offset?_blankLine hlines hne rest
  cases hfind : offset? blankLine s with
  | none => exact offset?_eq_none_iff.mp hfind hinfix
  | some k =>
    have hk := offset?_append_of_some hfind t
    rw [ht, hwhole] at hk
    obtain ⟨hle, hat, -⟩ := offset?_eq_some_iff.mp hfind
    have hroom := hat.length_le
    have hlength : (head lines).length = (ended lines).length + 2 := List.length_append
    have hmore := two_le_length_ended hne
    rw [List.length_drop] at hroom
    have hfour : blankLine.length = 4 := rfl
    have hk' := Option.some.inj hk
    omega

/-! ## Header lines -/

/-- The lower case of a letter. -/
def lower (b : UInt8) : UInt8 := if 65 ≤ b ∧ b ≤ 90 then b + 32 else b

/-- A blank. -/
def IsBlank (b : UInt8) : Prop := b = 32 ∨ b = 9

instance (b : UInt8) : Decidable (IsBlank b) := inferInstanceAs (Decidable (_ ∨ _))

theorem IsBlank.ne {b : UInt8} (h : IsBlank b) : b ≠ 13 ∧ b ≠ 10 := by
  rcases h with rfl | rfl <;> decide

/-- A header: its name, its value, and the blanks around the value. -/
structure Header where
  name : List UInt8
  before : List UInt8
  value : List UInt8
  after : List UInt8

namespace Header

/-- The line of a header. -/
def line (h : Header) : List UInt8 := h.name ++ 58 :: (h.before ++ (h.value ++ h.after))

/-- A header that can be read back from its line. -/
structure WellFormed (h : Header) : Prop where
  name : ∀ b ∈ h.name, b ≠ 13 ∧ b ≠ 10 ∧ b ≠ 58
  before : ∀ b ∈ h.before, IsBlank b
  value : ∀ b ∈ h.value, b ≠ 13 ∧ b ≠ 10
  after : ∀ b ∈ h.after, IsBlank b
  first : ∀ b ∈ h.value.head?, ¬ IsBlank b
  last : ∀ b ∈ h.value.getLast?, ¬ IsBlank b

instance (h : Header) : Decidable h.WellFormed :=
  @decidable_of_iff _ ((∀ b ∈ h.name, b ≠ 13 ∧ b ≠ 10 ∧ b ≠ 58) ∧ (∀ b ∈ h.before, IsBlank b) ∧
      (∀ b ∈ h.value, b ≠ 13 ∧ b ≠ 10) ∧ (∀ b ∈ h.after, IsBlank b) ∧
      (∀ b ∈ h.value.head?, ¬ IsBlank b) ∧ ∀ b ∈ h.value.getLast?, ¬ IsBlank b)
    ⟨fun ⟨name, before, value, after, first, last⟩ => ⟨name, before, value, after, first, last⟩,
      fun h => ⟨h.name, h.before, h.value, h.after, h.first, h.last⟩⟩
    (@instDecidableAnd _ _ (List.decidableBAll (fun b : UInt8 => b ≠ 13 ∧ b ≠ 10 ∧ b ≠ 58) h.name)
      (@instDecidableAnd _ _ (List.decidableBAll IsBlank h.before)
        (@instDecidableAnd _ _ (List.decidableBAll (fun b : UInt8 => b ≠ 13 ∧ b ≠ 10) h.value)
          (@instDecidableAnd _ _ (List.decidableBAll IsBlank h.after)
            (@instDecidableAnd _ _
              (@Option.decidableForallMem _ (fun b => ¬ IsBlank b) _ h.value.head?)
              (@Option.decidableForallMem _ (fun b => ¬ IsBlank b) _ h.value.getLast?))))))

/-- The name of a header, in whatever letters. -/
def Named (name : List UInt8) (h : Header) : Prop := h.name.map lower = name.map lower

instance (name : List UInt8) (h : Header) : Decidable (h.Named name) :=
  inferInstanceAs (Decidable (_ = _))

theorem Named.length_eq {name : List UInt8} {h : Header} (hnamed : h.Named name) :
    h.name.length = name.length := by
  have hmap := congrArg List.length (show h.name.map lower = name.map lower from hnamed)
  rwa [List.length_map, List.length_map] at hmap

theorem WellFormed.isLine {h : Header} (hwf : h.WellFormed) : IsLine h.line := by
  have hne : ∀ b ∈ h.line, b ≠ 13 ∧ b ≠ 10 := by
    intro b hb
    rcases List.mem_append.mp hb with hb | hb
    · exact ⟨(hwf.name b hb).1, (hwf.name b hb).2.1⟩
    · rcases List.mem_cons.mp hb with rfl | hb
      · decide
      · rcases List.mem_append.mp hb with hb | hb
        · exact (hwf.before b hb).ne
        · exact (List.mem_append.mp hb).elim (hwf.value b) fun hb => (hwf.after b hb).ne
  refine ⟨fun hnil => ?_, fun hcr => (hne 13 hcr).1 rfl, fun hlf => (hne 10 hlf).2 rfl⟩
  exact absurd (List.append_eq_nil_iff.mp hnil).2 (List.cons_ne_nil _ _)

end Header

end HttpText
