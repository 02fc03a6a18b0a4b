import Mathlib.Data.List.GetD
import KoheronSdk.Lib.HttpText
import KoheronSdk.Server.Action
import KoheronSdk.Server.Tcp

/-!
# The HTTP client

`koheron_http::get` of the C++ client: it reads until there is a blank line, takes the status and
the length from what is in front of it, and then as many bytes as the length says.

## The scan of the header lines

`header_value` does not split the text into lines and names.  It goes from line end to line end,
compares letter by letter with the name it looks for, and takes the rest of the line between blanks;
its positions run over the text and may pass a line end.  `headerValueFrom_line` is one step
of this, for a line that is a header as `Lib/HttpText` has it, and the value of a header is
found wherever it stands among the others.

## Any segmentation

`recv` may give any number of bytes.  The first loop collects what comes and searches all of it for
the blank line after each piece; that this finds the end of the header block, and neither sooner nor
later, is `offset?_blankLine` and `not_infix_blankLine`.  What came behind the blank line in the
same piece is the beginning of the body.  A stream that ends or fails before the whole response has
come leads to an error, wherever it is cut.

* `Response`: a response as RFC 7230 has it, with one `Content-Length`.
* `WellFormed.headerValue`: the scan of the header lines finds its value.
* `wp_receive`: a response that comes whole, and one that does not.
* `get_response`: `get` on every response, however it is cut.
-/

namespace KoheronSdk

open Effects TextSearch HttpText

namespace Http

/-! ## The code -/

/-- `HttpResponse` -/
structure HttpResponse where
  statusCode : ℤ
  body : List UInt8
  deriving DecidableEq

/-- What is returned, or the message of an `instrument_error`. -/
abbrev Outcome (α : Type) := Except (List UInt8) α

/-- A decimal digit. -/
def IsDigit (b : UInt8) : Prop := 48 ≤ b ∧ b ≤ 57

instance (b : UInt8) : Decidable (IsDigit b) := inferInstanceAs (Decidable (_ ∧ _))

/-- Nothing but digits. -/
def AllDigits (l : List UInt8) : Prop := ∀ b ∈ l, IsDigit b

instance (l : List UInt8) : Decidable (AllDigits l) := List.decidableBAll IsDigit l

/-- The number that decimal digits are. -/
def decimalOf (digits : List UInt8) : ℕ := digits.foldl (fun n b => 10 * n + (b.toNat - 48)) 0

/-- `isspace` -/
def isSpace (b : UInt8) : Bool := b = 32 || (9 ≤ b && b ≤ 13)

/-- The sign and the digits that `strtol` and `strtoull` read, from a string that ends before its
first NUL. -/
def signedDigits (s : List UInt8) : Bool × ℕ :=
  match (s.takeWhile (· ≠ 0)).dropWhile isSpace with
  | 45 :: t => (true, decimalOf (t.takeWhile (IsDigit ·)))
  | 43 :: t => (false, decimalOf (t.takeWhile (IsDigit ·)))
  | t => (false, decimalOf (t.takeWhile (IsDigit ·)))

/-- `std::strtol(s, nullptr, 10)` -/
def strtol (s : List UInt8) : ℤ :=
  let (negative, n) := signedDigits s
  if negative then max (-n) (-2 ^ 63) else min n (2 ^ 63 - 1)

/-- `std::strtoull(s, nullptr, 10)` -/
def strtoull (s : List UInt8) : ℕ :=
  let (negative, n) := signedDigits s
  if 2 ^ 64 - 1 ≤ n then 2 ^ 64 - 1 else if negative then (2 ^ 64 - n) % 2 ^ 64 else n

/-- `headers[i]` -/
def charAt (headers : List UInt8) (i : ℕ) : UInt8 := headers.getD i 0

/-- `while (v < eol && ...) v++`, with at most `left` steps -/
def skipBlanks (headers : List UInt8) (eol : ℕ) : ℕ → ℕ → ℕ
  | 0, v => v
  | left + 1, v =>
    if v < eol ∧ IsBlank (charAt headers v) then skipBlanks headers eol left (v + 1) else v

/-- `while (end > v && ...) end--` -/
def dropBlanks (headers : List UInt8) (v : ℕ) : ℕ → ℕ
  | 0 => 0
  | last + 1 =>
    if last + 1 > v ∧ IsBlank (charAt headers last) then dropBlanks headers v last else last + 1

/-- `headers.substr(v, end - v)`, after the blanks on both sides of the line's rest -/
def trimmed (headers : List UInt8) (eol v : ℕ) : List UInt8 :=
  let v := skipBlanks headers eol eol v
  let last := dropBlanks headers v eol
  (headers.drop v).take (last - v)

/-- The loop of `header_value`, from `pos` on. -/
def headerValueFrom (headers name : List UInt8) : ℕ → ℕ → Option (List UInt8)
  | 0, _ => none
  | fuel + 1, pos =>
    if pos < headers.length then
      let eol := (find headers crlf pos).getD headers.length
      if eol > pos + name.length + 1 ∧
          (∀ i < name.length, lower (charAt headers (pos + i)) = lower (charAt name i)) ∧
          charAt headers (pos + name.length) = 58 then
        some (trimmed headers eol (pos + name.length + 1))
      else headerValueFrom headers name fuel (eol + 2)
    else none

/-- `header_value` -/
def headerValue (headers name : List UInt8) : Option (List UInt8) :=
  headerValueFrom headers name (headers.length + 1) 0

/-- `send_all` -/
def sendAll (fd : SessionID) : ℕ → List UInt8 → Program (Outcome Unit)
  | 0, data => do
    if 0 < data.length then outOfFuel
    return .ok ()
  | fuel + 1, data => do
    if 0 < data.length then
      let n ← write fd data
      if n ≤ 0 then return .error (ascii "Cannot send request to koheron-server")
      else sendAll fd fuel (data.drop n.toNat)
    else return .ok ()

/-- The size of `buf`. -/
def bufSize : ℕ := 4096

/-- The loop that looks for the blank line: `raw` and `header_end`. -/
def recvHeader : ℕ → List UInt8 → Program (Outcome (List UInt8 × ℕ))
  | 0, raw => do
    outOfFuel
    return .ok (raw, 0)
  | fuel + 1, raw => do
    match ← read bufSize with
    | .negative => return .error (ascii "Cannot receive HTTP response from koheron-server")
    | .zero => return .error (ascii "Incomplete HTTP response from koheron-server")
    | .bytes bs =>
      let raw := raw ++ bs
      let headerEnd := offset? blankLine raw
      if raw.length > 2 ^ 20 then
        return .error (ascii "Malformed HTTP response from koheron-server")
      else headerEnd.elim (recvHeader fuel raw) fun headerEnd => return .ok (raw, headerEnd)

/-- The loop that reads a body of a given length. -/
def recvBody (expected : ℕ) : ℕ → List UInt8 → Program (Outcome (List UInt8))
  | 0, body => do
    if body.length < expected then outOfFuel
    return .ok body
  | fuel + 1, body => do
    if body.length < expected then
      match ← read bufSize with
      | .bytes bs => recvBody expected fuel (body ++ bs)
      | _ => return .error (ascii "Incomplete HTTP body from koheron-server")
    else return .ok body

/-- The loop that reads a body up to the end of the stream. -/
def recvToEnd : ℕ → List UInt8 → Program (List UInt8)
  | 0, body => do
    outOfFuel
    return body
  | fuel + 1, body => do
    match ← read bufSize with
    | .bytes bs => recvToEnd fuel (body ++ bs)
    | _ => return body

/-- The status line, taken apart: the status code, or none if it is malformed. -/
def statusOf (statusLine : List UInt8) : Option ℤ :=
  if statusLine.take 5 ≠ ascii "HTTP/" then none
  else (offset? [32] statusLine).map fun sp => toInt (strtol (statusLine.drop (sp + 1)))

/-- `get` when the request has been sent. -/
def receive (fuel : ℕ) : Program (Outcome HttpResponse) := do
  match ← recvHeader fuel [] with
  | .error e => return .error e
  | .ok (raw, headerEnd) =>
    let statusLine := raw.take ((offset? crlf raw).getD raw.length)
    match statusOf statusLine with
    | none =>
      return .error (ascii "Malformed HTTP status line from koheron-server: " ++ statusLine)
    | some statusCode =>
      let headers := raw.take headerEnd
      let body := raw.drop (headerEnd + 4)
      match headerValue headers (ascii "Content-Length") with
      | some contentLength =>
        match ← recvBody (strtoull contentLength) fuel body with
        | .error e => return .error e
        | .ok body => return .ok ⟨statusCode, body⟩
      | none =>
        let body ← recvToEnd fuel body
        return .ok ⟨statusCode, body⟩

/-- The request that `get` sends. -/
def requestText (host path : List UInt8) : List UInt8 :=
  ascii "GET " ++ path ++ ascii " HTTP/1.1" ++ crlf ++
  ascii "Host: " ++ host ++ crlf ++
  ascii "User-Agent: koheron-client-cpp" ++ crlf ++
  ascii "Connection: close" ++ crlf ++ crlf

/-- `get`, on what `tcp_connect` comes to -/
def get (fuel : ℕ) (fd : Outcome SessionID) (host path : List UInt8) :
    Program (Outcome HttpResponse) :=
  match fd with
  | .error e => return .error e
  | .ok fd => do
    let request := requestText host path
    match ← sendAll fd request.length request with
    | .error e => return .error e
    | .ok () => receive fuel

/-! ## The header lines -/

section HeaderLines

variable {front rest l name : List UInt8}

theorem charAt_append (front t : List UInt8) (i : ℕ) :
    charAt (front ++ t) (front.length + i) = charAt t i := by
  rw [charAt, charAt, List.getD_append_right _ _ _ _ (Nat.le_add_right _ _),
    Nat.add_sub_cancel_left]

theorem charAt_append_left {t : List UInt8} {i : ℕ} (h : i < l.length) :
    charAt (l ++ t) i = charAt l i := List.getD_append _ _ _ _ h

/-- The line is one of a header of this name, with something behind the colon. -/
def Matches (name l : List UInt8) : Prop :=
  name.length + 1 < l.length ∧ (l.take name.length).map lower = name.map lower ∧
    charAt l name.length = 58

/-- Comparing one character after the other. -/
theorem forall_lower_iff (h : name.length ≤ l.length) :
    (∀ i < name.length, lower (charAt l i) = lower (charAt name i)) ↔
      (l.take name.length).map lower = name.map lower := by
  have hlength : (l.take name.length).length = name.length := List.length_take_of_le h
  constructor
  · intro hall
    refine List.ext_getElem (by rw [List.length_map, List.length_map, hlength]) fun i hi hi' => ?_
    rw [List.length_map] at hi'
    have hi2 := hall i hi'
    rw [charAt, charAt, List.getD_eq_getElem _ _ (Nat.lt_of_lt_of_le hi' h),
      List.getD_eq_getElem _ _ hi'] at hi2
    rw [List.getElem_map, List.getElem_map, List.getElem_take, hi2]
  · intro heq i hi
    have hi2 := congrArg (fun t => t[i]?) heq
    simp only [List.getElem?_map, List.getElem?_take_of_lt hi] at hi2
    rw [List.getElem?_eq_getElem (Nat.lt_of_lt_of_le hi h), List.getElem?_eq_getElem hi,
      Option.map_some, Option.map_some, Option.some.injEq] at hi2
    rw [charAt, charAt, List.getD_eq_getElem _ _ (Nat.lt_of_lt_of_le hi h),
      List.getD_eq_getElem _ _ hi, hi2]

/-- Where a line ends. -/
theorem find_crlf (hl : IsLine l) (hrest : rest = [] ∨ crlf <+: rest) :
    (find (front ++ (l ++ rest)) crlf front.length).getD (front ++ (l ++ rest)).length
      = front.length + l.length := by
  rw [find, List.drop_left, crlf, offset?_append_of_notMem hl.2.1]
  rcases hrest with rfl | hpre
  · rw [offset?, if_neg (List.cons_ne_nil _ _), Option.map_none, Option.map_none, Option.getD_none,
      List.append_nil, List.length_append]
  · rw [← crlf, offset?_of_begins hpre, Option.map_some, Option.map_some, Option.getD_some,
      Nat.zero_add]

/-- **One line**: the value behind the name, or on to the next line. -/
theorem headerValueFrom_line (hl : IsLine l) (hrest : rest = [] ∨ crlf <+: rest) (fuel : ℕ) :
    (¬ Matches name l → headerValueFrom (front ++ (l ++ rest)) name (fuel + 1) front.length
      = headerValueFrom (front ++ (l ++ rest)) name fuel (front.length + l.length + 2)) ∧
    (Matches name l → headerValueFrom (front ++ (l ++ rest)) name (fuel + 1) front.length
      = some (trimmed (front ++ (l ++ rest)) (front.length + l.length)
          (front.length + name.length + 1))) := by
  have hpos : front.length < (front ++ (l ++ rest)).length := by
    have hsome := List.length_pos_of_ne_nil hl.1
    rw [List.length_append, List.length_append]
    omega
  have hiff : (front.length + l.length > front.length + name.length + 1 ∧
      (∀ i < name.length, lower (charAt (front ++ (l ++ rest)) (front.length + i))
        = lower (charAt name i)) ∧
      charAt (front ++ (l ++ rest)) (front.length + name.length) = 58) ↔ Matches name l := by
    have hlong : front.length + l.length > front.length + name.length + 1
        ↔ name.length + 1 < l.length := by omega
    rw [Matches, hlong]
    refine and_congr_right fun hlt => ?_
    rw [charAt_append, charAt_append_left (by omega), ← forall_lower_iff (by omega)]
    refine and_congr_left fun _ => forall_congr' fun i => imp_congr_right fun hi => ?_
    rw [charAt_append, charAt_append_left (by omega)]
  rw [headerValueFrom, if_pos hpos, find_crlf hl hrest]
  constructor
  · intro hmiss
    exact if_neg (mt hiff.mp hmiss)
  · intro hmatch
    exact if_pos (hiff.mpr hmatch)

/-! ### The value of a header -/

theorem skipBlanks_append {blanks t : List UInt8} {eol left : ℕ}
    (hblanks : ∀ b ∈ blanks, IsBlank b) (hnext : ∀ b ∈ t.head?, ¬ IsBlank b)
    (hleft : blanks.length ≤ left) (heol : front.length + blanks.length ≤ eol)
    (hstop : t = [] → eol = front.length + blanks.length) :
    skipBlanks (front ++ (blanks ++ t)) eol left front.length = front.length + blanks.length := by
  induction blanks generalizing front left with
  | nil =>
    cases left with
    | zero => rfl
    | succ left =>
      rw [skipBlanks, if_neg, List.length_nil, Nat.add_zero]
      rintro ⟨hlt, hblank⟩
      cases t with
      | nil => exact absurd (hstop rfl) (by rw [List.length_nil]; omega)
      | cons b t =>
        have hb : charAt (front ++ ([] ++ b :: t)) front.length = b :=
          charAt_append front (b :: t) 0
        exact hnext b rfl (hb ▸ hblank)
  | cons b blanks ih =>
    obtain ⟨left, rfl⟩ : ∃ left', left = left' + 1 := ⟨left - 1, by
      rw [List.length_cons] at hleft
      omega⟩
    have hb : charAt (front ++ (b :: blanks ++ t)) front.length = b :=
      charAt_append front (b :: blanks ++ t) 0
    have hcons : front ++ (b :: blanks ++ t) = (front ++ [b]) ++ (blanks ++ t) := by
      rw [List.append_assoc]
      rfl
    have hfront : (front ++ [b]).length = front.length + 1 := List.length_append
    rw [List.length_cons] at heol hstop hleft
    rw [skipBlanks, if_pos ⟨by omega, hb.symm ▸ hblanks b List.mem_cons_self⟩, hcons, ← hfront,
      ih (fun c hc => hblanks c (List.mem_cons_of_mem b hc)) (by omega) (by omega)
        (fun ht => by rw [hstop ht]; omega), hfront, List.length_cons]
    omega

theorem dropBlanks_append {core blanks t : List UInt8} {v : ℕ}
    (hblanks : ∀ b ∈ blanks, IsBlank b) (hlast : ∀ b ∈ core.getLast?, ¬ IsBlank b)
    (hv : v < core.length) :
    dropBlanks (core ++ (blanks ++ t)) v (core.length + blanks.length) = core.length := by
  induction blanks using List.reverseRecOn generalizing t with
  | nil =>
    obtain ⟨c, cs, rfl⟩ : ∃ cs c, core = cs ++ [c] :=
      ⟨_, _, (List.dropLast_append_getLast (List.ne_nil_of_length_pos (by omega))).symm⟩
    have hc : charAt (c ++ [cs] ++ ([] ++ t)) c.length = cs := by
      rw [List.append_assoc]
      exact charAt_append c ([cs] ++ ([] ++ t)) 0
    rw [List.length_nil, Nat.add_zero, List.length_append, List.length_singleton, dropBlanks,
      if_neg]
    rintro ⟨-, hblank⟩
    exact hlast cs (by simp) (hc ▸ hblank)
  | append_singleton blanks b ih =>
    have hb : charAt (core ++ (blanks ++ [b] ++ t)) (core.length + blanks.length) = b := by
      rw [List.append_assoc, ← List.append_assoc core, ← List.length_append]
      exact charAt_append (core ++ blanks) ([b] ++ t) 0
    rw [List.length_append, List.length_singleton, ← Nat.add_assoc, dropBlanks,
      if_pos ⟨by omega, hb.symm ▸ hblanks b (by simp)⟩, List.append_assoc blanks]
    exact ih fun c hc => hblanks c (List.mem_append_left _ hc)

theorem trimmed_line {before value after : List UInt8} (hbefore : ∀ b ∈ before, IsBlank b)
    (hafter : ∀ b ∈ after, IsBlank b) (hfirst : ∀ b ∈ value.head?, ¬ IsBlank b)
    (hlast : ∀ b ∈ value.getLast?, ¬ IsBlank b) (hne : value ≠ []) :
    trimmed (front ++ (before ++ (value ++ (after ++ rest))))
      (front.length + before.length + value.length + after.length) front.length = value := by
  have hvalue : 0 < value.length := List.length_pos_of_ne_nil hne
  have hskip : skipBlanks (front ++ (before ++ (value ++ (after ++ rest))))
      (front.length + before.length + value.length + after.length)
      (front.length + before.length + value.length + after.length) front.length
        = front.length + before.length := by
    refine skipBlanks_append hbefore ?_ (by omega) (by omega) fun hnil => ?_
    · obtain ⟨c, cs, rfl⟩ := List.exists_cons_of_ne_nil hne
      exact hfirst
    · exact absurd (List.append_eq_nil_iff.mp hnil).1 hne
  have hcore : front ++ (before ++ (value ++ (after ++ rest)))
      = (front ++ before ++ value) ++ (after ++ rest) := by
    simp only [List.append_assoc]
  have hlength : (front ++ before ++ value).length
      = front.length + before.length + value.length := by
    rw [List.length_append, List.length_append]
  have hdrop : dropBlanks (front ++ (before ++ (value ++ (after ++ rest))))
      (front.length + before.length) (front.length + before.length + value.length + after.length)
        = front.length + before.length + value.length := by
    rw [hcore, ← hlength]
    refine dropBlanks_append hafter ?_ (by rw [hlength]; omega)
    rw [List.getLast?_append_of_ne_nil _ hne]
    exact hlast
  rw [trimmed, hskip, hdrop, ← List.append_assoc, ← List.length_append, List.drop_left,
    Nat.add_sub_cancel_left, List.take_left]

/-! ### The lines of the header block -/

/-- A line of a header that is found. -/
theorem matches_line {h : Header} (hnamed : h.Named name) (hvalue : h.value ≠ []) :
    Matches name h.line := by
  have hlength := hnamed.length_eq
  have hsome := List.length_pos_of_ne_nil hvalue
  refine ⟨?_, ?_, ?_⟩
  · rw [Header.line, List.length_append, List.length_cons, List.length_append, List.length_append]
    omega
  · rw [Header.line, ← hlength, List.take_left]
    exact hnamed
  · rw [Header.line, ← hlength]
    exact charAt_append h.name (58 :: (h.before ++ (h.value ++ h.after))) 0

theorem lower_eq_colon {b : UInt8} (h : lower b = 58) : b = 58 := by
  unfold lower at h
  split at h
  · grind
  · exact h

/-- Only the headers of this name are found: a name has no colon. -/
theorem named_of_matches {h : Header} (hwf : h.WellFormed) (hcolon : 58 ∉ name)
    (hmatch : Matches name h.line) : h.Named name := by
  obtain ⟨-, htake, hat⟩ := hmatch
  rw [Header.line] at htake hat
  have hge : name.length ≤ h.name.length := by
    by_contra hlt
    -- the colon would be within the name that is looked for
    have hmem : (58 : UInt8) ∈ (h.name ++ 58 :: (h.before ++ (h.value ++ h.after))).take
        name.length := by
      refine List.mem_take_iff_getElem.mpr ⟨h.name.length, ?_, ?_⟩
      · rw [List.length_append, List.length_cons]
        omega
      · rw [List.getElem_append_right le_rfl]
        simp only [Nat.sub_self, List.getElem_cons_zero]
    have hlower : (58 : UInt8) ∈ name.map lower := htake ▸ List.mem_map.mpr ⟨58, hmem, rfl⟩
    obtain ⟨b, hb, hb58⟩ := List.mem_map.mp hlower
    exact hcolon (lower_eq_colon hb58 ▸ hb)
  have hle : h.name.length ≤ name.length := by
    by_contra hlt
    rw [charAt_append_left (by omega), charAt, List.getD_eq_getElem _ _ (by omega)] at hat
    exact (hwf.name _ (List.getElem_mem _)).2.2 hat
  have hlength : name.length = h.name.length := Nat.le_antisymm hge hle
  rw [hlength, List.take_left] at htake
  exact htake

/-- What is behind the first line. -/
theorem joined_cons_eq (l : List UInt8) (lines : List (List UInt8)) :
    ∃ rest, joined (l :: lines) = l ++ rest ∧ (rest = [] ∨ crlf <+: rest) ∧
      (lines ≠ [] → rest = crlf ++ joined lines) := by
  cases lines with
  | nil => exact ⟨[], (List.append_nil l).symm, Or.inl rfl, fun hne => absurd rfl hne⟩
  | cons next lines =>
    exact ⟨crlf ++ joined (next :: lines), rfl, Or.inr (List.prefix_append _ _), fun _ => rfl⟩

/-- **The value of a header,** when no line before it is one of the same name. -/
theorem headerValueFrom_joined {lines lines' : List (List UInt8)} {h : Header}
    (hlines : ∀ l ∈ lines, IsLine l) (hmiss : ∀ l ∈ lines, ¬ Matches name l)
    (hwf : h.WellFormed) (hnamed : h.Named name) (hvalue : h.value ≠ []) {fuel : ℕ}
    (hfuel : lines.length < fuel) :
    headerValueFrom (front ++ joined (lines ++ h.line :: lines')) name fuel front.length
      = some h.value := by
  induction lines generalizing front fuel with
  | nil =>
    obtain ⟨fuel, rfl⟩ : ∃ f, fuel = f + 1 := ⟨fuel - 1, by
      rw [List.length_nil] at hfuel
      omega⟩
    obtain ⟨rest, hjoined, hrest, -⟩ := joined_cons_eq h.line lines'
    have hmatch := matches_line hnamed hvalue
    have hlength := hnamed.length_eq
    have htext : front ++ (h.line ++ rest)
        = (front ++ h.name ++ [58]) ++ (h.before ++ (h.value ++ (h.after ++ rest))) := by
      simp only [Header.line, List.append_assoc, List.cons_append, List.nil_append]
    have hfront : (front ++ h.name ++ [58]).length = front.length + name.length + 1 := by
      rw [List.length_append, List.length_append, List.length_singleton, hlength]
    have heol : front.length + h.line.length = (front ++ h.name ++ [58]).length + h.before.length
        + h.value.length + h.after.length := by
      rw [Header.line, List.length_append, List.length_cons, List.length_append,
        List.length_append, hfront, hlength]
      omega
    rw [List.nil_append, hjoined, (headerValueFrom_line hwf.isLine hrest fuel).2 hmatch, heol,
      ← hfront, htext,
      trimmed_line hwf.before hwf.after hwf.first hwf.last hvalue]
  | cons l lines ih =>
    obtain ⟨fuel, rfl⟩ : ∃ f, fuel = f + 1 := ⟨fuel - 1, by
      rw [List.length_cons] at hfuel
      omega⟩
    rw [List.length_cons] at hfuel
    obtain ⟨rest, hjoined, hrest, hmore⟩ := joined_cons_eq l (lines ++ h.line :: lines')
    have hnext : rest = crlf ++ joined (lines ++ h.line :: lines') :=
      hmore fun hnil => absurd (List.append_eq_nil_iff.mp hnil).2 (List.cons_ne_nil _ _)
    have htext : front ++ (l ++ rest)
        = (front ++ l ++ crlf) ++ joined (lines ++ h.line :: lines') := by
      rw [hnext]
      simp only [List.append_assoc]
    have hfront : (front ++ l ++ crlf).length = front.length + l.length + 2 := by
      rw [List.length_append, List.length_append]
      rfl
    rw [List.cons_append, hjoined, (headerValueFrom_line (hlines l List.mem_cons_self) hrest fuel).1
      (hmiss l List.mem_cons_self), htext, ← hfront]
    exact ih (fun l' hl' => hlines l' (List.mem_cons_of_mem l hl'))
      (fun l' hl' => hmiss l' (List.mem_cons_of_mem l hl')) (by omega)

end HeaderLines

/-! ## Numbers -/

theorem isSpace_of_isDigit {b : UInt8} (h : IsDigit b) : isSpace b = false := by
  obtain ⟨hlow, hhigh⟩ := h
  unfold isSpace
  grind

/-- The digits in front are read. -/
theorem signedDigits_append {digits rest : List UInt8} (hdigits : AllDigits digits)
    (hne : digits ≠ []) (hrest : ∀ b ∈ rest.head?, ¬ IsDigit b) :
    signedDigits (digits ++ rest) = (false, decimalOf digits) := by
  have hzero : ∀ b ∈ digits, decide (b ≠ 0) = true := by
    intro b hb
    obtain ⟨hlow, -⟩ := hdigits b hb
    grind
  have hcut : (digits ++ rest).takeWhile (· ≠ 0) = digits ++ rest.takeWhile (· ≠ 0) :=
    List.takeWhile_append_of_pos hzero
  have hstop : ∀ b ∈ (rest.takeWhile (· ≠ 0)).head?, ¬ IsDigit b := by
    intro b hb
    cases rest with
    | nil => cases hb
    | cons c rest =>
      rw [List.takeWhile_cons] at hb
      split at hb
      · exact hrest b hb
      · cases hb
  have htake : (digits ++ rest.takeWhile (· ≠ 0)).takeWhile (IsDigit ·) = digits := by
    have hall : ∀ b ∈ digits, decide (IsDigit b) = true := fun b hb => decide_eq_true (hdigits b hb)
    rw [List.takeWhile_append_of_pos hall]
    cases hr : rest.takeWhile (· ≠ 0) with
    | nil => rw [List.takeWhile_nil, List.append_nil]
    | cons c cs =>
      have hc : ¬ IsDigit c := hstop c (by rw [hr]; rfl)
      rw [List.takeWhile_cons, decide_eq_false hc]
      exact List.append_nil digits
  obtain ⟨d, ds, rfl⟩ := List.exists_cons_of_ne_nil hne
  have hd := hdigits d List.mem_cons_self
  have hdrop : ((d :: ds) ++ rest.takeWhile (· ≠ 0)).dropWhile isSpace
      = (d :: ds) ++ rest.takeWhile (· ≠ 0) := by
    rw [List.cons_append, List.dropWhile_cons_of_neg]
    rw [isSpace_of_isDigit hd]
    exact Bool.false_ne_true
  have hminus : d ≠ 45 := by
    rintro rfl
    exact absurd hd.1 (by decide)
  have hplus : d ≠ 43 := by
    rintro rfl
    exact absurd hd.1 (by decide)
  rw [signedDigits, hcut, hdrop]
  split
  case h_1 heq => exact absurd (List.cons.inj heq).1 hminus
  case h_2 heq => exact absurd (List.cons.inj heq).1 hplus
  case h_3 => rw [htake]

/-- `strtoull` reads back a number of 64 bits. -/
theorem strtoull_digits {digits : List UInt8} (hdigits : AllDigits digits)
    (hne : digits ≠ []) (hlt : decimalOf digits < 2 ^ 64) : strtoull digits = decimalOf digits := by
  have hsigned : signedDigits (digits ++ []) = (false, decimalOf digits) :=
    signedDigits_append hdigits hne fun b hb => by cases hb
  rw [List.append_nil] at hsigned
  rw [strtoull, hsigned]
  by_cases hmax : 2 ^ 64 - 1 ≤ decimalOf digits
  · exact (if_pos hmax).trans (by omega)
  · exact if_neg hmax

theorem decimalOf_lt {digits : List UInt8} (hdigits : AllDigits digits) :
    decimalOf digits < 10 ^ digits.length := by
  induction digits using List.reverseRecOn with
  | nil => decide
  | append_singleton digits b ih =>
    have hb : b.toNat ≤ 57 := (hdigits b (by simp)).2
    have ih' := ih fun c hc => hdigits c (List.mem_append_left _ hc)
    rw [decimalOf, List.foldl_append, ← decimalOf, List.foldl_cons, List.foldl_nil,
      List.length_append, List.length_singleton, pow_succ]
    omega

/-! ## Responses -/

/-- The name of the header with the length of the body. -/
def contentLength : List UInt8 := ascii "Content-Length"

/-- A response: the parts of its status line, its headers, and its body. -/
structure Response where
  version : List UInt8
  code : List UInt8
  reason : List UInt8
  headers : List Header
  body : List UInt8

namespace Response

variable (r : Response)

/-- The status line. -/
def statusLine : List UInt8 := ascii "HTTP/" ++ (r.version ++ 32 :: (r.code ++ r.reason))

/-- The lines in front of the blank line. -/
def lines : List (List UInt8) := r.statusLine :: r.headers.map Header.line

/-- The bytes of the response. -/
def text : List UInt8 := head r.lines ++ r.body

/-- A well-formed response: a code of three digits, and one `Content-Length`, the length of the
body, which is one that a `size_t` has. -/
structure WellFormed : Prop where
  version : 13 ∉ r.version ∧ 10 ∉ r.version ∧ 32 ∉ r.version
  code : r.code.length = 3 ∧ AllDigits r.code
  reason : (r.reason = [] ∨ r.reason.head? = some 32) ∧ 13 ∉ r.reason ∧ 10 ∉ r.reason
  headers : ∀ h ∈ r.headers, h.WellFormed
  length : ∃ digits, (r.headers.filter fun h => h.Named contentLength).map Header.value = [digits] ∧
    digits ≠ [] ∧ AllDigits digits ∧ decimalOf digits = r.body.length
  room : (head r.lines).length ≤ 2 ^ 20 - 4096
  body : r.body.length < 2 ^ 64

variable {r}

theorem WellFormed.isLine_statusLine (hr : r.WellFormed) : IsLine r.statusLine := by
  have hascii : 13 ∉ ascii "HTTP/" ∧ 10 ∉ ascii "HTTP/" := by decide
  have hall : ∀ b ∈ r.statusLine, b ≠ 13 ∧ b ≠ 10 := by
    intro b hb
    rcases List.mem_append.mp hb with hb | hb
    · exact ⟨fun h => hascii.1 (h ▸ hb), fun h => hascii.2 (h ▸ hb)⟩
    · rcases List.mem_append.mp hb with hb | hb
      · exact ⟨fun h => hr.version.1 (h ▸ hb), fun h => hr.version.2.1 (h ▸ hb)⟩
      · rcases List.mem_cons.mp hb with rfl | hb
        · decide
        · rcases List.mem_append.mp hb with hb | hb
          · obtain ⟨hlow, -⟩ := hr.code.2 b hb
            constructor <;> rintro rfl <;> exact absurd hlow (by decide)
          · exact ⟨fun h => hr.reason.2.1 (h ▸ hb), fun h => hr.reason.2.2 (h ▸ hb)⟩
  refine ⟨fun hnil => ?_, fun hcr => (hall 13 hcr).1 rfl, fun hlf => (hall 10 hlf).2 rfl⟩
  exact absurd (List.append_eq_nil_iff.mp hnil).1 (by decide)

theorem WellFormed.isLine (hr : r.WellFormed) : ∀ l ∈ r.lines, IsLine l := by
  intro l hl
  rcases List.mem_cons.mp hl with rfl | hl
  · exact hr.isLine_statusLine
  · obtain ⟨h, hh, rfl⟩ := List.mem_map.mp hl
    exact (hr.headers h hh).isLine

theorem lines_ne_nil : r.lines ≠ [] := List.cons_ne_nil _ _

/-- The status code is read from the status line. -/
theorem WellFormed.statusOf (hr : r.WellFormed) :
    statusOf r.statusLine = some (decimalOf r.code : ℤ) := by
  obtain ⟨hthree, hdigits⟩ := hr.code
  have hne : r.code ≠ [] := List.ne_nil_of_length_pos (by omega)
  have hstart : r.statusLine.take 5 = ascii "HTTP/" := rfl
  have hspace : offset? [32] r.statusLine = some (5 + r.version.length) := by
    have hascii : (32 : UInt8) ∉ ascii "HTTP/" := by decide
    have hversion : (32 : UInt8) ∉ r.version := hr.version.2.2
    have hpre : [32] <+: 32 :: (r.code ++ r.reason) := List.prefix_append [32] _
    rw [statusLine, offset?_append_of_notMem hascii, offset?_append_of_notMem hversion,
      offset?_of_begins hpre, Option.map_some, Option.map_some]
    exact congrArg some (by rw [show (ascii "HTTP/").length = 5 from rfl]; omega)
  have hdrop : r.statusLine.drop (5 + r.version.length + 1) = r.code ++ r.reason := by
    have hfront : r.statusLine = (ascii "HTTP/" ++ r.version ++ [32]) ++ (r.code ++ r.reason) := by
      simp only [statusLine, List.append_assoc, List.cons_append, List.nil_append]
    have hlength : (ascii "HTTP/" ++ r.version ++ [32]).length = 5 + r.version.length + 1 := by
      rw [List.length_append, List.length_append]
      rfl
    rw [hfront, ← hlength, List.drop_left]
  have hafter : ∀ b ∈ r.reason.head?, ¬ IsDigit b := by
    intro b hb hdigit
    rcases hr.reason.1 with hnil | hspace
    · rw [hnil] at hb
      cases hb
    · obtain rfl := Option.some.inj (hspace.symm.trans hb)
      exact absurd hdigit.1 (by decide)
  have hlt : decimalOf r.code < 1000 := by
    have h := decimalOf_lt hdigits
    rwa [hthree] at h
  have hstrtol : strtol (r.code ++ r.reason) = (decimalOf r.code : ℤ) := by
    rw [strtol, signedDigits_append hdigits hne hafter]
    exact (if_neg Bool.false_ne_true).trans (min_eq_left (by omega))
  rw [Http.statusOf, if_neg (not_not.mpr hstart), hspace, Option.map_some, hdrop, hstrtol,
    toInt_of_lt (by omega)]

/-- **The length of the body is found,** wherever its header is among the headers. -/
theorem WellFormed.headerValue (hr : r.WellFormed) :
    ∃ digits, headerValue (joined r.lines) contentLength = some digits ∧
      strtoull digits = r.body.length := by
  obtain ⟨digits, hfilter, hne, hdigits, hlength⟩ := hr.length
  obtain ⟨h, hh, hvalue⟩ : ∃ h, (r.headers.filter fun h => h.Named contentLength) = [h] ∧
      h.value = digits := by
    obtain ⟨h, hs, hcons, hv, hnil⟩ := List.map_eq_cons_iff.mp hfilter
    exact ⟨h, by rw [hcons, List.map_eq_nil_iff.mp hnil], hv⟩
  obtain ⟨before, after, hheaders, hbefore⟩ : ∃ before after, r.headers = before ++ h :: after ∧
      ∀ h' ∈ before, ¬ h'.Named contentLength := by
    obtain ⟨before, after, hheaders, hbefore, -, -⟩ := List.filter_eq_cons_iff.mp hh
    exact ⟨before, after, hheaders, fun h' hh' hn => hbefore h' hh' (decide_eq_true hn)⟩
  have hmem : h ∈ r.headers.filter fun h => h.Named contentLength := hh ▸ List.mem_singleton_self h
  have hnamed : h.Named contentLength := of_decide_eq_true (List.mem_filter.mp hmem).2
  have hwf := hr.headers h (List.mem_filter.mp hmem).1
  have hlines : r.lines = (r.statusLine :: before.map Header.line) ++ h.line ::
      after.map Header.line := by
    rw [lines, hheaders, List.map_append, List.map_cons, List.cons_append]
  have hbeforeLines : ∀ l ∈ r.statusLine :: before.map Header.line, l ∈ r.lines := by
    intro l hl
    rw [hlines]
    exact List.mem_append_left _ hl
  have hmiss : ∀ l ∈ r.statusLine :: before.map Header.line, ¬ Matches contentLength l := by
    intro l hl hmatch
    rcases List.mem_cons.mp hl with rfl | hl
    · -- the status line begins with another letter
      have hhead : some (lower 72) = some (lower 67) := congrArg List.head? hmatch.2.1
      exact absurd hhead (by decide)
    · obtain ⟨h', hh', rfl⟩ := List.mem_map.mp hl
      refine hbefore h' hh' (named_of_matches (hr.headers h' ?_) (by decide) hmatch)
      rw [hheaders]
      exact List.mem_append_left _ hh'
  refine ⟨h.value, ?_, ?_⟩
  · have hfuel : (r.statusLine :: before.map Header.line).length < (joined r.lines).length + 1 := by
      have hcount := length_le_length_joined hr.isLine
      rw [hlines, List.length_append] at hcount
      rw [hlines]
      omega
    have hscan : headerValueFrom ([] ++ joined ((r.statusLine :: before.map Header.line) ++
        h.line :: after.map Header.line)) contentLength ((joined r.lines).length + 1) 0
          = some h.value :=
      headerValueFrom_joined (fun l hl => hr.isLine l (hbeforeLines l hl)) hmiss hwf hnamed
        (hvalue ▸ hne) hfuel
    rw [← hlines] at hscan
    exact hscan
  · rw [hvalue, strtoull_digits hdigits hne (hlength ▸ hr.body), hlength]

end Response

/-! ## Sending and receiving -/

section Rules

variable {drivers : List Driver} {env : Env} {w : View} {fuel : ℕ}

/-- The request is sent, or an error is raised. -/
theorem wp_sendAll {fd : SessionID} {data : List UInt8} (hfuel : data.length ≤ fuel)
    {post : Result Stop View (Outcome Unit) → Prop}
    (hsent : ∀ w', w'.input = w.input → w'.ending = w.ending → post (.ret (.ok ()) w'))
    (hfailed : ∀ bs n, bs ≠ [] → env.write bs n → n ≤ 0 → ∀ e w', post (.ret (.error e) w')) :
    (session drivers env).wp (sendAll fd fuel data) post w := by
  induction fuel generalizing data w with
  | zero =>
    rw [sendAll, if_neg (by omega)]
    exact hsent w rfl rfl
  | succ fuel ih =>
    rw [sendAll]
    by_cases hmore : 0 < data.length
    · rw [if_pos hmore, Handler.wp_bind, wp_write]
      intro n hlow hhigh hn
      rw [Handler.andThen_ret]
      by_cases hnone : n ≤ 0
      · rw [if_pos hnone]
        exact hfailed data n (List.ne_nil_of_length_pos hmore) hn hnone _ _
      · rw [if_neg hnone]
        refine ih ?_ hsent
        rw [List.length_drop]
        omega
    · rw [if_neg hmore]
      exact hsent w rfl rfl

/-- **The end of the header block,** wherever the stream is cut. -/
theorem wp_recvHeader {raw rest : List UInt8} {lines : List (List UInt8)}
    (hlines : ∀ l ∈ lines, IsLine l) (hne : lines ≠ [])
    (hroom : (head lines).length ≤ 2 ^ 20 - 4096)
    (hpre : raw ++ w.input <+: head lines ++ rest) (hshort : raw.length < (head lines).length)
    (hfuel : w.input.length < fuel)
    (hwaiting : (raw ++ w.input).length < (head lines).length → w.ending ≠ .waiting)
    {post : Result Stop View (Outcome (List UInt8 × ℕ)) → Prop}
    (hfound : ∀ k ≤ w.input.length, (head lines).length ≤ raw.length + k →
      post (.ret (.ok (raw ++ w.input.take k, (ended lines).length - 2)) (w.advance k)))
    (hcut : (raw ++ w.input).length < (head lines).length → ∀ e w', post (.ret (.error e) w')) :
    (session drivers env).wp (recvHeader fuel raw) post w := by
  induction fuel generalizing raw w with
  | zero => omega
  | succ fuel ih =>
    have hbuf : 0 < bufSize := by decide
    rw [recvHeader, Handler.wp_bind]
    by_cases hin : w.input = []
    · rw [hin, List.append_nil] at hcut hwaiting
      rw [wp_read_nil hbuf hin]
      cases hend : w.ending with
      | eof => exact hcut hshort _ w
      | error => exact hcut hshort _ w
      | waiting => exact absurd hend (hwaiting hshort)
    · rw [wp_read hbuf hin]
      intro bs hsome hlen hbs
      obtain ⟨input, hinput⟩ := hbs
      have hcount : 0 < bs.length := List.length_pos_of_ne_nil hsome
      have hwhole : w.input.length = bs.length + input.length := by
        rw [← hinput, List.length_append]
      have hinput' : (w.advance bs.length).input = input := by
        rw [View.input_advance, ← hinput, List.drop_left]
      have hsize : (raw ++ bs).length = raw.length + bs.length := List.length_append
      have hfits : ¬ (raw ++ bs).length > 2 ^ 20 := by
        have h4096 : bs.length ≤ 4096 := hlen
        omega
      have happend : raw ++ w.input = (raw ++ bs) ++ input := by
        rw [← hinput, List.append_assoc]
      have hpre' : raw ++ bs <+: head lines ++ rest :=
        (List.prefix_append _ _).trans (happend ▸ hpre)
      simp only [Handler.andThen_ret, if_neg hfits]
      by_cases hall : (head lines).length ≤ (raw ++ bs).length
      · -- the blank line has come
        obtain ⟨more, hmore⟩ : head lines <+: raw ++ bs :=
          List.prefix_of_prefix_length_le (List.prefix_append _ _) hpre' hall
        have htake : w.input.take bs.length = bs := by rw [← hinput, List.take_left]
        have hk := hfound bs.length (by omega) (by omega)
        rw [htake] at hk
        rw [← hmore, offset?_blankLine hlines hne, hmore]
        exact hk
      · have hnone : offset? blankLine (raw ++ bs) = none :=
          offset?_eq_none_iff.mpr (not_infix_blankLine hlines hne hpre' (by omega))
        rw [hnone]
        refine ih ?_ (by omega) ?_ ?_ (fun k hk hlast => ?_) ?_
        · rw [hinput', ← happend]
          exact hpre
        · rw [hinput']
          omega
        · rw [hinput', ← happend]
          exact hwaiting
        · rw [hinput'] at hk ⊢
          have hk' := hfound (bs.length + k) (by omega) (by omega)
          rwa [← hinput, List.take_length_add_append, ← List.append_assoc, ← View.advance_advance]
            at hk'
        · rw [hinput', ← happend]
          exact hcut

/-- The rest of the body: as many bytes as are expected, or an error. -/
theorem wp_recvBody {expected : ℕ} {body : List UInt8}
    (hle : body.length + w.input.length ≤ expected) (hfuel : w.input.length < fuel)
    (hwaiting : body.length + w.input.length < expected → w.ending ≠ .waiting)
    {post : Result Stop View (Outcome (List UInt8)) → Prop}
    (hall : body.length + w.input.length = expected →
      ∀ w', post (.ret (.ok (body ++ w.input)) w'))
    (hcut : body.length + w.input.length < expected → ∀ e w', post (.ret (.error e) w')) :
    (session drivers env).wp (recvBody expected fuel body) post w := by
  induction fuel generalizing body w with
  | zero => omega
  | succ fuel ih =>
    have hbuf : 0 < bufSize := by decide
    rw [recvBody]
    by_cases hmore : body.length < expected
    · rw [if_pos hmore, Handler.wp_bind]
      by_cases hin : w.input = []
      · rw [hin, List.length_nil, Nat.add_zero] at hcut hwaiting
        rw [wp_read_nil hbuf hin]
        cases hend : w.ending with
        | eof => exact hcut hmore _ w
        | error => exact hcut hmore _ w
        | waiting => exact absurd hend (hwaiting hmore)
      · rw [wp_read hbuf hin]
        intro bs hsome hlen hbs
        obtain ⟨input, hinput⟩ := hbs
        have hcount : 0 < bs.length := List.length_pos_of_ne_nil hsome
        have hwhole : w.input.length = bs.length + input.length := by
          rw [← hinput, List.length_append]
        have hinput' : (w.advance bs.length).input = input := by
          rw [View.input_advance, ← hinput, List.drop_left]
        have hsize : (body ++ bs).length + input.length = body.length + w.input.length := by
          rw [List.length_append]
          omega
        rw [← hsize] at hle hwaiting hall hcut
        rw [← hinput, ← List.append_assoc] at hall
        rw [Handler.andThen_ret]
        exact ih (hinput' ▸ hle) (by rw [hinput']; omega) (hinput' ▸ hwaiting) (hinput' ▸ hall)
          (hinput' ▸ hcut)
    · rw [if_neg hmore]
      have hnil : w.input = [] := List.length_eq_zero_iff.mp (by omega)
      have hwhole := hall (by omega) w
      rw [hnil, List.append_nil] at hwhole
      exact hwhole

/-- The parts of what has been received when the blank line has come. -/
theorem parts_of_head {l : List UInt8} (hl : IsLine l) (lines : List (List UInt8))
    (more : List UInt8) :
    (head (l :: lines) ++ more).take
        ((offset? crlf (head (l :: lines) ++ more)).getD (head (l :: lines) ++ more).length) = l ∧
      (head (l :: lines) ++ more).take ((ended (l :: lines)).length - 2) = joined (l :: lines) ∧
      (head (l :: lines) ++ more).drop ((ended (l :: lines)).length - 2 + 4) = more := by
  have hended := ended_eq_joined (List.cons_ne_nil l lines)
  have hlength : (ended (l :: lines)).length = (joined (l :: lines)).length + 2 := by
    rw [hended, List.length_append]
    rfl
  have hhead : head (l :: lines) ++ more = joined (l :: lines) ++ (blankLine ++ more) := by
    rw [head, hended, List.append_assoc, List.append_assoc]
    rfl
  refine ⟨?_, ?_, ?_⟩
  · have hpre : [13, 10] <+: 13 :: 10 :: head lines ++ more := List.prefix_append [13, 10] _
    rw [head_cons, List.append_assoc, crlf, offset?_append_of_notMem hl.2.1, offset?_of_begins hpre,
      Option.map_some, Option.getD_some, Nat.zero_add, List.take_left]
  · rw [hhead, hlength, Nat.add_sub_cancel, List.take_left]
  · have hblank : (joined (l :: lines) ++ blankLine).length
        = (ended (l :: lines)).length - 2 + 4 := by
      rw [hlength, Nat.add_sub_cancel, List.length_append]
      rfl
    rw [hhead, ← List.append_assoc, ← hblank, List.drop_left]

/-- **What is received of a response:** all of it, or an error. -/
theorem wp_receive {r : Response} (hr : r.WellFormed) (hinput : w.input <+: r.text)
    (hfuel : w.input.length < fuel) (hwaiting : w.input ≠ r.text → w.ending ≠ .waiting)
    {post : Result Stop View (Outcome HttpResponse) → Prop}
    (hwhole : w.input = r.text → ∀ w', post (.ret (.ok ⟨decimalOf r.code, r.body⟩) w'))
    (hcut : w.input ≠ r.text → ∀ e w', post (.ret (.error e) w')) :
    (session drivers env).wp (receive fuel) post w := by
  have hshort : ([] ++ w.input).length < (head r.lines).length → w.input ≠ r.text := by
    intro hlt heq
    rw [List.nil_append, heq, Response.text, List.length_append] at hlt
    omega
  have hhead : 0 < (head r.lines).length := by
    rw [head, List.length_append]
    exact Nat.lt_of_lt_of_le (by decide) (Nat.le_add_left crlf.length _)
  have hpre : [] ++ w.input <+: head r.lines ++ r.body := hinput
  refine (session drivers env).wp_bind_intro (wp_recvHeader hr.isLine Response.lines_ne_nil hr.room
    hpre hhead hfuel (fun hlt => hwaiting (hshort hlt)) (fun k hk hlast => ?_)
    fun hlt e w' => hcut (hshort hlt) e w')
  -- the first bytes of the body have come together with the header block
  rw [List.length_nil, Nat.zero_add] at hlast
  have htake : w.input.take k <+: head r.lines ++ r.body := (List.take_prefix k _).trans hinput
  obtain ⟨more, hmore⟩ : head r.lines <+: w.input.take k :=
    List.prefix_of_prefix_length_le (List.prefix_append _ _) htake
      (by rw [List.length_take_of_le hk]; exact hlast)
  have hrest : more ++ w.input.drop k <+: r.body := by
    rw [← List.prefix_append_right_inj (head r.lines), ← List.append_assoc, hmore,
      List.take_append_drop]
    exact hinput
  have hsplit : w.input = head r.lines ++ (more ++ w.input.drop k) := by
    rw [← List.append_assoc, hmore, List.take_append_drop]
  obtain ⟨hline, hheaders, hbody⟩ := parts_of_head hr.isLine_statusLine
    (r.headers.map Header.line) more
  obtain ⟨digits, hdigits, hlength⟩ := hr.headerValue
  have hwhole' : (more ++ w.input.drop k).length = r.body.length → w.input = r.text := by
    intro heq
    rw [hsplit, hrest.eq_of_length heq]
    rfl
  have hcut' : (more ++ w.input.drop k).length < r.body.length → w.input ≠ r.text := by
    intro hlt heq
    rw [hsplit, Response.text] at heq
    rw [List.append_cancel_left heq] at hlt
    exact absurd hlt (Nat.lt_irrefl _)
  simp only [Handler.andThen_ret, List.nil_append, ← hmore]
  rw [Response.lines, hline, hheaders, hbody, hr.statusOf]
  rw [contentLength, Response.lines] at hdigits
  simp only [hdigits, hlength]
  have hle := hrest.length_le
  rw [List.length_append] at hle hwhole' hcut'
  refine (session drivers env).wp_bind_intro (wp_recvBody hle ?_ (fun hlt => ?_)
    (fun heq w' => ?_) fun hlt e w' => hcut (hcut' hlt) e w')
  · rw [View.input_advance, List.length_drop]
    omega
  · exact hwaiting (hcut' hlt)
  · rw [Handler.andThen_ret, View.input_advance, hrest.eq_of_length (by
      rw [List.length_append]
      exact heq)]
    exact hwhole (hwhole' heq) w'

/-- `get`, when there is a connection. -/
theorem wp_get {r : Response} (hr : r.WellFormed) (hinput : w.input <+: r.text)
    (hfuel : w.input.length < fuel) (hwaiting : w.input ≠ r.text → w.ending ≠ .waiting)
    (fd : SessionID) (host path : List UInt8)
    {post : Result Stop View (Outcome HttpResponse) → Prop}
    (hfailed : ∀ bs n, bs ≠ [] → env.write bs n → n ≤ 0 → ∀ e w', post (.ret (.error e) w'))
    (hwhole : w.input = r.text → ∀ w', post (.ret (.ok ⟨decimalOf r.code, r.body⟩) w'))
    (hcut : w.input ≠ r.text → ∀ e w', post (.ret (.error e) w')) :
    (session drivers env).wp (get fuel (.ok fd) host path) post w := by
  refine (session drivers env).wp_bind_intro (wp_sendAll le_rfl (fun w' hin hend => ?_)
    fun bs n hne hn hle e w' => hfailed bs n hne hn hle e w')
  rw [Handler.andThen_ret]
  rw [← hin] at hinput hfuel hwaiting hwhole hcut
  exact wp_receive hr hinput hfuel (hend ▸ hwaiting) hwhole hcut

end Rules

/-- Surroundings in which every `send()` takes something. -/
def sending : Env := ⟨fun _ => True, fun bytes n => bytes ≠ [] → 0 < n⟩

/-- **`get` returns exactly the body,** however the response is cut; of a response that is cut
short, or fails, before its end it returns nothing. -/
theorem get_response (drivers : List Driver) {r : Response} (hr : r.WellFormed) (fd : SessionID)
    (host path : List UInt8) {fuel : ℕ} (hfuel : r.text.length < fuel) :
    (∀ ending, (session drivers sending).wp (get fuel (.ok fd) host path)
      (fun res => ∃ w, res = .ret (.ok ⟨decimalOf r.code, r.body⟩) w) (View.start r.text ending)) ∧
    (∀ s, s <+: r.text → s ≠ r.text → ∀ ending, ending ≠ .waiting →
      (session drivers .any).wp (get fuel (.ok fd) host path)
        (fun res => ∃ e w, res = .ret (.error e) w) (View.start s ending)) := by
  constructor
  · intro ending
    refine wp_get hr List.prefix_rfl hfuel (fun hne => absurd rfl hne) fd host path
      (fun bs n hne hn hle => absurd (hn hne) (Int.not_lt.mpr hle)) (fun _ w' => ⟨w', rfl⟩)
      fun hne => absurd rfl hne
  · intro s hpre hne ending hending
    refine wp_get hr hpre (Nat.lt_of_le_of_lt hpre.length_le hfuel) (fun _ => hending) fd host path
      (fun bs n _ _ _ e w' => ⟨e, w', rfl⟩) (fun heq => absurd heq hne) fun _ e w' => ⟨e, w', rfl⟩

/-- A response with a code of 404, and a length in other letters among blanks. -/
def probeResponse : Response where
  version := ascii "1.1"
  code := ascii "404"
  reason := ascii " Not Found"
  headers := [⟨ascii "Server", [32], ascii "nginx", []⟩,
    ⟨ascii "content-LENGTH", [9, 32], ascii "005", [32]⟩]
  body := ascii "hello"

theorem probeResponse_wellFormed : probeResponse.WellFormed := by
  constructor
  case length => exact ⟨ascii "005", by decide⟩
  all_goals decide

theorem get_probeResponse :
    (∀ ending, (session [] sending).wp (get 200 (.ok 3) (ascii "host") (ascii "/api/instruments"))
      (fun res => ∃ w, res = .ret (.ok ⟨404, ascii "hello"⟩) w)
      (View.start probeResponse.text ending)) ∧
    (∀ s, s <+: probeResponse.text → s ≠ probeResponse.text → ∀ ending, ending ≠ .waiting →
      (session [] .any).wp (get 200 (.ok 3) (ascii "host") (ascii "/api/instruments"))
        (fun res => ∃ e w, res = .ret (.error e) w) (View.start s ending)) :=
  get_response [] probeResponse_wellFormed 3 (ascii "host") (ascii "/api/instruments") (by decide)

end Http

end KoheronSdk
