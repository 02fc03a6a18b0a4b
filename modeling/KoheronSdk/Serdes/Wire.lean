import Mathlib.Data.List.Forall2
import KoheronSdk.Serdes.Scalar

/-!
# The wire format of an argument list

What the bytes after a command's header mean, said once and independently of the
two serializers and the two decoders: a scalar is its big-endian bytes, a
`std::array` the memory of its elements, a `std::vector` or a `std::string` a
32-bit big-endian byte count and then its data.

There are four programs that write or read this format, the serializers of the C++ client and
of the server, the parser on a stream and the parser on a WebSocket payload, and two more in
other languages.  Each is compared with `wireArgs` or `readArgs`, and that one undoes what
another one does then follows from `readArgs_wireArgs`.

Reading is total on what may come.  A byte count need not be that of whole elements: the parser
rounds down, and what is left over belongs to the next argument, so `read` does so too.  Where the
bytes run out there is no value.  What a program makes of sizes that do not fit in an `int` is not
a matter of the format; `ArgVal.Small` is the condition under which it does not arise.

* `ArgType`, `ArgVal`, `ArgVal.HasType`: argument types, values, and typing.
* `ArgVal.wire`, `wireArgs`: the bytes of values.
* `ArgType.read`, `readArgs`: the values some bytes spell, `none` when the bytes
  run out.
* `readArgs_wireArgs`: reading undoes writing, whatever follows.
-/

namespace KoheronSdk

open ByteOrder

/-! ## Types and values -/

/-- The type of an operation's argument. -/
inductive ArgType where
  | scalar (t : ScalarType)
  | array (t : ScalarType) (n : ℕ)
  | vector (t : ScalarType)
  | string
  deriving DecidableEq, Repr

/-- The value of an argument. -/
inductive ArgVal where
  | scalar (v : ScalarVal)
  | array (vs : List ScalarVal)
  | vector (vs : List ScalarVal)
  | string (bytes : List UInt8)
  deriving DecidableEq, Repr

/-- The value is one of the type. -/
def ArgVal.HasType : ArgVal → ArgType → Prop
  | .scalar v, .scalar t => v.type = t
  | .array vs, .array t n => vs.length = n ∧ ∀ v ∈ vs, v.type = t
  | .vector vs, .vector t => ∀ v ∈ vs, v.type = t
  | .string _, .string => True
  | _, _ => False

instance (v : ArgVal) (t : ArgType) : Decidable (v.HasType t) := by
  cases v <;> cases t <;> unfold ArgVal.HasType <;> infer_instance

/-- The bytes of the data of a container: elements or characters. -/
def ArgVal.data : ArgVal → List UInt8
  | .scalar _ => []
  | .array vs => memOf vs
  | .vector vs => memOf vs
  | .string bytes => bytes

/-! ## Writing -/

/-- The bytes of one argument. -/
def ArgVal.wire : ArgVal → List UInt8
  | .scalar v => Server.append v
  | .array vs => memOf vs
  | .vector vs => appendU32 (UInt32.ofNat (memOf vs).length) ++ memOf vs
  | .string bytes => appendU32 (UInt32.ofNat bytes.length) ++ bytes

/-- The bytes of an argument list. -/
def wireArgs (vals : List ArgVal) : List UInt8 := vals.flatMap ArgVal.wire

@[simp] theorem wireArgs_nil : wireArgs [] = [] := rfl

@[simp] theorem wireArgs_cons (v : ArgVal) (vals : List ArgVal) :
    wireArgs (v :: vals) = v.wire ++ wireArgs vals := List.flatMap_cons

/-- The data of a container is part of its bytes. -/
theorem ArgVal.length_data_le_wire (v : ArgVal) : v.data.length ≤ v.wire.length := by
  cases v with
  | scalar v => exact Nat.zero_le _
  | array vs => exact Nat.le_refl _
  | vector vs =>
    rw [ArgVal.wire, List.length_append]
    exact Nat.le_add_left _ _
  | string bytes =>
    rw [ArgVal.wire, List.length_append]
    exact Nat.le_add_left _ _

theorem length_wire_le_wireArgs {v : ArgVal} {vals : List ArgVal} (h : v ∈ vals) :
    v.wire.length ≤ (wireArgs vals).length := by
  obtain ⟨before, after, rfl⟩ := List.append_of_mem h
  rw [wireArgs, List.flatMap_append, List.flatMap_cons, List.length_append, List.length_append]
  omega

/-! ## Reading -/

/-- The number of elements that a vector's byte count announces. -/
def elemCount (t : ScalarType) (bs : List UInt8) : ℕ := (extractU32 bs).toNat / t.size

/-- Read one argument: its value and the bytes after it. -/
def ArgType.read : ArgType → List UInt8 → Option (ArgVal × List UInt8)
  | .scalar t, bs =>
    if t.size ≤ bs.length then some (.scalar (Server.extract t bs), bs.drop t.size) else none
  | .array t n, bs =>
    if n * t.size ≤ bs.length then
      some (.array (ofMemOf t n (bs.take (n * t.size))), bs.drop (n * t.size))
    else none
  | .vector t, bs =>
    let n := elemCount t bs
    if 4 + n * t.size ≤ bs.length then
      some (.vector (ofMemOf t n ((bs.drop 4).take (n * t.size))), bs.drop (4 + n * t.size))
    else none
  | .string, bs =>
    let n := (extractU32 bs).toNat
    if 4 + n ≤ bs.length then some (.string ((bs.drop 4).take n), bs.drop (4 + n)) else none

/-- Read an argument list: the values and the bytes after them. -/
def readArgs : List ArgType → List UInt8 → Option (List ArgVal × List UInt8)
  | [], bs => some ([], bs)
  | t :: ts, bs =>
    match t.read bs with
    | none => none
    | some (v, bs') =>
      match readArgs ts bs' with
      | none => none
      | some (vals, rest) => some (v :: vals, rest)

/-- Reading an argument list is reading the first argument, and then the others. -/
theorem readArgs_cons {t : ArgType} {ts : List ArgType} {bs rest : List UInt8}
    {vals : List ArgVal} :
    readArgs (t :: ts) bs = some (vals, rest) ↔
      ∃ v mid vs, t.read bs = some (v, mid) ∧ readArgs ts mid = some (vs, rest) ∧
        vals = v :: vs := by
  rw [readArgs]
  constructor
  · intro h
    cases hv : t.read bs with
    | none => simp [hv] at h
    | some p =>
      obtain ⟨v, mid⟩ := p
      cases hvs : readArgs ts mid with
      | none => simp [hv, hvs] at h
      | some q =>
        obtain ⟨vs, r⟩ := q
        simp only [hv, hvs, Option.some.injEq, Prod.mk.injEq] at h
        exact ⟨v, mid, vs, rfl, h.2 ▸ hvs, h.1.symm⟩
  · rintro ⟨v, mid, vs, hv, hvs, rfl⟩
    simp only [hv, hvs]

theorem readArgs_append (ts us : List ArgType) (bs : List UInt8) :
    readArgs (ts ++ us) bs =
      (readArgs ts bs).bind fun p => (readArgs us p.2).map fun q => (p.1 ++ q.1, q.2) := by
  induction ts generalizing bs with
  | nil => simp [readArgs]
  | cons t ts ih =>
    simp only [List.cons_append, readArgs]
    cases t.read bs with
    | none => rfl
    | some p =>
      simp only [ih]
      cases readArgs ts p.2 with
      | none => rfl
      | some q => cases hr : readArgs us q.2 <;> simp [hr]

/-- What is read has the type it was read at. -/
theorem ArgType.hasType_of_read {t : ArgType} {bs rest : List UInt8} {v : ArgVal}
    (h : t.read bs = some (v, rest)) : v.HasType t := by
  cases t with
  | scalar t =>
    simp only [ArgType.read, Option.ite_none_right_eq_some, Option.some.injEq, Prod.mk.injEq] at h
    rw [← h.2.1]
    exact Server.type_extract t bs
  | array t n =>
    simp only [ArgType.read, Option.ite_none_right_eq_some, Option.some.injEq, Prod.mk.injEq] at h
    rw [← h.2.1]
    exact ⟨length_ofMemOf t n _, fun u hu => type_of_mem_ofMemOf hu⟩
  | vector t =>
    simp only [ArgType.read, Option.ite_none_right_eq_some, Option.some.injEq, Prod.mk.injEq] at h
    rw [← h.2.1]
    exact fun u hu => type_of_mem_ofMemOf hu
  | string =>
    simp only [ArgType.read, Option.ite_none_right_eq_some, Option.some.injEq, Prod.mk.injEq] at h
    rw [← h.2.1]
    trivial

/-- One value is read for each type. -/
theorem forall₂_of_readArgs {ts : List ArgType} {bs rest : List UInt8} {vals : List ArgVal}
    (h : readArgs ts bs = some (vals, rest)) : List.Forall₂ ArgVal.HasType vals ts := by
  induction ts generalizing bs vals rest with
  | nil =>
    simp only [readArgs, Option.some.injEq, Prod.mk.injEq] at h
    rw [← h.1]
    exact .nil
  | cons t ts ih =>
    obtain ⟨v, mid, vs, hv, hvs, rfl⟩ := readArgs_cons.mp h
    exact .cons (t.hasType_of_read hv) (ih hvs)

/-- What is read is a prefix of the bytes. -/
theorem ArgType.length_of_read {t : ArgType} {bs rest : List UInt8} {v : ArgVal}
    (h : t.read bs = some (v, rest)) : ∃ n, n ≤ bs.length ∧ rest = bs.drop n := by
  cases t <;>
    simp only [ArgType.read, Option.ite_none_right_eq_some, Option.some.injEq,
      Prod.mk.injEq] at h <;>
    exact ⟨_, h.1, h.2.2.symm⟩

theorem length_of_readArgs {ts : List ArgType} {bs rest : List UInt8} {vals : List ArgVal}
    (h : readArgs ts bs = some (vals, rest)) : ∃ n, n ≤ bs.length ∧ rest = bs.drop n := by
  induction ts generalizing bs vals rest with
  | nil =>
    simp only [readArgs, Option.some.injEq, Prod.mk.injEq] at h
    exact ⟨0, Nat.zero_le _, by rw [← h.2, List.drop_zero]⟩
  | cons t ts ih =>
    obtain ⟨v, mid, vs, hv, hvs, -⟩ := readArgs_cons.mp h
    obtain ⟨n, hn, rfl⟩ := t.length_of_read hv
    obtain ⟨m, hm, hr⟩ := ih hvs
    rw [List.length_drop] at hm
    exact ⟨n + m, by omega, by rw [hr, List.drop_drop]⟩

/-! ## The round trip -/

/-- The container is smaller than 2^31 bytes, so that neither its 32-bit count nor
the `int` that counts the received bytes overflows. -/
def ArgVal.Small (v : ArgVal) : Prop := v.data.length < 2 ^ 31

instance (v : ArgVal) : Decidable v.Small := inferInstanceAs (Decidable (_ < _))

theorem ArgVal.Small.length_lt {v : ArgVal} (h : v.Small) : v.data.length < 2 ^ 32 :=
  Nat.lt_trans h (by decide)

/-- A container that comes with a byte count is small. -/
def ArgVal.Counted : ArgVal → Prop
  | .vector vs => (memOf vs).length < 2 ^ 31
  | .string bytes => bytes.length < 2 ^ 31
  | .scalar _ | .array _ => True

instance (v : ArgVal) : Decidable v.Counted := by
  cases v <;> unfold ArgVal.Counted <;> infer_instance

theorem ArgVal.Small.counted {v : ArgVal} (h : v.Small) : v.Counted := by
  cases v with
  | scalar v => trivial
  | array vs => trivial
  | vector vs => exact h
  | string bytes => exact h

theorem toNat_extractU32_count {n : ℕ} (h : n < 2 ^ 31) (rest : List UInt8) :
    (extractU32 (appendU32 (UInt32.ofNat n) ++ rest)).toNat = n := by
  rw [extractU32_appendU32, UInt32.toNat_ofNat']
  exact Nat.mod_eq_of_lt (by omega)

/-- Reading an argument undoes writing it, whatever follows. -/
theorem ArgVal.read_wire {v : ArgVal} {t : ArgType} (ht : v.HasType t) (hs : v.Counted)
    (rest : List UInt8) : t.read (v.wire ++ rest) = some (v, rest) := by
  cases v with
  | scalar v =>
    cases t with
    | scalar t =>
      obtain rfl : v.type = t := ht
      have hlen : (Server.append v).length = v.type.size := Server.length_append v
      have hle : v.type.size ≤ (Server.append v ++ rest).length := by
        rw [List.length_append, hlen]; omega
      simp only [ArgType.read, ArgVal.wire, if_pos hle, Server.extract_append, List.drop_left' hlen]
    | _ => exact ht.elim
  | array vs =>
    cases t with
    | array t n =>
      obtain ⟨rfl, hty⟩ : vs.length = n ∧ ∀ v ∈ vs, v.type = t := ht
      have hlen : (memOf vs).length = vs.length * t.size := length_memOf hty
      have hle : vs.length * t.size ≤ (memOf vs ++ rest).length := by
        rw [List.length_append, hlen]; omega
      simp only [ArgType.read, ArgVal.wire, if_pos hle, List.drop_left' hlen,
        List.take_left' hlen, ofMemOf_memOf hty]
    | _ => exact ht.elim
  | vector vs =>
    cases t with
    | vector t =>
      have hty : ∀ v ∈ vs, v.type = t := ht
      have hlen : (memOf vs).length = vs.length * t.size := length_memOf hty
      have hcount : elemCount t (appendU32 (UInt32.ofNat (memOf vs).length) ++ memOf vs ++ rest)
          = vs.length := by
        have hs' : (memOf vs).length < 2 ^ 31 := hs
        rw [elemCount, List.append_assoc, toNat_extractU32_count hs', hlen,
          Nat.mul_div_cancel _ t.size_pos]
      have hdrop : (appendU32 (UInt32.ofNat (memOf vs).length) ++ memOf vs ++ rest).drop 4
          = memOf vs ++ rest := by
        rw [List.append_assoc]; exact List.drop_left' (length_appendU32 _)
      simp only [ArgType.read, ArgVal.wire, hcount]
      rw [if_pos (by simp [hlen]), ← List.drop_drop, hdrop, List.drop_left' hlen,
        List.take_left' hlen, ofMemOf_memOf hty]
    | _ => exact ht.elim
  | string bs =>
    cases t with
    | string =>
      have hcount : (extractU32 (appendU32 (UInt32.ofNat bs.length) ++ bs ++ rest)).toNat
          = bs.length := by
        have hs' : bs.length < 2 ^ 31 := hs
        rw [List.append_assoc, toNat_extractU32_count hs']
      have hdrop : (appendU32 (UInt32.ofNat bs.length) ++ bs ++ rest).drop 4 = bs ++ rest := by
        rw [List.append_assoc]; exact List.drop_left' (length_appendU32 _)
      simp only [ArgType.read, ArgVal.wire, hcount]
      rw [if_pos (by simp), ← List.drop_drop, hdrop, List.drop_left, List.take_left]
    | _ => exact ht.elim

/-- What is read takes as many bytes as writing it would. -/
theorem ArgType.length_eq_of_read {t : ArgType} {bs rest : List UInt8} {v : ArgVal}
    (h : t.read bs = some (v, rest)) : bs.length = v.wire.length + rest.length := by
  cases t with
  | scalar t =>
    simp only [ArgType.read, Option.ite_none_right_eq_some, Option.some.injEq, Prod.mk.injEq] at h
    obtain ⟨hle, rfl, rfl⟩ := h
    rw [ArgVal.wire, Server.length_append, Server.type_extract, List.length_drop]
    omega
  | array t n =>
    simp only [ArgType.read, Option.ite_none_right_eq_some, Option.some.injEq, Prod.mk.injEq] at h
    obtain ⟨hle, rfl, rfl⟩ := h
    rw [ArgVal.wire, length_memOf fun u hu => type_of_mem_ofMemOf hu, length_ofMemOf,
      List.length_drop]
    omega
  | vector t =>
    simp only [ArgType.read, Option.ite_none_right_eq_some, Option.some.injEq, Prod.mk.injEq] at h
    obtain ⟨hle, rfl, rfl⟩ := h
    rw [ArgVal.wire, List.length_append, length_appendU32,
      length_memOf fun u hu => type_of_mem_ofMemOf hu, length_ofMemOf, List.length_drop]
    omega
  | string =>
    simp only [ArgType.read, Option.ite_none_right_eq_some, Option.some.injEq, Prod.mk.injEq] at h
    obtain ⟨hle, rfl, rfl⟩ := h
    rw [ArgVal.wire, List.length_append, length_appendU32, List.length_take, List.length_drop,
      List.length_drop]
    omega

theorem length_eq_of_readArgs {ts : List ArgType} {bs rest : List UInt8} {vals : List ArgVal}
    (h : readArgs ts bs = some (vals, rest)) :
    bs.length = (wireArgs vals).length + rest.length := by
  induction ts generalizing bs vals with
  | nil =>
    simp only [readArgs, Option.some.injEq, Prod.mk.injEq] at h
    rw [← h.1, ← h.2, wireArgs_nil, List.length_nil, Nat.zero_add]
  | cons t ts ih =>
    obtain ⟨v, mid, vs, hv, hvs, rfl⟩ := readArgs_cons.mp h
    rw [wireArgs_cons, List.length_append, t.length_eq_of_read hv, ih hvs, Nat.add_assoc]

/-- **Reading an argument list undoes writing it**, whatever follows. -/
theorem readArgs_wireArgs {ts : List ArgType} {vals : List ArgVal}
    (ht : List.Forall₂ ArgVal.HasType vals ts) (hs : ∀ v ∈ vals, v.Counted) (rest : List UInt8) :
    readArgs ts (wireArgs vals ++ rest) = some (vals, rest) := by
  induction ht with
  | nil => rfl
  | @cons v t vals ts hv _ ih =>
    have ih' := ih fun u hu => hs u (List.mem_cons_of_mem v hu)
    rw [wireArgs_cons, List.append_assoc, readArgs,
      ArgVal.read_wire hv (hs v (List.mem_cons_self ..))]
    simp only [ih']

end KoheronSdk
