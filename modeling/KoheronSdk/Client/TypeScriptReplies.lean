import Mathlib.Data.List.GetD
import KoheronSdk.Client.TypeScript
import KoheronSdk.Serdes.Serializer

/-!
# Replies at the TypeScript client

`getPayload` of `koheron.ts`, which copies the payload of a reply byte by byte, and `parseString`.
Their loops count up or down, as the sign of the last index says.  For a payload without bytes the
last index is -1, so that they count down from 0 and ask for a byte that is not there.

Each loop goes from 0 to its last index inclusively, in the direction that `asc = 0 <= end` gives
before it begins.  `loopValues` has the values of the loop's variable for both
directions.  For a payload of at least one byte they count up; for none they take 0 and then -1, and
the first of these is already behind the end of the message, where `getUint8` throws.

The messages are those of the server, with the ids of the operation and a payload, of a fixed size
or with its length in front.  The condition is the same for both: the payload must not be empty.

* `loopValues`: the values of the variable of a loop.
* `copied_eq`: what the loops of `getPayload` copy.
* `ExtractsStatic`, `ExtractsDynamic`: a reply is taken apart as it is to.
* `extracts_iff`: when it is.
-/

namespace KoheronSdk

namespace TypeScript

/-! ## The code -/

/-- `dv.getUint8(i)`; `none` is a `RangeError`. -/
def getUint8 (dv : List UInt8) (i : ℤ) : Option UInt8 := if 0 ≤ i then dv[i.toNat]? else none

/-- `dv.getUint16(i)` -/
def getUint16 (dv : List UInt8) (i : ℕ) : Option UInt16 :=
  if i + 2 ≤ dv.length then some (extractU16 (dv.drop i)) else none

/-- `dv.getUint32(i)` -/
def getUint32 (dv : List UInt8) (i : ℕ) : Option UInt32 :=
  if i + 4 ≤ dv.length then some (extractU32 (dv.drop i)) else none

/-- `dv.setUint8(i, value)` -/
def setUint8 (dv : List UInt8) (i : ℤ) (value : UInt8) : Option (List UInt8) :=
  if 0 ≤ i ∧ i < dv.length then some (dv.set i.toNat value) else none

/-- The values of the variable of a loop: from `i` on by `step`, as long as `go`.  A loop that goes
on is left after `fuel` values. -/
def loopValues (go : ℤ → Bool) (step : ℤ → ℤ) : ℕ → ℤ → List ℤ
  | 0, _ => []
  | fuel + 1, i => if go i then i :: loopValues go step fuel (step i) else []

/-- The loops of `getPayload`: a buffer of `len` bytes, filled with those from `offset` on. -/
def copied (dv : List UInt8) (offset len : ℤ) : Option (List UInt8) :=
  let last := len - 1
  let asc := decide (0 ≤ last)
  if len < 0 then none -- `new ArrayBuffer(len)`
  else (loopValues (fun i => if asc then i ≤ last else i ≥ last)
      (fun i => if asc then i + 1 else i - 1) (len.natAbs + 2) 0).foldlM
    (fun buffer i => (getUint8 dv (offset + i)).bind (setUint8 buffer i))
    (List.replicate len.toNat 0)

/-- The first argument of `getPayload`. -/
inductive Mode where
  | static
  | dynamic
  deriving DecidableEq

/-- `getPayload`, of the data of a message -/
def getPayload (mode : Mode) (data : List UInt8) : Option (List UInt8 × UInt16 × UInt16) := do
  let _ ← getUint32 data 0
  let classId ← getUint16 data 4
  let funcId ← getUint16 data 6
  match mode with
  | .static => return (← copied data 8 (data.length - 8), classId, funcId)
  | .dynamic =>
    let len ← getUint32 data 8
    return (← copied data 12 len.toNat, classId, funcId)

/-- `__range__` -/
def range (left right : ℤ) (inclusive : Bool) : List ℤ :=
  let ascending := decide (left < right)
  let stop := if ¬ inclusive then right else if ascending then right + 1 else right - 1
  loopValues (fun i => if ascending then i < stop else i > stop)
    (fun i => if ascending then i + 1 else i - 1) ((stop - left).natAbs + 1) left

/-- `parseString`, as the codes of its characters -/
def parseString (data : List UInt8) (offset : Option ℤ) : Option (List UInt16) :=
  let offset := offset.getD 0
  (range 0 (data.length - offset - 1) true).mapM fun i =>
    (getUint8 data (offset + i)).map UInt8.toUInt16

/-! ## Loops that count up -/

theorem loopValues_up {go : ℤ → Bool} {n : ℕ} {a : ℤ} (hgo : ∀ k < n, go (a + k) = true)
    (hstop : go (a + n) = false) {fuel : ℕ} (hfuel : n < fuel) :
    loopValues go (· + 1) fuel a = (List.range n).map fun k : ℕ => a + k := by
  induction n generalizing a fuel with
  | zero =>
    obtain ⟨fuel, rfl⟩ := Nat.exists_eq_add_of_lt hfuel
    rw [loopValues, if_neg]
    · rfl
    · rw [Nat.cast_zero, add_zero] at hstop
      rw [hstop]
      exact Bool.false_ne_true
  | succ n ih =>
    obtain ⟨fuel, rfl⟩ : ∃ fuel', fuel = fuel' + 1 := ⟨fuel - 1, by omega⟩
    have hfirst := hgo 0 (Nat.succ_pos n)
    rw [Nat.cast_zero, add_zero] at hfirst
    rw [loopValues, if_pos hfirst, ih (fun k hk => ?_) ?_ (Nat.lt_of_succ_lt_succ hfuel),
      List.range_succ_eq_map, List.map_cons, List.map_map, Nat.cast_zero, add_zero]
    · refine congrArg (a :: ·) (List.map_congr_left fun k _ => ?_)
      simp only [Function.comp, Nat.cast_succ]
      omega
    · rwa [Nat.cast_succ, add_comm (n : ℤ) 1, ← add_assoc] at hstop
    · have hnext := hgo (k + 1) (Nat.succ_lt_succ hk)
      rwa [Nat.cast_succ, add_comm (k : ℤ) 1, ← add_assoc] at hnext

/-! ## Copying -/

variable {dv : List UInt8}

theorem getUint8_natCast {i : ℕ} (h : i < dv.length) : getUint8 dv i = some (dv.get ⟨i, h⟩) := by
  rw [getUint8, if_pos (Int.natCast_nonneg i), Int.toNat_natCast]
  exact List.getElem?_eq_getElem h

theorem getUint8_of_le {i : ℤ} (h : dv.length ≤ i) : getUint8 dv i = none := by
  rw [getUint8, if_pos (by omega)]
  exact List.getElem?_eq_none (by omega)

theorem setUint8_natCast {i : ℕ} (h : i < dv.length) (value : UInt8) :
    setUint8 dv i value = some (dv.set i value) := by
  rw [setUint8, if_pos ⟨Int.natCast_nonneg i, by omega⟩, Int.toNat_natCast]

/-- The first `k` bytes have been copied. -/
theorem foldlM_copy {n offset : ℕ} (h : offset + n ≤ dv.length) {k : ℕ} (hk : k ≤ n) :
    ((List.range k).map fun i : ℕ => (0 : ℤ) + i).foldlM
      (fun buffer i => (getUint8 dv ((offset : ℤ) + i)).bind (setUint8 buffer i))
      (List.replicate n 0) = some ((dv.drop offset).take k ++ List.replicate (n - k) 0) := by
  induction k with
  | zero => rfl
  | succ k ih =>
    have hin : offset + k < dv.length := by omega
    have hget : getUint8 dv ((offset : ℤ) + ((0 : ℤ) + k)) = some (dv.get ⟨offset + k, hin⟩) := by
      rw [zero_add, ← Nat.cast_add]
      exact getUint8_natCast hin
    have hlength : ((dv.drop offset).take k).length = k := by
      rw [List.length_take, List.length_drop]
      omega
    have hroom : n - k = (n - (k + 1)) + 1 := by omega
    have hset : setUint8 ((dv.drop offset).take k ++ List.replicate (n - k) 0) ((0 : ℤ) + k)
        (dv.get ⟨offset + k, hin⟩)
          = some ((dv.drop offset).take (k + 1) ++ List.replicate (n - (k + 1)) 0) := by
      rw [zero_add,
        setUint8_natCast (by rw [List.length_append, hlength, List.length_replicate]; omega),
        List.set_append_right _ _ (by omega), hlength, Nat.sub_self, hroom, List.replicate_succ,
        List.set_cons_zero, List.take_add_one, List.append_assoc]
      have hdrop : (dv.drop offset)[k]? = some (dv.get ⟨offset + k, hin⟩) := by
        rw [List.getElem?_drop]
        exact List.getElem?_eq_getElem hin
      rw [hdrop]
      rfl
    rw [List.range_succ, List.map_append, List.foldlM_append, ih (by omega)]
    show (getUint8 dv _).bind _ >>= pure = _
    rw [hget, bind_pure]
    exact hset

/-- **The loops of `getPayload`** copy some bytes, but not none. -/
theorem copied_eq {n offset : ℕ} (h : offset + n ≤ dv.length) (hpos : 0 < n) :
    copied dv offset n = some ((dv.drop offset).take n) := by
  have hasc : decide ((0 : ℤ) ≤ (n : ℤ) - 1) = true := decide_eq_true (by omega)
  have hvalues : loopValues (fun i => decide (i ≤ (n : ℤ) - 1)) (· + 1) (n + 2) 0
      = (List.range n).map fun i : ℕ => (0 : ℤ) + i :=
    loopValues_up (fun k hk => decide_eq_true (by omega)) (decide_eq_false (by omega)) (by omega)
  have hcopy := foldlM_copy h (Nat.le_refl n)
  rw [Nat.sub_self, List.replicate_zero, List.append_nil] at hcopy
  rw [copied, if_neg (by omega), hasc]
  simp only [if_true, Int.natAbs_natCast, hvalues, Int.toNat_natCast]
  exact hcopy

/-- For no bytes they ask for one behind the end. -/
theorem copied_zero {offset : ℕ} (h : dv.length ≤ offset) : copied dv offset 0 = none := by
  have hget : getUint8 dv ((offset : ℤ) + 0) = none := getUint8_of_le (by omega)
  show (getUint8 dv ((offset : ℤ) + 0)).bind _ >>= _ = none
  rw [hget]
  rfl

/-! ## Replies -/

theorem range_eq {n : ℕ} (hpos : 0 < n) :
    range 0 ((n : ℤ) - 0 - 1) true = (List.range n).map fun i : ℕ => (0 : ℤ) + i := by
  rw [sub_zero]
  by_cases hone : n = 1
  · subst hone
    rfl
  · have hasc : decide ((0 : ℤ) < (n : ℤ) - 1) = true := decide_eq_true (by omega)
    simp only [range, hasc, not_true_eq_false, if_false, if_true]
    exact loopValues_up (fun k hk => decide_eq_true (by omega)) (decide_eq_false (by omega))
      (by omega)

theorem mapM_eq_some_map {α β : Type} {f : α → Option β} {g : α → β} {l : List α}
    (h : ∀ a ∈ l, f a = some (g a)) : l.mapM f = some (l.map g) := by
  induction l with
  | nil => rfl
  | cons a l ih =>
    rw [List.mapM_cons, h a List.mem_cons_self, ih fun b hb => h b (List.mem_cons_of_mem a hb)]
    rfl

/-- **`parseString`** gives the codes of some bytes. -/
theorem parseString_eq {payload : List UInt8} (hne : payload ≠ []) :
    parseString payload none = some (payload.map UInt8.toUInt16) := by
  have hpos : 0 < payload.length := List.length_pos_of_ne_nil hne
  show ((range 0 ((payload.length : ℤ) - 0 - 1) true).mapM fun i =>
    (getUint8 payload ((0 : ℤ) + i)).map UInt8.toUInt16) = _
  rw [range_eq hpos, mapM_eq_some_map (g := fun i => (payload.getD i.toNat 0).toUInt16)]
  · rw [List.map_map]
    refine congrArg some (List.ext_getElem ?_ fun i hi hi' => ?_)
    · rw [List.length_map, List.length_map, List.length_range]
    · rw [List.length_map] at hi'
      simp only [List.getElem_map, List.getElem_range, Function.comp, zero_add, Int.toNat_natCast]
      rw [List.getD_eq_getElem _ _ hi']
  · intro i hi
    obtain ⟨k, hk, rfl⟩ := List.mem_map.mp hi
    have hk' := List.mem_range.mp hk
    rw [zero_add, zero_add, getUint8_natCast hk', Int.toNat_natCast, List.getD_eq_getElem _ _ hk']
    rfl

/-- A reply with a payload of a fixed size is taken apart: its payload and its ids. -/
def ExtractsStatic (classId funcId : UInt16) (payload : List UInt8) : Prop :=
  getPayload .static (header classId funcId ++ payload) = some (payload, classId, funcId)

/-- A reply with the length in front of its payload is taken apart, and its payload is read as the
string with these codes. -/
def ExtractsDynamic (classId funcId : UInt16) (payload : List UInt8) : Prop :=
  getPayload .dynamic
      (header classId funcId ++ (appendU32 (UInt32.ofNat payload.length) ++ payload))
      = some (payload, classId, funcId) ∧
    parseString payload none = some (payload.map UInt8.toUInt16)

variable {classId funcId : UInt16} {payload : List UInt8}

theorem getUint16_append {i : ℕ} {front rest : List UInt8} (v : UInt16) (h : front.length = i) :
    getUint16 (front ++ (appendU16 v ++ rest)) i = some v := by
  rw [getUint16, if_pos, ← h, List.drop_left, extractU16_appendU16]
  rw [List.length_append, List.length_append, length_appendU16]
  omega

theorem getUint32_append {i : ℕ} {front rest : List UInt8} (v : UInt32) (h : front.length = i) :
    getUint32 (front ++ (appendU32 v ++ rest)) i = some v := by
  rw [getUint32, if_pos, ← h, List.drop_left, extractU32_appendU32]
  rw [List.length_append, List.length_append, length_appendU32]
  omega

/-- The header of a reply is read back. -/
theorem getUint_header (classId funcId : UInt16) (rest : List UInt8) :
    getUint32 (header classId funcId ++ rest) 0 = some 0 ∧
      getUint16 (header classId funcId ++ rest) 4 = some classId ∧
      getUint16 (header classId funcId ++ rest) 6 = some funcId := by
  rw [header, List.append_assoc, List.append_assoc]
  have hreserved :
      getUint32 ([] ++ (appendU32 0 ++ (appendU16 classId ++ (appendU16 funcId ++ rest))))
      0 = some 0 := getUint32_append 0 rfl
  refine ⟨hreserved, getUint16_append classId rfl, ?_⟩
  rw [← List.append_assoc]
  exact getUint16_append funcId rfl

theorem getPayload_static (payload : List UInt8) :
    getPayload .static (header classId funcId ++ payload)
      = (copied (header classId funcId ++ payload) (8 : ℕ) payload.length).map
        (·, classId, funcId) := by
  obtain ⟨hreserved, hclass, hfunc⟩ := getUint_header classId funcId payload
  have hlen : (((header classId funcId ++ payload).length : ℕ) : ℤ) - 8 = payload.length := by
    rw [List.length_append, length_header]
    omega
  simp only [getPayload, hreserved, hclass, hfunc, hlen, Option.bind_eq_bind, Option.bind_some]
  exact Option.map_eq_bind.symm

theorem getPayload_dynamic (len : UInt32) (payload : List UInt8) :
    getPayload .dynamic (header classId funcId ++ (appendU32 len ++ payload))
      = (copied (header classId funcId ++ (appendU32 len ++ payload)) (12 : ℕ) len.toNat).map
        (·, classId, funcId) := by
  obtain ⟨hreserved, hclass, hfunc⟩ := getUint_header classId funcId (appendU32 len ++ payload)
  have hlen : getUint32 (header classId funcId ++ (appendU32 len ++ payload)) 8 = some len :=
    getUint32_append len rfl
  simp only [getPayload, hreserved, hclass, hfunc, hlen, Option.bind_eq_bind, Option.bind_some]
  exact Option.map_eq_bind.symm

theorem extractsStatic_iff : ExtractsStatic classId funcId payload ↔ payload ≠ [] := by
  have hfront := length_header classId funcId
  rw [ExtractsStatic, getPayload_static]
  constructor
  · rintro h rfl
    rw [List.length_nil, Nat.cast_zero, List.append_nil, copied_zero (le_of_eq hfront)] at h
    cases h
  · intro hne
    rw [copied_eq (by rw [List.length_append, hfront]) (List.length_pos_of_ne_nil hne),
      List.drop_left' hfront, List.take_length]
    rfl

theorem extractsDynamic_iff (hlen : payload.length < 2 ^ 32) :
    ExtractsDynamic classId funcId payload ↔ payload ≠ [] := by
  have hcount : (UInt32.ofNat payload.length).toNat = payload.length :=
    UInt32.toNat_ofNat_of_lt' hlen
  have hfront : (header classId funcId ++ appendU32 (UInt32.ofNat payload.length)).length = 12 := by
    rw [List.length_append, length_header, length_appendU32]
  rw [ExtractsDynamic, getPayload_dynamic, hcount, ← List.append_assoc]
  constructor
  · rintro ⟨h, -⟩ rfl
    rw [List.length_nil, Nat.cast_zero, List.append_nil] at h
    rw [List.length_nil] at hfront
    rw [copied_zero (le_of_eq hfront)] at h
    cases h
  · intro hne
    rw [copied_eq (by rw [List.length_append, hfront]) (List.length_pos_of_ne_nil hne),
      List.drop_left' hfront, List.take_length]
    exact ⟨rfl, parseString_eq hne⟩

/-- **A reply is taken apart** if and only if it has a payload. -/
theorem extracts_iff (classId funcId : UInt16) (payload : List UInt8) :
    (ExtractsStatic classId funcId payload ↔ payload ≠ []) ∧
      (payload.length < 2 ^ 32 → (ExtractsDynamic classId funcId payload ↔ payload ≠ [])) :=
  ⟨extractsStatic_iff, extractsDynamic_iff⟩

theorem extracts_probe : ExtractsStatic 2 1 [7] ∧ ExtractsDynamic 2 1 [72, 105] := by
  obtain ⟨hstatic, -⟩ := extracts_iff 2 1 [7]
  obtain ⟨-, hdynamic⟩ := extracts_iff 2 1 [72, 105]
  exact ⟨hstatic.mpr (by decide), (hdynamic (by decide)).mpr (by decide)⟩

/-- An empty vector and an empty string are legal replies, and make `getPayload` throw. -/
theorem not_forall_extracts : ¬ ∀ (classId funcId : UInt16) (payload : List UInt8),
    ExtractsStatic classId funcId payload ∧
      (payload.length < 2 ^ 32 → ExtractsDynamic classId funcId payload) := fun hall =>
  extractsDynamic_iff (by decide) |>.mp ((hall 2 1 []).2 (by decide)) rfl

end TypeScript

end KoheronSdk
