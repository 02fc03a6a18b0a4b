import KoheronSdk.Server.Session

/-!
# What the generated parser makes of its bytes

The parser fetches the arguments pack by pack, from a stream or from the payload of
a command.  Both are compared with `readArgs`, which says what bytes mean.

A pack is a run of scalars, which are received at once, or one container.  The packs of an
operation are its arguments in another grouping (`packTypes`), so `readArgs` of the arguments is
`readArgs` of the packs, one after the other, and it is enough to know what one pack takes:
`Pack.bytes` and `Pack.values` have this as functions of the bytes that are there, and
`readArgs_pack` says that they are right.  Nothing else is asked of a pack, whatever its kind.

Receiving has a condition that reading does not have: the sizes must fit in an `int`, and a
container must be one that memory can be had for.  `Pack.counted_iff` says when they do, and the
rules below assume it; what happens otherwise is in `Server/PayloadDecoding` and
`Server/Truncation`.

* `Pack.bytes`, `Pack.values`: what one pack takes, and `readArgs_pack`.
* `wp_parsePack_of_le`: the step, a pack that is on the stream.
* `wp_parser_stream`: when the stream begins with the arguments, the parser stores
  exactly these and takes exactly their bytes.  The induction is on the packs.
-/

namespace KoheronSdk

open Effects

/-! ## Packs, names and values -/

/-- The types of the arguments in a pack. -/
def Pack.types (p : Pack) : List ArgType := p.args.map Arg.type

/-- The names of the arguments in a pack. -/
def Pack.names (p : Pack) : List String := p.args.map Arg.name

/-- The bytes of a pack of scalars. -/
def Pack.scalarBytes : Pack → ℕ
  | .scalar args => requiredBufferSize (args.map Prod.snd)
  | _ => 0

/-- The types of the arguments in some packs. -/
def packTypes (packs : List Pack) : List ArgType := packs.flatMap Pack.types

/-- The names of the arguments in some packs. -/
def packNames (packs : List Pack) : List String := packs.flatMap Pack.names

@[simp] theorem packTypes_cons (p : Pack) (packs : List Pack) :
    packTypes (p :: packs) = p.types ++ packTypes packs := List.flatMap_cons

@[simp] theorem packNames_cons (p : Pack) (packs : List Pack) :
    packNames (p :: packs) = p.names ++ packNames packs := List.flatMap_cons

theorem Operation.packTypes_packs (op : Operation) : packTypes op.packs = op.types := by
  have h := args_buildArgsPacks op.arguments
  rw [packTypes, Operation.packs, Operation.types]
  conv_rhs => rw [← h, List.map_flatMap]
  rfl

theorem Operation.packNames_packs (op : Operation) :
    packNames op.packs = op.arguments.map Arg.name := by
  have h := args_buildArgsPacks op.arguments
  rw [packNames, Operation.packs]
  conv_rhs => rw [← h, List.map_flatMap]
  rfl

/-- A pack of scalars is not larger than the run of scalars it was made from. -/
theorem scalarBytes_buildArgsPacksLoop {arguments : List Arg} {packs : List Pack}
    {argsList : List (String × ScalarType)} {hasVector : Bool} {vals : List ArgVal}
    (ht : List.Forall₂ ArgVal.HasType vals (arguments.map Arg.type))
    (hpacks : ∀ p ∈ packs, p.scalarBytes ≤ scalarPackLen)
    (hargs : Pack.scalarBytes (.scalar argsList) ≤ scalarPackLen)
    (hfit : ScalarRunsFit (Pack.scalarBytes (.scalar argsList)) vals) :
    ∀ p ∈ (buildArgsPacksLoop packs argsList hasVector arguments).1,
      p.scalarBytes ≤ scalarPackLen := by
  induction arguments generalizing packs argsList hasVector vals with
  | nil => exact forall_flushScalars hpacks hargs
  | cons arg rest ih =>
    obtain ⟨name, type⟩ := arg
    rw [List.map_cons] at ht
    obtain ⟨v, vals, hv, hvals, rfl⟩ := List.forall₂_cons_right_iff.mp ht
    -- a container ends the run of scalars, and its own pack holds none
    have hcontainer : ∀ q : Pack, q.scalarBytes = 0 → ∀ b, ScalarRunsFit 0 vals →
        ∀ p ∈ (buildArgsPacksLoop (flushScalars packs argsList ++ [q]) [] b rest).1,
          p.scalarBytes ≤ scalarPackLen := by
      intro q hq b hfit'
      refine ih hvals ?_ (Nat.zero_le _) hfit'
      refine List.forall_mem_append.mpr ⟨forall_flushScalars hpacks hargs, ?_⟩
      exact List.forall_mem_singleton.mpr (hq ▸ Nat.zero_le _)
    cases type with
    | scalar t =>
      cases v with
      | scalar v =>
        obtain rfl : v.type = t := hv
        have hbytes : Pack.scalarBytes (.scalar (argsList ++ [(name, v.type)]))
            = Pack.scalarBytes (.scalar argsList) + v.type.size := by
          simp [Pack.scalarBytes, requiredBufferSize]
        exact ih hvals hpacks (by rw [hbytes]; exact hfit.1) (by rw [hbytes]; exact hfit.2)
      | _ => exact hv.elim
    | array t n =>
      cases v with
      | array vs => exact hcontainer (.array name t n) rfl _ hfit
      | _ => exact hv.elim
    | vector t =>
      cases v with
      | vector vs => exact hcontainer (.vector name t) rfl _ hfit
      | _ => exact hv.elim
    | string =>
      cases v with
      | string bs => exact hcontainer (.string name) rfl _ hfit
      | _ => exact hv.elim

/-- The scalar packs of an operation whose scalars the client could pack. -/
theorem Operation.scalarBytes_packs {op : Operation} {vals : List ArgVal}
    (ht : List.Forall₂ ArgVal.HasType vals op.types) (hfit : ScalarRunsFit 0 vals) :
    ∀ p ∈ op.packs, p.scalarBytes ≤ scalarPackLen :=
  scalarBytes_buildArgsPacksLoop ht (fun _ hp => (List.not_mem_nil hp).elim) (Nat.zero_le _) hfit

/-- Reading the arguments of some packs begins with those of the first. -/
theorem readArgs_packs_cons {p : Pack} {packs : List Pack} {bs rest : List UInt8}
    {vals : List ArgVal} :
    readArgs (packTypes (p :: packs)) bs = some (vals, rest) ↔
      ∃ us vs mid, readArgs p.types bs = some (us, mid) ∧
        readArgs (packTypes packs) mid = some (vs, rest) ∧ vals = us ++ vs := by
  rw [packTypes_cons, readArgs_append]
  simp only [Option.bind_eq_some_iff, Option.map_eq_some_iff, Prod.exists, Prod.mk.injEq]
  constructor
  · rintro ⟨us, mid, hp, vs, r, hps, rfl, rfl⟩
    exact ⟨us, vs, mid, hp, hps, rfl⟩
  · rintro ⟨us, vs, mid, hp, hps, rfl⟩
    exact ⟨us, mid, hp, vs, rest, hps, rfl, rfl⟩

/-- The view when the fields have got these values. -/
def View.setArgs (w : View) (operation : ℕ) (vals : List (String × ArgVal)) : View :=
  vals.foldl (fun w p => w.setArg operation p.1 (some p.2)) w

section SetArgs

variable (w : View) (operation : ℕ) (vals vals' : List (String × ArgVal))

@[simp] theorem View.setArgs_nil : w.setArgs operation [] = w := rfl

theorem View.setArgs_append :
    w.setArgs operation (vals ++ vals') = (w.setArgs operation vals).setArgs operation vals' :=
  List.foldl_append

theorem View.setArgs_eq :
    w.setArgs operation vals = { w with args := (w.setArgs operation vals).args } := by
  induction vals generalizing w with
  | nil => rfl
  | cons p vals ih =>
    rw [View.setArgs, List.foldl_cons]
    exact ih _

@[simp] theorem View.input_setArgs : (w.setArgs operation vals).input = w.input := by
  rw [View.setArgs_eq]

@[simp] theorem View.held_setArgs : (w.setArgs operation vals).held = w.held := by
  rw [View.setArgs_eq]

@[simp] theorem View.trace_setArgs : (w.setArgs operation vals).trace = w.trace := by
  rw [View.setArgs_eq]

@[simp] theorem View.calling_setArgs : (w.setArgs operation vals).calling = w.calling := by
  rw [View.setArgs_eq]

@[simp] theorem View.consumed_setArgs : (w.setArgs operation vals).consumed = w.consumed := by
  rw [View.setArgs_eq]

@[simp] theorem View.ending_setArgs : (w.setArgs operation vals).ending = w.ending := by
  rw [View.setArgs_eq]

theorem View.advance_setArgs (n : ℕ) :
    (w.advance n).setArgs operation vals = (w.setArgs operation vals).advance n := by
  induction vals generalizing w with
  | nil => rfl
  | cons p vals ih =>
    rw [View.setArgs, List.foldl_cons, View.advance_setArg]
    exact ih _

/-- A field that is not among the names keeps its content. -/
theorem View.args_setArgs_of_notMem {name : String} (h : name ∉ vals.map Prod.fst) :
    (w.setArgs operation vals).args operation name = w.args operation name := by
  induction vals generalizing w with
  | nil => rfl
  | cons p vals ih =>
    rw [List.map_cons, List.mem_cons, not_or] at h
    rw [View.setArgs, List.foldl_cons]
    refine (ih _ h.2).trans ?_
    simp [View.setArg, ArgStructs.set, h.1]

/-- The fields have the values they were given. -/
theorem View.map_args_setArgs (h : (vals.map Prod.fst).Nodup) :
    (vals.map Prod.fst).map ((w.setArgs operation vals).args operation)
      = vals.map fun p => some p.2 := by
  induction vals generalizing w with
  | nil => rfl
  | cons p vals ih =>
    rw [List.map_cons, List.nodup_cons] at h
    rw [View.setArgs, List.foldl_cons, List.map_cons, List.map_cons, List.map_cons]
    refine congrArg₂ List.cons ?_ (ih _ h.2)
    refine (View.args_setArgs_of_notMem _ operation vals h.1).trans ?_
    simp [View.setArg, ArgStructs.set]

/-- The arguments of an operation have the values they were given. -/
theorem Operation.map_args_setArgs (op : Operation) {vals : List ArgVal}
    (hlen : (op.arguments.map Arg.name).length = vals.length) :
    (op.arguments.map Arg.name).map
      ((w.setArgs operation ((op.arguments.map Arg.name).zip vals)).args operation)
        = vals.map some := by
  have hfst : ((op.arguments.map Arg.name).zip vals).map Prod.fst = op.arguments.map Arg.name :=
    List.map_fst_zip (Nat.le_of_eq hlen)
  have hsnd : ((op.arguments.map Arg.name).zip vals).map (fun p => some p.2) = vals.map some := by
    have h : ((op.arguments.map Arg.name).zip vals).map Prod.snd = vals :=
      List.map_snd_zip (Nat.le_of_eq hlen.symm)
    conv_rhs => rw [← h, List.map_map]
    rfl
  have h := w.map_args_setArgs operation ((op.arguments.map Arg.name).zip vals)
    (by rw [hfst]; exact op.names_nodup)
  rwa [hfst, hsnd] at h

end SetArgs

/-! ## What a pack takes -/

/-- The bytes of the length in front of a pack's data. -/
def Pack.prefixBytes : Pack → ℕ
  | .scalar _ | .array _ _ _ => 0
  | .vector _ _ | .string _ => 4

/-- The bytes of a pack's data, when `bs` begins with the pack. -/
def Pack.dataBytes : Pack → List UInt8 → ℕ
  | .scalar args, _ => requiredBufferSize (args.map Prod.snd)
  | .array _ t n, _ => n * t.size
  | .vector _ t, bs => elemCount t bs * t.size
  | .string _, bs => (extractU32 bs).toNat

/-- The bytes of a pack. -/
def Pack.bytes (p : Pack) (bs : List UInt8) : ℕ := p.prefixBytes + p.dataBytes bs

/-- The values in a pack, when `bs` begins with it. -/
def Pack.values : Pack → List UInt8 → List ArgVal
  | .scalar args, bs => (extractAll (args.map Prod.snd) bs).map .scalar
  | .array _ t n, bs => [.array (ofMemOf t n (bs.take (n * t.size)))]
  | .vector _ t, bs =>
    [.vector (ofMemOf t (elemCount t bs) ((bs.drop 4).take (elemCount t bs * t.size)))]
  | .string _, bs => [.string ((bs.drop 4).take (extractU32 bs).toNat)]

@[simp] theorem Pack.types_scalar (args : List (String × ScalarType)) :
    Pack.types (.scalar args) = (args.map Prod.snd).map .scalar := by
  simp [Pack.types, Pack.args]

@[simp] theorem Pack.names_scalar (args : List (String × ScalarType)) :
    Pack.names (.scalar args) = args.map Prod.fst := by
  simp [Pack.names, Pack.args]

/-- A container in one pack is read as one argument. -/
theorem readArgs_single (t : ArgType) (bs : List UInt8) :
    readArgs [t] bs = (t.read bs).map fun p => ([p.1], p.2) := by
  simp only [readArgs]
  cases t.read bs <;> rfl

/-- **Reading a pack**: its bytes have to be there, and no more. -/
theorem readArgs_pack (p : Pack) (bs : List UInt8) :
    readArgs p.types bs =
      if p.bytes bs ≤ bs.length then some (p.values bs, bs.drop (p.bytes bs)) else none := by
  -- a container is in its pack by itself
  have hsingle : ∀ (t : ArgType) (n : ℕ) (v : ArgVal),
      t.read bs = (if n ≤ bs.length then some (v, bs.drop n) else none) →
      readArgs [t] bs = if n ≤ bs.length then some ([v], bs.drop n) else none := by
    intro t n v h
    rw [readArgs_single, h]
    by_cases hn : n ≤ bs.length
    · rw [if_pos hn, if_pos hn, Option.map_some]
    · rw [if_neg hn, if_neg hn, Option.map_none]
  cases p with
  | scalar args =>
    rw [Pack.types_scalar, readArgs_scalars, Pack.bytes, Pack.prefixBytes, Nat.zero_add]
    rfl
  | array name t n =>
    rw [Pack.bytes, Pack.prefixBytes, Nat.zero_add]
    exact hsingle (.array t n) (n * t.size) _ rfl
  | vector name t => exact hsingle (.vector t) (4 + elemCount t bs * t.size) _ rfl
  | string name => exact hsingle .string (4 + (extractU32 bs).toNat) _ rfl

/-- One value is read for each name. -/
theorem Pack.length_values (p : Pack) (bs : List UInt8) :
    (p.values bs).length = p.names.length := by
  cases p with
  | scalar args => simp [Pack.values]
  | _ => rfl

/-- The bytes of the data of a container are those of its value. -/
theorem Pack.dataBytes_le_of_small {p : Pack} {bs : List UInt8} (hbytes : p.scalarBytes < 2 ^ 31)
    (hle : p.bytes bs ≤ bs.length) (hsmall : ∀ v ∈ p.values bs, v.Small) :
    p.dataBytes bs < 2 ^ 31 := by
  cases p with
  | scalar args => exact hbytes
  | string name =>
    have h := hsmall _ (List.mem_singleton_self _)
    rw [ArgVal.Small, ArgVal.data, List.length_take, List.length_drop] at h
    simp only [Pack.bytes, Pack.prefixBytes, Pack.dataBytes] at hle ⊢
    omega
  | _ =>
    have h := hsmall _ (List.mem_singleton_self _)
    rwa [ArgVal.Small, ArgVal.data, length_memOf fun v hv => type_of_mem_ofMemOf hv,
      length_ofMemOf] at h

/-- Memory for the pack can be had at all: what a container announces is a possible
size. -/
def Pack.Allocatable (arch : Arch) (p : Pack) (bs : List UInt8) : Prop :=
  0 < p.prefixBytes → p.dataBytes bs ≤ arch.maxObject

instance (arch : Arch) (p : Pack) (bs : List UInt8) : Decidable (p.Allocatable arch bs) :=
  inferInstanceAs (Decidable (_ → _))

/-- The bytes of a part of fixed size. -/
def Pack.fixedBytes : Pack → ℕ
  | .scalar args => requiredBufferSize (args.map Prod.snd)
  | .array _ t n => n * t.size
  | .vector _ _ | .string _ => 0

theorem toInt_nonneg_iff {n : ℕ} (h : n < 2 ^ 32) : ¬ toInt n < 0 ↔ n < 2 ^ 31 := by
  rw [toInt, Int.bmod_def]
  push_cast
  split_ifs <;> omega

/-- **When the size of a pack is no obstacle**: what is of fixed size is not negative as
an `int`, and a container with a byte count is small. -/
theorem Pack.counted_iff (arch : Arch) {p : Pack} {bs : List UInt8} (hle : p.bytes bs ≤ bs.length) :
    (p.Allocatable arch bs ∧ ¬ toInt (p.dataBytes bs) < 0) ↔
      ¬ toInt p.fixedBytes < 0 ∧ ∀ v ∈ p.values bs, v.Counted := by
  have hmax := arch.maxObject_ge
  have hzero : ¬ toInt (0 : ℕ) < 0 := Int.lt_irrefl 0
  have hcount := (extractU32 bs).toNat_lt
  cases p with
  | scalar args =>
    have hvalues : ∀ v ∈ Pack.values (.scalar args) bs, v.Counted := by
      intro v hv
      obtain ⟨u, -, rfl⟩ := List.mem_map.mp hv
      trivial
    exact ⟨fun h => ⟨h.2, hvalues⟩, fun h => ⟨fun h0 => absurd h0 (Nat.lt_irrefl 0), h.1⟩⟩
  | array name t n =>
    have hvalues : ∀ v ∈ Pack.values (.array name t n) bs, v.Counted := by
      intro v hv
      rw [List.mem_singleton.mp hv]
      trivial
    exact ⟨fun h => ⟨h.2, hvalues⟩, fun h => ⟨fun h0 => absurd h0 (Nat.lt_irrefl 0), h.1⟩⟩
  | vector name t =>
    obtain ⟨n, hn⟩ : ∃ n, elemCount t bs * t.size = n := ⟨_, rfl⟩
    have hlt : n < 2 ^ 32 := by
      have := Nat.div_mul_le_self (extractU32 bs).toNat t.size
      rw [← hn, elemCount]
      omega
    have hvalues : (∀ v ∈ Pack.values (.vector name t) bs, v.Counted) ↔ n < 2 ^ 31 := by
      simp only [Pack.values, List.forall_mem_singleton, ArgVal.Counted]
      rw [length_memOf fun v hv => type_of_mem_ofMemOf hv, length_ofMemOf, hn]
    rw [hvalues, Pack.Allocatable]
    simp only [Pack.prefixBytes, Pack.dataBytes, Pack.fixedBytes, hn, toInt_nonneg_iff hlt]
    exact ⟨fun h => ⟨hzero, h.2⟩, fun h => ⟨fun _ => by omega, h.2⟩⟩
  | string name =>
    obtain ⟨n, hn⟩ : ∃ n, (extractU32 bs).toNat = n := ⟨_, rfl⟩
    rw [hn] at hcount
    have hle' : 4 + n ≤ bs.length := by rw [← hn]; exact hle
    have hvalues : (∀ v ∈ Pack.values (.string name) bs, v.Counted) ↔ n < 2 ^ 31 := by
      simp only [Pack.values, List.forall_mem_singleton, ArgVal.Counted, hn]
      rw [List.length_take, List.length_drop, Nat.min_eq_left (by omega)]
    rw [hvalues, Pack.Allocatable]
    simp only [Pack.prefixBytes, Pack.dataBytes, Pack.fixedBytes, hn, toInt_nonneg_iff hcount]
    exact ⟨fun h => ⟨hzero, h.2⟩, fun h => ⟨fun _ => by omega, h.2⟩⟩

/-! ## Parsing a stream -/

section Stream

variable {drivers : List Driver} {env : Env} {w : View} {arch : Arch} {type : SockType}
  {driver operation : ℕ} {cmd : Command} {packs : List Pack} {p : Pack}

theorem wp_storeScalars (hw : w.held = some driver) {args : List (String × ScalarType)}
    {vals : List ScalarVal} (hlen : vals.length = args.length)
    {post : Result Stop View Unit → Prop} :
    (session drivers env).wp (storeScalars driver operation args vals) post w ↔
      post (.ret () (w.setArgs operation ((args.map Prod.fst).zip (vals.map .scalar)))) := by
  induction args generalizing vals w with
  | nil =>
    cases vals with
    | nil => rfl
    | cons v vals => simp at hlen
  | cons arg args ih =>
    cases vals with
    | nil => simp at hlen
    | cons v vals =>
      rw [storeScalars, Handler.wp_bind, wp_store hw, Handler.andThen_ret,
        ih (w := w.setArg operation arg.1 (some (.scalar v))) hw (by simpa using hlen)]
      rfl

/-! A TCP and a Unix session receive in the same way. -/

theorem deserialize_stream (htype : type ≠ .websock) (t : ScalarType) (ts : List ScalarType) :
    deserialize type (t :: ts) cmd = do
      let (err, vals) ← Tcp.deserialize (t :: ts)
      return (err, vals, cmd) := by
  cases type with
  | websock => exact absurd rfl htype
  | _ => rfl

theorem recvArray_stream (htype : type ≠ .websock) (name : String) (t : ScalarType) (n : ℕ) :
    recvArray type driver operation name t n cmd = do
      return (← Tcp.recvArray driver operation name t n, cmd) := by
  cases type with
  | websock => exact absurd rfl htype
  | _ => rfl

theorem recvVector_stream (htype : type ≠ .websock) (name : String) (t : ScalarType) :
    recvVector arch type driver operation name t cmd = do
      return (← Tcp.recvVector arch driver operation name t, cmd) := by
  cases type with
  | websock => exact absurd rfl htype
  | _ => rfl

theorem recvString_stream (htype : type ≠ .websock) (name : String) :
    recvString arch type driver operation name cmd = do
      return (← Tcp.recvString arch driver operation name, cmd) := by
  cases type with
  | websock => exact absurd rfl htype
  | _ => rfl

/-- The code for a container once its length is known, `value` being what becomes of
the data. -/
def fillPack (driver operation : ℕ) (cmd : Command) (name : String) (nBytes : ℕ)
    (value : List UInt8 → ArgVal) : Program (ℤ × Command) := do
  let err ← Tcp.fill driver operation name nBytes value
  if err < 0 then return (-1, cmd)
  return (0, cmd)

/-- The name of a container and the value that its data are. -/
def Pack.container : Pack → List UInt8 → Option (String × (List UInt8 → ArgVal))
  | .scalar _, _ => none
  | .array name t n, _ => some (name, fun got => .array (ofMemOf t n got))
  | .vector name t, bs => some (name, fun got => .vector (ofMemOf t (elemCount t bs) got))
  | .string name, _ => some (name, .string)

/-- A container comes down to filling its storage. -/
theorem wp_parsePack_container (htype : type ≠ .websock) {name : String}
    {value : List UInt8 → ArgVal} (hp : p.container w.input = some (name, value))
    (hpre : p.prefixBytes ≤ w.input.length) (hmax : p.Allocatable arch w.input)
    {post : Result Stop View (ℤ × Command) → Prop} :
    (session drivers env).wp (parsePack arch type driver operation cmd p) post w ↔
      (session drivers env).wp
        (fillPack driver operation cmd name (p.dataBytes w.input) value) post
        (w.advance p.prefixBytes) := by
  cases p with
  | scalar args => cases hp
  | array name' t n =>
    simp only [Pack.container, Option.some.injEq, Prod.mk.injEq] at hp
    obtain ⟨rfl, rfl⟩ := hp
    rw [parsePack, recvArray_stream htype, Handler.wp_bind, Handler.wp_bind, fillPack,
      Handler.wp_bind]
    rfl
  | vector name' t =>
    simp only [Pack.container, Option.some.injEq, Prod.mk.injEq] at hp
    obtain ⟨rfl, rfl⟩ := hp
    have hcount : (extractU32 w.input).toNat < 2 ^ 64 :=
      lt_trans (extractU32 w.input).toNat_lt (by decide)
    have hmax' : ¬ arch.maxObject < (extractU32 w.input).toNat / t.size * t.size :=
      Nat.not_lt.mpr (hmax (Nat.succ_pos 3))
    rw [parsePack, recvVector_stream htype, Handler.wp_bind, Handler.wp_bind, Tcp.recvVector,
      Handler.wp_bind, wp_getPackLength_of_le hpre, Handler.andThen_ret,
      wp_recvVectorData hcount, if_neg hmax', fillPack, Handler.wp_bind]
    rfl
  | string name' =>
    simp only [Pack.container, Option.some.injEq, Prod.mk.injEq] at hp
    obtain ⟨rfl, rfl⟩ := hp
    have hmax' : ¬ arch.maxObject < (extractU32 w.input).toNat :=
      Nat.not_lt.mpr (hmax (Nat.succ_pos 3))
    rw [parsePack, recvString_stream htype, Handler.wp_bind, Handler.wp_bind, Tcp.recvString,
      Handler.wp_bind, wp_getPackLength_of_le hpre, Handler.andThen_ret,
      wp_recvStringData, if_neg hmax', fillPack, Handler.wp_bind]
    rfl

theorem wp_fillPack_of_le (hw : w.held = some driver) {name : String} {nBytes : ℕ}
    {value : List UInt8 → ArgVal} (h : nBytes ≤ w.input.length)
    {post : Result Stop View (ℤ × Command) → Prop} :
    (session drivers env).wp (fillPack driver operation cmd name nBytes value) post w ↔
      post (.ret (if toInt nBytes < 0 then -1 else 0, cmd)
        ((w.setArg operation name (some (value (w.input.take nBytes)))).advance nBytes)) := by
  rw [fillPack, Handler.wp_bind, wp_fill_of_le hw h, Handler.andThen_ret]
  split <;> rfl

/-- The scalars of a pack that is on the stream. -/
theorem wp_parsePack_scalar_of_le (htype : type ≠ .websock) (hw : w.held = some driver)
    {args : List (String × ScalarType)} {n : ℕ}
    (hn : requiredBufferSize (args.map Prod.snd) = n) (h : n ≤ w.input.length)
    {post : Result Stop View (ℤ × Command) → Prop} :
    (session drivers env).wp (parsePack arch type driver operation cmd (.scalar args)) post w ↔
      if toInt n < 0 then post (.ret (-1, cmd) (w.advance n))
      else post (.ret (0, cmd) ((w.setArgs operation ((args.map Prod.fst).zip
        ((extractAll (args.map Prod.snd) w.input).map .scalar))).advance n)) := by
  subst hn
  rw [parsePack, Handler.wp_bind]
  cases args with
  | nil =>
    have hneg : ¬ toInt (0 : ℕ) < 0 := Int.lt_irrefl 0
    rw [List.map_nil, requiredBufferSize_nil, if_neg hneg, View.advance_zero]
    rfl
  | cons arg args =>
    have hlen : (extractAll ((arg :: args).map Prod.snd) w.input).length
        = (arg :: args).length := by simp
    rw [List.map_cons, deserialize_stream htype, Handler.wp_bind, ← List.map_cons,
      wp_deserialize_of_le h]
    generalize requiredBufferSize ((arg :: args).map Prod.snd) = n
    generalize toInt n = err
    rw [Handler.andThen_ret, Handler.wp_pure, Handler.andThen_ret]
    change (session drivers env).wp (if err < 0 then _ else _) post (w.advance n) ↔ _
    by_cases hneg : err < 0
    · rw [if_pos hneg, if_pos hneg, Handler.wp_pure]
    · rw [if_neg hneg, if_neg hneg, Handler.wp_bind,
        wp_storeScalars (w := w.advance _) hw hlen]
      simp only [Handler.andThen_ret, Handler.wp_pure, View.advance_setArgs]

/-- **A pack that is on the stream** is stored, and its bytes are taken. -/
theorem wp_parsePack_of_le (htype : type ≠ .websock) (hw : w.held = some driver)
    (hle : p.bytes w.input ≤ w.input.length) (hmax : p.Allocatable arch w.input)
    (hneg : ¬ toInt (p.dataBytes w.input) < 0) {post : Result Stop View (ℤ × Command) → Prop} :
    (session drivers env).wp (parsePack arch type driver operation cmd p) post w ↔
      post (.ret (0, cmd) ((w.setArgs operation (p.names.zip (p.values w.input))).advance
        (p.bytes w.input))) := by
  have hpre : p.prefixBytes ≤ w.input.length := le_trans (Nat.le_add_right _ _) hle
  have hdata : p.dataBytes w.input ≤ (w.advance p.prefixBytes).input.length := by
    rw [View.input_advance, List.length_drop]
    exact Nat.le_sub_of_add_le (by rw [Nat.add_comm]; exact hle)
  cases hp : p.container w.input with
  | none =>
    cases p with
    | scalar args =>
      have hle' : requiredBufferSize (args.map Prod.snd) ≤ w.input.length :=
        le_trans (Nat.le_add_left _ _) hle
      have hbytes : Pack.bytes (.scalar args) w.input = requiredBufferSize (args.map Prod.snd) :=
        Nat.zero_add _
      have hneg' : ¬ toInt (requiredBufferSize (args.map Prod.snd)) < 0 := hneg
      rw [wp_parsePack_scalar_of_le htype hw rfl hle', if_neg hneg', hbytes, Pack.names_scalar]
      rfl
    | _ => cases hp
  | some c =>
    obtain ⟨name, value⟩ := c
    have hzip : p.names.zip (p.values w.input)
        = [(name, value ((w.input.drop p.prefixBytes).take (p.dataBytes w.input)))] := by
      cases p with
      | scalar args => cases hp
      | _ =>
        simp only [Pack.container, Option.some.injEq, Prod.mk.injEq] at hp
        obtain ⟨rfl, rfl⟩ := hp
        rfl
    rw [wp_parsePack_container htype hp hpre hmax,
      wp_fillPack_of_le (w := w.advance p.prefixBytes) hw hdata, if_neg hneg, hzip]
    simp only [View.advance_setArg, View.advance_advance]
    rfl

/-- A pack whose size is negative as an `int` is rejected when it has been read. -/
theorem wp_parsePack_of_negative (htype : type ≠ .websock) (hw : w.held = some driver)
    (hle : p.bytes w.input ≤ w.input.length) (hmax : p.Allocatable arch w.input)
    (hneg : toInt (p.dataBytes w.input) < 0) {post : Result Stop View (ℤ × Command) → Prop}
    (hpost : ∀ w', w'.trace = w.trace → post (.ret (-1, cmd) w')) :
    (session drivers env).wp (parsePack arch type driver operation cmd p) post w := by
  have hpre : p.prefixBytes ≤ w.input.length := le_trans (Nat.le_add_right _ _) hle
  have hdata : p.dataBytes w.input ≤ (w.advance p.prefixBytes).input.length := by
    rw [View.input_advance, List.length_drop]
    exact Nat.le_sub_of_add_le (by rw [Nat.add_comm]; exact hle)
  cases hp : p.container w.input with
  | none =>
    cases p with
    | scalar args =>
      have hle' : requiredBufferSize (args.map Prod.snd) ≤ w.input.length :=
        le_trans (Nat.le_add_left _ _) hle
      have hneg' : toInt (requiredBufferSize (args.map Prod.snd)) < 0 := hneg
      rw [wp_parsePack_scalar_of_le htype hw rfl hle', if_pos hneg']
      exact hpost _ rfl
    | _ => cases hp
  | some c =>
    rw [wp_parsePack_container htype hp hpre hmax,
      wp_fillPack_of_le (w := w.advance p.prefixBytes) hw hdata, if_pos hneg]
    exact hpost _ rfl

/-- A container that is too large for memory ends the process. -/
theorem wp_parsePack_of_not_allocatable (htype : type ≠ .websock)
    (hpre : p.prefixBytes ≤ w.input.length) (hmax : ¬ p.Allocatable arch w.input)
    {post : Result Stop View (ℤ × Command) → Prop} :
    (session drivers env).wp (parsePack arch type driver operation cmd p) post w ↔
      post (.halt .terminated (w.advance p.prefixBytes)) := by
  rw [Pack.Allocatable, Classical.not_imp, Nat.not_le] at hmax
  cases p with
  | vector name t =>
    have hcount : (extractU32 w.input).toNat < 2 ^ 64 :=
      lt_trans (extractU32 w.input).toNat_lt (by decide)
    have hmax' : arch.maxObject < (extractU32 w.input).toNat / t.size * t.size := hmax.2
    rw [parsePack, recvVector_stream htype, Handler.wp_bind, Handler.wp_bind, Tcp.recvVector,
      Handler.wp_bind, wp_getPackLength_of_le hpre, Handler.andThen_ret,
      wp_recvVectorData hcount, if_pos hmax']
    rfl
  | string name =>
    have hmax' : arch.maxObject < (extractU32 w.input).toNat := hmax.2
    rw [parsePack, recvString_stream htype, Handler.wp_bind, Handler.wp_bind, Tcp.recvString,
      Handler.wp_bind, wp_getPackLength_of_le hpre, Handler.andThen_ret,
      wp_recvStringData, if_pos hmax']
    rfl
  | _ => exact absurd hmax.1 (Nat.lt_irrefl 0)

/-- **A stream that begins with the arguments**: the parser stores them all and
takes their bytes, however the stream is cut, when no size is an obstacle. -/
theorem wp_parser_of_sizes (htype : type ≠ .websock) (hw : w.held = some driver)
    {vals : List ArgVal} {rest : List UInt8}
    (hread : readArgs (packTypes packs) w.input = some (vals, rest))
    (hsizes : ∀ p ∈ packs, ∀ bs, p.bytes bs ≤ bs.length → (∀ v ∈ p.values bs, v ∈ vals) →
      p.Allocatable arch bs ∧ ¬ toInt (p.dataBytes bs) < 0)
    {post : Result Stop View (ℤ × Command) → Prop} :
    (session drivers env).wp (parser arch type driver operation packs cmd) post w ↔
      post (.ret (0, cmd) ((w.setArgs operation ((packNames packs).zip vals)).advance
        (w.input.length - rest.length))) := by
  induction packs generalizing w vals with
  | nil =>
    simp only [packTypes, List.flatMap_nil, readArgs, Option.some.injEq, Prod.mk.injEq] at hread
    obtain ⟨rfl, rfl⟩ := hread
    simp [parser, packNames]
  | cons p packs ih =>
    obtain ⟨us, vs, mid, hp, hps, rfl⟩ := readArgs_packs_cons.mp hread
    rw [readArgs_pack, Option.ite_none_right_eq_some, Option.some.injEq, Prod.mk.injEq] at hp
    obtain ⟨hle, rfl, rfl⟩ := hp
    obtain ⟨hmax, hneg⟩ := hsizes p (List.mem_cons_self ..) w.input hle
      fun v hv => List.mem_append_left _ hv
    obtain ⟨m, hm, rfl⟩ := length_of_readArgs hps
    rw [List.length_drop] at hm
    have hzip : (packNames (p :: packs)).zip (p.values w.input ++ vs)
        = p.names.zip (p.values w.input) ++ (packNames packs).zip vs := by
      rw [packNames_cons, List.zip_append (p.length_values w.input).symm]
    rw [parser, Handler.wp_bind, wp_parsePack_of_le htype hw hle hmax hneg]
    simp only [Handler.andThen_ret, lt_self_iff_false, if_false]
    rw [ih (w := (w.setArgs operation _).advance _) (by simpa using hw)
      (by simpa using hps) fun q hq bs hbs hvs => hsizes q (List.mem_cons_of_mem p hq) bs hbs
        fun v hv => List.mem_append_right _ (hvs v hv)]
    obtain ⟨n, hn⟩ : ∃ n, p.bytes w.input = n := ⟨_, rfl⟩
    rw [hn] at hle hm ⊢
    have hlen : n + (w.input.length - n - (w.input.length - n - m))
        = w.input.length - (w.input.length - n - m) := by omega
    simp only [View.input_advance, View.input_setArgs, List.length_drop, View.advance_setArgs,
      View.advance_advance, hzip, View.setArgs_append, hlen]

theorem wp_parser_stream (htype : type ≠ .websock) (hw : w.held = some driver)
    {vals : List ArgVal} {rest : List UInt8}
    (hread : readArgs (packTypes packs) w.input = some (vals, rest))
    (hbytes : ∀ p ∈ packs, p.scalarBytes < 2 ^ 31) (hsmall : ∀ v ∈ vals, v.Small)
    {post : Result Stop View (ℤ × Command) → Prop} :
    (session drivers env).wp (parser arch type driver operation packs cmd) post w ↔
      post (.ret (0, cmd) ((w.setArgs operation ((packNames packs).zip vals)).advance
        (w.input.length - rest.length))) := by
  refine wp_parser_of_sizes htype hw hread fun p hp bs hle hvs => ?_
  have hdata : p.dataBytes bs < 2 ^ 31 :=
    Pack.dataBytes_le_of_small (hbytes p hp) hle fun v hv => hsmall v (hvs v hv)
  refine ⟨fun _ => ?_, ?_⟩
  · have := arch.maxObject_ge
    omega
  · rw [toInt_of_lt hdata]
    omega

end Stream

end KoheronSdk
