import KoheronSdk.Client.OpTable
import Mathlib.Data.List.Nodup

/-!
# The op table of a context

What `get_json` writes, `parse_ops` reads: an entry for each operation of the server and of the
drivers, as long as their ids fit in 16 bits.

This puts two modules together.  `Generator/ContextJson` says which tokens the context has when it
has been compiled and run, with what the compiler prints for the expressions in it;
`Client/OpTable` says what the scanner makes of tokens, whatever the strings in them are, if only
they need no escape.  What is left is to compare the entries with the operations, class by class,
the server's own class first, and the index by id.

An id of the table is that of the class and that of the operation in 16 bits each.  The numbers are
those of the generator, counted up from the first driver and from the first operation, and
nothing limits them there: the operation with the number 65536 gets the id of the first one, and the
lookup by id finds that one.  So the result has a condition, and a driver that misses it is
the counterexample.

* `parseOps_contextTokens`: the scanner on any context of plain strings.
* `OpTable.find_eq`: the index of the table finds the first entry with an id.
* `RoundTrips`: the entries and the lookups that a client should get.
* `roundTrips_of_fits`: it does for drivers that fit.
-/

namespace KoheronSdk

open QuotedText TextSearch Context

namespace OpDetail

/-! ## The scanner on a context -/

section Scan

variable {toks : List Token}

theorem nested_argsItems {f : FunctionJson} (hf : f.All Token.Plain) :
    ∀ item ∈ [("name", [Token.str f.name]), ("id", [.num f.id]), ("ret_type", [.str f.retType]),
      ("args", listTokens (f.args.map argTokens))],
      (Token.str item.1.toList).Plain ∧ Nested item.2 := by
  refine List.forall_mem_cons.mpr ⟨⟨?_, nested_str hf.name⟩,
    List.forall_mem_cons.mpr ⟨⟨?_, nested_num f.id⟩,
    List.forall_mem_cons.mpr ⟨⟨?_, nested_str hf.retType⟩,
    List.forall_mem_singleton.mpr ⟨?_, nested_argsTokens hf⟩⟩⟩⟩
  · exact IsKey.plain (k := "name".toList) (by decide)
  · exact IsKey.plain (k := "id".toList) (by decide)
  · exact IsKey.plain (k := "ret_type".toList) (by decide)
  · exact IsKey.plain (k := "args".toList) (by decide)

theorem keyless_functionItems (f : FunctionJson) :
    ∀ item ∈ [("name", [Token.str f.name]), ("id", [.num f.id]), ("ret_type", [.str f.retType]),
      ("args", listTokens (f.args.map argTokens))],
      item.1.toList ≠ "class".toList ∧ Keyless "class".toList item.2 := by
  refine List.forall_mem_cons.mpr ⟨⟨?_, keyless_str f.name⟩,
    List.forall_mem_cons.mpr ⟨⟨?_, keyless_num f.id⟩,
    List.forall_mem_cons.mpr ⟨⟨?_, keyless_str f.retType⟩,
    List.forall_mem_singleton.mpr ⟨?_, keyless_argsTokens (by decide) (by decide) f⟩⟩⟩⟩
  · show "name".toList ≠ "class".toList
    decide
  · show "id".toList ≠ "class".toList
    decide
  · show "ret_type".toList ≠ "class".toList
    decide
  · show "args".toList ≠ "class".toList
    decide

/-- The items of an operation of the server are those of an operation of a driver. -/
theorem mem_functionItems {f : FunctionJson} {item : String × List Token}
    (h : item ∈ [("name", [Token.str f.name]), ("id", [.num f.id]),
      ("args", listTokens (f.args.map argTokens)), ("ret_type", [.str f.retType])]) :
    item ∈ [("name", [Token.str f.name]), ("id", [.num f.id]), ("ret_type", [.str f.retType]),
      ("args", listTokens (f.args.map argTokens))] := by
  rcases List.mem_cons.mp h with rfl | h
  · exact List.mem_cons_self
  · refine List.mem_cons_of_mem _ ?_
    rcases List.mem_cons.mp h with rfl | h
    · exact List.mem_cons_self
    · exact List.mem_cons_of_mem _ (List.mem_pair.mpr (List.mem_pair.mp h).symm)

theorem reads_functionTokens (hplain : ∀ tok ∈ toks, tok.Plain) {c : ClassJson}
    (hc : c.All Token.Plain) : Reads toks functionTokens c where
  isObject f hf := isObject_dictTokens (nested_argsItems (hc.functions f hf))
  keyless f _ := keyless_dictTokens (keyless_functionItems f)
  parse f hf className cid _ _ _ h :=
    parseFunction_functionTokens hplain (hc.functions f hf) className cid h

theorem reads_serverFunctionTokens (hplain : ∀ tok ∈ toks, tok.Plain) {c : ClassJson}
    (hc : c.All Token.Plain) : Reads toks serverFunctionTokens c where
  isObject f hf := isObject_dictTokens fun item hitem =>
    nested_argsItems (hc.functions f hf) item (mem_functionItems hitem)
  keyless f _ := keyless_dictTokens fun item hitem =>
    keyless_functionItems f item (mem_functionItems hitem)
  parse f hf className cid _ _ _ h :=
    parseFunction_serverFunctionTokens hplain (hc.functions f hf) className cid h

theorem length_le_fromClass (items : List ((FunctionJson → List Token) × ClassJson)) :
    items.length ≤ (text (fromClass items)).length := by
  induction items with
  | nil => exact Nat.zero_le _
  | cons item items ih =>
    have hnext : (text (fromClass items)).length ≤ (text (if items = [] then [.punct ']']
        else .punct ',' :: .punct '{' :: fromClass items)).length := by
      split
      · rename_i hnil
        rw [hnil]
        exact Nat.zero_le _
      · rw [text_punct_cons, text_punct_cons, List.length_cons, List.length_cons]
        omega
    simp only [fromClass_cons, length_text_str_cons, text_punct_cons, text_append,
      List.length_append, List.length_cons]
    omega

theorem kserver_plain : kserver.All Token.Plain := kserver_all (by decide)

theorem reads_contextItems {classes : List ClassJson} (h : ∀ c ∈ classes, c.All Token.Plain) :
    ∀ item ∈ contextItems classes, Reads (contextTokens classes) item.1 item.2 := by
  have hplain := forall_contextTokens structural_plain kserver_plain h
  refine List.forall_mem_cons.mpr ⟨reads_serverFunctionTokens hplain kserver_plain, ?_⟩
  intro item hitem
  obtain ⟨c, hc, rfl⟩ := List.mem_map.mp hitem
  exact reads_functionTokens hplain (h c hc)

theorem window_contextTokens (classes : List ClassJson) :
    Window (contextTokens classes) 0 (text (contextTokens classes)).length
      ([.punct '[', .punct '{'] ++ fromClass (contextItems classes)) [] := by
  rw [List.cons_append, List.singleton_append, ← contextTokens_eq]
  exact ⟨by rw [List.append_nil]; exact at_zero _, Nat.zero_add _⟩

/-- **`parse_ops` reads the operations of every class of a context**, in order. -/
theorem parseOps_contextTokens {classes : List ClassJson}
    (h : ∀ c ∈ classes, c.All Token.Plain) :
    parseOps (text (contextTokens classes)) = (kserver :: classes).flatMap readOps := by
  have hplain := forall_contextTokens structural_plain kserver_plain h
  have hfuel : (contextItems classes).length ≤ (text (contextTokens classes)).length := by
    have hlength := length_le_fromClass (contextItems classes)
    rw [contextTokens_eq, text_punct_cons, text_punct_cons, List.length_cons, List.length_cons]
    omega
  rw [parseOps, classesLoop_fromClass hplain (reads_contextItems h) (window_contextTokens classes)
    trivial hfuel, contextItems, List.flatMap_cons, List.flatMap_cons, List.flatMap_map]

end Scan

/-! ## The index -/

namespace OpTable

theorem lookup_indexLoop (id : ℕ) (ops : List OpEntry) (index : List (ℕ × ℕ)) (i : ℕ) :
    (indexLoop index ops i).lookup id
      = (index.lookup id).or ((ops.findIdx? (·.id = id)).map (· + i)) := by
  induction ops generalizing index i with
  | nil => rw [indexLoop, List.findIdx?_nil, Option.map_none, Option.or_none]
  | cons op ops ih =>
    have hrest : (if (fun op : OpEntry => decide (op.id = id)) op then some 0
        else (ops.findIdx? (·.id = id)).map (· + 1)).map (· + i)
          = if op.id = id then some i else (ops.findIdx? (·.id = id)).map (· + (i + 1)) := by
      by_cases hid : op.id = id
      · rw [if_pos (decide_eq_true hid), if_pos hid, Option.map_some, Nat.zero_add]
      · rw [if_neg (by simpa using hid), if_neg hid, Option.map_map]
        refine congrArg (Option.map · _) (funext fun n => ?_)
        show n + 1 + i = n + (i + 1)
        omega
    have hone : [(op.id, i)].lookup id = if op.id = id then some i else none := by
      rw [List.lookup_cons, List.lookup_nil]
      by_cases hid : op.id = id
      · rw [if_pos hid, hid, beq_self_eq_true]
      · rw [if_neg hid, beq_false_of_ne (Ne.symm hid)]
    rw [indexLoop, ih, List.findIdx?_cons, hrest]
    by_cases hnew : index.lookup op.id = none
    · rw [if_pos hnew, List.lookup_append, hone, Option.or_assoc]
      refine congrArg (Option.or _) ?_
      split <;> rfl
    · rw [if_neg hnew]
      obtain ⟨x, hx⟩ := Option.ne_none_iff_exists'.mp hnew
      split
      · rename_i hid
        rw [← hid, hx]
        rfl
      · rfl

/-- **The table finds the first entry with an id.** -/
theorem find_build (json : Str) (id : ℕ) :
    (build json).find id = (parseOps json).find? (·.id = id) := by
  show ((indexLoop [] (parseOps json) 0).lookup id).bind _ = _
  rw [lookup_indexLoop, List.lookup_nil, Option.none_or, List.find?_eq_bind_findIdx?_getElem?]
  cases (parseOps json).findIdx? (·.id = id) <;> rfl

end OpTable

/-! ## What the client should get -/

/-- A string without quotes and backslashes. -/
def Unquoted (s : Str) : Prop := '"' ∉ s ∧ '\\' ∉ s

/-- The type of an argument for the client: `eval` prints the size of an array. -/
def clientType (eval : Str → Str) (type : Str) : Str :=
  if isStdArray type then ((templates type).map fun params =>
    "std::array<".toList ++ params.1 ++ ", ".toList ++ eval (inHeader params.2)
      ++ ">".toList).getD []
  else type

/-- The return type for the client: `eval` prints one that the compiler deduces. -/
def clientRetType (eval : Str → Str) (className : Str) (op : Context.Operation) : Str :=
  if op.Deduced then eval (inHeader (typeExpression className op)) else op.retType

/-- The class of a driver for the client. -/
def clientClass (eval : Str → Str) (driver : Context.Driver) : ClassJson where
  name := driver.name
  id := driver.id
  functions := driver.operations.map fun op =>
    ⟨op.name, op.id, clientRetType eval driver.name op,
      op.arguments.map fun arg => (arg.1, clientType eval arg.2)⟩

/-- The classes of an instrument: the server, and its drivers. -/
def clientClasses (eval : Str → Str) (drivers : List Context.Driver) : List ClassJson :=
  kserver :: drivers.map (clientClass eval)

/-- The id of an operation. -/
def opId (c : ClassJson) (f : FunctionJson) : ℕ := (c.id <<< 16) ||| f.id

/-- The entry of an operation. -/
def clientEntry (c : ClassJson) (f : FunctionJson) : OpEntry :=
  ⟨opId c f, c.id, f.id, c.name, f.name, f.retType, f.args.map Prod.snd⟩

/-- **The context round-trips**: the client gets an entry for each operation, in order, and finds
it by its id; it finds nothing else. -/
def RoundTrips (eval : Str → Str) (drivers : List Context.Driver) (json : Str) : Prop :=
  parseOps json = (clientClasses eval drivers).flatMap (fun c => c.functions.map (clientEntry c)) ∧
  (∀ c ∈ clientClasses eval drivers, ∀ f ∈ c.functions,
    (OpTable.build json).find (opId c f) = some (clientEntry c f)) ∧
  ∀ id, (∀ c ∈ clientClasses eval drivers, ∀ f ∈ c.functions, opId c f ≠ id) →
    (OpTable.build json).find id = none

/-- The ids of the drivers and of their operations fit in the 16 bits that they have. -/
def Fits (drivers : List Context.Driver) : Prop :=
  ∀ driver ∈ drivers, driver.id < 2 ^ 16 ∧ driver.operations.length ≤ 2 ^ 16

/-! ### What is printed is what the client should get -/

section Client

variable {eval : Str → Str}

theorem unslashed_eq {s : Str} (h : '\\' ∉ s) : unslashed s = s :=
  List.filter_eq_self.mpr fun _ hc => decide_eq_true (ne_of_mem_of_not_mem hc h)

theorem printedType_eq {type : Str} (h : Unquoted type) :
    printedType eval type = clientType eval type := by
  unfold printedType clientType
  split
  · cases htemplates : templates type with
    | none => rfl
    | some params =>
      obtain ⟨ht, -⟩ := mem_of_mem_templates htemplates
      rw [Option.map_some, Option.map_some, unslashed_eq fun hmem => h.2 (ht _ hmem)]
  · exact unslashed_eq h.2

theorem unquoted_arguments {op : Context.Operation} (h : op.Parsed Unquoted) :
    ∀ arg ∈ op.arguments, Unquoted arg.2 := fun arg harg => by
  obtain ⟨-, type, htype, heq⟩ := h.arguments arg harg
  rw [← heq]
  exact ⟨fun hmem => htype.1 (mem_of_mem_bareType hmem),
    fun hmem => htype.2 (mem_of_mem_bareType hmem)⟩

theorem printed_eq_clientClass {driver : Context.Driver} (h : driver.Parsed Unquoted) :
    driver.printed eval = clientClass eval driver := by
  unfold Context.Driver.printed clientClass
  refine congrArg (ClassJson.mk _ _) (List.map_congr_left fun op hop => ?_)
  have hparsed := h.operations op hop
  have hret : printedRetType eval driver.name op = clientRetType eval driver.name op := by
    unfold printedRetType clientRetType
    split
    · rfl
    · exact unslashed_eq hparsed.retType.2
  rw [hret]
  refine congrArg (FunctionJson.mk _ _ _) (List.map_congr_left fun arg harg => ?_)
  rw [printedType_eq (unquoted_arguments hparsed arg harg)]

/-- What the compiler prints needs no escape. -/
theorem unquoted_clientType (heval : ∀ e, '"' ∉ e → Unquoted (eval e)) {type : Str}
    (h : Unquoted type) : Unquoted (clientType eval type) := by
  unfold clientType
  split
  · cases htemplates : templates type with
    | none => exact ⟨List.not_mem_nil, List.not_mem_nil⟩
    | some params =>
      obtain ⟨ht, hn⟩ := mem_of_mem_templates htemplates
      obtain ⟨hquote, hslash⟩ := heval (inHeader params.2)
        (quote_notMem_literal_jsonEscape fun hmem => h.1 (hn _ hmem))
      rw [Option.map_some, Option.getD_some, Unquoted]
      simp only [List.mem_append, not_or]
      exact ⟨⟨⟨⟨⟨by decide, fun hmem => h.1 (ht _ hmem)⟩, by decide⟩, hquote⟩, by decide⟩,
        ⟨⟨⟨by decide, fun hmem => h.2 (ht _ hmem)⟩, by decide⟩, hslash⟩, by decide⟩
  · exact h

theorem unquoted_identifier {s : Str} (h : IsIdentifier s) : Unquoted s :=
  ⟨h.notMem (by decide), h.notMem (by decide)⟩

theorem parsed_noQuote {driver : Context.Driver} (h : driver.Parsed Unquoted) :
    driver.Parsed NoQuote where
  name := h.name
  operations op hop := by
    have hop := h.operations op hop
    refine ⟨hop.name, hop.retType.1, fun arg harg => ?_, hop.client⟩
    obtain ⟨hname, type, htype, heq⟩ := hop.arguments arg harg
    exact ⟨hname, type, htype.1, heq⟩
  ids := h.ids

theorem clientClass_plain (heval : ∀ e, '"' ∉ e → Unquoted (eval e)) {driver : Context.Driver}
    (h : driver.Parsed Unquoted) : (clientClass eval driver).All Token.Plain := by
  refine ⟨unquoted_identifier h.name, fun f hf => ?_⟩
  obtain ⟨op, hop, rfl⟩ := List.mem_map.mp hf
  have hparsed := h.operations op hop
  refine ⟨unquoted_identifier hparsed.name, ?_, fun client hclient => ?_⟩
  · show Unquoted (clientRetType eval driver.name op)
    unfold clientRetType
    split
    · refine heval _ (quote_notMem_literal_jsonEscape ?_)
      exact quote_notMem_typeExpression h.name ((parsed_noQuote h).operations op hop)
    · exact hparsed.retType
  · obtain ⟨arg, harg, rfl⟩ := List.mem_map.mp hclient
    exact ⟨unquoted_identifier (hparsed.arguments arg harg).1,
      unquoted_clientType heval (unquoted_arguments hparsed arg harg)⟩

/-- **What the client reads of the context of some drivers.** -/
theorem parseOps_getJson (heval : ∀ e, '"' ∉ e → Unquoted (eval e)) {drivers : List Context.Driver}
    (hparsed : ∀ driver ∈ drivers, driver.Parsed Unquoted) {json : Str}
    (hjson : resolve eval (getJson drivers) = some json) :
    parseOps json = (clientClasses eval drivers).flatMap readOps := by
  have hprinted : drivers.map (Context.Driver.printed eval) = drivers.map (clientClass eval) :=
    List.map_congr_left fun driver hdriver => printed_eq_clientClass (hparsed driver hdriver)
  have htext := resolve_getJson (fun driver hdriver => parsed_noQuote (hparsed driver hdriver))
    hjson
  rw [hprinted] at htext
  rw [htext]
  refine parseOps_contextTokens fun c hc => ?_
  obtain ⟨driver, hdriver, rfl⟩ := List.mem_map.mp hc
  exact clientClass_plain heval (hparsed driver hdriver)

/-! ### The ids -/

theorem uint32_of_lt {n : ℕ} (h : n < 2 ^ 16) : uint32 n = n := by
  rw [uint32, Nat.min_eq_left (by omega)]
  exact Nat.mod_eq_of_lt (by omega)

/-- What is read of an operation whose ids fit is its entry. -/
theorem entry_eq_clientEntry {c : ClassJson} {f : FunctionJson} (hc : c.id < 2 ^ 16)
    (hf : f.id < 2 ^ 16) : entry c.name (uint32 c.id) f = clientEntry c f := by
  have hshift : (c.id <<< 16) % 2 ^ 32 = c.id <<< 16 := by
    rw [Nat.shiftLeft_eq]
    exact Nat.mod_eq_of_lt (by omega)
  rw [entry, clientEntry, opId, uint32_of_lt hc, uint32_of_lt hf, hshift, Nat.mod_eq_of_lt hc,
    Nat.mod_eq_of_lt hf]

/-- The id of an operation tells its class and its function. -/
theorem opId_inj {c c' : ClassJson} {f f' : FunctionJson} (hf : f.id < 2 ^ 16)
    (hf' : f'.id < 2 ^ 16) (h : opId c f = opId c' f') : c.id = c'.id ∧ f.id = f'.id := by
  rw [opId, opId, ← Nat.shiftLeft_add_eq_or_of_lt hf, ← Nat.shiftLeft_add_eq_or_of_lt hf',
    Nat.shiftLeft_eq, Nat.shiftLeft_eq] at h
  omega

/-- No two classes, and no two functions of a class, have one id. -/
structure Numbered (classes : List ClassJson) : Prop where
  ids : (classes.map ClassJson.id).Nodup
  functions : ∀ c ∈ classes, (c.functions.map FunctionJson.id).Nodup
  fits : ∀ c ∈ classes, c.id < 2 ^ 16 ∧ ∀ f ∈ c.functions, f.id < 2 ^ 16

theorem numbered_clientClasses {drivers : List Context.Driver} {P : Str → Prop}
    (hparsed : ∀ driver ∈ drivers, driver.Parsed P)
    (hids : drivers.map Context.Driver.id = List.range' 2 drivers.length) (hfits : Fits drivers) :
    Numbered (clientClasses eval drivers) where
  ids := by
    have hclasses : (clientClasses eval drivers).map ClassJson.id
        = List.range' 1 (drivers.length + 1) := by
      rw [clientClasses, List.map_cons, List.map_map]
      show 1 :: drivers.map Context.Driver.id = _
      rw [hids, List.range'_succ]
    rw [hclasses]
    exact List.nodup_range'
  functions c hc := by
    rcases List.mem_cons.mp hc with rfl | hc
    · decide
    · obtain ⟨driver, hdriver, rfl⟩ := List.mem_map.mp hc
      have hfunctions : (clientClass eval driver).functions.map FunctionJson.id
          = driver.operations.map Context.Operation.id := by
        rw [clientClass, List.map_map]
        rfl
      rw [hfunctions, (hparsed driver hdriver).ids]
      exact List.nodup_range
  fits c hc := by
    rcases List.mem_cons.mp hc with rfl | hc
    · decide
    · obtain ⟨driver, hdriver, rfl⟩ := List.mem_map.mp hc
      obtain ⟨hid, hlength⟩ := hfits driver hdriver
      refine ⟨hid, fun f hf => ?_⟩
      obtain ⟨op, hop, rfl⟩ := List.mem_map.mp hf
      have hmem : op.id ∈ driver.operations.map Context.Operation.id := List.mem_map_of_mem hop
      rw [(hparsed driver hdriver).ids, List.mem_range] at hmem
      show op.id < 2 ^ 16
      omega

/-- The entries that are read of numbered classes are theirs. -/
theorem flatMap_readOps {classes : List ClassJson} (h : Numbered classes) :
    classes.flatMap readOps = classes.flatMap fun c => c.functions.map (clientEntry c) := by
  refine List.flatMap_congr fun c hc => List.map_congr_left fun f hf => ?_
  obtain ⟨hid, hfunctions⟩ := h.fits c hc
  exact entry_eq_clientEntry hid (hfunctions f hf)

/-- The entry of an operation is the only one with its id. -/
theorem find?_opId {classes : List ClassJson} (h : Numbered classes) {c : ClassJson}
    (hc : c ∈ classes) {f : FunctionJson} (hf : f ∈ c.functions) :
    (classes.flatMap fun c => c.functions.map (clientEntry c)).find? (·.id = opId c f)
      = some (clientEntry c f) := by
  have hmem : clientEntry c f ∈ classes.flatMap fun c => c.functions.map (clientEntry c) :=
    List.mem_flatMap.mpr ⟨c, hc, List.mem_map_of_mem hf⟩
  have hfound : ((classes.flatMap fun c => c.functions.map (clientEntry c)).find?
      (·.id = opId c f)).isSome = true :=
    List.find?_isSome.mpr ⟨_, hmem, decide_eq_true rfl⟩
  obtain ⟨op, hop⟩ := Option.isSome_iff_exists.mp hfound
  have hid : op.id = opId c f := by simpa using List.find?_some hop
  obtain ⟨c', hc', hop'⟩ := List.mem_flatMap.mp (List.mem_of_find?_eq_some hop)
  obtain ⟨f', hf', rfl⟩ := List.mem_map.mp hop'
  obtain ⟨hcid, hfid⟩ := opId_inj ((h.fits c' hc').2 f' hf') ((h.fits c hc).2 f hf) hid
  obtain rfl := List.inj_on_of_nodup_map h.ids hc' hc hcid
  obtain rfl := List.inj_on_of_nodup_map (h.functions c' hc') hf' hf hfid
  exact hop

/-- **The context of drivers that fit round-trips.** -/
theorem roundTrips_of_fits (heval : ∀ e, '"' ∉ e → Unquoted (eval e))
    {headers : List (Str × List Method)} (hnamed : ∀ header ∈ headers, NamedHeader Unquoted header)
    {drivers : List Context.Driver} (hdrivers : getDrivers headers = some drivers)
    (hfits : Fits drivers) {json : Str} (hjson : resolve eval (getJson drivers) = some json) :
    RoundTrips eval drivers json := by
  obtain ⟨hparsed, hids⟩ := parsed_getDrivers hnamed hdrivers
  have hnumbered : Numbered (clientClasses eval drivers) :=
    numbered_clientClasses hparsed hids hfits
  have hops := parseOps_getJson heval hparsed hjson
  rw [flatMap_readOps hnumbered] at hops
  refine ⟨hops, fun c hc f hf => ?_, fun id hid => ?_⟩
  · rw [OpTable.find_build, hops]
    exact find?_opId hnumbered hc hf
  · rw [OpTable.find_build, hops, List.find?_eq_none]
    intro op hop
    obtain ⟨c, hc, hop⟩ := List.mem_flatMap.mp hop
    obtain ⟨f, hf, rfl⟩ := List.mem_map.mp hop
    exact fun heq => hid c hc f hf (of_decide_eq_true heq)

/-- A FIFO with an operation and an argument whose names are keys of the context. -/
def fifo : Context.Driver :=
  ⟨"Fifo".toList, 2, [⟨"args".toList, 0, "uint32_t".toList, [("id".toList, "float".toList)],
    [("id".toList, "float".toList)]⟩]⟩

/-- The context of the FIFO round-trips. -/
theorem roundTrips_fifo :
    RoundTrips (fun _ => []) [fifo] (text (contextTokens [fifo.json])) := by
  have hnamed : ∀ header ∈ [("Fifo".toList, [Method.mk "args".toList "uint32_t".toList
      [("id".toList, "float".toList)] false])], NamedHeader Unquoted header :=
    List.forall_mem_singleton.mpr ⟨by decide, List.forall_mem_singleton.mpr fun _ =>
      ⟨by decide, ⟨by decide, by decide⟩, List.forall_mem_singleton.mpr
        ⟨by decide, by decide, by decide⟩⟩⟩
  refine roundTrips_of_fits (fun _ _ => ⟨List.not_mem_nil, List.not_mem_nil⟩)
    hnamed rfl (List.forall_mem_singleton.mpr ⟨by decide, by decide⟩) ?_
  refine resolve_getJson_printable _ (List.forall_mem_singleton.mpr ⟨by decide, ?_⟩)
  exact List.forall_mem_singleton.mpr ⟨by decide, by decide,
    List.forall_mem_singleton.mpr ⟨by decide, by decide⟩⟩

/-! ### More operations than there are ids -/

/-- A method without parameters. -/
def plainMethod : Method := ⟨"f".toList, "void".toList, [], false⟩

theorem operationsLoop_replicate (n opId : ℕ) :
    operationsLoop "C".toList (List.replicate n plainMethod) opId
      = some ((List.range' opId n).map fun i => ⟨"f".toList, i, "void".toList, [], []⟩) := by
  induction n generalizing opId with
  | zero => rfl
  | succ n ih =>
    rw [List.replicate_succ, operationsLoop, if_pos (by decide), ih, List.range'_succ]
    rfl

/-- A driver with one operation more than there are ids. -/
def crowded : Context.Driver :=
  ⟨"C".toList, 2, (List.range' 0 (2 ^ 16 + 1)).map fun i =>
    ⟨"f".toList, i, "void".toList, [], []⟩⟩

/-- The client never reads an id of more than 16 bits. -/
theorem funcId_lt {classes : List ClassJson} :
    ∀ op ∈ classes.flatMap readOps, op.funcId < 2 ^ 16 := by
  intro op hop
  obtain ⟨c, -, hop⟩ := List.mem_flatMap.mp hop
  obtain ⟨f, -, rfl⟩ := List.mem_map.mp hop
  exact Nat.mod_lt _ (by decide)

/-- **The context of a driver with 65537 operations does not round-trip.** -/
theorem not_roundTrips :
    ∃ (eval : Str → Str) (headers : List (Str × List Method)) (drivers : List Context.Driver)
      (json : Str), (∀ e, '"' ∉ e → Unquoted (eval e)) ∧
        (∀ header ∈ headers, NamedHeader Unquoted header) ∧ getDrivers headers = some drivers ∧
        resolve eval (getJson drivers) = some json ∧ ¬ RoundTrips eval drivers json := by
  have hnamed : ∀ header ∈ [("C".toList, List.replicate (2 ^ 16 + 1) plainMethod)],
      NamedHeader Unquoted header := by
    refine List.forall_mem_singleton.mpr ⟨by decide, fun method hmethod _ => ?_⟩
    rw [List.eq_of_mem_replicate hmethod]
    exact ⟨by decide, ⟨by decide, by decide⟩, List.forall_mem_nil _⟩
  have hdrivers : getDrivers [("C".toList, List.replicate (2 ^ 16 + 1) plainMethod)]
      = some [crowded] := by
    rw [getDrivers, driversLoop, operationsLoop_replicate]
    rfl
  have hjson : resolve (fun _ => []) (getJson [crowded])
      = some (text (contextTokens [crowded.json])) := by
    refine resolve_getJson_printable _ (List.forall_mem_singleton.mpr ⟨by decide, fun f hf => ?_⟩)
    obtain ⟨op, hop, rfl⟩ := List.mem_map.mp hf
    obtain ⟨i, -, rfl⟩ := List.mem_map.mp hop
    have hname : PrintableToken (.str "f".toList) := by decide
    have hret : PrintableToken (.str "void".toList) := by decide
    exact ⟨hname, hret, List.forall_mem_nil _⟩
  refine ⟨fun _ => [], _, [crowded], _, fun _ _ => ⟨List.not_mem_nil, List.not_mem_nil⟩, hnamed,
    hdrivers, hjson, fun htrips => ?_⟩
  have hread := parseOps_getJson (fun _ _ => ⟨List.not_mem_nil, List.not_mem_nil⟩)
    (parsed_getDrivers hnamed hdrivers).1 hjson
  have hmem : clientEntry (clientClass (fun _ => []) crowded)
      ⟨"f".toList, 2 ^ 16, "void".toList, []⟩ ∈ (clientClasses (fun _ => []) [crowded]).flatMap
        fun c => c.functions.map (clientEntry c) := by
    refine List.mem_flatMap.mpr ⟨_, List.mem_cons_of_mem _ (List.mem_singleton.mpr rfl),
      List.mem_map_of_mem ?_⟩
    refine List.mem_map.mpr ⟨⟨"f".toList, 2 ^ 16, "void".toList, [], []⟩, List.mem_map.mpr
      ⟨2 ^ 16, List.mem_range'_1.mpr ⟨by omega, by omega⟩, rfl⟩, rfl⟩
  rw [← htrips.1, hread] at hmem
  exact absurd (funcId_lt _ hmem) (Nat.lt_irrefl _)

end Client

end OpDetail
end KoheronSdk
