import KoheronSdk.Client.OpLookup
import KoheronSdk.Client.ServerContext

/-!
# Calls by name

A client that has the context of an instrument need not know the ids of its operations.
`call_by_name` looks a name up in the table that the client has read, and `call_n` has an id and
checks that the table gives it the name.  Both then compare the types of the arguments, and in the
end the command goes out with the ids.  An exception ends the thread.

## From names to operations

What a name means is fixed by the headers of the drivers, not by the table: `Target.Denotes` goes
through the classes and operations that they declare.  The table is read from the context by
`parse_ops`, and by the results of `Client/ContextRoundTrip` a lookup in it finds the first
operation that the target denotes.  `Instrument` has what ties the parts together: the
headers, the context that was generated from them, and the server's drivers, of which it is assumed
that they have the same names in the same order.  Nothing is assumed there of their types.

## What the checks do not say

A call that passes the checks is refused by nobody any more.  Whether its arguments are then decoded
as what they are is the question of `Client/ArgTypeCheck`, and the answer is not always yes.  Here
it is a hypothesis on the program (`Instrument.Conforms`): where the checks let a call through, its
arguments are of the types of the server's operation, and what it receives is what this returns.
The exceptions are those of the checks, with their texts.

## Results

The network is that of `Client/Network`: every `write()` and `send()` takes what it is offered, and
nothing fails.

* `Client.checkedCall`: the two kinds of calls.
* `CheckedCall.Denotes`: the operation that a call means, by its names in the driver headers.
* `NamedRun`: the runs of a program whose calls mean these operations.
* `checked_calls`: in a network of such clients, of others that read the context, and of their
  sessions every call that is made is one of the operation that is meant, or it is refused before
  anything is sent.
* `server_contexts`: in the same network what is read is what the server's own device has returned.
-/

namespace KoheronSdk

open Effects OpDetail

/-! ## The code -/

namespace Client

/-- `op_id`, with the text of its exception; the name is a `const char *`. -/
def opId (opTable : Option OpTable) (classFunc : Option Str) : Except Str ℕ :=
  match opTable, classFunc with
  | some table, some classFunc =>
    match table.byName classFunc with
    | none => .error ("op_id: instrument does not declare '".toList ++ classFunc ++ "'".toList)
    | some e => .ok e.id
  | _, _ =>
    .error ("op_id: no instrument context (asked for '".toList ++ classFunc.getD "?".toList
      ++ "')".toList)

/-- `check_op_name` -/
def checkOpName (opTable : Option OpTable) (id : ℕ) (funcName : Option Str) : Except Str Unit :=
  match opTable with
  | none => .ok ()
  | some table =>
    let name := funcName.getD []
    match table.find id with
    | none =>
      let msg := "call_n/recv_n: id ".toList ++ decimalText id
        ++ " not served by instrument".toList
      match if name = [] then none else table.byName name with
      | none => .error msg
      | some byName => .error (msg ++ ": '".toList ++ name ++ "' is class ".toList
          ++ decimalText byName.classId ++ "/func ".toList ++ decimalText byName.funcId)
    | some e =>
      if name = [] then .ok ()
      else if e.funcName ≠ name ∧ e.className ++ "::".toList ++ e.funcName ≠ name then
        .error ("name/id mismatch: caller reports '".toList ++ name ++ "' but id ".toList
          ++ decimalText id ++ " is ".toList ++ e.className ++ "::".toList ++ e.funcName)
      else .ok ()

/-- `check_ret_types`, for the `type_str` of each type that is received. -/
def checkRetTypes (opTable : Option OpTable) (id : ℕ) (given : List Str) : Except Str Unit :=
  match opTable with
  | none => .ok ()
  | some table =>
    match table.find id, given with
    | some e, [type] =>
      if e.retType ≠ [] ∧ type ≠ [] ∧ type ≠ canonicalType e.retType then
        .error (e.className ++ "::".toList ++ e.funcName ++ " returns '".toList ++ e.retType
          ++ "', recv expects '".toList ++ type ++ "'".toList)
      else .ok ()
    | _, _ => .ok ()

end Client

/-- How a call names its operation: with an id and perhaps a name, as `call_n` and `recv_n`, or
with a name, as `call_by_name` and `recv_by_name`. -/
inductive Target where
  | numbered (id : ℕ) (funcName : Option Str)
  | named (classFunc : Str)

/-- A call with the `type_str` of its arguments and, if its reply is received, those of the types
that are received. -/
structure CheckedCall where
  target : Target
  argTypes : List Str
  args : List ArgVal
  recv : Option (List Str × RetType)

/-- The id of the operation, or the text of the exception. -/
def Target.resolve (opTable : Option OpTable) : Target → Except Str ℕ
  | numbered id funcName => (Client.checkOpName opTable id funcName).map fun _ => id
  | named classFunc => Client.opId opTable (some classFunc)

/-- The command of an operation: its id in two halves, and the arguments. -/
def commandOf (id : ℕ) (args : List ArgVal) : ClientCommand :=
  ⟨.ofNat (id >>> 16), .ofNat (id % 2 ^ 16), args⟩

namespace CheckedCall

/-- The command, when every check of `call_n` or `call_by_name` has passed. -/
def prepare (opTable : Option OpTable) (call : CheckedCall) : Except Str ClientCommand := do
  let id ← call.target.resolve opTable
  checkArgTypes opTable id call.argTypes
  checkServed opTable (commandOf id call.args).driver (commandOf id call.args).operation
  return commandOf id call.args

/-- The type to receive, when every check of `recv_n` or `recv_by_name` has passed; nothing is
received of an operation that returns nothing. -/
def expect (opTable : Option OpTable) (call : CheckedCall) : Except Str RetType :=
  match call.recv with
  | none => .ok .void
  | some (types, type) => do
    let id ← call.target.resolve opTable
    match call.target with
    | .numbered _ _ => pure ()
    | .named _ => checkServed opTable (commandOf id []).driver (commandOf id []).operation
    Client.checkRetTypes opTable id types
    return type

end CheckedCall

namespace Client

/-- `call_n` and `recv_n`, or `call_by_name` and `recv_by_name`, with the text of the exception. -/
def checkedCall (opTable : Option OpTable) (call : CheckedCall) : Program (Except Str RetVal) :=
  match call.prepare opTable with
  | .error message => return .error message
  | .ok c => do
    sendCommand c
    match call.expect opTable with
    | .error message => return .error message
    | .ok type => do
      let v ← commandDeserializer c.driver c.operation type
      return .ok v

/-- A thread that makes the calls of a program; an exception ends it. -/
def checkedly {α : Type} (opTable : Option OpTable) :
    Prog CheckedCall (fun _ => RetVal) α → Program (Except Str α)
  | .pure a => return .ok a
  | .act call k => do
    match ← checkedCall opTable call with
    | .error message => return .error message
    | .ok v => checkedly opTable (k v)

end Client

/-! ## The commands that are sent -/

/-- The commands of a program, as they are known when the table is. -/
def Client.commands {α : Type} (opTable : Option OpTable) :
    Prog CheckedCall (fun _ => RetVal) α → Prog ClientCommand (fun _ => RetVal) (Except Str α)
  | .pure a => .pure (.ok a)
  | .act call k =>
    match call.prepare opTable with
    | .error message => .pure (.error message)
    | .ok c => .act c fun v =>
      match call.expect opTable with
      | .error message => .pure (.error message)
      | .ok _ => Client.commands opTable (k v)

/-- A type as which the client can receive what is returned as `declared`: a C string comes as a
`std::string`. -/
def RetType.ReceivesAs (declared type : RetType) : Prop :=
  type = declared ∨ declared = .cString ∧ type = .string

/-- A call that passes the checks is well-formed, and its reply is received as what it is. -/
structure CheckedCall.Sound (drivers : List Driver) (opTable : Option OpTable)
    (call : CheckedCall) : Prop where
  callable : ∀ c, call.prepare opTable = .ok c → Callable drivers none c
  received : ∀ c type, call.prepare opTable = .ok c → call.expect opTable = .ok type →
    (c.retType drivers).ReceivesAs type

section Realizes

variable {drivers : List Driver} {opTable : Option OpTable} {α : Type}
  {p : Prog CheckedCall (fun _ => RetVal) α} {call : CheckedCall}

theorem only_commands (hp : p.Only (CheckedCall.Sound drivers opTable)) :
    (Client.commands opTable p).Only (Callable drivers none) := by
  induction p with
  | pure a => trivial
  | act call k ih =>
    rw [Client.commands]
    split
    · trivial
    · next c hprepare =>
      refine ⟨hp.1.callable c hprepare, fun v => ?_⟩
      split
      · trivial
      · exact ih v (hp.2 v)

theorem commandDeserializer_receivesAs {declared type : RetType} (h : declared.ReceivesAs type)
    (classId funcId : UInt16) : Client.commandDeserializer classId funcId type
      = Client.commandDeserializer classId funcId declared := by
  rcases h with rfl | ⟨rfl, rfl⟩
  · rfl
  · rfl

/-- **The thread makes the calls of its commands**, receives what they return, and ends with the
value, or with the text of the exception. -/
theorem realizes_checkedly (hreceivable : Receivable drivers)
    (hp : p.Only (CheckedCall.Sound drivers opTable)) :
    Realizes drivers (Client.checkedly opTable p) (Client.commands opTable p) := by
  intro xs q w h hxs hin
  -- a thread at its end, with its value or with an exception
  have hend : ∀ {r : Except Str α} {xs : List Exchange} {w : View},
      (Prog.pure r : Prog ClientCommand (fun _ => RetVal) (Except Str α)).Exchanges
        (xs.map Exchange.received) q →
      (session drivers .taking).wp (pure r) (Called id xs q w) w := by
    intro r xs w h
    obtain ⟨hnil, rfl⟩ := h.eq_of_pure
    obtain rfl := List.map_eq_nil_iff.mp hnil
    exact ⟨w, rfl, (List.append_nil _).symm⟩
  induction p generalizing xs w with
  | pure a => exact hend h
  | act call k ih =>
    obtain ⟨hsound, hp⟩ := hp
    rw [Client.commands] at h
    rw [Client.checkedly, Client.checkedCall]
    cases hprepare : call.prepare opTable with
    | error message =>
      rw [hprepare] at h
      exact hend h
    | ok c =>
      rw [hprepare] at h
      have hc := hsound.callable c hprepare
      dsimp only at h ⊢
      rw [bind_assoc, Handler.wp_bind, wp_sendCommand hc.1 hc.2.2, Handler.andThen_ret]
      cases xs with
      | nil =>
        cases h
        exact called_act
      | cons x xs =>
        obtain ⟨hx, hxs⟩ := List.forall_mem_cons.mp hxs
        cases h with
        | cons h =>
          have hin' : (w.log (.wrote 0 x.1.message.bytes x.1.message.bytes.length)).input
              = x.reply ++ exchangeReplies xs := hin
          dsimp only at h
          cases hexpect : call.expect opTable with
          | error message =>
            -- the reply stays where it is
            rw [hexpect] at h
            exact (session drivers .taking).wp_mono (fun r hr => Called.cons hr rfl) (hend h)
          | ok type =>
            rw [hexpect] at h
            dsimp only
            rw [bind_assoc, Handler.wp_bind,
              commandDeserializer_receivesAs (hsound.received _ _ hprepare hexpect)]
            refine wp_receive hreceivable hc.1 hx hin' ?_
            rw [Handler.andThen_ret]
            refine (session drivers .taking).wp_mono (fun r hr => hr.cons rfl)
              (ih _ (hp _) xs _ h hxs ?_)
            change ((w.log (.wrote 0 x.1.message.bytes x.1.message.bytes.length)).input).drop
              x.reply.length = _
            rw [hin', List.drop_left]

end Realizes

/-! ## What the names mean -/

/-- An operation of some classes, with its class. -/
abbrev NamedOperation := Context.ClassJson × Context.FunctionJson

/-- The operations of some classes, in their order. -/
def operations (classes : List Context.ClassJson) : List NamedOperation :=
  classes.flatMap fun c => c.functions.map fun f => (c, f)

/-- The name of an operation, with that of its class. -/
def NamedOperation.fullName (o : NamedOperation) : Str := o.1.name ++ "::".toList ++ o.2.name

/-- The target is a name of the operation, or its id and a name of it. -/
def Target.Denotes : Target → NamedOperation → Prop
  | numbered id funcName, o => opId o.1 o.2 = id ∧
      (funcName.getD [] = [] ∨ funcName.getD [] = o.2.name ∨ funcName.getD [] = o.fullName)
  | named classFunc, o => classFunc = o.2.name ∨ classFunc = o.fullName

instance (target : Target) : DecidablePred target.Denotes := fun _ =>
  match target with
  | .numbered _ _ => inferInstanceAs (Decidable (_ ∧ _))
  | .named _ => inferInstanceAs (Decidable (_ ∨ _))

/-- The command that calls an operation. -/
def NamedOperation.command (o : NamedOperation) (args : List ArgVal) : ClientCommand :=
  ⟨.ofNat o.1.id, .ofNat o.2.id, args⟩

/-- The arguments pass the check. -/
def NamedOperation.Takes (o : NamedOperation) (argTypes : List Str) : Prop :=
  List.Forall₂ Passes (o.2.args.map Prod.snd) argTypes

/-- What is received passes the check: the type of a tuple is not looked at. -/
def NamedOperation.Gives (o : NamedOperation) (recv : Option (List Str × RetType)) : Prop :=
  ∀ type, recv.map Prod.fst = some [type] → Passes o.2.retType type

/-- The names in a driver of the server. -/
def Driver.names (driver : Driver) : Str × List Str :=
  (driver.name.toList, driver.operations.map fun op => op.name.toList)

/-- The names in a driver of the context. -/
def Context.Driver.names (driver : Context.Driver) : Str × List Str :=
  (driver.name, driver.operations.map Context.Operation.name)

/-- An instrument: the headers of its drivers, what the generator makes of them for the context and
for the server, and the context as it is sent.  The compiler of the server prints what `eval` says
for an expression. -/
structure Instrument where
  headers : List (Str × List Context.Method)
  eval : Str → Str
  drivers : List Context.Driver
  served : List Driver
  json : Str
  named : ∀ header ∈ headers, Context.NamedHeader Unquoted header
  printable : ∀ e, '"' ∉ e → Unquoted (eval e)
  generated : Context.getDrivers headers = some drivers
  fits : OpDetail.Fits drivers
  sent : Context.resolve eval (Context.getJson drivers) = some json
  names : served.map Driver.names = drivers.map Context.Driver.names

namespace Instrument

/-- The classes that the headers declare, that of the server first. -/
def classes (inst : Instrument) : List Context.ClassJson := clientClasses inst.eval inst.drivers

/-- The table of a client that has read the context. -/
def opTable (inst : Instrument) : Option OpTable := some (.build inst.json)

/-- The first operation that a target denotes. -/
def meant (inst : Instrument) (target : Target) : Option NamedOperation :=
  (operations inst.classes).find? target.Denotes

end Instrument

section Lookup

variable {inst : Instrument} {o : NamedOperation} {target : Target} {id : ℕ} {call : CheckedCall}

theorem mem_operations {classes : List Context.ClassJson} :
    o ∈ operations classes ↔ o.1 ∈ classes ∧ o.2 ∈ o.1.functions := by
  obtain ⟨c, f⟩ := o
  rw [operations, List.mem_flatMap]
  constructor
  · rintro ⟨c', hc, ho⟩
    obtain ⟨f', hf, heq⟩ := List.mem_map.mp ho
    obtain ⟨rfl, rfl⟩ := Prod.mk.inj heq
    exact ⟨hc, hf⟩
  · rintro ⟨hc, hf⟩
    exact ⟨c, hc, List.mem_map_of_mem hf⟩

/-- The entries of the operations. -/
theorem map_operations (classes : List Context.ClassJson) :
    (operations classes).map (fun o => clientEntry o.1 o.2)
      = classes.flatMap fun c => c.functions.map (clientEntry c) := by
  rw [operations, List.map_flatMap]
  simp only [List.map_map]
  rfl

namespace Instrument

theorem numbered (inst : Instrument) : Numbered inst.classes := by
  obtain ⟨hparsed, hids⟩ := Context.parsed_getDrivers inst.named inst.generated
  exact numbered_clientClasses hparsed hids inst.fits

/-- The table has the operations. -/
theorem parseOps_json (inst : Instrument) : parseOps inst.json
    = (operations inst.classes).map fun o => clientEntry o.1 o.2 := by
  obtain ⟨hparsed, -⟩ := Context.parsed_getDrivers inst.named inst.generated
  rw [parseOps_getJson inst.printable hparsed inst.sent, map_operations]
  exact flatMap_readOps inst.numbered

/-- The names of an operation are identifiers. -/
theorem isIdentifier (ho : o ∈ operations inst.classes) :
    Context.IsIdentifier o.1.name ∧ Context.IsIdentifier o.2.name := by
  obtain ⟨hparsed, -⟩ := Context.parsed_getDrivers inst.named inst.generated
  obtain ⟨hc, hf⟩ := mem_operations.mp ho
  rcases List.mem_cons.mp hc with hc | hc
  · have hserver : Context.IsIdentifier Context.kserver.name ∧
        ∀ f ∈ Context.kserver.functions, Context.IsIdentifier f.name := by decide
    rw [hc] at hf ⊢
    exact ⟨hserver.1, hserver.2 _ hf⟩
  · obtain ⟨driver, hdriver, hc⟩ := List.mem_map.mp hc
    rw [← hc] at hf ⊢
    obtain ⟨op, hop, hf⟩ := List.mem_map.mp hf
    rw [← hf]
    exact ⟨(hparsed driver hdriver).name, ((hparsed driver hdriver).operations op hop).name⟩

/-- The entry of an operation is found by its id. -/
theorem find_opId (ho : o ∈ operations inst.classes) :
    (OpTable.build inst.json).find (opId o.1 o.2) = some (clientEntry o.1 o.2) := by
  obtain ⟨hc, hf⟩ := mem_operations.mp ho
  rw [OpTable.find_build, parseOps_json, map_operations]
  exact find?_opId inst.numbered hc hf

/-- The operation of an entry that is found. -/
theorem exists_of_find {e : OpEntry} (h : (OpTable.build inst.json).find id = some e) :
    ∃ o ∈ operations inst.classes, e = clientEntry o.1 o.2 ∧ opId o.1 o.2 = id := by
  rw [OpTable.find_build, parseOps_json] at h
  have hid : e.id = id := by simpa using List.find?_some h
  obtain ⟨o, ho, rfl⟩ := List.mem_map.mp (List.mem_of_find?_eq_some h)
  exact ⟨o, ho, rfl, hid⟩

/-- No two operations have one id. -/
theorem eq_of_opId {o' : NamedOperation} (ho : o ∈ operations inst.classes)
    (ho' : o' ∈ operations inst.classes) (h : opId o.1 o.2 = opId o'.1 o'.2) : o = o' := by
  obtain ⟨hc, hf⟩ := mem_operations.mp ho
  obtain ⟨hc', hf'⟩ := mem_operations.mp ho'
  have hnumbered := inst.numbered
  obtain ⟨hcid, hfid⟩ := opId_inj ((hnumbered.fits _ hc).2 _ hf) ((hnumbered.fits _ hc').2 _ hf') h
  have hclass := List.inj_on_of_nodup_map hnumbered.ids hc hc' hcid
  rw [← hclass] at hf'
  exact Prod.ext hclass (List.inj_on_of_nodup_map (hnumbered.functions _ hc) hf hf' hfid)

/-- A name is split where the table splits it. -/
theorem denotes_named (ho : o ∈ operations inst.classes) (classFunc : Str) :
    (Target.named classFunc).Denotes o ↔
      match TextSearch.offset? [':', ':'] classFunc with
      | none => o.2.name = classFunc
      | some sep => o.1.name = classFunc.take sep ∧ o.2.name = classFunc.drop (sep + 2) := by
  obtain ⟨hclass, hfunc⟩ := isIdentifier ho
  have hclass : ':' ∉ o.1.name := hclass.notMem (by decide)
  have hfunc : ':' ∉ o.2.name := hfunc.notMem (by decide)
  have hfull : TextSearch.offset? [':', ':'] o.fullName = some o.1.name.length := by
    have hcolons : [':', ':'] <+: "::".toList ++ o.2.name := List.prefix_append _ _
    rw [NamedOperation.fullName, List.append_assoc,
      TextSearch.offset?_append_of_notMem hclass, TextSearch.offset?_of_begins hcolons]
    simp
  have hsplit : o.fullName.take o.1.name.length = o.1.name ∧
      o.fullName.drop (o.1.name.length + 2) = o.2.name := by
    rw [NamedOperation.fullName, List.append_assoc, List.take_left, ← List.drop_drop,
      List.drop_left]
    exact ⟨rfl, rfl⟩
  cases hsep : TextSearch.offset? [':', ':'] classFunc with
  | none =>
    constructor
    · rintro (rfl | rfl)
      · rfl
      · cases hfull.symm.trans hsep
    · exact fun h => Or.inl h.symm
  | some sep =>
    obtain ⟨-, hat, -⟩ := TextSearch.offset?_eq_some_iff.mp hsep
    constructor
    · rintro (rfl | rfl)
      · refine absurd ?_ hfunc
        exact List.mem_of_mem_drop (hat.subset List.mem_cons_self)
      · obtain rfl := Option.some.inj (hfull.symm.trans hsep)
        exact ⟨hsplit.1.symm, hsplit.2.symm⟩
    · rintro ⟨hc, hf⟩
      refine Or.inr ?_
      obtain ⟨rest, hrest⟩ := hat
      have hdrop : classFunc.drop (sep + 2) = rest := by
        rw [← List.drop_drop, ← hrest]
        rfl
      rw [NamedOperation.fullName, hc, hf, hdrop, List.append_assoc]
      exact (List.take_append_drop sep classFunc).symm.trans (congrArg _ hrest.symm)

/-- **The lookup by name finds the operation that is meant.** -/
theorem byName_eq (inst : Instrument) (classFunc : Str) :
    (OpTable.build inst.json).byName classFunc
      = (inst.meant (.named classFunc)).map fun o => clientEntry o.1 o.2 := by
  have hops : (OpTable.build inst.json).ops
      = (operations inst.classes).map fun o => clientEntry o.1 o.2 := parseOps_json inst
  rw [OpTable.byName, meant]
  cases hsep : TextSearch.offset? [':', ':'] classFunc with
  | none =>
    dsimp only
    rw [hops, List.find?_map]
    refine congrArg _ (List.find?_congr fun o ho => ?_)
    have hdenotes := denotes_named ho classFunc
    rw [hsep] at hdenotes
    exact decide_eq_decide.mpr hdenotes.symm
  | some sep =>
    dsimp only
    rw [hops, List.find?_map]
    refine congrArg _ (List.find?_congr fun o ho => ?_)
    have hdenotes := denotes_named ho classFunc
    rw [hsep] at hdenotes
    exact decide_eq_decide.mpr hdenotes.symm

/-! ### The checks -/

theorem denotes_of_meant (h : inst.meant target = some o) :
    o ∈ operations inst.classes ∧ target.Denotes o :=
  ⟨List.mem_of_find?_eq_some h, by simpa using List.find?_some h⟩

/-- An operation is meant by its id and a name of it. -/
theorem meant_numbered {funcName : Option Str} (ho : o ∈ operations inst.classes)
    (hdenotes : (Target.numbered id funcName).Denotes o) :
    inst.meant (.numbered id funcName) = some o := by
  have hfound : ((operations inst.classes).find? (Target.numbered id funcName).Denotes).isSome :=
    List.find?_isSome.mpr ⟨o, ho, decide_eq_true hdenotes⟩
  obtain ⟨o', ho'⟩ := Option.isSome_iff_exists.mp hfound
  obtain ⟨hmem, hid, -⟩ := denotes_of_meant ho'
  rw [eq_of_opId ho hmem (hdenotes.1.trans hid.symm)]
  exact ho'

theorem checkOpName_eq_ok_iff {funcName : Option Str} :
    Client.checkOpName inst.opTable id funcName = .ok () ↔
      ∃ o, inst.meant (.numbered id funcName) = some o := by
  have hnone : ∀ {message : Str}, (∀ o ∈ operations inst.classes,
      ¬ (Target.numbered id funcName).Denotes o) →
      (Except.error message = Except.ok () ↔
        ∃ o, inst.meant (.numbered id funcName) = some o) := by
    intro message h
    refine iff_of_false (fun heq => by cases heq) fun ⟨o, ho⟩ => ?_
    obtain ⟨hmem, hdenotes⟩ := denotes_of_meant ho
    exact h o hmem hdenotes
  simp only [Client.checkOpName, opTable]
  cases hfind : (OpTable.build inst.json).find id with
  | none =>
    have hunserved : ∀ o ∈ operations inst.classes,
        ¬ (Target.numbered id funcName).Denotes o := by
      rintro o ho ⟨rfl, -⟩
      cases (find_opId ho).symm.trans hfind
    dsimp only
    split
    · exact hnone hunserved
    · exact hnone hunserved
  | some e =>
    obtain ⟨o, ho, rfl, rfl⟩ := exists_of_find hfind
    dsimp only
    split
    · next hnil => exact iff_of_true rfl ⟨o, meant_numbered ho ⟨rfl, Or.inl hnil⟩⟩
    · next hnil =>
      split
      · next hmismatch =>
        refine hnone fun o' ho' hdenotes => ?_
        rw [← eq_of_opId ho' ho hdenotes.1] at hmismatch
        rcases hdenotes.2 with h | h | h
        · exact hnil h
        · exact hmismatch.1 h.symm
        · exact hmismatch.2 h.symm
      · next hname =>
        refine iff_of_true rfl ⟨o, meant_numbered ho ⟨rfl, ?_⟩⟩
        by_contra hnot
        obtain ⟨-, hfunc, hfull⟩ := by simpa only [not_or] using hnot
        exact hname ⟨fun h => hfunc h.symm, fun h => hfull h.symm⟩

/-- **A target is resolved to the operation that is meant.** -/
theorem resolve_eq_ok_iff : target.resolve inst.opTable = .ok id ↔
    ∃ o, inst.meant target = some o ∧ opId o.1 o.2 = id := by
  cases target with
  | numbered id' funcName =>
    rw [Target.resolve]
    cases hcheck : Client.checkOpName inst.opTable id' funcName with
    | error message =>
      refine iff_of_false (fun h => by cases h) fun ⟨o, ho, _⟩ => ?_
      cases hcheck.symm.trans (checkOpName_eq_ok_iff.mpr ⟨o, ho⟩)
    | ok u =>
      obtain ⟨o, ho⟩ := checkOpName_eq_ok_iff.mp hcheck
      have hid : opId o.1 o.2 = id' := (denotes_of_meant ho).2.1
      rw [ho]
      constructor
      · intro h
        exact ⟨o, rfl, hid.trans (Except.ok.inj h)⟩
      · rintro ⟨o', ho', rfl⟩
        obtain rfl := Option.some.inj ho'
        exact congrArg Except.ok hid.symm
  | named classFunc =>
    have hlookup := inst.byName_eq classFunc
    simp only [Target.resolve, Client.opId, opTable]
    cases hmeant : inst.meant (.named classFunc) with
    | none =>
      rw [hmeant] at hlookup
      rw [show (OpTable.build inst.json).byName classFunc = none from hlookup]
      exact iff_of_false (fun h => by cases h) fun ⟨o, ho, _⟩ => by cases ho
    | some o =>
      rw [hmeant] at hlookup
      rw [show (OpTable.build inst.json).byName classFunc = some (clientEntry o.1 o.2)
        from hlookup]
      constructor
      · intro h
        exact ⟨o, rfl, Except.ok.inj h⟩
      · rintro ⟨o', ho', rfl⟩
        obtain rfl := Option.some.inj ho'
        rfl

theorem checkArgTypes_eq_ok_iff_takes (ho : o ∈ operations inst.classes) {argTypes : List Str} :
    checkArgTypes inst.opTable (opId o.1 o.2) argTypes = .ok () ↔ o.Takes argTypes :=
  checkArgTypes_eq_ok_iff (find_opId ho)

/-- The ids of the command are those of the operation. -/
theorem commandOf_opId (ho : o ∈ operations inst.classes) (args : List ArgVal) :
    commandOf (opId o.1 o.2) args = o.command args := by
  obtain ⟨hc, hf⟩ := mem_operations.mp ho
  have hfid := (inst.numbered.fits _ hc).2 _ hf
  have hid : opId o.1 o.2 = o.1.id * 2 ^ 16 + o.2.id := by
    rw [opId, ← Nat.shiftLeft_add_eq_or_of_lt hfid, Nat.shiftLeft_eq]
  have hclass : opId o.1 o.2 >>> 16 = o.1.id := by
    rw [hid, Nat.shiftRight_eq_div_pow]
    omega
  have hfunc : opId o.1 o.2 % 2 ^ 16 = o.2.id := by
    rw [hid]
    omega
  rw [commandOf, hclass, hfunc, NamedOperation.command]

theorem toNat_command (ho : o ∈ operations inst.classes) (args : List ArgVal) :
    (o.command args).driver.toNat = o.1.id ∧ (o.command args).operation.toNat = o.2.id := by
  obtain ⟨hc, hf⟩ := mem_operations.mp ho
  obtain ⟨hcid, hfid⟩ := inst.numbered.fits _ hc
  exact ⟨UInt16.toNat_ofNat_of_lt' hcid, UInt16.toNat_ofNat_of_lt' (hfid _ hf)⟩

/-- What has been found is served. -/
theorem checkServed_command (ho : o ∈ operations inst.classes) (args : List ArgVal) :
    checkServed inst.opTable (o.command args).driver (o.command args).operation = .ok () := by
  obtain ⟨hdriver, hoperation⟩ := toNat_command ho args
  have hfind := find_opId ho
  rw [opId] at hfind
  simp only [checkServed, opTable, hdriver, hoperation, hfind]
  rfl

/-- **What is sent is the command of the operation that is meant**, when it takes the arguments. -/
theorem prepare_eq_ok_iff {c : ClientCommand} : call.prepare inst.opTable = .ok c ↔
    ∃ o, inst.meant call.target = some o ∧ o.Takes call.argTypes ∧ o.command call.args = c := by
  rw [CheckedCall.prepare]
  cases hresolve : call.target.resolve inst.opTable with
  | error message =>
    refine iff_of_false (fun h => by cases h) fun ⟨o, ho, _⟩ => ?_
    cases hresolve.symm.trans (resolve_eq_ok_iff.mpr ⟨o, ho, rfl⟩)
  | ok id =>
    obtain ⟨o, ho, rfl⟩ := resolve_eq_ok_iff.mp hresolve
    obtain ⟨hmem, -⟩ := denotes_of_meant ho
    have htakes : checkArgTypes inst.opTable (opId o.1 o.2) call.argTypes = .ok () ↔
        o.Takes call.argTypes := checkArgTypes_eq_ok_iff_takes hmem
    rw [ho]
    change (checkArgTypes inst.opTable (opId o.1 o.2) call.argTypes >>= fun _ => _) = _ ↔ _
    cases hcheck : checkArgTypes inst.opTable (opId o.1 o.2) call.argTypes with
    | error message =>
      refine iff_of_false (fun h => by cases h) fun ⟨o', ho', htakes', _⟩ => ?_
      obtain rfl := Option.some.inj ho'
      cases hcheck.symm.trans (htakes.mpr htakes')
    | ok u =>
      rw [commandOf_opId hmem]
      change (checkServed inst.opTable (o.command call.args).driver
        (o.command call.args).operation >>= fun _ => _) = _ ↔ _
      rw [checkServed_command hmem]
      constructor
      · intro h
        exact ⟨o, rfl, htakes.mp hcheck, Except.ok.inj h⟩
      · rintro ⟨o', ho', -, rfl⟩
        obtain rfl := Option.some.inj ho'
        rfl

theorem checkRetTypes_eq_ok_iff (ho : o ∈ operations inst.classes) {given : List Str} :
    Client.checkRetTypes inst.opTable (opId o.1 o.2) given = .ok () ↔
      ∀ type, given = [type] → Passes o.2.retType type := by
  simp only [Client.checkRetTypes, opTable, find_opId ho]
  match given with
  | [] => exact iff_of_true rfl fun type h => by cases h
  | [type] =>
    have hpasses : ¬ (o.2.retType ≠ [] ∧ type ≠ [] ∧ type ≠ canonicalType o.2.retType) ↔
        Passes o.2.retType type := by
      rw [Passes]
      tauto
    dsimp only [clientEntry]
    split
    · next hstops =>
      exact iff_of_false (fun h => by cases h) fun h => hpasses.mpr (h type rfl) hstops
    · next hgoes =>
      refine iff_of_true rfl fun type' h => ?_
      obtain rfl := (List.cons.inj h).1
      exact hpasses.mp hgoes
  | _ :: _ :: _ => exact iff_of_true rfl fun type h => by cases h

/-- **The reply is received** when the operation gives what is received. -/
theorem expect_eq_ok_iff {type : RetType} (ho : inst.meant call.target = some o) :
    call.expect inst.opTable = .ok type ↔
      o.Gives call.recv ∧ (call.recv.map Prod.snd).getD .void = type := by
  have hmem := (denotes_of_meant ho).1
  have hresolve : call.target.resolve inst.opTable = .ok (opId o.1 o.2) :=
    resolve_eq_ok_iff.mpr ⟨o, ho, rfl⟩
  rw [CheckedCall.expect]
  cases call.recv with
  | none =>
    refine ⟨fun h => ⟨fun _ hnone => (by cases hnone), Except.ok.inj h⟩, ?_⟩
    rintro ⟨-, rfl⟩
    rfl
  | some recv =>
    obtain ⟨given, type'⟩ := recv
    have hgives : o.Gives (some (given, type')) ↔
        ∀ type, given = [type] → Passes o.2.retType type := by
      simp only [NamedOperation.Gives, Option.map_some, Option.some.injEq]
    have hrest : (Client.checkRetTypes inst.opTable (opId o.1 o.2) given >>= fun _ =>
        pure type') = Except.ok type ↔ o.Gives (some (given, type')) ∧ type' = type := by
      rw [hgives, ← checkRetTypes_eq_ok_iff hmem]
      cases Client.checkRetTypes inst.opTable (opId o.1 o.2) given with
      | error message => exact iff_of_false (fun h => by cases h) fun h => by cases h.1
      | ok u =>
        refine ⟨fun h => ⟨rfl, Except.ok.inj h⟩, ?_⟩
        rintro ⟨-, rfl⟩
        rfl
    dsimp only
    rw [hresolve]
    cases call.target with
    | numbered id funcName => exact hrest
    | named classFunc =>
      change (checkServed inst.opTable (commandOf (opId o.1 o.2) []).driver
        (commandOf (opId o.1 o.2) []).operation >>= fun _ => _) = _ ↔ _
      rw [commandOf_opId hmem, checkServed_command hmem]
      exact hrest

/-! ### The server -/

/-- Where something stands that is numbered. -/
theorem exists_getElem?_of_map_eq {α : Type*} {f : α → ℕ} {l : List α} {s : ℕ} {x : α}
    (h : l.map f = List.range' s l.length) (hx : x ∈ l) : ∃ d, l[d]? = some x ∧ f x = s + d := by
  obtain ⟨d, hd⟩ := List.mem_iff_getElem?.mp hx
  refine ⟨d, hd, ?_⟩
  obtain ⟨hlt, rfl⟩ := List.getElem?_eq_some_iff.mp hd
  have hmap := congrArg (fun l => l[d]?) h
  simpa [hlt] using hmap

/-- **The server has the operation**, by its ids and under its name. -/
theorem exists_served (ho : o ∈ operations inst.classes) :
    ∃ op, findOperation inst.served o.1.id o.2.id = some op ∧ op.name.toList = o.2.name := by
  obtain ⟨hc, hf⟩ := mem_operations.mp ho
  obtain ⟨hparsed, hids⟩ := Context.parsed_getDrivers inst.named inst.generated
  rcases List.mem_cons.mp hc with hc | hc
  · rw [hc] at hf ⊢
    have hserver : ∀ f ∈ Context.kserver.functions, ∃ op,
        findOperation inst.served Context.kserver.id f.id = some op ∧ op.name.toList = f.name := by
      refine List.forall_mem_cons.mpr ⟨⟨_, rfl, rfl⟩, List.forall_mem_singleton.mpr ⟨_, rfl, rfl⟩⟩
    exact hserver _ hf
  · obtain ⟨driver, hdriver, hc⟩ := List.mem_map.mp hc
    rw [← hc] at hf ⊢
    obtain ⟨op, hop, hf⟩ := List.mem_map.mp hf
    rw [← hf]
    obtain ⟨d, hd, hid⟩ := exists_getElem?_of_map_eq hids hdriver
    have hrange := (hparsed driver hdriver).ids
    rw [List.range_eq_range'] at hrange
    obtain ⟨k, hk, hopId⟩ := exists_getElem?_of_map_eq hrange hop
    -- the drivers of the server have the same names at the same places
    have hnames := congrArg (fun l => l[d]?) inst.names
    simp only [List.getElem?_map, hd, Option.map_some] at hnames
    obtain ⟨drv, hdrv, hsame⟩ := Option.map_eq_some_iff.mp hnames
    have hops := congrArg (fun l => l[k]?) (congrArg Prod.snd hsame)
    simp only [Driver.names, Context.Driver.names, List.getElem?_map, hk, Option.map_some] at hops
    obtain ⟨op', hop', hname⟩ := Option.map_eq_some_iff.mp hops
    refine ⟨op', ?_, hname⟩
    change findOperation inst.served driver.id op.id = some op'
    rw [hid, hopId, Nat.add_comm, Nat.zero_add]
    change (inst.served[d]?).bind _ = _
    rw [hdrv]
    exact hop'

end Instrument

end Lookup

/-! ## Runs -/

/-- The operation that a call means takes its arguments, and the server has it under this name. -/
structure Instrument.Means (inst : Instrument) (call : CheckedCall) (o : NamedOperation)
    (op : Operation) : Prop where
  meant : inst.meant call.target = some o
  takes : o.Takes call.argTypes
  served : findOperation inst.served o.1.id o.2.id = some op
  name : op.name.toList = o.2.name

/-- The runs of a program, with the exchanges and the value or the text of an exception.  A call
that means no operation is refused before anything is sent, so is one whose arguments are not those
of the operation; a reply that is not what is received stays where it is.  The text is that of the
check that fails. -/
inductive NamedRun (inst : Instrument) {α : Type} :
    Prog CheckedCall (fun _ => RetVal) α → List Exchange → Except Str α → Prop
  | done (a : α) : NamedRun inst (.pure a) [] (.ok a)
  | refused {call : CheckedCall} {k : RetVal → Prog CheckedCall (fun _ => RetVal) α}
    {message : Str} (hmessage : call.prepare inst.opTable = .error message)
    (h : ∀ o, inst.meant call.target = some o → ¬ o.Takes call.argTypes) :
    NamedRun inst (.act call k) [] (.error message)
  | unread {call : CheckedCall} {k : RetVal → Prog CheckedCall (fun _ => RetVal) α}
    {o : NamedOperation} {op : Operation} {v : RetVal} {message : Str}
    (hmessage : call.expect inst.opTable = .error message)
    (hmeans : inst.Means call o op) (hgives : ¬ o.Gives call.recv) :
    NamedRun inst (.act call k) [⟨o.command call.args, v⟩] (.error message)
  | answered {call : CheckedCall} {k : RetVal → Prog CheckedCall (fun _ => RetVal) α}
    {o : NamedOperation} {op : Operation} {v : RetVal} {xs : List Exchange} {r : Except Str α}
    (hmeans : inst.Means call o op) (hgives : o.Gives call.recv)
    (h : NamedRun inst (k v.received) xs r) :
    NamedRun inst (.act call k) (⟨o.command call.args, v⟩ :: xs) r

/-- A call that passes the checks is well-formed and short, and its reply is received as what it
is. -/
structure Instrument.Conforms (inst : Instrument) (call : CheckedCall) : Prop where
  wellFormed : ∀ o, inst.meant call.target = some o → o.Takes call.argTypes →
    (o.command call.args).WellFormed inst.served
  short : ∀ o, inst.meant call.target = some o → o.Takes call.argTypes →
    (o.command call.args).message.bytes.length < 2 ^ 31
  received : ∀ o, inst.meant call.target = some o → o.Takes call.argTypes → o.Gives call.recv →
    ((o.command call.args).retType inst.served).ReceivesAs ((call.recv.map Prod.snd).getD .void)

section Runs

variable {inst : Instrument} {α : Type} {p : Prog CheckedCall (fun _ => RetVal) α}
  {call : CheckedCall}

theorem Instrument.Conforms.sound (h : inst.Conforms call) :
    call.Sound inst.served inst.opTable where
  callable c hprepare := by
    obtain ⟨o, ho, htakes, rfl⟩ := Instrument.prepare_eq_ok_iff.mp hprepare
    exact ⟨h.wellFormed o ho htakes, rfl, h.short o ho htakes⟩
  received c type hprepare hexpect := by
    obtain ⟨o, ho, htakes, rfl⟩ := Instrument.prepare_eq_ok_iff.mp hprepare
    obtain ⟨hgives, rfl⟩ := (Instrument.expect_eq_ok_iff ho).mp hexpect
    exact h.received o ho htakes hgives

theorem only_sound (h : p.Only inst.Conforms) :
    p.Only (CheckedCall.Sound inst.served inst.opTable) := by
  induction p with
  | pure a => trivial
  | act call k ih => exact ⟨h.1.sound, fun v => ih v (h.2 v)⟩

/-- **The commands are those of the operations that are meant.** -/
theorem namedRun_of_exchanges {xs : List Exchange} {r : Except Str α}
    (h : (Client.commands inst.opTable p).Exchanges (xs.map Exchange.received) (.pure r)) :
    NamedRun inst p xs r := by
  induction p generalizing xs with
  | pure a =>
    obtain ⟨hnil, heq⟩ := h.eq_of_pure
    obtain rfl := List.map_eq_nil_iff.mp hnil
    obtain rfl := Prog.pure.inj heq
    exact .done a
  | act call k ih =>
    rw [Client.commands] at h
    cases hprepare : call.prepare inst.opTable with
    | error message =>
      rw [hprepare] at h
      obtain ⟨hnil, heq⟩ := h.eq_of_pure
      obtain rfl := List.map_eq_nil_iff.mp hnil
      obtain rfl := Prog.pure.inj heq
      refine .refused hprepare fun o ho htakes => ?_
      cases hprepare.symm.trans (Instrument.prepare_eq_ok_iff.mpr ⟨o, ho, htakes, rfl⟩)
    | ok c =>
      obtain ⟨o, ho, htakes, rfl⟩ := Instrument.prepare_eq_ok_iff.mp hprepare
      obtain ⟨op, hop, hname⟩ := Instrument.exists_served (Instrument.denotes_of_meant ho).1
      have hmeans : inst.Means call o op := ⟨ho, htakes, hop, hname⟩
      rw [hprepare] at h
      cases xs with
      | nil => cases h
      | cons x xs =>
        obtain ⟨c, v⟩ := x
        obtain ⟨y, heq, h⟩ := h.of_act
        change (⟨c, v.received⟩ : Exchange) = _ at heq
        cases heq
        cases hexpect : call.expect inst.opTable with
        | error message =>
          rw [hexpect] at h
          obtain ⟨hnil, heq⟩ := h.eq_of_pure
          obtain rfl := List.map_eq_nil_iff.mp hnil
          obtain rfl := Prog.pure.inj heq
          refine .unread hexpect hmeans fun hgives => ?_
          cases hexpect.symm.trans ((Instrument.expect_eq_ok_iff ho).mpr ⟨hgives, rfl⟩)
        | ok type =>
          rw [hexpect] at h
          exact .answered hmeans ((Instrument.expect_eq_ok_iff ho).mp hexpect).1 (ih _ h)

end Runs

/-! ## The network -/

/-- The value of a thread, put into another one. -/
theorem Realizes.map {drivers : List Driver} {α β : Type} {thread : Program α}
    {p : Prog ClientCommand (fun _ => RetVal) α} (h : Realizes drivers thread p) (f : α → β) :
    Realizes drivers (thread >>= fun a => pure (f a)) (p >>= fun a => pure (f a)) := by
  intro xs q w hq hxs hin
  obtain ⟨q', hq', rfl⟩ := hq.of_map
  refine (session drivers .taking).wp_mono (fun r hr => ?_) (h.wp hq' hxs hin f)
  cases q' with
  | pure a => exact hr
  | act c k => exact hr

/-- What a connection is for: to read the context, or to make calls. -/
inductive Job (α : Type) where
  | readContext
  | calls (p : Prog CheckedCall (fun _ => RetVal) α)

namespace Job

variable {α : Type}

/-- The thread of the client. -/
def thread (opTable : Option OpTable) : Job α → Program (ServerContext ⊕ Except Str α)
  | readContext => Client.readServerContext >>= fun c => pure (.inl c)
  | calls p => Client.checkedly opTable p >>= fun r => pure (.inr r)

/-- The commands that it sends. -/
def commands (opTable : Option OpTable) :
    Job α → Prog ClientCommand (fun _ => RetVal) (ServerContext ⊕ Except Str α)
  | readContext => contextCalls >>= fun c => pure (.inl c)
  | calls p => Client.commands opTable p >>= fun r => pure (.inr r)

end Job

/-- What may be seen of one connection: the calls that are made and what they return make a run of
the program, and the session has executed the first of them, one after the other. -/
structure NamedAccounted {α : Type} (inst : Instrument) (id : SessionID)
    (p : Prog CheckedCall (fun _ => RetVal) α) (t : List Event) (xs : List Exchange)
    (r : Except Str α) : Prop where
  run : NamedRun inst p xs r
  possible : ∀ x ∈ xs, x.Possible inst.served
  trace : t <+: served id 0 xs

/-- The exchanges of a client that reads the context. -/
def contextExchanges (c : ServerContext) : List Exchange :=
  [⟨⟨1, 0, []⟩, .cString c.version⟩, ⟨⟨1, 1, []⟩, .string c.context⟩]

/-- The sessions are open, on stream sockets of their own, and go on for long enough; what the
operations return can be received, and calls that pass the checks are such as they may be. -/
structure Clients {ι α : Type} (inst : Instrument) (sessions : ι → Session) (fuel : ι → ℕ)
    (job : ι → Job α) : Prop where
  stream : ∀ i, (sessions i).type ≠ .websock
  opened : ∀ i, (sessions i).closed = false
  distinct : Function.Injective fun i => (sessions i).id
  receivable : Receivable inst.served
  conforms : ∀ i p, job i = .calls p → p.Only inst.Conforms
  contextFuel : ∀ i, 2 < fuel i
  fuel : ∀ i p xs r, job i = .calls p → NamedRun inst p xs r → xs.length < fuel i

section Clients

variable {ι α : Type} {inst : Instrument} {sessions : ι → Session} {fuel : ι → ℕ}
  {job : ι → Job α} {xs : List Exchange} {value : ServerContext ⊕ Except Str α}

/-- The two commands that read the context. -/
theorem only_contextCalls (drivers : List Driver) : contextCalls.Only (Callable drivers none) := by
  have hcallable : ∀ funcId : UInt16, ∀ op,
      findOperation drivers 1 funcId.toNat = some op → op.arguments = [] →
        Callable drivers none ⟨1, funcId, []⟩ := by
    intro funcId op hop hargs
    refine ⟨⟨op, hop, ?_, trivial, fun a ha => (List.not_mem_nil ha).elim,
      fun v hv => (List.not_mem_nil hv).elim⟩, rfl, ?_⟩
    · rw [Operation.types, hargs]
      exact .nil
    · change 8 < 2 ^ 31
      omega
  exact ⟨hcallable 0 _ rfl rfl, fun _ => ⟨hcallable 1 _ rfl rfl, fun _ => trivial⟩⟩

/-- A connection that makes calls ends with the value of a run. -/
theorem run_of_exchanges {p : Prog CheckedCall (fun _ => RetVal) α}
    (h : ((Job.calls p).commands inst.opTable).Exchanges (xs.map Exchange.received)
      (.pure value)) : ∃ r, value = .inr r ∧ NamedRun inst p xs r := by
  obtain ⟨q, hq, heq⟩ := Prog.Exchanges.of_map h
  cases q with
  | pure r => exact ⟨r, Prog.pure.inj heq, namedRun_of_exchanges hq⟩
  | act e k => cases heq

/-- One that reads the context ends with what it has read. -/
theorem context_of_exchanges
    (h : ((Job.readContext : Job α).commands inst.opTable).Exchanges (xs.map Exchange.received)
      (.pure value)) (hxs : ∀ x ∈ xs, x.Possible inst.served) :
    ∃ c, value = .inl c ∧ xs = contextExchanges c := by
  obtain ⟨q, hq, heq⟩ := Prog.Exchanges.of_map h
  cases q with
  | pure c => exact ⟨c, Prog.pure.inj heq, context_exchanges hq hxs⟩
  | act e k => cases heq

/-- It makes two calls, whatever they return. -/
theorem length_of_contextCalls {r : ServerContext} {ys : List ((_ : ClientCommand) × RetVal)}
    (h : contextCalls.Exchanges ys (.pure r)) : ys.length = 2 := by
  cases h with
  | cons h => cases h with
    | cons h => rw [h.eq_of_pure.1]; rfl

theorem Clients.connections (h : Clients inst sessions fuel job) :
    Connections inst.served sessions fuel (fun _ => none) fun i =>
      (job i).commands inst.opTable where
  stream := h.stream
  opened := h.opened
  distinct := h.distinct
  receivable := h.receivable
  callable i := by
    cases hjob : job i with
    | readContext => exact Prog.only_bind (only_contextCalls inst.served) fun _ => trivial
    | calls p =>
      exact Prog.only_bind (only_commands (only_sound (h.conforms i p hjob))) fun _ => trivial
  fuel i xs value hxs := by
    cases hjob : job i with
    | readContext =>
      rw [hjob] at hxs
      obtain ⟨q, hq, heq⟩ := Prog.Exchanges.of_map hxs
      cases q with
      | pure c =>
        have hlen := length_of_contextCalls hq
        rw [List.length_map] at hlen
        exact hlen ▸ h.contextFuel i
      | act e k => cases heq
    | calls p =>
      rw [hjob] at hxs
      obtain ⟨r, -, hrun⟩ := run_of_exchanges hxs
      exact h.fuel i p xs r hjob hrun

theorem Clients.realizes (h : Clients inst sessions fuel job) (i : ι) :
    Realizes inst.served ((job i).thread inst.opTable) ((job i).commands inst.opTable) := by
  cases hjob : job i with
  | readContext => exact (realizes_readServerContext inst.served).map Sum.inl
  | calls p =>
    exact (realizes_checkedly h.receivable (only_sound (h.conforms i p hjob))).map Sum.inr

variable [DecidableEq ι] (arch : Arch)

/-- **Calls by name are calls of what the names mean.**  In a network of clients that have read the
context of an instrument, of others that are reading it, and of their sessions: whatever the order
in which the threads go on, however the bytes are cut and whatever the operations return, a client
that has come to its end has the value, or the exception, of a run of its program, in which each
call is one of the operation that it means in the headers; its session has executed these
operations, in their order and with their arguments, and nothing else. -/
theorem checked_calls (h : Clients inst sessions fuel job) {i : ι}
    {p : Prog CheckedCall (fun _ => RetVal) α} (hjob : job i = .calls p)
    {c : Config (Party ι) Action Answer (Network ι) (ℤ ⊕ (ServerContext ⊕ Except Str α))}
    (hreach : (network inst.served fun i => (sessions i).id).Reachable
      (networkStart arch inst.served sessions fuel fun i => (job i).thread inst.opTable) c) :
    (∃ xs r, NamedAccounted inst (sessions i).id p (c.world.server.trace i) xs r ∧
      ∀ b, c.progs (.client i) = .pure b → b = .inr (.inr r)) ∧
    ((∀ c', ¬ (network inst.served fun i => (sessions i).id).Step c c') → ∃ xs r,
      NamedAccounted inst (sessions i).id p (c.world.server.trace i) xs r ∧
        c.progs (.client i) = .pure (.inr (.inr r)) ∧
        c.world.server.trace i = served (sessions i).id 0 xs) := by
  obtain ⟨hsofar, hend⟩ := Network.realized arch h.connections h.realizes hreach
  refine ⟨?_, fun hterminal => ?_⟩
  · obtain ⟨xs, value, hxs, hvalue⟩ := hsofar i
    have hrun := hxs.run
    rw [hjob] at hrun
    obtain ⟨r, rfl, hnamed⟩ := run_of_exchanges hrun
    exact ⟨xs, r, ⟨hnamed, hxs.possible, hxs.trace⟩, hvalue⟩
  · obtain ⟨xs, value, hxs, hvalue, htrace⟩ := hend hterminal i
    have hrun := hxs.run
    rw [hjob] at hrun
    obtain ⟨r, rfl, hnamed⟩ := run_of_exchanges hrun
    exact ⟨xs, r, ⟨hnamed, hxs.possible, hxs.trace⟩, hvalue, htrace⟩

/-- **The context that is read is the one that is returned.**  In the same network a client that
reads the context gets the two strings that the server's own device has returned to it, whatever
the other clients do in between. -/
theorem server_contexts (h : Clients inst sessions fuel job) {i : ι} (hjob : job i = .readContext)
    {c : Config (Party ι) Action Answer (Network ι) (ℤ ⊕ (ServerContext ⊕ Except Str α))}
    (hreach : (network inst.served fun i => (sessions i).id).Reachable
      (networkStart arch inst.served sessions fuel fun i => (job i).thread inst.opTable) c) :
    (∃ context, (∀ x ∈ contextExchanges context, x.Possible inst.served) ∧
      c.world.server.trace i <+: served (sessions i).id 0 (contextExchanges context) ∧
      ∀ b, c.progs (.client i) = .pure b → b = .inr (.inl context)) ∧
    ((∀ c', ¬ (network inst.served fun i => (sessions i).id).Step c c') → ∃ context,
      (∀ x ∈ contextExchanges context, x.Possible inst.served) ∧
        c.progs (.client i) = .pure (.inr (.inl context)) ∧
        c.world.server.trace i = served (sessions i).id 0 (contextExchanges context)) := by
  obtain ⟨hsofar, hend⟩ := Network.realized arch h.connections h.realizes hreach
  refine ⟨?_, fun hterminal => ?_⟩
  · obtain ⟨xs, value, hxs, hvalue⟩ := hsofar i
    have hrun := hxs.run
    rw [hjob] at hrun
    obtain ⟨context, rfl, rfl⟩ := context_of_exchanges hrun hxs.possible
    exact ⟨context, hxs.possible, hxs.trace, hvalue⟩
  · obtain ⟨xs, value, hxs, hvalue, htrace⟩ := hend hterminal i
    have hrun := hxs.run
    rw [hjob] at hrun
    obtain ⟨context, rfl, rfl⟩ := context_of_exchanges hrun hxs.possible
    exact ⟨context, hxs.possible, hvalue, htrace⟩

end Clients

/-- The driver of the mixer, as the server has it. -/
def mixerDriver : Driver where
  name := "Mixer"
  operations :=
    [⟨"set", .void, [⟨"gain", .scalar .float⟩], by decide, Nat.zero_le _, by decide⟩,
      ⟨"reset", .void, [], List.nodup_nil, Nat.zero_le _, fun _ => Nat.zero_le _⟩,
      ⟨"gain", .scalar .float, [], List.nodup_nil, by decide, fun _ => Nat.zero_le _⟩]

/-- The instrument with the mixer only. -/
def mixerInstrument : Instrument where
  headers := [mixerHeader]
  eval := fun _ => []
  drivers := [mixer]
  served := [mixerDriver]
  json := QuotedText.text (Context.contextTokens [mixer.json])
  named := by
    refine List.forall_mem_singleton.mpr ⟨by decide, ?_⟩
    refine List.forall_mem_cons.mpr ⟨fun _ => ⟨by decide, ⟨by decide, by decide⟩, ?_⟩,
      List.forall_mem_cons.mpr ⟨fun _ => ⟨by decide, ⟨by decide, by decide⟩,
        List.forall_mem_nil _⟩, List.forall_mem_singleton.mpr
          fun _ => ⟨by decide, ⟨by decide, by decide⟩, List.forall_mem_nil _⟩⟩⟩
    exact List.forall_mem_singleton.mpr ⟨by decide, by decide, by decide⟩
  printable _ _ := ⟨List.not_mem_nil, List.not_mem_nil⟩
  generated := rfl
  fits := List.forall_mem_singleton.mpr ⟨by decide, by decide⟩
  sent := Context.resolve_getJson_printable _ mixer_printable
  names := by decide

/-- Sets the gain by its name, reads it, and then takes the id of `set` for that of `reset`. -/
def mixerProgram : Prog CheckedCall (fun _ => RetVal) RetVal :=
  .act ⟨.named "Mixer::set".toList, ["float".toList], [.scalar (.float 0x3F800000)], none⟩ fun _ =>
    .act ⟨.named "gain".toList, [], [], some (["float".toList], .scalar .float)⟩ fun v =>
      .act ⟨.numbered 131072 (some "reset".toList), [], [], none⟩ fun _ => .pure v

/-- `set` of the mixer, as the client reads it. -/
def mixerSet : NamedOperation := (clientClass (fun _ => []) mixer,
  ⟨"set".toList, 0, "void".toList, [("gain".toList, "float".toList)]⟩)

/-- `gain` of the mixer. -/
def mixerGain : NamedOperation := (clientClass (fun _ => []) mixer,
  ⟨"gain".toList, 2, "float".toList, []⟩)

theorem meant_mixer :
    mixerInstrument.meant (.named "Mixer::set".toList) = some mixerSet ∧
    mixerInstrument.meant (.named "gain".toList) = some mixerGain ∧
    mixerInstrument.meant (.numbered 131072 (some "reset".toList)) = none := by
  decide

/-- The calls of the program are such as they may be. -/
theorem conforms_mixerProgram : mixerProgram.Only mixerInstrument.Conforms := by
  obtain ⟨hset, hgain, hreset⟩ := meant_mixer
  refine ⟨?_, fun _ => ⟨?_, fun v => ⟨?_, fun _ => trivial⟩⟩⟩
  · have hmeant : ∀ o, mixerInstrument.meant (.named "Mixer::set".toList) = some o →
        o = mixerSet := fun o ho => Option.some.inj (ho.symm.trans hset)
    refine ⟨fun o ho _ => ?_, fun o ho _ => ?_, fun o ho _ _ => ?_⟩
    · rw [hmeant o ho]
      refine ⟨_, rfl, .cons rfl .nil, by decide, by decide, fun v hv => ?_⟩
      obtain rfl := ArgVal.scalar.inj (List.mem_singleton.mp hv)
      rfl
    · rw [hmeant o ho]
      decide
    · rw [hmeant o ho]
      exact .inl rfl
  · have hmeant : ∀ o, mixerInstrument.meant (.named "gain".toList) = some o →
        o = mixerGain := fun o ho => Option.some.inj (ho.symm.trans hgain)
    refine ⟨fun o ho _ => ?_, fun o ho _ => ?_, fun o ho _ _ => ?_⟩
    · rw [hmeant o ho]
      exact ⟨_, rfl, .nil, trivial, fun a ha => (List.not_mem_nil ha).elim,
        fun v hv => (List.not_mem_nil hv).elim⟩
    · rw [hmeant o ho]
      decide
    · rw [hmeant o ho]
      exact .inl rfl
  · exact ⟨fun o ho _ => (by cases hreset.symm.trans ho),
      fun o ho _ => (by cases hreset.symm.trans ho),
      fun o ho _ _ => (by cases hreset.symm.trans ho)⟩

/-- One client reads the context, the other one makes the calls. -/
def mixerJob (b : Bool) : Job RetVal := if b then .readContext else .calls mixerProgram

theorem clients_mixer : Clients mixerInstrument probeConnections (fun _ => 4) mixerJob := by
  have hcalls : ∀ {b p}, mixerJob b = .calls p → p = mixerProgram := by
    intro b p hjob
    cases b with
    | false => exact (Job.calls.inj hjob).symm
    | true => cases hjob
  refine ⟨fun _ => SockType.noConfusion, fun _ => rfl, by decide, ?_, ?_, ?_, ?_⟩
  · intro driver operation op hop
    match driver, operation with
    | 1, 0 | 1, 1 => cases hop; exact .inr trivial
    | 2, 0 | 2, 1 => cases hop; exact .inl rfl
    | 2, 2 => cases hop; exact .inr rfl
    | 0, _ => cases hop
    | 1, _ + 2 | 2, _ + 3 => cases hop
    | _ + 3, _ => cases hop
  · intro b p hjob
    rw [hcalls hjob]
    exact conforms_mixerProgram
  · exact fun _ => by omega
  · intro b p xs r hjob hxs
    rw [hcalls hjob] at hxs
    cases hxs with
    | refused => simp
    | unread => simp
    | answered _ _ hxs => cases hxs with
      | refused => simp
      | unread => simp
      | answered _ _ hxs => cases hxs with
        | refused => simp
        | unread => simp
        | answered _ _ hxs =>
          cases hxs
          simp

/-- The program comes to its end. -/
theorem checked_calls_mixer : ∃ c,
    (network mixerInstrument.served fun b => (probeConnections b).id).Reachable
      (networkStart .lp64 mixerInstrument.served probeConnections (fun _ => 4) fun b =>
        (mixerJob b).thread mixerInstrument.opTable) c ∧
    ∃ xs r, NamedAccounted mixerInstrument (probeConnections false).id mixerProgram
        (c.world.server.trace false) xs r ∧
      c.progs (.client false) = .pure (.inr (.inr r)) ∧
      c.world.server.trace false = served (probeConnections false).id 0 xs := by
  obtain ⟨c, hreach, hend⟩ :=
    (network mixerInstrument.served fun b => (probeConnections b).id).exists_terminal
      (networkStart .lp64 mixerInstrument.served probeConnections (fun _ => 4) fun b =>
        (mixerJob b).thread mixerInstrument.opTable)
  exact ⟨c, hreach, (checked_calls (i := false) .lp64 clients_mixer rfl hreach).2 hend⟩

/-- So does the one that reads the context. -/
theorem server_contexts_mixer : ∃ c,
    (network mixerInstrument.served fun b => (probeConnections b).id).Reachable
      (networkStart .lp64 mixerInstrument.served probeConnections (fun _ => 4) fun b =>
        (mixerJob b).thread mixerInstrument.opTable) c ∧
    ∃ context, (∀ x ∈ contextExchanges context, x.Possible mixerInstrument.served) ∧
      c.progs (.client true) = .pure (.inr (.inl context)) ∧
      c.world.server.trace true
        = served (probeConnections true).id 0 (contextExchanges context) := by
  obtain ⟨c, hreach, hend⟩ :=
    (network mixerInstrument.served fun b => (probeConnections b).id).exists_terminal
      (networkStart .lp64 mixerInstrument.served probeConnections (fun _ => 4) fun b =>
        (mixerJob b).thread mixerInstrument.opTable)
  exact ⟨c, hreach, (server_contexts (i := true) .lp64 clients_mixer rfl hreach).2 hend⟩

end KoheronSdk
