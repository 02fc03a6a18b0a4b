import KoheronSdk.Serdes.Serializer

/-!
# Drivers and the packs of an operation

What `server/__init__.py` makes of the driver headers: the drivers with their
operations, numbered from 2 and from 0, and for every operation the packs in
which the generated parser fetches the arguments.  `build_args_packs` puts
adjacent scalars into one pack and every container into a pack of its own.

The loop keeps three variables, the packs so far, the scalars that wait for a pack, and
whether an argument of variable size has come.  A pack of scalars is written when a container
comes or when the arguments are at their end.  Here it is a recursion over the arguments with
the same variables, and its invariant is that packs, waiting scalars and the arguments still to
come are the argument list in its order.

An operation carries in its fields what the C++ compiler checks of the generated code: no two
parameters have one name, what is returned fits the serializer, and the arguments of fixed
size fit a payload.  An operation that the compiler would refuse cannot be built, and the modules
about the server and the clients need no hypothesis for this.

* `Operation`, `Driver`: what `parse_driver_header` returns.
* `buildArgsPacks`: the packs, by the source's loop over the arguments.
* `args_buildArgsPacks`: the packs hold the arguments, all of them and in order.
-/

namespace KoheronSdk

/-! ## Packs -/

/-- A parameter of an operation. -/
structure Arg where
  name : String
  type : ArgType
  deriving DecidableEq, Repr

/-- A pack: adjacent scalars, or one container. -/
inductive Pack where
  | scalar (args : List (String × ScalarType))
  | array (name : String) (t : ScalarType) (n : ℕ)
  | vector (name : String) (t : ScalarType)
  | string (name : String)
  deriving DecidableEq, Repr

/-- `required_buffer_size<Tp...>()` -/
def requiredBufferSize (ts : List ScalarType) : ℕ := (ts.map ScalarType.size).sum

/-- The arguments in a pack. -/
def Pack.args : Pack → List Arg
  | .scalar args => args.map fun p => ⟨p.1, .scalar p.2⟩
  | .array name t n => [⟨name, .array t n⟩]
  | .vector name t => [⟨name, .vector t⟩]
  | .string name => [⟨name, .string⟩]

/-- `if len(args_list) > 0: packs.append(...)` -/
def flushScalars (packs : List Pack) (argsList : List (String × ScalarType)) : List Pack :=
  if argsList.length > 0 then packs ++ [.scalar argsList] else packs

/-- The loop of `build_args_packs`, with its three variables. -/
def buildArgsPacksLoop (packs : List Pack) (argsList : List (String × ScalarType))
    (hasVector : Bool) : List Arg → List Pack × Bool
  | [] => (flushScalars packs argsList, hasVector)
  | arg :: rest =>
    match arg.type with
    | .array t n =>
      buildArgsPacksLoop (flushScalars packs argsList ++ [.array arg.name t n]) [] hasVector rest
    | .vector t =>
      buildArgsPacksLoop (flushScalars packs argsList ++ [.vector arg.name t]) [] true rest
    | .string =>
      buildArgsPacksLoop (flushScalars packs argsList ++ [.string arg.name]) [] true rest
    | .scalar t =>
      buildArgsPacksLoop packs (argsList ++ [(arg.name, t)]) hasVector rest

/-- `build_args_packs` -/
def buildArgsPacks (arguments : List Arg) : List Pack × Bool :=
  buildArgsPacksLoop [] [] false arguments

theorem args_flushScalars (packs : List Pack) (argsList : List (String × ScalarType)) :
    (flushScalars packs argsList).flatMap Pack.args
      = packs.flatMap Pack.args ++ (Pack.scalar argsList).args := by
  unfold flushScalars
  split
  · simp
  · have h : argsList = [] := List.length_eq_zero_iff.mp (by omega)
    simp [h, Pack.args]

/-- The loop keeps the arguments: those in the packs, those in `args_list` and
those still to come are always the same list. -/
theorem args_buildArgsPacksLoop (arguments : List Arg) (packs : List Pack)
    (argsList : List (String × ScalarType)) (hasVector : Bool) :
    (buildArgsPacksLoop packs argsList hasVector arguments).1.flatMap Pack.args
      = packs.flatMap Pack.args ++ (Pack.scalar argsList).args ++ arguments := by
  induction arguments generalizing packs argsList hasVector with
  | nil => simp [buildArgsPacksLoop, args_flushScalars]
  | cons arg rest ih =>
    obtain ⟨name, type⟩ := arg
    cases type <;> simp [buildArgsPacksLoop, ih, args_flushScalars, Pack.args]

/-- **The packs hold the arguments**, all of them and in order. -/
theorem args_buildArgsPacks (arguments : List Arg) :
    (buildArgsPacks arguments).1.flatMap Pack.args = arguments := by
  rw [buildArgsPacks, args_buildArgsPacksLoop]
  simp [Pack.args]

/-- What holds of the packs and of the waiting scalars holds after a flush. -/
theorem forall_flushScalars {P : Pack → Prop} {packs : List Pack}
    {argsList : List (String × ScalarType)} (hpacks : ∀ p ∈ packs, P p)
    (hargs : P (.scalar argsList)) : ∀ p ∈ flushScalars packs argsList, P p := by
  unfold flushScalars
  split
  · exact List.forall_mem_append.mpr ⟨hpacks, List.forall_mem_singleton.mpr hargs⟩
  · exact hpacks

/-! ## Drivers -/

/-- `CMD_PAYLOAD_BUFFER_LEN` -/
def cmdPayloadBufferLen : ℕ := 16384 * 16

/-- `req_buff_size`, as `print_required_buff_size` adds it up. -/
def reqBuffSize : List Pack → ℕ
  | [] => 0
  | .scalar args :: packs => requiredBufferSize (args.map Prod.snd) + reqBuffSize packs
  | .array _ t n :: packs => n * t.size + reqBuffSize packs
  | .vector _ _ :: packs | .string _ :: packs => reqBuffSize packs

/-- An operation of a driver.  C++ itself refuses two parameters of one name, a
tuple that does not fit in the serializer's `scal_data` cannot be returned, and
the generated parser asserts that arguments of fixed size fit in a payload. -/
structure Operation where
  name : String
  retType : RetType
  arguments : List Arg
  names_nodup : (arguments.map Arg.name).Nodup
  ret_fits : retType.scalarBytes ≤ scalarPackLen
  args_fit : (buildArgsPacks arguments).2 = false →
    reqBuffSize (buildArgsPacks arguments).1 ≤ cmdPayloadBufferLen

/-- The types of an operation's arguments. -/
def Operation.types (op : Operation) : List ArgType := op.arguments.map Arg.type

/-- The packs of an operation. -/
def Operation.packs (op : Operation) : List Pack := (buildArgsPacks op.arguments).1

/-- A driver; the id of an operation is its position. -/
structure Driver where
  name : String
  operations : List Operation

/-- `driver_id` of the first generated driver: 0 is `NoDriver` and 1 is `Server`. -/
def firstDriverId : ℕ := 2

/-- `device_num` -/
def deviceNum (drivers : List Driver) : ℕ := drivers.length + 2

/-- The operations of `Server`, which `server_commands.cpp` defines by hand. -/
def serverOperations : List Operation :=
  [⟨"get_version", .cString, [], List.nodup_nil, Nat.zero_le _, fun _ => Nat.zero_le _⟩,
   ⟨"get_cmds", .string, [], List.nodup_nil, Nat.zero_le _, fun _ => Nat.zero_le _⟩]

/-- The operation `operation` of the driver `driver`, if there is one. -/
def findOperation (drivers : List Driver) (driver operation : ℕ) : Option Operation :=
  match driver with
  | 0 => none
  | 1 => serverOperations[operation]?
  | d + 2 => (drivers[d]?).bind fun drv => drv.operations[operation]?

/-- A driver that has an operation is `Server` or a generated one. -/
theorem driver_of_findOperation {drivers : List Driver} {driver operation : ℕ} {op : Operation}
    (h : findOperation drivers driver operation = some op) :
    0 < driver ∧ driver < deviceNum drivers := by
  match driver with
  | 0 => cases h
  | 1 => exact ⟨Nat.one_pos, by rw [deviceNum]; omega⟩
  | d + 2 =>
    obtain ⟨drv, hdrv, -⟩ := Option.bind_eq_some_iff.mp h
    obtain ⟨hlt, -⟩ := List.getElem?_eq_some_iff.mp hdrv
    exact ⟨by omega, by rw [deviceNum]; omega⟩

/-- Two operations to try things on: one has an argument of every kind, the other one a
return value. -/
def probeSet : Operation where
  name := "set"
  retType := .void
  arguments := [⟨"a", .scalar .uint32⟩, ⟨"b", .scalar .bool⟩, ⟨"v", .vector .uint16⟩,
    ⟨"s", .string⟩, ⟨"r", .array .int8 2⟩]
  names_nodup := by decide
  ret_fits := by decide
  args_fit := by decide

def probeGet : Operation where
  name := "get"
  retType := .scalar .uint32
  arguments := []
  names_nodup := by decide
  ret_fits := by decide
  args_fit := by decide

/-- A driver with these operations. -/
def probeDrivers : List Driver := [⟨"Probe", [probeSet, probeGet]⟩]

end KoheronSdk
