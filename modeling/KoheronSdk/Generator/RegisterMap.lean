import Mathlib.Data.List.GetD
import Mathlib.Data.List.Nodup
import KoheronSdk.Client.TypeStrings

/-!
# The register maps of an instrument

`make.py` reads the names of the registers from the instrument's `config.yml`, a name with a
number in brackets standing for that many registers, and fills two templates with them: the
header `memory.hpp` with the offsets that the drivers use, and `config.tcl` with the arrays
from which the block design is built.

Nothing is handed from one of them to the other but the order of the names.  In the header the
position of a name becomes a byte offset, for the status registers behind two hidden words; in
the block design it becomes the number of a port.  Whether the two agree is the matter of
`Fpga/CtlSts`, which reads the arrays as the Tcl scripts do.

In brackets there may also be the name of a parameter, and the configuration is not read if there is
no such parameter.  A name with the number 1 stays as it is, with any other number it
is followed by the numbers from 0 on.  The names of all four lists are constants of one
namespace of the header, so that a name in two of the lists is defined twice.

* `appendMemoryToConfig`: the names of the registers.
* `memoryHpp`: the constants in the namespace `reg`.
* `configTcl`: the arrays and their sizes.
-/

namespace KoheronSdk

/-! ## Reading the configuration -/

/-- `config['parameters']`, those with integer values -/
abbrev Parameters := List (Str × ℤ)

/-- `parse_brackets(string)` -/
def parseBrackets (string : Str) : Str × Str :=
  match string.findIdx? (· = '['), string.findIdx? (· = ']') with
  | some start, some stop => (string.take start, (string.take stop).drop (start + 1))
  | _, _ => (string, ['1'])

/-- `read_parameters(string, parameters)` -/
def readParameters (string : Str) (parameters : Parameters) : Option (Str × ℤ) :=
  let (string, parameter) := parseBrackets string
  match decimal parameter with
  | some n => some (string, (n : ℤ))
  | none => (parameters.lookup parameter).map fun n => (string, n)

/-- `str(i)` -/
def str (i : ℕ) : Str := Nat.toDigits 10 i

/-- The names that one entry stands for. -/
def expandRegister (register : Str) (parameter : ℤ) : List Str :=
  if parameter = 1 then [register]
  else (List.range parameter.toNat).map fun i => register ++ str i

/-- `build_registers(registers, parameters)` -/
def buildRegisters (registers : List Str) (parameters : Parameters) : Option (List Str) := do
  let read ← registers.mapM fun register => readParameters register parameters
  return read.flatMap fun p => expandRegister p.1 p.2

/-- The lists of registers of a configuration. -/
structure RegisterLists where
  control : List Str
  psControl : List Str
  status : List Str
  psStatus : List Str
  deriving DecidableEq

/-- `append_memory_to_config(config)` -/
def appendMemoryToConfig (config : RegisterLists) (parameters : Parameters) :
    Option RegisterLists := do
  let control ← buildRegisters config.control parameters
  let psControl ← buildRegisters config.psControl parameters
  let status ← buildRegisters config.status parameters
  let psStatus ← buildRegisters config.psStatus parameters
  return ⟨control, psControl, status, psStatus⟩

/-- All names, which are constants of one namespace. -/
def RegisterLists.names (config : RegisterLists) : List Str :=
  config.control ++ config.psControl ++ config.status ++ config.psStatus

/-! ## The header -/

/-- The address ranges that hold registers. -/
inductive Bank where
  | control
  | psControl
  | status
  | psStatus
  deriving DecidableEq, Repr

/-- A constant with an offset, and the range against which it is checked. -/
structure RegisterConstant where
  name : Str
  offset : ℕ
  range : Bank
  deriving DecidableEq

/-- `{% for offset in registers %}`, a `uint32_t` for each of them -/
def registerConstants (registers : List Str) (offset : ℕ → ℕ) (range : Bank) :
    List RegisterConstant :=
  registers.mapIdx fun index0 name => ⟨name, offset index0 % 2 ^ 32, range⟩

/-- The constants in `namespace reg`, as they stand under the four comments. -/
structure RegNamespace where
  control : List RegisterConstant
  psControl : List RegisterConstant
  status : List RegisterConstant
  psStatus : List RegisterConstant

/-- `memory.hpp` -/
def memoryHpp (config : RegisterLists) : RegNamespace where
  control := registerConstants config.control (fun index0 => 4 * index0) .control
  psControl := registerConstants config.psControl (fun index0 => 4 * index0) .psControl
  status := registerConstants config.status (fun index0 => 4 * (2 + index0)) .status
  psStatus := registerConstants config.psStatus (fun index0 => 4 * index0) .status

theorem mem_registerConstants {registers : List Str} {offset : ℕ → ℕ} {range : Bank}
    {c : RegisterConstant} :
    c ∈ registerConstants registers offset range ↔
      ∃ i, ∃ h : i < registers.length, c = ⟨registers[i], offset i % 2 ^ 32, range⟩ := by
  rw [registerConstants, List.mem_mapIdx]
  exact exists_congr fun i => exists_congr fun h => eq_comm

/-! ## The arrays -/

/-- An array and its size. -/
structure TclRegisters where
  register : ℕ → Str
  size : ℕ

/-- `{% for name in registers %}` -/
def tclRegisters (registers : List Str) : TclRegisters where
  register index0 := registers.getD index0 []
  size := registers.length

/-- The variables of `namespace eval config`. -/
structure TclConfig where
  ctl : TclRegisters
  psCtl : TclRegisters
  sts : TclRegisters
  psSts : TclRegisters

/-- `config.tcl` -/
def configTcl (config : RegisterLists) : TclConfig where
  ctl := tclRegisters config.control
  psCtl := tclRegisters config.psControl
  sts := tclRegisters config.status
  psSts := tclRegisters config.psStatus

end KoheronSdk
