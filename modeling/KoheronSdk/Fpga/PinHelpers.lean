import KoheronSdk.Client.TypeStrings
import KoheronSdk.Lib.MemoTable

/-!
# The helpers that make a cell for a pin

The scripts of the block designs ask for a function of pins, as the slice of a bus or the
conjunction of two pins, and `utilities.tcl` makes a cell for it.  The name of the cell is put
together from the request, and a cell with this name is taken for the one that was asked for.

## Names

Each helper has its own pattern for the name, with the pins in it, in which each slash is replaced
by an underscore.  The name of a pin may have underscores of its own, so paths can become the same
name, and one pattern can produce what another one does.  For an edge detector only the last part of
the path is used.  And the clock is in no name at all.

`Clash` says of two requests that they have one name.  It is stated on the requests, not on
the names, and `cellName_eq_iff` shows that it is just this.  Most of the module is about the
names: from a name without two operands the head can be read back, and then the rest.

## A table of cells

The hierarchy is a table from names to cells, and a helper fills it in as
`Lib/MemoTable` does.  From there the result is general: each key has the
value that its first request made, and this value fits all requests exactly if those with
one key are one request.

* `getLogicPin`, ..., `getEdgeDetectorPin`: the procedures.
* `Cell.Computes`: the function of a cell.
* `Clash`: requests with one name.
* `neverAliases_iff`: when each request gets a cell of its own.
-/

namespace KoheronSdk

namespace BlockDesign

/-! ## Cells and their names -/

/-- A cell as `cell` makes it: its properties, and what its pins are connected to. -/
structure Cell where
  vlnv : String
  props : List (String × Str)
  ports : List (String × Str)

/-- The cells of a hierarchy, with their names. -/
abbrev Hierarchy := List (Str × Cell)

/-- An integer in a string. -/
def intStr : ℤ → Str
  | .ofNat n => Nat.toDigits 10 n
  | .negSucc n => '-' :: Nat.toDigits 10 (n + 1)

/-- `underscore` -/
def underscore (pinName : Str) : Str := ['_'].intercalate (split '/' pinName)

/-- `get_cell_name` -/
def getCellName (op pinName1 pinName2 : Str) : Str :=
  if pinName2 = [] then op ++ '_' :: underscore pinName1
  else underscore pinName1 ++ '_' :: (op ++ '_' :: underscore pinName2)

/-- `[lindex [split $pin_name /] end]` -/
def lastComponent (pinName : Str) : Str := (split '/' pinName).getLastD []

/-- `get_pin_width`, from the properties `LEFT` and `RIGHT`, which a pin of one bit does not
have. -/
def getPinWidth (range : Str → Option (ℤ × ℤ)) (pinName : Str) : ℤ :=
  -- without the properties the expression is `- + 1`
  let width := (range pinName).elim (-1) fun r => r.1 - r.2 + 1
  if width < 1 then 1 else width

/-! ## The procedures -/

/-- The operations of `util_vector_logic`. -/
inductive LogicOp where
  | and | or | nor | not
  deriving DecidableEq

/-- The operations of the comparator. -/
inductive CompareOp where
  | GE | GT | LE | LT | EQ | NE
  deriving DecidableEq

def LogicOp.name : LogicOp → Str
  | .and => "and".toList
  | .or => "or".toList
  | .nor => "nor".toList
  | .not => "not".toList

def CompareOp.name : CompareOp → Str
  | .GE => "GE".toList
  | .GT => "GT".toList
  | .LE => "LE".toList
  | .LT => "LT".toList
  | .EQ => "EQ".toList
  | .NE => "NE".toList

/-- What the procedures have in common: a cell is made if there is none of this name, and its
output is returned. -/
def memoPin (d : Hierarchy) (cellName : Str) (cell : Cell) (port : Str) : Hierarchy × Str :=
  (MemoTable.insertNew d cellName cell, cellName ++ '/' :: port)

section Procedures

variable (range : Str → Option (ℤ × ℤ)) (d : Hierarchy)

/-- The cell of `get_and_pin` and the like. -/
def logicCell (op : LogicOp) (pinName1 pinName2 : Str) : Cell where
  vlnv := "xilinx.com:ip:util_vector_logic:2.0"
  props := [("C_SIZE", intStr (getPinWidth range pinName1)), ("C_OPERATION", op.name)]
  ports := ("Op1", pinName1) :: if pinName2 ≠ [] then [("Op2", pinName2)] else []

/-- `get_and_pin`, `get_or_pin`, `get_nor_pin` and `get_not_pin` -/
def getLogicPin (op : LogicOp) (pinName1 pinName2 : Str) : Hierarchy × Str :=
  memoPin d (getCellName op.name pinName1 pinName2) (logicCell range op pinName1 pinName2)
    "Res".toList

/-- The cell of `get_GE_pin` and the like. -/
def compareCell (op : CompareOp) (pinName1 pinName2 : Str) : Cell where
  vlnv := "koheron:user:comparator:1.0"
  props := [("DATA_WIDTH", intStr (getPinWidth range pinName1)), ("OPERATION", op.name)]
  ports := [("a", pinName1), ("b", pinName2)]

/-- `get_GE_pin`, `get_GT_pin`, `get_LE_pin`, `get_LT_pin`, `get_EQ_pin` and `get_NE_pin` -/
def getComparePin (op : CompareOp) (pinName1 pinName2 : Str) : Hierarchy × Str :=
  memoPin d (getCellName op.name pinName1 pinName2) (compareCell range op pinName1 pinName2)
    "dout".toList

/-- The name in `get_slice_pin`. -/
def sliceName (pinName : Str) (dinFrom dinTo : ℤ) : Str :=
  "slice_".toList ++ (intStr dinFrom ++ '_' :: (intStr dinTo ++ '_' :: 'c' :: underscore pinName))

def sliceCell (pinName : Str) (dinFrom dinTo : ℤ) : Cell where
  vlnv := "xilinx.com:ip:xlslice:1.0"
  props := [("DIN_WIDTH", intStr (getPinWidth range pinName)), ("DIN_FROM", intStr dinFrom),
    ("DIN_TO", intStr dinTo)]
  ports := [("Din", pinName)]

/-- `get_slice_pin` -/
def getSlicePin (pinName : Str) (dinFrom dinTo : ℤ) : Hierarchy × Str :=
  memoPin d (sliceName pinName dinFrom dinTo) (sliceCell range pinName dinFrom dinTo) "Dout".toList

/-- The name in `get_Q_pin`. -/
def delayName (pinName : Str) (depth : ℤ) (cePinName : Str) : Str :=
  "Q_d".toList ++
    (intStr depth ++ '_' :: (underscore cePinName ++ '_' :: underscore pinName))

def delayCell (pinName : Str) (depth : ℤ) (cePinName clk : Str) : Cell :=
  if cePinName = "noce".toList then
    { vlnv := "xilinx.com:ip:c_shift_ram:12.0"
      props := [("Width", intStr (getPinWidth range pinName)), ("Depth", intStr depth)]
      ports := [("CLK", clk), ("D", pinName)] }
  else
    { vlnv := "xilinx.com:ip:c_shift_ram:12.0"
      props := [("Width", intStr (getPinWidth range pinName)), ("Depth", intStr depth),
        ("CE", "true".toList)]
      ports := [("CLK", clk), ("D", pinName), ("CE", cePinName)] }

/-- `get_Q_pin` -/
def getQPin (pinName : Str) (depth : ℤ) (cePinName clk : Str) : Hierarchy × Str :=
  memoPin d (delayName pinName depth cePinName) (delayCell range pinName depth cePinName clk)
    "Q".toList

/-- The name in `get_constant_pin`. -/
def constantName (value width : ℤ) : Str :=
  "const_v".toList ++ (intStr value ++ '_' :: 'w' :: intStr width)

def constantCell (value width : ℤ) : Cell where
  vlnv := "xilinx.com:ip:xlconstant:1.1"
  props := [("CONST_VAL", intStr value), ("CONST_WIDTH", intStr width)]
  ports := []

/-- `get_constant_pin` -/
def getConstantPin (value width : ℤ) : Hierarchy × Str :=
  memoPin d (constantName value width) (constantCell value width) "dout".toList

/-- The name in `get_edge_detector_pin`. -/
def edgeDetectorName (pinName : Str) : Str := "edge_detector_".toList ++ lastComponent pinName

def edgeDetectorCell (pinName clk : Str) : Cell where
  vlnv := "koheron:user:edge_detector:1.0"
  props := []
  ports := [("clk", clk), ("din", pinName)]

/-- `get_edge_detector_pin` -/
def getEdgeDetectorPin (pinName clk : Str) : Hierarchy × Str :=
  memoPin d (edgeDetectorName pinName) (edgeDetectorCell pinName clk) "dout".toList

end Procedures

/-! ## Requests -/

/-- A call of a helper.  The defaults are the empty string for a second operand of
`get_and_pin`, one clock, `noce` and `clk`. -/
inductive Request where
  | logic (op : LogicOp) (pinName1 pinName2 : Str)
  | compare (op : CompareOp) (pinName1 pinName2 : Str)
  | slice (pinName : Str) (dinFrom dinTo : ℤ)
  | delay (pinName : Str) (depth : ℤ) (cePinName clk : Str)
  | constant (value width : ℤ)
  | edgeDetector (pinName clk : Str)
  deriving DecidableEq

namespace Request

/-- The call, in a hierarchy. -/
def call (range : Str → Option (ℤ × ℤ)) (d : Hierarchy) : Request → Hierarchy × Str
  | logic op pinName1 pinName2 => getLogicPin range d op pinName1 pinName2
  | compare op pinName1 pinName2 => getComparePin range d op pinName1 pinName2
  | slice pinName dinFrom dinTo => getSlicePin range d pinName dinFrom dinTo
  | delay pinName depth cePinName clk => getQPin range d pinName depth cePinName clk
  | constant value width => getConstantPin d value width
  | edgeDetector pinName clk => getEdgeDetectorPin d pinName clk

/-- The name of the cell. -/
def cellName : Request → Str
  | logic op pinName1 pinName2 => getCellName op.name pinName1 pinName2
  | compare op pinName1 pinName2 => getCellName op.name pinName1 pinName2
  | slice pinName dinFrom dinTo => sliceName pinName dinFrom dinTo
  | delay pinName depth cePinName _ => delayName pinName depth cePinName
  | constant value width => constantName value width
  | edgeDetector pinName _ => edgeDetectorName pinName

/-- The cell, where it is made. -/
def cell (range : Str → Option (ℤ × ℤ)) : Request → Cell
  | logic op pinName1 pinName2 => logicCell range op pinName1 pinName2
  | compare op pinName1 pinName2 => compareCell range op pinName1 pinName2
  | slice pinName dinFrom dinTo => sliceCell range pinName dinFrom dinTo
  | delay pinName depth cePinName clk => delayCell range pinName depth cePinName clk
  | constant value width => constantCell value width
  | edgeDetector pinName clk => edgeDetectorCell pinName clk

/-- The output of the cell. -/
def port : Request → Str
  | logic .. => "Res".toList
  | compare .. => "dout".toList
  | slice .. => "Dout".toList
  | delay .. => "Q".toList
  | constant .. => "dout".toList
  | edgeDetector .. => "dout".toList

theorem call_eq (range : Str → Option (ℤ × ℤ)) (d : Hierarchy) (r : Request) :
    r.call range d = memoPin d r.cellName (r.cell range) r.port := by
  cases r <;> rfl

end Request

/-- The calls in their order, and the pins that they return. -/
def callAll (range : Str → Option (ℤ × ℤ)) (d : Hierarchy) : List Request → Hierarchy × List Str
  | [] => (d, [])
  | r :: rs =>
    let (d, pin) := r.call range d
    let (d, pins) := callAll range d rs
    (d, pin :: pins)

theorem callAll_eq (range : Str → Option (ℤ × ℤ)) (d : Hierarchy) (rs : List Request) :
    callAll range d rs = (MemoTable.fill Request.cellName (Request.cell range) d rs,
      rs.map fun r => r.cellName ++ '/' :: r.port) := by
  induction rs generalizing d with
  | nil => rfl
  | cons r rs ih =>
    rw [callAll, Request.call_eq, memoPin]
    show ((callAll range (MemoTable.insertNew d r.cellName (r.cell range)) rs).1,
      (r.cellName ++ '/' :: r.port) ::
        (callAll range (MemoTable.insertNew d r.cellName (r.cell range)) rs).2) = _
    rw [ih]
    rfl

/-! ## The function of a cell -/

namespace Cell

/-- The value of a property. -/
def prop? (c : Cell) (name : String) : Option Str := c.props.lookup name

/-- What a pin of the cell is connected to. -/
def pin? (c : Cell) (name : String) : Option Str := c.ports.lookup name

/-- The output `port` of a cell is the function that a request asks for, of the same operands. -/
def Computes (c : Cell) (port : Str) : Request → Prop
  | .logic op pinName1 pinName2 =>
    c.vlnv = "xilinx.com:ip:util_vector_logic:2.0" ∧ port = "Res".toList ∧
      c.prop? "C_OPERATION" = some op.name ∧ c.pin? "Op1" = some pinName1 ∧
      c.pin? "Op2" = if pinName2 = [] then none else some pinName2
  | .compare op pinName1 pinName2 =>
    c.vlnv = "koheron:user:comparator:1.0" ∧ port = "dout".toList ∧
      c.prop? "OPERATION" = some op.name ∧ c.pin? "a" = some pinName1 ∧ c.pin? "b" = some pinName2
  | .slice pinName dinFrom dinTo =>
    c.vlnv = "xilinx.com:ip:xlslice:1.0" ∧ port = "Dout".toList ∧
      c.prop? "DIN_FROM" = some (intStr dinFrom) ∧ c.prop? "DIN_TO" = some (intStr dinTo) ∧
      c.pin? "Din" = some pinName
  | .delay pinName depth cePinName clk =>
    c.vlnv = "xilinx.com:ip:c_shift_ram:12.0" ∧ port = "Q".toList ∧
      c.prop? "Depth" = some (intStr depth) ∧ c.pin? "D" = some pinName ∧
      c.pin? "CLK" = some clk ∧
      (c.prop? "CE" = if cePinName = "noce".toList then none else some "true".toList) ∧
      c.pin? "CE" = if cePinName = "noce".toList then none else some cePinName
  | .constant value width =>
    c.vlnv = "xilinx.com:ip:xlconstant:1.1" ∧ port = "dout".toList ∧
      c.prop? "CONST_VAL" = some (intStr value) ∧ c.prop? "CONST_WIDTH" = some (intStr width)
  | .edgeDetector pinName clk =>
    c.vlnv = "koheron:user:edge_detector:1.0" ∧ port = "dout".toList ∧
      c.pin? "clk" = some clk ∧ c.pin? "din" = some pinName

end Cell

theorem LogicOp.name_injective : Function.Injective LogicOp.name := by
  intro op op' h
  cases op <;> cases op' <;> first | rfl | exact absurd h (by decide)

theorem CompareOp.name_injective : Function.Injective CompareOp.name := by
  intro op op' h
  cases op <;> cases op' <;> first | rfl | exact absurd h (by decide)

theorem intStr_injective : Function.Injective intStr := by
  have hminus : ∀ n, '-' ∉ Nat.toDigits 10 n := fun n h =>
    absurd (Nat.isDigit_of_mem_toDigits (by decide) (by decide) h) (by decide)
  intro i j h
  cases i with
  | ofNat m =>
    cases j with
    | ofNat n => exact congrArg Int.ofNat (toDigits_injective h)
    | negSucc n =>
      have h' : Nat.toDigits 10 m = '-' :: Nat.toDigits 10 (n + 1) := h
      exact absurd (h' ▸ List.mem_cons_self ..) (hminus m)
  | negSucc m =>
    cases j with
    | ofNat n =>
      have h' : '-' :: Nat.toDigits 10 (m + 1) = Nat.toDigits 10 n := h
      exact absurd (h' ▸ List.mem_cons_self ..) (hminus n)
    | negSucc n =>
      have hdigits := toDigits_injective (List.cons.inj h).2
      rw [Nat.succ.inj hdigits]

theorem notMem_intStr {c : Char} (hminus : c ≠ '-') (hdigit : c.isDigit = false) (i : ℤ) :
    c ∉ intStr i := by
  have hdigits : ∀ n, c ∉ Nat.toDigits 10 n := by
    intro n h
    rw [Nat.isDigit_of_mem_toDigits (by decide) (by decide) h] at hdigit
    cases hdigit
  cases i with
  | ofNat n => exact hdigits n
  | negSucc n =>
    rw [intStr, List.mem_cons, not_or]
    exact ⟨hminus, hdigits (n + 1)⟩

/-- A cell has the function that it was made for. -/
theorem Request.computes_cell (range : Str → Option (ℤ × ℤ)) (r : Request) :
    (r.cell range).Computes r.port r := by
  cases r with
  | logic op pinName1 pinName2 =>
    refine ⟨rfl, rfl, rfl, rfl, ?_⟩
    show List.lookup "Op2" (("Op1", pinName1) :: if pinName2 ≠ [] then _ else _) = _
    by_cases h : pinName2 = []
    · rw [if_pos h, if_neg (not_not.mpr h)]
      rfl
    · rw [if_neg h, if_pos h]
      rfl
  | compare op pinName1 pinName2 => exact ⟨rfl, rfl, rfl, rfl, rfl⟩
  | slice pinName dinFrom dinTo => exact ⟨rfl, rfl, rfl, rfl, rfl⟩
  | delay pinName depth cePinName clk =>
    show (delayCell range pinName depth cePinName clk).Computes _ _
    unfold delayCell
    by_cases h : cePinName = "noce".toList
    · rw [if_pos h]
      refine ⟨rfl, rfl, rfl, rfl, rfl, ?_, ?_⟩
      · rw [if_pos h]
        rfl
      · rw [if_pos h]
        rfl
    · rw [if_neg h]
      refine ⟨rfl, rfl, rfl, rfl, rfl, ?_, ?_⟩
      · rw [if_neg h]
        rfl
      · rw [if_neg h]
        rfl
  | constant value width => exact ⟨rfl, rfl, rfl, rfl⟩
  | edgeDetector pinName clk => exact ⟨rfl, rfl, rfl, rfl⟩

/-- The kind of cell that a request is for. -/
def Request.vlnv : Request → String
  | .logic .. => "xilinx.com:ip:util_vector_logic:2.0"
  | .compare .. => "koheron:user:comparator:1.0"
  | .slice .. => "xilinx.com:ip:xlslice:1.0"
  | .delay .. => "xilinx.com:ip:c_shift_ram:12.0"
  | .constant .. => "xilinx.com:ip:xlconstant:1.1"
  | .edgeDetector .. => "koheron:user:edge_detector:1.0"

/-- An operand that is absent where it is `x` is known from its connection. -/
theorem eq_of_ite_eq {x s t : Str}
    (h : (if s = x then none else some s) = if t = x then none else some t) : s = t := by
  by_cases hs : s = x
  · by_cases ht : t = x
    · exact hs.trans ht.symm
    · rw [if_pos hs, if_neg ht] at h
      cases h
  · by_cases ht : t = x
    · rw [if_neg hs, if_pos ht] at h
      cases h
    · rw [if_neg hs, if_neg ht] at h
      exact Option.some.inj h

/-- A cell has one function. -/
theorem Cell.Computes.request_eq {c : Cell} {port port' : Str} {r r' : Request}
    (h : c.Computes port r) (h' : c.Computes port' r') : r = r' := by
  have hvlnv : r.vlnv = r'.vlnv := by
    have hr : c.vlnv = r.vlnv := by cases r <;> exact h.1
    have hr' : c.vlnv = r'.vlnv := by cases r' <;> exact h'.1
    exact hr.symm.trans hr'
  cases r with
  | logic op pinName1 pinName2 =>
    cases r' with
    | logic op' pinName1' pinName2' =>
      obtain ⟨-, -, hop, hpin1, hpin2⟩ := h
      obtain ⟨-, -, hop', hpin1', hpin2'⟩ := h'
      have heq := hpin2.symm.trans hpin2'
      rw [hop, Option.some_inj] at hop'
      rw [hpin1, Option.some_inj] at hpin1'
      rw [LogicOp.name_injective hop', hpin1', eq_of_ite_eq heq]
    | _ => simp [Request.vlnv] at hvlnv
  | compare op pinName1 pinName2 =>
    cases r' with
    | compare op' pinName1' pinName2' =>
      obtain ⟨-, -, hop, hpin1, hpin2⟩ := h
      obtain ⟨-, -, hop', hpin1', hpin2'⟩ := h'
      rw [hop, Option.some_inj] at hop'
      rw [hpin1, Option.some_inj] at hpin1'
      rw [hpin2, Option.some_inj] at hpin2'
      rw [CompareOp.name_injective hop', hpin1', hpin2']
    | _ => simp [Request.vlnv] at hvlnv
  | slice pinName dinFrom dinTo =>
    cases r' with
    | slice pinName' dinFrom' dinTo' =>
      obtain ⟨-, -, hfrom, hto, hpin⟩ := h
      obtain ⟨-, -, hfrom', hto', hpin'⟩ := h'
      rw [hfrom, Option.some_inj] at hfrom'
      rw [hto, Option.some_inj] at hto'
      rw [hpin, Option.some_inj] at hpin'
      rw [hpin', intStr_injective hfrom', intStr_injective hto']
    | _ => simp [Request.vlnv] at hvlnv
  | delay pinName depth cePinName clk =>
    cases r' with
    | delay pinName' depth' cePinName' clk' =>
      obtain ⟨-, -, hdepth, hpin, hclk, -, hce⟩ := h
      obtain ⟨-, -, hdepth', hpin', hclk', -, hce'⟩ := h'
      have heq := hce.symm.trans hce'
      rw [hdepth, Option.some_inj] at hdepth'
      rw [hpin, Option.some_inj] at hpin'
      rw [hclk, Option.some_inj] at hclk'
      rw [hpin', intStr_injective hdepth', eq_of_ite_eq heq, hclk']
    | _ => simp [Request.vlnv] at hvlnv
  | constant value width =>
    cases r' with
    | constant value' width' =>
      obtain ⟨-, -, hvalue, hwidth⟩ := h
      obtain ⟨-, -, hvalue', hwidth'⟩ := h'
      rw [hvalue, Option.some_inj] at hvalue'
      rw [hwidth, Option.some_inj] at hwidth'
      rw [intStr_injective hvalue', intStr_injective hwidth']
    | _ => simp [Request.vlnv] at hvlnv
  | edgeDetector pinName clk =>
    cases r' with
    | edgeDetector pinName' clk' =>
      obtain ⟨-, -, hclk, hpin⟩ := h
      obtain ⟨-, -, hclk', hpin'⟩ := h'
      rw [hclk, Option.some_inj] at hclk'
      rw [hpin, Option.some_inj] at hpin'
      rw [hpin', hclk']
    | _ => simp [Request.vlnv] at hvlnv

/-! ## The names -/

/-- The parts of a text on both sides of its first `sep`. -/
theorem append_sep_inj {sep : Char} {a b : Str} (ha : sep ∉ a) (hb : sep ∉ b) (s t : Str) :
    a ++ sep :: s = b ++ sep :: t ↔ a = b ∧ s = t := by
  constructor
  · intro h
    have hsplit : split sep (a ++ sep :: s) = split sep (b ++ sep :: t) := by rw [h]
    rw [split_append ha, split_append hb] at hsplit
    obtain rfl := (List.cons.inj hsplit).1
    exact ⟨rfl, (List.cons.inj (List.append_cancel_left h)).2⟩
  · rintro ⟨rfl, rfl⟩
    rfl

/-- What `underscore` makes of a character. -/
def unslash (c : Char) : Char := if c = '/' then '_' else c

/-- Paths that differ in `/` and `_` only. -/
def Alike (s t : Str) : Prop := s.map unslash = t.map unslash

theorem split_ne_nil (sep : Char) (s : Str) : split sep s ≠ [] := by
  cases s with
  | nil => exact List.cons_ne_nil _ _
  | cons c cs =>
    rw [split]
    split_ifs
    · exact List.cons_ne_nil _ _
    · split
      · exact List.cons_ne_nil _ _
      · exact List.cons_ne_nil _ _

theorem underscore_eq_map (p : Str) : underscore p = p.map unslash := by
  rw [underscore]
  induction p with
  | nil => rfl
  | cons c cs ih =>
    rw [split, List.map_cons, unslash]
    obtain ⟨part, parts, hsplit⟩ := List.exists_cons_of_ne_nil (split_ne_nil '/' cs)
    rw [hsplit] at ih ⊢
    rw [← ih]
    split_ifs
    · rw [List.intercalate_cons_cons]
      rfl
    · exact List.intercalate_cons_cons_left

theorem map_unslash_of_notMem {s : Str} (h : '/' ∉ s) : s.map unslash = s := by
  conv_rhs => rw [← List.map_id s]
  refine List.map_congr_left fun c hc => if_neg ?_
  rintro rfl
  exact h hc

theorem sep_notMem_split (sep : Char) (s : Str) : ∀ part ∈ split sep s, sep ∉ part := by
  induction s with
  | nil =>
    intro part hpart
    rw [split, List.mem_singleton] at hpart
    exact hpart ▸ List.not_mem_nil
  | cons c cs ih =>
    obtain ⟨first, parts, hsplit⟩ := List.exists_cons_of_ne_nil (split_ne_nil sep cs)
    rw [hsplit] at ih
    intro part hpart
    rw [split, hsplit] at hpart
    split_ifs at hpart with hc
    · rcases List.mem_cons.mp hpart with rfl | hpart
      · exact List.not_mem_nil
      · exact ih part hpart
    · rcases List.mem_cons.mp hpart with rfl | hpart
      · rw [List.mem_cons, not_or]
        exact ⟨Ne.symm hc, ih first (List.mem_cons_self ..)⟩
      · exact ih part (List.mem_cons_of_mem first hpart)

theorem slash_notMem_lastComponent (p : Str) : '/' ∉ lastComponent p := by
  rw [lastComponent, List.getLastD_eq_getLast?, List.getLast?_eq_some_getLast (split_ne_nil '/' p)]
  exact sep_notMem_split '/' p _ (List.getLast_mem _)

namespace Request

/-- The request has two operands, so that its cell is named `<operand>_<op>_<operand>`. -/
def IsBinary : Request → Prop
  | logic _ _ pinName2 => pinName2 ≠ []
  | compare .. => True
  | _ => False

instance : DecidablePred IsBinary := fun r =>
  match r with
  | logic _ _ pinName2 => inferInstanceAs (Decidable (pinName2 ≠ []))
  | compare .. => inferInstanceAs (Decidable True)
  | slice .. => inferInstanceAs (Decidable False)
  | delay .. => inferInstanceAs (Decidable False)
  | constant .. => inferInstanceAs (Decidable False)
  | edgeDetector .. => inferInstanceAs (Decidable False)

/-- An operation and its operands, spliced as in a name, but as they are. -/
def splice (op pinName1 pinName2 : Str) : Str :=
  if pinName2 = [] then op ++ '_' :: pinName1 else pinName1 ++ '_' :: (op ++ '_' :: pinName2)

/-- The request in one line, with the paths as they are. -/
def text : Request → Str
  | logic op pinName1 pinName2 => splice op.name pinName1 pinName2
  | compare op pinName1 pinName2 => splice op.name pinName1 pinName2
  | slice pinName dinFrom dinTo =>
    "slice_".toList ++ (intStr dinFrom ++ '_' :: (intStr dinTo ++ '_' :: 'c' :: pinName))
  | delay pinName depth cePinName _ =>
    "Q_d".toList ++ (intStr depth ++ '_' :: (cePinName ++ '_' :: pinName))
  | constant value width => constantName value width
  | edgeDetector pinName _ => edgeDetectorName pinName

theorem getCellName_eq_map {op : Str} (hop : '/' ∉ op) (pinName1 pinName2 : Str) :
    getCellName op pinName1 pinName2 = (splice op pinName1 pinName2).map unslash := by
  rw [getCellName, splice]
  split_ifs
  · rw [underscore_eq_map, List.map_append, map_unslash_of_notMem hop]
    rfl
  · rw [underscore_eq_map, underscore_eq_map, List.map_append, List.map_cons, List.map_append,
      map_unslash_of_notMem hop]
    rfl

/-- The name of a cell is its request in one line, without slashes. -/
theorem cellName_eq_map (r : Request) : r.cellName = r.text.map unslash := by
  have hint : ∀ i, (intStr i).map unslash = intStr i := fun i =>
    map_unslash_of_notMem (notMem_intStr (by decide) (by decide) i)
  cases r with
  | logic op pinName1 pinName2 =>
    exact getCellName_eq_map (by cases op <;> decide) pinName1 pinName2
  | compare op pinName1 pinName2 =>
    exact getCellName_eq_map (by cases op <;> decide) pinName1 pinName2
  | slice pinName dinFrom dinTo =>
    show sliceName pinName dinFrom dinTo = List.map unslash (_ ++ (_ ++ _ :: (_ ++ _ :: _ :: _)))
    simp only [List.map_append, List.map_cons, hint, ← underscore_eq_map]
    rfl
  | delay pinName depth cePinName clk =>
    show delayName pinName depth cePinName = List.map unslash (_ ++ (_ ++ _ :: (_ ++ _ :: _)))
    simp only [List.map_append, List.map_cons, hint, ← underscore_eq_map]
    rfl
  | constant value width =>
    show constantName value width = List.map unslash (_ ++ (_ ++ _ :: _ :: _))
    simp only [List.map_append, List.map_cons, hint]
    rfl
  | edgeDetector pinName clk =>
    show edgeDetectorName pinName = List.map unslash (_ ++ _)
    rw [List.map_append, map_unslash_of_notMem (slash_notMem_lastComponent pinName)]
    rfl

/-- What a name begins with, where the request does not have two operands. -/
inductive Head where
  | logic (op : LogicOp)
  | slice | delay | constant | edgeDetector

def Head.text : Head → Str
  | .logic op => op.name
  | .slice => "slice".toList
  | .delay => "Q".toList
  | .constant => "const".toList
  | .edgeDetector => "edge".toList

theorem Head.text_injective : Function.Injective Head.text := by
  intro h h' heq
  cases h with
  | logic op =>
    cases h' with
    | logic op' => rw [LogicOp.name_injective heq]
    | _ => cases op <;> exact absurd heq (by decide)
  | _ =>
    cases h' with
    | logic op' => cases op' <;> exact absurd heq (by decide)
    | _ => first | rfl | exact absurd heq (by decide)

theorem Head.underscore_notMem_text (h : Head) : '_' ∉ h.text := by
  cases h with
  | logic op => cases op <;> decide
  | _ => decide

/-- The name of a request without two operands, by its head and the rest. -/
inductive Named : Request → Head → Str → Prop
  | logic (op : LogicOp) (pinName : Str) :
    Named (logic op pinName []) (.logic op) (underscore pinName)
  | slice (pinName : Str) (dinFrom dinTo : ℤ) :
    Named (slice pinName dinFrom dinTo) .slice
      (intStr dinFrom ++ '_' :: (intStr dinTo ++ '_' :: 'c' :: underscore pinName))
  | delay (pinName : Str) (depth : ℤ) (cePinName clk : Str) :
    Named (delay pinName depth cePinName clk) .delay
      ('d' :: (intStr depth ++ '_' :: (underscore cePinName ++ '_' :: underscore pinName)))
  | constant (value width : ℤ) :
    Named (constant value width) .constant ('v' :: (intStr value ++ '_' :: 'w' :: intStr width))
  | edgeDetector (pinName clk : Str) :
    Named (edgeDetector pinName clk) .edgeDetector ("detector_".toList ++ lastComponent pinName)

theorem exists_named {r : Request} (h : ¬ r.IsBinary) : ∃ head rest, Named r head rest := by
  cases r with
  | logic op pinName1 pinName2 =>
    obtain rfl : pinName2 = [] := not_not.mp h
    exact ⟨_, _, Named.logic op pinName1⟩
  | compare op pinName1 pinName2 => exact absurd trivial h
  | slice pinName dinFrom dinTo => exact ⟨_, _, Named.slice pinName dinFrom dinTo⟩
  | delay pinName depth cePinName clk => exact ⟨_, _, Named.delay pinName depth cePinName clk⟩
  | constant value width => exact ⟨_, _, Named.constant value width⟩
  | edgeDetector pinName clk => exact ⟨_, _, Named.edgeDetector pinName clk⟩

theorem Named.cellName_eq {r : Request} {head : Head} {rest : Str} (h : Named r head rest) :
    r.cellName = head.text ++ '_' :: rest := by
  cases h <;> rfl

/-- Requests with one name.  The clock is in no name, and an edge detector has but the last
component of its pin in it. -/
def Clash (r r' : Request) : Prop :=
  if r.IsBinary ∨ r'.IsBinary then Alike r.text r'.text
  else
    match r, r' with
    | logic op pinName _, logic op' pinName' _ => op = op' ∧ Alike pinName pinName'
    | slice pinName dinFrom dinTo, slice pinName' dinFrom' dinTo' =>
      dinFrom = dinFrom' ∧ dinTo = dinTo' ∧ Alike pinName pinName'
    | delay pinName depth cePinName _, delay pinName' depth' cePinName' _ =>
      depth = depth' ∧ Alike (cePinName ++ '_' :: pinName) (cePinName' ++ '_' :: pinName')
    | constant value width, constant value' width' => value = value' ∧ width = width'
    | edgeDetector pinName _, edgeDetector pinName' _ =>
      lastComponent pinName = lastComponent pinName'
    | _, _ => False

theorem underscore_eq_iff (p p' : Str) : underscore p = underscore p' ↔ Alike p p' := by
  rw [underscore_eq_map, underscore_eq_map]
  rfl

theorem alike_splice_iff (s p s' p' : Str) :
    Alike (s ++ '_' :: p) (s' ++ '_' :: p') ↔
      underscore s ++ '_' :: underscore p = underscore s' ++ '_' :: underscore p' := by
  unfold Alike
  rw [underscore_eq_map, underscore_eq_map, underscore_eq_map, underscore_eq_map, List.map_append,
    List.map_append]
  rfl

/-- **Requests have one name** if and only if they clash. -/
theorem cellName_eq_iff (r r' : Request) : r.cellName = r'.cellName ↔ Clash r r' := by
  unfold Clash
  by_cases hbinary : r.IsBinary ∨ r'.IsBinary
  · rw [if_pos hbinary, cellName_eq_map, cellName_eq_map]
    rfl
  rw [if_neg hbinary]
  rw [not_or] at hbinary
  obtain ⟨head, rest, hr⟩ := exists_named hbinary.1
  obtain ⟨head', rest', hr'⟩ := exists_named hbinary.2
  rw [hr.cellName_eq, hr'.cellName_eq, append_sep_inj head.underscore_notMem_text
    head'.underscore_notMem_text, Head.text_injective.eq_iff]
  have hint : ∀ i, '_' ∉ intStr i := notMem_intStr (by decide) (by decide)
  cases hr with
  | logic op pinName =>
    cases hr' with
    | logic op' pinName' => rw [Head.logic.injEq, underscore_eq_iff]
    | _ => exact iff_of_false (fun h => Head.noConfusion h.1) id
  | slice pinName dinFrom dinTo =>
    cases hr' with
    | slice pinName' dinFrom' dinTo' =>
      rw [append_sep_inj (hint dinFrom) (hint dinFrom'), append_sep_inj (hint dinTo) (hint dinTo'),
        intStr_injective.eq_iff, intStr_injective.eq_iff, List.cons_inj_right, underscore_eq_iff]
      exact and_iff_right rfl
    | _ => exact iff_of_false (fun h => Head.noConfusion h.1) id
  | delay pinName depth cePinName clk =>
    cases hr' with
    | delay pinName' depth' cePinName' clk' =>
      rw [List.cons_inj_right, append_sep_inj (hint depth) (hint depth'), intStr_injective.eq_iff,
        ← alike_splice_iff]
      exact and_iff_right rfl
    | _ => exact iff_of_false (fun h => Head.noConfusion h.1) id
  | constant value width =>
    cases hr' with
    | constant value' width' =>
      rw [List.cons_inj_right, append_sep_inj (hint value) (hint value'), intStr_injective.eq_iff,
        List.cons_inj_right, intStr_injective.eq_iff]
      exact and_iff_right rfl
    | _ => exact iff_of_false (fun h => Head.noConfusion h.1) id
  | edgeDetector pinName clk =>
    cases hr' with
    | edgeDetector pinName' clk' =>
      rw [List.append_cancel_left_eq]
      exact and_iff_right rfl
    | _ => exact iff_of_false (fun h => Head.noConfusion h.1) id

end Request

/-! ## The pins -/

/-- A pin is the output `port` of a cell. -/
def IsOutput (pin cellName port : Str) : Prop := pin = cellName ++ '/' :: port ∧ '/' ∉ port

/-- A pin is the output of a cell that has the function of a request. -/
def Serves (d : Hierarchy) (pin : Str) (r : Request) : Prop :=
  ∃ cellName port cell, IsOutput pin cellName port ∧ d.lookup cellName = some cell ∧
    cell.Computes port r

/-- Each call gets the function that it asks for, and calls that get one cell ask for the same. -/
structure NeverAliases (range : Str → Option (ℤ × ℤ)) (rs : List Request) : Prop where
  serves : List.Forall₂ (Serves (callAll range [] rs).1) (callAll range [] rs).2 rs
  request_eq : ∀ p ∈ (callAll range [] rs).2.zip rs, ∀ p' ∈ (callAll range [] rs).2.zip rs,
    ∀ cellName port port', IsOutput p.1 cellName port → IsOutput p'.1 cellName port' → p.2 = p'.2

/-- A pin is the output of one cell. -/
theorem IsOutput.eq {pin cellName cellName' port port' : Str} (h : IsOutput pin cellName port)
    (h' : IsOutput pin cellName' port') : cellName = cellName' ∧ port = port' := by
  have heq : port.reverse ++ '/' :: cellName.reverse
      = port'.reverse ++ '/' :: cellName'.reverse := by
    have hpin := congrArg List.reverse (h.1.symm.trans h'.1)
    simpa using hpin
  rw [append_sep_inj (fun hc => h.2 (List.mem_reverse.mp hc))
    (fun hc => h'.2 (List.mem_reverse.mp hc))] at heq
  exact ⟨List.reverse_injective heq.2, List.reverse_injective heq.1⟩

theorem Request.isOutput (r : Request) : IsOutput (r.cellName ++ '/' :: r.port) r.cellName r.port :=
  ⟨rfl, by cases r <;> simp [Request.port]⟩

theorem neverAliases_iff_cellName (range : Str → Option (ℤ × ℤ)) (rs : List Request) :
    NeverAliases range rs ↔ ∀ r ∈ rs, ∀ r' ∈ rs, r.cellName = r'.cellName → r = r' := by
  have hfill : (∀ r ∈ rs, ∃ c, (MemoTable.fill Request.cellName (Request.cell range) [] rs).lookup
      r.cellName = some c ∧ c.Computes r.port r) ↔
        ∀ r ∈ rs, ∀ r' ∈ rs, r.cellName = r'.cellName → r = r' :=
    MemoTable.fill_fits_iff (P := fun (c : Cell) r => c.Computes r.port r)
      (Request.computes_cell range) (fun _ _ _ => Cell.Computes.request_eq) rs
  constructor
  · intro h
    rw [← hfill]
    intro r hr
    have hserves := h.serves
    rw [callAll_eq, List.forall₂_map_left_iff, List.forall₂_same] at hserves
    obtain ⟨cellName, port, c, hpin, hc, hcomputes⟩ := hserves r hr
    obtain ⟨rfl, rfl⟩ := hpin.eq r.isOutput
    exact ⟨c, hc, hcomputes⟩
  · intro h
    constructor
    · rw [callAll_eq, List.forall₂_map_left_iff, List.forall₂_same]
      intro r hr
      obtain ⟨c, hc, hcomputes⟩ := hfill.mpr h r hr
      exact ⟨r.cellName, r.port, c, r.isOutput, hc, hcomputes⟩
    · have hzip : ∀ p ∈ (callAll range [] rs).2.zip rs, p.2 ∈ rs ∧
          p.1 = p.2.cellName ++ '/' :: p.2.port := by
        intro p hp
        have hmap : (rs.map fun r => r.cellName ++ '/' :: r.port).zip (rs.map id)
            = rs.map fun r => (r.cellName ++ '/' :: r.port, r) := List.zip_map'
        rw [List.map_id] at hmap
        rw [callAll_eq, hmap] at hp
        obtain ⟨r, hr, rfl⟩ := List.mem_map.mp hp
        exact ⟨hr, rfl⟩
      intro p hp p' hp' cellName port port' hpin hpin'
      obtain ⟨hmem, heq⟩ := hzip p hp
      obtain ⟨hmem', heq'⟩ := hzip p' hp'
      have hname := ((heq ▸ hpin).eq p.2.isOutput).1
      have hname' := ((heq' ▸ hpin').eq p'.2.isOutput).1
      exact h p.2 hmem p'.2 hmem' (hname.symm.trans hname')

/-- **The helpers never alias** in a sequence of calls if and only if no two different calls in it
clash. -/
theorem neverAliases_iff (range : Str → Option (ℤ × ℤ)) (rs : List Request) :
    NeverAliases range rs ↔ ∀ r ∈ rs, ∀ r' ∈ rs, r.Clash r' → r = r' := by
  rw [neverAliases_iff_cellName]
  exact forall₂_congr fun r _ => forall₂_congr fun r' _ => imp_congr_left (r.cellName_eq_iff r')

/-- Two edge detectors behind two slices of a bus are one. -/
theorem not_forall_neverAliases :
    ¬ ∀ (range : Str → Option (ℤ × ℤ)) (rs : List Request), NeverAliases range rs := by
  intro h
  have hnames := (neverAliases_iff_cellName (fun _ => none)
    [.edgeDetector "slice_0_0_ccfg/Dout".toList "clk".toList,
      .edgeDetector "slice_1_1_ccfg/Dout".toList "clk".toList]).mp (h _ _)
  have heq := hnames _ (List.mem_cons_self ..) _ (List.mem_cons_of_mem _ (List.mem_cons_self ..))
    (by decide)
  exact absurd heq (by decide)

end BlockDesign

end KoheronSdk
