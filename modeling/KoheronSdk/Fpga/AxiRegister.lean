import Mathlib.Data.BitVec
import KoheronSdk.Fpga.CtlSts
import KoheronSdk.Lib.Streams

/-!
# The AXI registers

`axi_ctl_register` and `axi_cfg_register`, which the server writes and reads, and
`axi_sts_register`, which it reads only.  An address is decoded by the bits that number a word, an
access is accepted at once, and its response waits for the other side.

## Words and responses

The source generates a flip-flop for each bit of each word.  Here a word is a bit vector, each bit
of which is given by the source's flip-flop, and a write puts its strobed bytes there.  So the words
are those of a memory with byte strobes, whatever the responses do.

There is one register for the response to a read and one bit for that to a write, and neither is
looked at when an access is accepted.  An access that comes while the last response is still waiting
takes its place.  Both are a `Slot` of `Lib/Streams`, where it is said once and for all when
nothing is lost.

## Names

An instrument writes to an offset of its header, which the Tcl scripts have tied to a
slice of the register.  `ctl_pin_eq` follows a value from the one to the other, for any traffic on
the bus, and `sts_responses_iff` from a pin to what is read.  The numbers of registers
are bounded by the address space of the core, and for the status registers by
`Fpga/CtlSts`.

* `AxiRegister.word_trace`: the words are those of a memory with byte strobes.
* `AxiRegister.responses_iff`: when every access gets its response.
* `ctl_pin_eq`, `sts_responses_iff`: the registers of an instrument, by their names.
-/

namespace KoheronSdk

open Clocked

namespace AxiRegister

/-! ## The code -/

/-- `clogb2(value)` -/
def clogb2 (value : ℕ) : ℕ :=
  if value = 0 then 0 else clogb2 (value / 2) + 1
termination_by value

/-- `ADDR_LSB` -/
def addrLsb (axiDataWidth : ℕ) : ℕ := clogb2 (axiDataWidth / 8 - 1)

/-- `CTL_WIDTH` (or `CFG_WIDTH`, `STS_WIDTH`), from `CTL_SIZE` -/
def indexWidth (size : ℕ) : ℕ := if size > 1 then clogb2 (size - 1) else 1

/-- `CTL_DATA_WIDTH` (or `CFG_DATA_WIDTH`, `STS_DATA_WIDTH`), `AXI_DATA_WIDTH` and
`AXI_ADDR_WIDTH`: whole words of whole bytes, and an address that has the bits of the index. -/
structure Config where
  dataWidth : ℕ
  axiDataWidth : ℕ
  axiAddrWidth : ℕ
  word_pos : 0 < axiDataWidth
  bytes : 8 ∣ axiDataWidth
  words : axiDataWidth ∣ dataWidth
  index_le : addrLsb axiDataWidth + indexWidth (dataWidth / axiDataWidth) ≤ axiAddrWidth

namespace Config

variable (c : Config)

/-- `CTL_SIZE` -/
def size : ℕ := c.dataWidth / c.axiDataWidth

/-- `addr[ADDR_LSB+CTL_WIDTH-1:ADDR_LSB]` -/
def index (addr : BitVec c.axiAddrWidth) : ℕ :=
  (addr.extractLsb' (addrLsb c.axiDataWidth) (indexWidth c.size)).toNat

/-- `int_data_wire[j*AXI_DATA_WIDTH+AXI_DATA_WIDTH-1:j*AXI_DATA_WIDTH]` -/
def word (data : BitVec c.dataWidth) (j : ℕ) : BitVec c.axiDataWidth :=
  data.extractLsb' (j * c.axiDataWidth) c.axiDataWidth

end Config

/-- The inputs at an edge, and what `int_data_mux` gives behind its last word. -/
structure Input (c : Config) where
  aresetn : Bool
  awaddr : BitVec c.axiAddrWidth
  awvalid : Bool
  wdata : BitVec c.axiDataWidth
  wstrb : BitVec (c.axiDataWidth / 8)
  wvalid : Bool
  bready : Bool
  araddr : BitVec c.axiAddrWidth
  arvalid : Bool
  rready : Bool
  undriven : BitVec c.axiDataWidth

variable {c : Config}

/-- `int_wvalid_wire` -/
def Input.intWvalidWire (i : Input c) : Bool := i.awvalid && i.wvalid

/-- `int_ce_wire[j]` -/
def Input.intCeWire (i : Input c) (j : ℕ) : Bool :=
  i.intWvalidWire && decide (c.index i.awaddr = j)

/-- `int_data_mux[s_axi_araddr[ADDR_LSB+CTL_WIDTH-1:ADDR_LSB]]` -/
def Input.intDataMux (i : Input c) (data : BitVec c.dataWidth) : BitVec c.axiDataWidth :=
  if c.index i.araddr < c.size then c.word data (c.index i.araddr) else i.undriven

/-- `int_rvalid_next` and `int_rdata_next` -/
def readNext (r : Slot (BitVec c.axiDataWidth)) (i : Input c) (data : BitVec c.dataWidth) :
    Slot (BitVec c.axiDataWidth) :=
  let (intRvalidNext, intRdataNext) :=
    if i.arvalid then (true, i.intDataMux data) else (r.valid, r.data)
  let intRvalidNext := if i.rready && r.valid then false else intRvalidNext
  ⟨intRvalidNext, intRdataNext⟩

/-- The registers of `axi_ctl_register`: `int_data_wire`, `int_bvalid_reg`, and `int_rvalid_reg`
with `int_rdata_reg`. -/
structure Registers (c : Config) where
  intDataWire : BitVec c.dataWidth
  intBvalidReg : Bool
  read : Slot (BitVec c.axiDataWidth)

/-- The registers after a reset. -/
def Registers.reset : Registers c := ⟨0#_, false, ⟨false, 0#_⟩⟩

/-- The flip-flop `BITS[k]` of `WORDS[j]`. -/
def bitNext (s : Registers c) (i : Input c) (j k : ℕ) : Bool :=
  if i.intCeWire j && i.wstrb.getLsbD (k / 8) then i.wdata.getLsbD k
  else s.intDataWire.getLsbD (j * c.axiDataWidth + k)

/-- `axi_ctl_register`, at `posedge aclk` -/
def posedge (s : Registers c) (i : Input c) : Registers c :=
  if i.aresetn then
    let intBvalidNext := if i.intWvalidWire then true else s.intBvalidReg
    let intBvalidNext := if i.bready && s.intBvalidReg then false else intBvalidNext
    ⟨ofBits c.dataWidth fun b => bitNext s i (b / c.axiDataWidth) (b % c.axiDataWidth),
      intBvalidNext, readNext s.read i s.intDataWire⟩
  else .reset

/-- `axi_sts_register`, at `posedge aclk`, with `sts_data` -/
def stsPosedge (r : Slot (BitVec c.axiDataWidth)) (i : Input c × BitVec c.dataWidth) :
    Slot (BitVec c.axiDataWidth) :=
  if i.1.aresetn then readNext r i.1 i.2 else ⟨false, 0#_⟩

/-! ## A memory -/

/-- The bytes of `new` that are strobed, and the others of `old`. -/
def strobed (old new : BitVec c.axiDataWidth) (wstrb : BitVec (c.axiDataWidth / 8)) :
    BitVec c.axiDataWidth :=
  ofBits c.axiDataWidth fun k => if wstrb.getLsbD (k / 8) then new.getLsbD k else old.getLsbD k

/-- A write to a word. -/
structure Write (c : Config) where
  index : ℕ
  data : BitVec c.axiDataWidth
  strobes : BitVec (c.axiDataWidth / 8)

/-- A word after some writes. -/
def contents (ws : List (Write c)) (j : ℕ) : BitVec c.axiDataWidth :=
  (ws.filter (·.index = j)).foldl (fun old w => strobed old w.data w.strobes) 0#_

/-- The write that is accepted. -/
def Input.written (i : Input c) : Option (Write c) :=
  if i.intWvalidWire then some ⟨c.index i.awaddr, i.wdata, i.wstrb⟩ else none

theorem contents_append (ws : List (Write c)) (w : Write c) (j : ℕ) :
    contents (ws ++ [w]) j
      = if w.index = j then strobed (contents ws j) w.data w.strobes else contents ws j := by
  rw [contents, List.filter_append]
  by_cases h : w.index = j
  · rw [if_pos h, List.filter_cons_of_pos (by simpa using h), List.foldl_append]
    rfl
  · rw [if_neg h, List.filter_cons_of_neg (by simpa using h), List.filter_nil, List.append_nil]
    rfl

/-- The bits of word `j` are in the register. -/
theorem Config.bit_lt {j k : ℕ} (hj : j < c.size) (hk : k < c.axiDataWidth) :
    j * c.axiDataWidth + k < c.dataWidth := by
  have hmul : c.size * c.axiDataWidth = c.dataWidth := Nat.div_mul_cancel c.words
  calc j * c.axiDataWidth + k < (j + 1) * c.axiDataWidth := by
        rw [Nat.succ_mul]
        omega
    _ ≤ c.size * c.axiDataWidth := Nat.mul_le_mul_right _ hj
    _ = c.dataWidth := hmul

/-- **An edge writes one word at most.** -/
theorem word_posedge {s : Registers c} {i : Input c} (haresetn : i.aresetn = true) {j : ℕ}
    (hj : j < c.size) : c.word (posedge s i).intDataWire j
      = if i.intCeWire j then strobed (c.word s.intDataWire j) i.wdata i.wstrb
        else c.word s.intDataWire j := by
  rw [posedge, if_pos haresetn]
  refine BitVec.eq_of_getLsbD_eq fun k hk => ?_
  have hbit := c.bit_lt hj hk
  have hdiv : (j * c.axiDataWidth + k) / c.axiDataWidth = j := by
    rw [Nat.mul_comm, Nat.mul_add_div c.word_pos, Nat.div_eq_of_lt hk, Nat.add_zero]
  have hmod : (j * c.axiDataWidth + k) % c.axiDataWidth = k := by
    rw [Nat.mul_comm, Nat.mul_add_mod, Nat.mod_eq_of_lt hk]
  rw [Config.word, BitVec.getLsbD_extractLsb', getLsbD_ofBits _ hbit]
  simp only [hdiv, hmod, bitNext, hk, decide_true, Bool.true_and]
  cases hce : i.intCeWire j with
  | false =>
    rw [Bool.false_and, if_neg Bool.false_ne_true, if_neg Bool.false_ne_true, Config.word,
      BitVec.getLsbD_extractLsb', decide_eq_true hk, Bool.true_and]
  | true =>
    rw [Bool.true_and, if_pos rfl, strobed, getLsbD_ofBits _ hk, Config.word,
      BitVec.getLsbD_extractLsb', decide_eq_true hk, Bool.true_and]

section Run

variable {inputs : ℕ → Input c}

/-- **The words are those of a memory.** -/
theorem word_trace (haresetn : ∀ n, (inputs n).aresetn = true) (n : ℕ) {j : ℕ}
    (hj : j < c.size) : c.word (trace posedge .reset inputs n).intDataWire j
      = contents (happened (fun k => (inputs k).written) n) j := by
  induction n with
  | zero => exact BitVec.extractLsb'_zero
  | succ n ih =>
    rw [trace_succ, word_posedge (haresetn n) hj, ih, Input.intCeWire]
    cases hwrite : (inputs n).intWvalidWire with
    | false =>
      rw [happened_succ_of_none (if_neg (by rw [hwrite]; exact Bool.false_ne_true)),
        Bool.false_and, if_neg Bool.false_ne_true]
    | true =>
      rw [happened_succ_of_some (if_pos hwrite), contents_append, Bool.true_and]
      simp only [decide_eq_true_eq]

/-- The writes to one word. -/
theorem contents_happened (inputs : ℕ → Input c) (n j : ℕ) :
    contents (happened (fun k => (inputs k).written) n) j
      = (happened (fun k => if (inputs k).intCeWire j then
          some ((inputs k).wdata, (inputs k).wstrb) else none) n).foldl
        (fun old w => strobed old w.1 w.2) 0#_ := by
  induction n with
  | zero => rfl
  | succ n ih =>
    cases hwrite : (inputs n).intWvalidWire with
    | false =>
      have hnone : ¬ (inputs n).intWvalidWire = true := by
        rw [hwrite]
        exact Bool.false_ne_true
      rw [happened_succ_of_none (if_neg hnone), ih, happened_succ_of_none (if_neg fun hce =>
        hnone (Bool.and_eq_true_iff.mp hce).1)]
    | true =>
      rw [happened_succ_of_some (if_pos hwrite), contents_append, ih]
      by_cases hindex : c.index (inputs n).awaddr = j
      · rw [if_pos hindex, happened_succ_of_some (if_pos (Bool.and_eq_true_iff.mpr
          ⟨hwrite, decide_eq_true hindex⟩)), List.foldl_append]
        rfl
      · rw [if_neg hindex, happened_succ_of_none (if_neg fun hce =>
          hindex (of_decide_eq_true (Bool.and_eq_true_iff.mp hce).2))]

/-- What is to be answered to a read: the word as the writes so far have left it. -/
def readPut (inputs : ℕ → Input c) (k : ℕ) : Option (BitVec c.axiDataWidth) :=
  if (inputs k).arvalid then
    some (if c.index (inputs k).araddr < c.size then
      contents (happened (fun l => (inputs l).written) k) (c.index (inputs k).araddr)
    else (inputs k).undriven)
  else none

/-- The response that a write is given. -/
def Registers.writeResponse (s : Registers c) : Slot Unit := ⟨s.intBvalidReg, ()⟩

theorem readNext_eq_edge (r : Slot (BitVec c.axiDataWidth)) (i : Input c)
    (data : BitVec c.dataWidth) : readNext r i data
      = r.edge (if i.arvalid then some (i.intDataMux data) else none) i.rready := by
  rw [readNext, Slot.edge]
  cases i.arvalid <;> cases i.rready <;> cases r.valid <;> rfl

theorem read_runs (haresetn : ∀ n, (inputs n).aresetn = true) :
    Slot.Runs (fun n => (trace posedge .reset inputs n).read) (readPut inputs)
      fun n => (inputs n).rready := by
  refine ⟨rfl, fun n => ?_⟩
  have hput : readPut inputs n = if (inputs n).arvalid then
      some ((inputs n).intDataMux (trace posedge .reset inputs n).intDataWire) else none := by
    rw [readPut, Input.intDataMux]
    by_cases hindex : c.index (inputs n).araddr < c.size
    · rw [if_pos hindex, if_pos hindex, word_trace haresetn n hindex]
    · rw [if_neg hindex, if_neg hindex]
  rw [hput, ← readNext_eq_edge, trace_succ, posedge, if_pos (haresetn n)]

theorem write_runs (haresetn : ∀ n, (inputs n).aresetn = true) :
    Slot.Runs (fun n => (trace posedge .reset inputs n).writeResponse)
      (fun n => (inputs n).written.map fun _ => ()) fun n => (inputs n).bready := by
  refine ⟨rfl, fun n => ?_⟩
  rw [trace_succ, posedge, if_pos (haresetn n), Registers.writeResponse, Registers.writeResponse,
    Slot.edge, Input.written]
  cases (inputs n).intWvalidWire <;> cases (inputs n).bready <;>
    cases (trace posedge .reset inputs n).intBvalidReg <;> rfl

/-- **Every access gets its response**, and a read the word that the writes before it have left,
if and only if no access is made while the response to another one waits. -/
theorem responses_iff (inputs : ℕ → Input c) (haresetn : ∀ n, (inputs n).aresetn = true) (n : ℕ) :
    (Slot.takenBefore (fun k => (trace posedge .reset inputs k).read)
          (fun k => (inputs k).rready) n ++ (trace posedge .reset inputs n).read.held
        = happened (readPut inputs) n ∧
      (Slot.takenBefore (fun k => (trace posedge .reset inputs k).writeResponse)
          (fun k => (inputs k).bready) n).length
          + (trace posedge .reset inputs n).writeResponse.held.length
        = (happened (fun k => (inputs k).written) n).length) ↔
    ∀ k < n, ((inputs k).arvalid = true →
        (trace posedge .reset inputs k).read.valid = false) ∧
      ((inputs k).intWvalidWire = true →
        (trace posedge .reset inputs k).intBvalidReg = false) := by
  have hread := (read_runs haresetn).taken_append_held_iff n
  have hwrite := (write_runs haresetn).length_eq_iff n
  rw [happened_map, List.length_map] at hwrite
  rw [hread, hwrite, ← forall₂_and]
  refine forall₂_congr fun k _ => and_congr ?_ ?_
  · rw [readPut]
    cases (inputs k).arvalid <;> simp
  · rw [Input.written, Option.isSome_map]
    cases (inputs k).intWvalidWire <;> simp [Registers.writeResponse]

end Run

/-- A read and a write at every other clock. -/
def probeAccesses (n : ℕ) : Input ⟨64, 32, 16, by decide, by decide, by decide, by
    simp [addrLsb, indexWidth, clogb2]⟩ where
  aresetn := true
  awaddr := .ofNat 16 (4 * n)
  awvalid := n % 2 = 0
  wdata := .ofNat 32 n
  wstrb := 0b1111#4
  wvalid := n % 2 = 0
  bready := true
  araddr := 0#16
  arvalid := n % 2 = 0
  rready := true
  undriven := 0#32

theorem responses_iff_probe :
    Slot.takenBefore (fun k => (trace posedge .reset probeAccesses k).read) (fun _ => true) 6
        = happened (readPut probeAccesses) 6 ∧
      (Slot.takenBefore (fun k => (trace posedge .reset probeAccesses k).writeResponse)
        (fun _ => true) 6).length = (happened (fun k => (probeAccesses k).written) 6).length := by
  have h := (responses_iff probeAccesses (fun _ => rfl) 6).mpr (by decide)
  exact ⟨(List.append_nil _).symm.trans h.1, h.2⟩

/-! ## Addresses -/

theorem lt_two_pow_clogb2 (n : ℕ) : n < 2 ^ clogb2 n := by
  induction n using clogb2.induct with
  | case1 => exact Nat.two_pow_pos _
  | case2 n hn ih =>
    rw [clogb2, if_neg hn, Nat.pow_succ]
    omega

theorem clogb2_le {n k : ℕ} (h : n < 2 ^ k) : clogb2 n ≤ k := by
  induction k generalizing n with
  | zero =>
    rw [clogb2, if_pos (by omega)]
  | succ k ih =>
    rw [clogb2]
    split
    · exact Nat.zero_le _
    · exact Nat.succ_le_succ (ih (by rw [Nat.pow_succ] at h; omega))

theorem addrLsb_32 : addrLsb 32 = 2 := by
  simp [addrLsb, clogb2]

/-- An index has room for every word. -/
theorem lt_two_pow_indexWidth {size j : ℕ} (hj : j < size) : j < 2 ^ indexWidth size := by
  rw [indexWidth]
  split
  · have h := lt_two_pow_clogb2 (size - 1)
    omega
  · omega

theorem indexWidth_le {size k : ℕ} (hsize : size ≤ 2 ^ k) (hk : 0 < k) : indexWidth size ≤ k := by
  rw [indexWidth]
  split
  · exact clogb2_le (by omega)
  · exact hk

/-- The index of an address, of which there are `AXI_ADDR_WIDTH` bits. -/
theorem Config.index_ofNat (c : Config) (address : ℕ) :
    c.index (.ofNat _ address)
      = address / 2 ^ addrLsb c.axiDataWidth % 2 ^ indexWidth c.size := by
  have hle : addrLsb c.axiDataWidth + indexWidth c.size ≤ c.axiAddrWidth := c.index_le
  rw [index, BitVec.extractLsb'_toNat, BitVec.toNat_ofNat, Nat.shiftRight_eq_div_pow]
  obtain ⟨k, hk⟩ := Nat.exists_eq_add_of_le hle
  rw [hk, Nat.add_assoc, Nat.pow_add, Nat.mod_mul_right_div_self, Nat.pow_add,
    Nat.mod_mul_right_mod]

/-- The index of a word in a window that is aligned. -/
theorem index_of_base {base size i : ℕ} (hi : i < size)
    (hbase : 2 ^ (2 + indexWidth size) ∣ base) (hfits : i < 2 ^ 30) :
    (base + 4 * i % 2 ^ 32) / 2 ^ addrLsb 32 % 2 ^ indexWidth size = i := by
  obtain ⟨q, rfl⟩ := hbase
  have hsplit : 2 ^ (2 + indexWidth size) * q + 4 * i % 2 ^ 32
      = 2 ^ 2 * (2 ^ indexWidth size * q + i) := by
    rw [Nat.mod_eq_of_lt (by omega), Nat.pow_add]
    ring
  rw [hsplit, addrLsb_32, Nat.mul_div_cancel_left _ (Nat.two_pow_pos 2), Nat.mul_add_mod,
    Nat.mod_eq_of_lt (lt_two_pow_indexWidth hi)]

end AxiRegister

/-! ## The registers of an instrument -/

open AxiRegister

section Instrument

variable (memoryName : Bank) (registers : List Str) (hlen : registers.length ≤ 2 ^ 14)

/-- The control register of a hierarchy: words of 32 bits, and addresses of 16. -/
def ctlConfig : Config where
  dataWidth := (addConfigRegister memoryName (tclRegisters registers)).ctlDataWidth
  axiDataWidth := 32
  axiAddrWidth := 16
  word_pos := by decide
  bytes := by decide
  words := Nat.dvd_mul_left 32 _
  index_le := by
    have hwidth : indexWidth ((tclRegisters registers).size * 32 / 32) ≤ 14 := by
      rw [Nat.mul_div_cancel _ (by decide : 0 < 32)]
      exact indexWidth_le hlen (by decide)
    rw [addrLsb_32]
    exact Nat.add_le_add_left hwidth 2

theorem size_ctlConfig : (ctlConfig memoryName registers hlen).size = registers.length :=
  Nat.mul_div_cancel _ (by decide : 0 < 32)

/-- What a slice gives to its pin. -/
def SlicePin.value (s : SlicePin) {w : ℕ} (ctlData : BitVec w) : BitVec 32 :=
  (ctlData.extractLsb s.dinFrom s.dinTo).setWidth 32

theorem SlicePin.value_word (name : Str) {w : ℕ} (ctlData : BitVec w) (i : ℕ) :
    (⟨name, 32 * i + 31, 32 * i⟩ : SlicePin).value ctlData = ctlData.extractLsb' (i * 32) 32 := by
  refine BitVec.eq_of_getLsbD_eq fun k hk => ?_
  have hwidth : k < 32 * i + 31 - 32 * i + 1 := by omega
  rw [SlicePin.value, BitVec.getLsbD_setWidth, BitVec.getLsbD_extractLsb,
    BitVec.getLsbD_extractLsb', Nat.mul_comm i, decide_eq_true hk, Bool.true_and, Bool.true_and]
  exact congrArg (· && ctlData.getLsbD (32 * i + k)) (decide_eq_true hwidth)

variable {memoryName registers hlen}

/-- **The pin of a control register carries what has been written under its name**, byte by byte,
and zeros before that. -/
theorem ctl_pin_eq (hunique : registers.Nodup) {range : Bank} {base : ℕ}
    (hbase : 2 ^ (2 + indexWidth registers.length) ∣ base)
    (inputs : ℕ → Input (ctlConfig memoryName registers hlen))
    (haresetn : ∀ n, (inputs n).aresetn = true) (names : ℕ → RegisterConstant)
    (hnames : ∀ n, names n ∈ registerConstants registers (fun index0 => 4 * index0) range)
    (haddr : ∀ n, (inputs n).intWvalidWire = true →
      (inputs n).awaddr = .ofNat _ (base + (names n).offset)) (n : ℕ) :
    ∀ c ∈ registerConstants registers (fun index0 => 4 * index0) range,
      ∀ s ∈ (addConfigRegister memoryName (tclRegisters registers)).slices, s.register = c.name →
        s.value (trace posedge .reset inputs n).intDataWire
          = (happened (fun k => if (inputs k).intWvalidWire && decide (names k = c) then
              some ((inputs k).wdata, (inputs k).wstrb) else none) n).foldl
            (fun old w => strobed old w.1 w.2) 0#32 := by
  intro c hc s hs hname
  obtain ⟨i, hi, rfl⟩ := mem_registerConstants.mp hc
  have hslice : s = ⟨registers[i], 32 * i + 31, 32 * i⟩ := by
    obtain ⟨j, hj, rfl⟩ := List.mem_map.mp hs
    have hj' : j < registers.length := List.mem_range.mp hj
    rw [tclRegisters_register hj', hunique.getElem_inj_iff] at hname
    subst hname
    rw [tclRegisters_register hj', SlicePin.mk.injEq]
    exact ⟨rfl, by omega, by omega⟩
  have hword : ∀ data, s.value data = (ctlConfig memoryName registers hlen).word data i := by
    intro data
    rw [hslice]
    exact SlicePin.value_word _ data i
  rw [hword, word_trace haresetn n (size_ctlConfig memoryName registers hlen ▸ hi),
    contents_happened]
  refine congrArg (fun event => (happened event n).foldl _ _) (funext fun k => ?_)
  refine congrArg (fun b : Bool => if b then some _ else none) ?_
  rw [Input.intCeWire]
  cases hwrite : (inputs k).intWvalidWire with
  | false => rfl
  | true =>
    obtain ⟨j, hj, hjk⟩ := mem_registerConstants.mp (hnames k)
    have hindex : (ctlConfig memoryName registers hlen).index (inputs k).awaddr = j := by
      rw [haddr k hwrite, hjk, Config.index_ofNat, size_ctlConfig]
      exact index_of_base hj hbase (by omega)
    rw [hindex, hjk, Bool.true_and, Bool.true_and, decide_eq_decide, RegisterConstant.mk.injEq,
      hunique.getElem_inj_iff]
    exact ⟨fun h => ⟨h, by rw [h], rfl⟩, fun h => h.1⟩

/-- Two registers. -/
def probeRegisters : List Str := ["led".toList, "dac".toList]

/-- The second one is written at the second clock, and its low byte again at the third. -/
def probeWrites (n : ℕ) : Input (ctlConfig .control probeRegisters (by decide)) where
  aresetn := true
  awaddr := .ofNat 16 (0x40000000 + 4)
  awvalid := n = 1 ∨ n = 3
  wdata := if n = 1 then 0x12345678#32 else 0xffffffff#32
  wstrb := if n = 1 then 0b1111#4 else 0b0001#4
  wvalid := n = 1 ∨ n = 3
  bready := true
  araddr := 0#16
  arvalid := n = 4
  rready := true
  undriven := 0#32

theorem ctl_pin_eq_probe :
    (⟨"dac".toList, 63, 32⟩ : SlicePin).value (trace posedge .reset probeWrites 4).intDataWire
      = 0x123456ff#32 := by
  have hbase : 2 ^ (2 + indexWidth probeRegisters.length) ∣ 0x40000000 :=
    ⟨0x8000000, by simp [probeRegisters, indexWidth, clogb2]⟩
  have hdac : ⟨"dac".toList, 4, .control⟩
      ∈ registerConstants probeRegisters (fun index0 => 4 * index0) .control := by decide
  have hpin := ctl_pin_eq (by decide) hbase probeWrites (fun _ => rfl) (fun _ => _)
    (fun _ => hdac) (fun _ _ => rfl) 4 _ hdac ⟨_, 63, 32⟩ (by decide) rfl
  exact hpin.trans rfl

variable (memoryName registers) (isZynqMP hasDna : Bool) (hsts : registers.length ≤ 30)

/-- The status register of a hierarchy, with the hidden words. -/
def stsConfig : Config where
  dataWidth := (addStatusRegister isZynqMP memoryName (tclRegisters registers) hasDna).stsDataWidth
  axiDataWidth := 32
  axiAddrWidth := 16
  word_pos := by decide
  bytes := by decide
  words := Nat.dvd_mul_left 32 _
  index_le := by
    have hwidth : indexWidth ((nHiddenPorts + (tclRegisters registers).size) * 32 / 32) ≤ 14 := by
      rw [Nat.mul_div_cancel _ (by decide : 0 < 32)]
      refine indexWidth_le ?_ (by decide)
      calc nHiddenPorts + registers.length ≤ 2 + 30 := Nat.add_le_add_left hsts 2
        _ ≤ 2 ^ 14 := by decide
    rw [addrLsb_32]
    exact Nat.add_le_add_left hwidth 2

theorem size_stsConfig :
    (stsConfig memoryName registers isZynqMP hasDna hsts).size = 2 + registers.length :=
  Nat.mul_div_cancel _ (by decide : 0 < 32)

/-- `sts_data`: each word is what drives it, if anything does. -/
def StatusBank.value (bank : StatusBank) (signal : Source → BitVec 32) (floating : ℕ → BitVec 32) :
    BitVec bank.stsDataWidth :=
  ofBits _ fun b =>
    (((bank.stsData[b / 32]?).getD none).elim (floating (b / 32)) signal).getLsbD (b % 32)

theorem StatusBank.extractLsb'_value {bank : StatusBank} {j : ℕ} {source : Source}
    (hsource : bank.stsData[j]? = some (some source)) (signal : Source → BitVec 32)
    (floating : ℕ → BitVec 32) (hj : (j + 1) * 32 ≤ bank.stsDataWidth) :
    (bank.value signal floating).extractLsb' (j * 32) 32 = signal source := by
  refine BitVec.eq_of_getLsbD_eq fun k hk => ?_
  have hdiv : (j * 32 + k) / 32 = j := by omega
  have hmod : (j * 32 + k) % 32 = k := by omega
  rw [BitVec.getLsbD_extractLsb', decide_eq_true hk, Bool.true_and, StatusBank.value,
    getLsbD_ofBits _ (by omega), hdiv, hmod, hsource]
  rfl

variable {memoryName registers hsts isZynqMP hasDna}

/-- The word of a register is what is at its pin. -/
theorem word_value (hunique : registers.Nodup) {i : ℕ} (hi : i < registers.length)
    (signal : Source → BitVec 32) (floating : ℕ → BitVec 32) :
    (stsConfig memoryName registers isZynqMP hasDna hsts).word
        ((addStatusRegister isZynqMP memoryName (tclRegisters registers) hasDna).value signal
          floating) (2 + i) = signal (.register registers[i]) := by
  have hwired : (addStatusRegister isZynqMP memoryName (tclRegisters registers)
      hasDna).stsData[2 + i]? = some (some (.register registers[i])) :=
    (wiredTo_tclRegisters_iff memoryName hunique hi).mpr (Or.inl ⟨by omega, rfl⟩)
  refine StatusBank.extractLsb'_value hwired signal floating ?_
  exact Nat.mul_le_mul_right 32 (Nat.add_lt_add_left hi 2)

/-- **A read of a status register is answered by what is at its pin** when the read is made, and
every read is answered, if and only if none is made while the response to another one waits. -/
theorem sts_responses_iff (hunique : registers.Nodup) {range : Bank} {base : ℕ}
    (hbase : 2 ^ (2 + indexWidth (2 + registers.length)) ∣ base)
    (inputs : ℕ → Input (stsConfig memoryName registers isZynqMP hasDna hsts))
    (haresetn : ∀ n, (inputs n).aresetn = true) (signal : ℕ → Source → BitVec 32)
    (floating : ℕ → ℕ → BitVec 32) (names : ℕ → RegisterConstant)
    (hnames : ∀ n, names n ∈ registerConstants registers (fun index0 => 4 * (2 + index0)) range)
    (haddr : ∀ n, (inputs n).arvalid = true →
      (inputs n).araddr = .ofNat _ (base + (names n).offset)) (n : ℕ) :
    let read := trace stsPosedge ⟨false, 0#_⟩ fun k => (inputs k,
      (addStatusRegister isZynqMP memoryName (tclRegisters registers) hasDna).value (signal k)
        (floating k))
    Slot.takenBefore read (fun k => (inputs k).rready) n ++ (read n).held
        = happened (fun k => if (inputs k).arvalid then
            some (signal k (.register (names k).name)) else none) n ↔
      ∀ k < n, (inputs k).arvalid = true → (read k).valid = false := by
  intro read
  have hruns : Slot.Runs read (fun k => if (inputs k).arvalid then
      some (signal k (.register (names k).name)) else none) fun k => (inputs k).rready := by
    refine ⟨rfl, fun k => ?_⟩
    change stsPosedge (read k) _ = _
    rw [stsPosedge, if_pos (haresetn k), readNext_eq_edge]
    refine congrArg (fun put => (read k).edge put (inputs k).rready) ?_
    cases hread : (inputs k).arvalid with
    | false => rfl
    | true =>
      obtain ⟨i, hi, hik⟩ := mem_registerConstants.mp (hnames k)
      have hindex : (stsConfig memoryName registers isZynqMP hasDna hsts).index (inputs k).araddr
          = 2 + i := by
        rw [haddr k hread, hik, Config.index_ofNat, size_stsConfig]
        exact index_of_base (by omega) hbase (by omega)
      rw [if_pos rfl, if_pos rfl, Input.intDataMux, hindex, size_stsConfig, if_pos (by omega),
        word_value hunique hi, hik]
  refine (hruns.taken_append_held_iff n).trans (forall₂_congr fun k _ => imp_congr_left ?_)
  cases (inputs k).arvalid with
  | false => exact iff_of_false Bool.false_ne_true Bool.false_ne_true
  | true => exact iff_of_true rfl rfl

/-- The first register is read at the clocks 0 and 2. -/
def probeReads (n : ℕ) : Input (stsConfig .status probeRegisters false true (by decide)) where
  aresetn := true
  awaddr := 0#16
  awvalid := false
  wdata := 0#32
  wstrb := 0#4
  wvalid := false
  bready := false
  araddr := .ofNat 16 (0x50000000 + 8)
  arvalid := n = 0 ∨ n = 2
  rready := true
  undriven := 0#32

/-- Its pin counts the clocks. -/
def probeSignal (n : ℕ) (source : Source) : BitVec 32 :=
  if source = .register "led".toList then .ofNat 32 n else 0#32

theorem sts_responses_iff_probe :
    Slot.takenBefore (trace stsPosedge ⟨false, 0#_⟩ fun k => (probeReads k,
        (addStatusRegister false .status (tclRegisters probeRegisters) true).value (probeSignal k)
          fun _ => 0#32)) (fun k => (probeReads k).rready) 4 = [0#32, 2#32] := by
  have hbase : 2 ^ (2 + indexWidth (2 + probeRegisters.length)) ∣ 0x50000000 :=
    ⟨0x5000000, by simp [probeRegisters, indexWidth, clogb2]⟩
  have hled : ⟨"led".toList, 8, .status⟩
      ∈ registerConstants probeRegisters (fun index0 => 4 * (2 + index0)) .status := by decide
  have hresponses := (sts_responses_iff (by decide) hbase probeReads (fun _ => rfl) probeSignal
    (fun _ _ => 0#32) (fun _ => _) (fun _ => hled) (fun _ _ => rfl) 4).mpr (by decide)
  exact hresponses

end Instrument

end KoheronSdk
