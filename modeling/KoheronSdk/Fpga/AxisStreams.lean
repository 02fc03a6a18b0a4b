import Mathlib.Data.BitVec
import Mathlib.Data.Nat.Log
import KoheronSdk.Lib.Streams

/-!
# Cores that count a stream

`axis_decimator`, `axis_accumulator`, `axis_packetizer` and `tlast_gen` count the samples of an
AXI stream up to `cfg_data` (or a parameter), and do something with the last sample of each block:
pass it on, pass on the sum of the block, or mark it.

## What is assumed of the other sides

Nothing is assumed of when a sample is offered, nor of when the other side takes a result.  The
reset is not asserted, so that a run begins with the registers as a reset leaves them, and
`cfg_data` is the same at every clock of it: a core that is configured anew in the middle of a
block counts on to the new number, and no block is of either length.

## What is said, and what is not

The results are about samples that were accepted and beats that were delivered.  Nothing is said of
how often a core is ready: with `cfg_data` zero the first three cores are never enabled, and
nothing comes out of them.

A core has one place for a result that waits (`Slot`), and when the next one is put before that was
taken, the first one is lost.  This is why the blocks that come out are a sublist of those that go
in, and why there is a condition for all of them to come out.

`tlast_gen` has no place of its own, and passes everything through.  It has a register that counts
packets, but its output `pkt_count` is not that register.

* `decimator_blocks`, `accumulator_blocks`: what is passed on, and when nothing is lost.
* `packetizer_framed`, `tlastGen_framed`: the packets.
-/

namespace KoheronSdk

open Clocked

/-- The inputs of a core between two streams. -/
structure StreamInput (width : ℕ) where
  aresetn : Bool
  sAxisTdata : BitVec width
  sAxisTvalid : Bool
  mAxisTready : Bool

/-- A sample at every clock, which is taken at every other one. -/
def probeSamples (n : ℕ) : StreamInput 8 := ⟨true, .ofNat 8 (250 + n), true, n % 2 = 0⟩

section Counter

variable {width l : ℕ} {cntr cfgData : BitVec width}

theorem counter_next (hcntr : cntr.toNat = l) (hcomp : cntr < cfgData) :
    (cntr + 1).toNat = l + 1 ∧ l + 1 < cfgData.toNat + 1 := by
  have hlt : cntr.toNat < cfgData.toNat := hcomp
  have hcfg := cfgData.isLt
  have hone : (cntr + 1).toNat = (cntr.toNat + 1 % 2 ^ width) % 2 ^ width := BitVec.toNat_add _ _
  rw [Nat.add_mod_mod, Nat.mod_eq_of_lt (by omega), hcntr] at hone
  exact ⟨hone, by omega⟩

theorem counter_last (hcntr : cntr.toNat = l) (hshort : l < cfgData.toNat + 1)
    (hcomp : ¬ cntr < cfgData) : l + 1 = cfgData.toNat + 1 := by
  have hle : cfgData.toNat ≤ cntr.toNat := Nat.le_of_not_lt hcomp
  omega

end Counter

/-! ## The decimator -/

namespace AxisDecimator

variable {width cntrWidth : ℕ}

/-- The registers: `int_tvalid_reg` with `int_tdata_reg`, `int_cntr_reg` and `int_tready_reg`. -/
structure Registers (width cntrWidth : ℕ) where
  out : Slot (BitVec width)
  intCntrReg : BitVec cntrWidth
  intTreadyReg : Bool

def Registers.reset : Registers width cntrWidth := ⟨⟨false, 0#_⟩, 0#_, false⟩

/-- `axis_decimator`, at `posedge aclk` -/
def posedge (cfgData : BitVec cntrWidth) (s : Registers width cntrWidth) (i : StreamInput width) :
    Registers width cntrWidth :=
  if i.aresetn then
    let intCompWire : Bool := s.intCntrReg < cfgData
    let intTvalidWire := s.intTreadyReg && i.sAxisTvalid
    let intTreadyNext := if !s.intTreadyReg && intCompWire then true else s.intTreadyReg
    let intCntrNext := if intTvalidWire && intCompWire then s.intCntrReg + 1 else s.intCntrReg
    let (intCntrNext, intTdataNext, intTvalidNext) :=
      if intTvalidWire && !intCompWire then (0#_, i.sAxisTdata, true)
      else (intCntrNext, s.out.data, s.out.valid)
    let intTvalidNext := if i.mAxisTready && s.out.valid then false else intTvalidNext
    ⟨⟨intTvalidNext, intTdataNext⟩, intCntrNext, intTreadyNext⟩
  else .reset

/-- The sample that is accepted. -/
def accepted (s : Registers width cntrWidth) (i : StreamInput width) : Option (BitVec width) :=
  if s.intTreadyReg && i.sAxisTvalid then some i.sAxisTdata else none

/-- The sample that is put to the output. -/
def put (cfgData : BitVec cntrWidth) (s : Registers width cntrWidth) (i : StreamInput width) :
    Option (BitVec width) :=
  if s.intTreadyReg && i.sAxisTvalid && !(s.intCntrReg < cfgData : Bool) then some i.sAxisTdata
  else none

variable {cfgData : BitVec cntrWidth} {s : Registers width cntrWidth} {i : StreamInput width}
  {inputs : ℕ → StreamInput width}

theorem out_posedge (haresetn : i.aresetn = true) :
    (posedge cfgData s i).out = s.out.edge (put cfgData s i) i.mAxisTready := by
  rw [posedge, if_pos haresetn, put, Slot.edge]
  cases s.intTreadyReg <;> cases i.sAxisTvalid <;> cases decide (s.intCntrReg < cfgData) <;>
    cases i.mAxisTready <;> cases s.out.valid <;> rfl

/-- The counter counts the samples of the block that has begun, and the last samples of the blocks
have been put. -/
def Counts (cfgData : BitVec cntrWidth) (s : Registers width cntrWidth)
    (samples puts : List (BitVec width)) : Prop :=
  ∃ blocks rest, Blocks (cfgData.toNat + 1) samples blocks rest ∧
    s.intCntrReg.toNat = rest.length ∧ puts = blocks.filterMap List.getLast?

theorem Counts.posedge {samples puts : List (BitVec width)} (h : Counts cfgData s samples puts)
    (haresetn : i.aresetn = true) : Counts cfgData (posedge cfgData s i)
      (samples ++ (accepted s i).toList) (puts ++ (put cfgData s i).toList) := by
  obtain ⟨blocks, rest, hblocks, hcntr, rfl⟩ := h
  rw [AxisDecimator.posedge, if_pos haresetn, accepted, put]
  cases hvalid : s.intTreadyReg && i.sAxisTvalid with
  | false =>
    refine ⟨blocks, rest, ?_, hcntr, List.append_nil _⟩
    rw [show samples ++ Option.toList (if false = true then some i.sAxisTdata else none) = samples
      from List.append_nil _]
    exact hblocks
  | true =>
    by_cases hcomp : s.intCntrReg < cfgData
    · obtain ⟨hnext, hlt⟩ := counter_next hcntr hcomp
      simp only [hcomp, decide_true]
      refine ⟨blocks, rest ++ [i.sAxisTdata], hblocks.snoc _ hlt, ?_, List.append_nil _⟩
      rw [List.length_append]
      exact hnext
    · simp only [hcomp, decide_false]
      refine ⟨blocks ++ [rest ++ [i.sAxisTdata]], [],
        hblocks.snoc_full _ (counter_last hcntr hblocks.short hcomp), rfl, ?_⟩
      rw [List.filterMap_append, List.filterMap_cons, List.getLast?_concat]
      rfl

/-- The samples that are accepted and those that are put, at each clock. -/
theorem counts_trace (haresetn : ∀ n, (inputs n).aresetn = true) (n : ℕ) :
    Counts cfgData (trace (AxisDecimator.posedge cfgData) .reset inputs n)
      (happened (fun k => accepted (trace (AxisDecimator.posedge cfgData) .reset inputs k)
        (inputs k)) n)
      (happened (fun k => put cfgData (trace (AxisDecimator.posedge cfgData) .reset inputs k)
        (inputs k)) n) := by
  induction n with
  | zero => exact ⟨[], [], .nil (Nat.succ_pos _), rfl, rfl⟩
  | succ n ih =>
    rw [happened_succ, happened_succ, trace_succ]
    exact ih.posedge (haresetn n)

/-- **The last sample of every `cfg_data + 1` is passed on**, in their order, and none is lost if
and only if each of them has been taken when the next one comes. -/
theorem decimator_blocks (cfgData : BitVec cntrWidth) (inputs : ℕ → StreamInput width)
    (haresetn : ∀ n, (inputs n).aresetn = true) (n : ℕ) :
    let run := trace (posedge cfgData) .reset inputs
    let out := Slot.takenBefore (fun k => (run k).out) (fun k => (inputs k).mAxisTready) n
      ++ (run n).out.held
    ∃ blocks rest, Blocks (cfgData.toNat + 1) (happened (fun k => accepted (run k) (inputs k)) n)
        blocks rest ∧ out.Sublist (blocks.filterMap List.getLast?) ∧
      (out = blocks.filterMap List.getLast? ↔
        ∀ k < n, (put cfgData (run k) (inputs k)).isSome = true → (run k).out.valid = false) := by
  intro run out
  obtain ⟨blocks, rest, hblocks, -, hputs⟩ : Counts cfgData (run n) _ _ :=
    counts_trace haresetn n
  have hruns : Slot.Runs (fun k => (run k).out) (fun k => put cfgData (run k) (inputs k))
      fun k => (inputs k).mAxisTready := ⟨rfl, fun k => out_posedge (haresetn k)⟩
  refine ⟨blocks, rest, hblocks, ?_, ?_⟩
  · rw [← hputs]
    exact hruns.sublist n
  · rw [← hputs]
    exact hruns.taken_append_held_iff n

theorem decimator_blocks_probe :
    let run := trace (posedge 2#4) .reset probeSamples
    ∃ blocks rest, Blocks 3 (happened (fun k => accepted (run k) (probeSamples k)) 9) blocks rest ∧
      Slot.takenBefore (fun k => (run k).out) (fun k => (probeSamples k).mAxisTready) 9
        ++ (run 9).out.held = blocks.filterMap List.getLast? := by
  obtain ⟨blocks, rest, hblocks, -, hlost⟩ := decimator_blocks 2#4 probeSamples (fun _ => rfl) 9
  exact ⟨blocks, rest, hblocks, hlost.mpr (by decide)⟩

end AxisDecimator

/-! ## The accumulator -/

namespace AxisAccumulator

/-- `AXIS_TDATA_SIGNED` and `CONTINUOUS` -/
structure Config where
  signed : Bool
  continuous : Bool

variable {width mWidth cntrWidth : ℕ}

/-- The registers: `int_tvalid_reg` with `int_tdata_reg`, `int_accu_reg`, `int_cntr_reg` and
`int_tready_reg`. -/
structure Registers (mWidth cntrWidth : ℕ) where
  out : Slot (BitVec mWidth)
  intAccuReg : BitVec mWidth
  intCntrReg : BitVec cntrWidth
  intTreadyReg : Bool

def Registers.reset : Registers mWidth cntrWidth := ⟨⟨false, 0#_⟩, 0#_, 0#_, false⟩

/-- `sum_accu_wire` -/
def sumAccuWire (signed : Bool) (accu : BitVec mWidth) (tdata : BitVec width) : BitVec mWidth :=
  if signed then accu + tdata.signExtend mWidth else accu + tdata.setWidth mWidth

/-- `axis_accumulator`, at `posedge aclk` -/
def posedge (c : Config) (cfgData : BitVec cntrWidth) (s : Registers mWidth cntrWidth)
    (i : StreamInput width) : Registers mWidth cntrWidth :=
  if i.aresetn then
    let intCompWire : Bool := s.intCntrReg < cfgData
    let intTvalidWire := s.intTreadyReg && i.sAxisTvalid
    let sumAccu := sumAccuWire c.signed s.intAccuReg i.sAxisTdata
    let intTreadyNext := if !s.intTreadyReg && intCompWire then true else s.intTreadyReg
    let (intCntrNext, intAccuNext) :=
      if intTvalidWire && intCompWire then (s.intCntrReg + 1, sumAccu)
      else (s.intCntrReg, s.intAccuReg)
    let (intTdataNext, intTvalidNext) :=
      if intTvalidWire && !intCompWire then (sumAccu, true) else (s.out.data, s.out.valid)
    let (intCntrNext, intAccuNext, intTreadyNext) :=
      if intTvalidWire && !intCompWire then
        if c.continuous then (0#_, 0#_, intTreadyNext) else (intCntrNext, intAccuNext, false)
      else (intCntrNext, intAccuNext, intTreadyNext)
    let intTvalidNext := if i.mAxisTready && s.out.valid then false else intTvalidNext
    ⟨⟨intTvalidNext, intTdataNext⟩, intAccuNext, intCntrNext, intTreadyNext⟩
  else .reset

/-- The sample that is accepted. -/
def accepted (s : Registers mWidth cntrWidth) (i : StreamInput width) : Option (BitVec width) :=
  if s.intTreadyReg && i.sAxisTvalid then some i.sAxisTdata else none

/-- The sum that is put to the output. -/
def put (c : Config) (cfgData : BitVec cntrWidth) (s : Registers mWidth cntrWidth)
    (i : StreamInput width) : Option (BitVec mWidth) :=
  if s.intTreadyReg && i.sAxisTvalid && !(s.intCntrReg < cfgData : Bool) then
    some (sumAccuWire c.signed s.intAccuReg i.sAxisTdata)
  else none

/-- The number that a sample stands for. -/
def sampleValue (signed : Bool) (x : BitVec width) : ℤ := if signed then x.toInt else x.toNat

/-- The sum of some samples, as a word. -/
def total (mWidth : ℕ) (signed : Bool) (samples : List (BitVec width)) : BitVec mWidth :=
  .ofInt mWidth (samples.map (sampleValue signed)).sum

theorem total_concat (signed : Bool) (samples : List (BitVec width)) (x : BitVec width) :
    total mWidth signed (samples ++ [x]) = sumAccuWire signed (total mWidth signed samples) x := by
  rw [total, List.map_append, List.sum_append, BitVec.ofInt_add, List.map_singleton,
    List.sum_singleton, sumAccuWire, sampleValue]
  cases signed with
  | true => rfl
  | false => exact congrArg (total mWidth false samples + ·) (BitVec.ofNat_toNat mWidth x)

variable {c : Config} {cfgData : BitVec cntrWidth} {s : Registers mWidth cntrWidth}
  {i : StreamInput width} {inputs : ℕ → StreamInput width}

theorem out_posedge (haresetn : i.aresetn = true) :
    (posedge c cfgData s i).out = s.out.edge (put c cfgData s i) i.mAxisTready := by
  rw [posedge, if_pos haresetn, put, Slot.edge]
  cases s.intTreadyReg <;> cases i.sAxisTvalid <;> cases decide (s.intCntrReg < cfgData) <;>
    cases i.mAxisTready <;> cases s.out.valid <;> rfl

/-- The block that has begun is counted and added up. -/
structure Running (c : Config) (s : Registers mWidth cntrWidth)
    (blocks : List (List (BitVec width)))
    (rest : List (BitVec width)) : Prop where
  cntr : s.intCntrReg.toNat = rest.length
  accu : s.intAccuReg = total mWidth c.signed rest
  first : c.continuous = false → blocks = []

/-- There has been a block, and there will not be another one. -/
structure Stopped (c : Config) (cfgData : BitVec cntrWidth) (s : Registers mWidth cntrWidth)
    (samples : List (BitVec width)) : Prop where
  once : c.continuous = false
  tready : s.intTreadyReg = false
  cntr : ¬ s.intCntrReg < cfgData
  length : samples.length = cfgData.toNat + 1

/-- The sums of the blocks have been put. -/
def Sums (c : Config) (cfgData : BitVec cntrWidth) (s : Registers mWidth cntrWidth)
    (samples : List (BitVec width)) (puts : List (BitVec mWidth)) : Prop :=
  ∃ blocks rest, Blocks (cfgData.toNat + 1) samples blocks rest ∧
    puts = blocks.map (total mWidth c.signed) ∧
    (Running c s blocks rest ∨ Stopped c cfgData s samples)

theorem Sums.posedge {samples : List (BitVec width)} {puts : List (BitVec mWidth)}
    (h : Sums c cfgData s samples puts) (haresetn : i.aresetn = true) :
    Sums c cfgData (posedge c cfgData s i) (samples ++ (accepted s i).toList)
      (puts ++ (put c cfgData s i).toList) := by
  obtain ⟨blocks, rest, hblocks, rfl, hstate⟩ := h
  rw [AxisAccumulator.posedge, if_pos haresetn, accepted, put]
  cases hvalid : s.intTreadyReg && i.sAxisTvalid with
  | false =>
    refine ⟨blocks, rest, (List.append_nil samples).symm ▸ hblocks, List.append_nil _, ?_⟩
    rcases hstate with ⟨hcntr, haccu, hfirst⟩ | ⟨honce, htready, hcntr, hlen⟩
    · exact Or.inl ⟨hcntr, haccu, hfirst⟩
    · refine Or.inr ⟨honce, ?_, hcntr, (congrArg List.length (List.append_nil samples)).trans hlen⟩
      simp only [htready, hcntr, decide_false, Bool.and_false]
      rfl
  | true =>
    rcases hstate with ⟨hcntr, haccu, hfirst⟩ | hstopped
    · by_cases hcomp : s.intCntrReg < cfgData
      · obtain ⟨hnext, hlt⟩ := counter_next hcntr hcomp
        simp only [hcomp, decide_true]
        refine ⟨blocks, rest ++ [i.sAxisTdata], hblocks.snoc _ hlt, List.append_nil _,
          Or.inl ⟨?_, ?_, hfirst⟩⟩
        · rw [List.length_append]
          exact hnext
        · rw [total_concat, ← haccu]
          rfl
      · have hlast := counter_last hcntr hblocks.short hcomp
        have hsnoc := hblocks.snoc_full i.sAxisTdata hlast
        simp only [hcomp, decide_false]
        refine ⟨blocks ++ [rest ++ [i.sAxisTdata]], [], hsnoc, ?_, ?_⟩
        · rw [List.map_append, List.map_singleton, total_concat, ← haccu]
          rfl
        · cases hcontinuous : c.continuous with
          | true => exact Or.inl ⟨rfl, rfl, fun hfalse => Bool.noConfusion (hcontinuous ▸ hfalse)⟩
          | false =>
            refine Or.inr ⟨hcontinuous, rfl, hcomp, ?_⟩
            have hflatten := hblocks.flatten
            rw [hfirst hcontinuous] at hflatten
            rw [hflatten]
            exact (@List.length_append _ rest _).trans hlast
    · rw [hstopped.tready] at hvalid
      cases hvalid

/-- The registers over the clocks, from a reset on. -/
def run (mWidth : ℕ) (c : Config) (cfgData : BitVec cntrWidth) (inputs : ℕ → StreamInput width) :
    ℕ → Registers mWidth cntrWidth :=
  trace (posedge c cfgData) .reset inputs

/-- The samples that are accepted and the sums that are put, at each clock. -/
theorem sums_run (haresetn : ∀ n, (inputs n).aresetn = true) (n : ℕ) :
    Sums c cfgData (run mWidth c cfgData inputs n)
      (happened (fun k => accepted (run mWidth c cfgData inputs k) (inputs k)) n)
      (happened (fun k => put c cfgData (run mWidth c cfgData inputs k) (inputs k)) n) := by
  induction n with
  | zero => exact ⟨[], [], .nil (Nat.succ_pos _), rfl, Or.inl ⟨rfl, rfl, fun _ => rfl⟩⟩
  | succ n ih =>
    rw [happened_succ, happened_succ]
    exact ih.posedge (haresetn n)

/-- **The sum of every `cfg_data + 1` samples is passed on**, in their order, and none is lost if
and only if each of them has been taken when the next one comes.  If the core is not to go on there
is one block at most. -/
theorem accumulator_blocks (mWidth : ℕ) (c : Config) (cfgData : BitVec cntrWidth)
    (inputs : ℕ → StreamInput width) (haresetn : ∀ n, (inputs n).aresetn = true) (n : ℕ) :
    let samples := happened (fun k => accepted (run mWidth c cfgData inputs k) (inputs k)) n
    let out := Slot.takenBefore (fun k => (run mWidth c cfgData inputs k).out)
      (fun k => (inputs k).mAxisTready) n ++ (run mWidth c cfgData inputs n).out.held
    ∃ blocks rest, Blocks (cfgData.toNat + 1) samples blocks rest ∧
      out.Sublist (blocks.map (total mWidth c.signed)) ∧
      (out = blocks.map (total mWidth c.signed) ↔ ∀ k < n,
        (put c cfgData (run mWidth c cfgData inputs k) (inputs k)).isSome = true →
          (run mWidth c cfgData inputs k).out.valid = false) ∧
      (c.continuous = false → samples.length ≤ cfgData.toNat + 1) := by
  intro samples out
  obtain ⟨blocks, rest, hblocks, hputs, hstate⟩ :
      Sums c cfgData (run mWidth c cfgData inputs n) samples _ := sums_run haresetn n
  have hruns : Slot.Runs (fun k => (run mWidth c cfgData inputs k).out)
      (fun k => put c cfgData (run mWidth c cfgData inputs k) (inputs k))
      fun k => (inputs k).mAxisTready := ⟨rfl, fun k => out_posedge (haresetn k)⟩
  refine ⟨blocks, rest, hblocks, ?_, ?_, fun honce => ?_⟩
  · rw [← hputs]
    exact hruns.sublist n
  · rw [← hputs]
    exact hruns.taken_append_held_iff n
  · rcases hstate with hrunning | hstopped
    · have hflatten := hblocks.flatten
      rw [hrunning.first honce] at hflatten
      have hshort := hblocks.short
      exact (congrArg List.length hflatten).trans_le hshort.le
    · exact hstopped.length.le

theorem accumulator_blocks_probe :
    ∃ blocks rest, Blocks 3 (happened (fun k => accepted (run 10 ⟨true, true⟩ 2#4 probeSamples k)
        (probeSamples k)) 9) blocks rest ∧
      Slot.takenBefore (fun k => (run 10 ⟨true, true⟩ 2#4 probeSamples k).out)
          (fun k => (probeSamples k).mAxisTready) 9
        ++ (run 10 ⟨true, true⟩ 2#4 probeSamples 9).out.held = blocks.map (total 10 true) := by
  obtain ⟨blocks, rest, hblocks, -, hlost, -⟩ :=
    accumulator_blocks 10 ⟨true, true⟩ 2#4 probeSamples (fun _ => rfl) 9
  exact ⟨blocks, rest, hblocks, hlost.mpr (by decide)⟩

end AxisAccumulator

/-! ## The packetizer -/

namespace AxisPacketizer

/-- `CONTINUOUS` and `ALWAYS_READY` -/
structure Config where
  continuous : Bool
  alwaysReady : Bool

variable {width cntrWidth : ℕ}

structure Registers (cntrWidth : ℕ) where
  intCntrReg : BitVec cntrWidth
  intEnblReg : Bool

def Registers.reset : Registers cntrWidth := ⟨0#_, false⟩

/-- `int_tvalid_wire`, which is `m_axis_tvalid` -/
def mAxisTvalid (s : Registers cntrWidth) (i : StreamInput width) : Bool :=
  s.intEnblReg && i.sAxisTvalid

/-- `m_axis_tlast` -/
def mAxisTlast (cfgData : BitVec cntrWidth) (s : Registers cntrWidth) : Bool :=
  s.intEnblReg && !(s.intCntrReg < cfgData : Bool)

/-- `s_axis_tready` -/
def sAxisTready (c : Config) (s : Registers cntrWidth) (i : StreamInput width) : Bool :=
  if c.alwaysReady then true else s.intEnblReg && i.mAxisTready

/-- `axis_packetizer`, at `posedge aclk` -/
def posedge (c : Config) (cfgData : BitVec cntrWidth) (s : Registers cntrWidth)
    (i : StreamInput width) : Registers cntrWidth :=
  if i.aresetn then
    let intCompWire : Bool := s.intCntrReg < cfgData
    let intTvalidWire := s.intEnblReg && i.sAxisTvalid
    let intEnblNext := if !s.intEnblReg && intCompWire then true else s.intEnblReg
    let intCntrNext :=
      if i.mAxisTready && intTvalidWire && intCompWire then s.intCntrReg + 1 else s.intCntrReg
    if i.mAxisTready && intTvalidWire && !intCompWire then
      if c.continuous then ⟨0#_, intEnblNext⟩ else ⟨intCntrNext, false⟩
    else ⟨intCntrNext, intEnblNext⟩
  else .reset

/-- The sample that is taken from the one side. -/
def consumed (c : Config) (s : Registers cntrWidth) (i : StreamInput width) :
    Option (BitVec width) :=
  if sAxisTready c s i && i.sAxisTvalid then some i.sAxisTdata else none

/-- The beat that is taken by the other one. -/
def delivered (cfgData : BitVec cntrWidth) (s : Registers cntrWidth) (i : StreamInput width) :
    Option (BitVec width × Bool) :=
  if i.mAxisTready && mAxisTvalid s i then some (i.sAxisTdata, mAxisTlast cfgData s) else none

variable {c : Config} {cfgData : BitVec cntrWidth} {s : Registers cntrWidth}
  {i : StreamInput width} {inputs : ℕ → StreamInput width}

/-- The packets so far. -/
def Packets (c : Config) (cfgData : BitVec cntrWidth) (s : Registers cntrWidth)
    (beats : List (BitVec width × Bool)) : Prop :=
  ∃ packets rest, Framed (cfgData.toNat + 1) beats packets rest ∧
    ((s.intCntrReg.toNat = rest.length ∧ (c.continuous = false → packets = [])) ∨
      (c.continuous = false ∧ s.intEnblReg = false ∧ ¬ s.intCntrReg < cfgData ∧
        beats.length = cfgData.toNat + 1))

theorem Packets.posedge {beats : List (BitVec width × Bool)} (h : Packets c cfgData s beats)
    (haresetn : i.aresetn = true) : Packets c cfgData (posedge c cfgData s i)
      (beats ++ (delivered cfgData s i).toList) := by
  obtain ⟨packets, rest, hframed, hstate⟩ := h
  rw [AxisPacketizer.posedge, if_pos haresetn, delivered, mAxisTvalid, mAxisTlast]
  dsimp only
  cases hbeat : i.mAxisTready && (s.intEnblReg && i.sAxisTvalid) with
  | false =>
    refine ⟨packets, rest, (List.append_nil beats).symm ▸ hframed, ?_⟩
    rcases hstate with hrunning | ⟨honce, henbl, hcntr, hlen⟩
    · exact Or.inl hrunning
    · refine Or.inr ⟨honce, ?_, hcntr, (congrArg List.length (List.append_nil beats)).trans hlen⟩
      simp only [henbl, hcntr, decide_false, Bool.and_false]
      rfl
  | true =>
    have henbl : s.intEnblReg = true :=
      (Bool.and_eq_true_iff.mp (Bool.and_eq_true_iff.mp hbeat).2).1
    rcases hstate with ⟨hcntr, hfirst⟩ | ⟨-, hstopped, -⟩
    · by_cases hcomp : s.intCntrReg < cfgData
      · obtain ⟨hnext, hlt⟩ := counter_next hcntr hcomp
        simp only [hcomp, decide_true, henbl]
        refine ⟨packets, rest ++ [(i.sAxisTdata, false)], hframed.snoc _ hlt, Or.inl ⟨?_, hfirst⟩⟩
        rw [List.length_append]
        exact hnext
      · have hlast := counter_last hcntr hframed.blocks.short hcomp
        simp only [hcomp, decide_false, henbl]
        refine ⟨packets ++ [rest ++ [(i.sAxisTdata, true)]], [], hframed.snoc_full _ hlast, ?_⟩
        cases hcontinuous : c.continuous with
        | true => exact Or.inl ⟨rfl, fun hfalse => Bool.noConfusion hfalse⟩
        | false =>
          refine Or.inr ⟨rfl, rfl, hcomp, ?_⟩
          have hflatten := hframed.blocks.flatten
          rw [hfirst hcontinuous] at hflatten
          rw [hflatten]
          exact (@List.length_append _ rest _).trans hlast
    · rw [henbl] at hstopped
      cases hstopped

/-- The registers over the clocks, from a reset on. -/
def run (c : Config) (cfgData : BitVec cntrWidth) (inputs : ℕ → StreamInput width) :
    ℕ → Registers cntrWidth :=
  trace (posedge c cfgData) .reset inputs

theorem packets_run (haresetn : ∀ n, (inputs n).aresetn = true) (n : ℕ) :
    Packets c cfgData (run c cfgData inputs n)
      (happened (fun k => delivered cfgData (run c cfgData inputs k) (inputs k)) n) := by
  induction n with
  | zero => exact ⟨[], [], .nil (Nat.succ_pos _), Or.inl ⟨rfl, fun _ => rfl⟩⟩
  | succ n ih =>
    rw [happened_succ]
    exact ih.posedge (haresetn n)

/-- What goes out has come in at the same clock. -/
theorem consumed_of_delivered {x : BitVec width × Bool}
    (h : delivered cfgData s i = some x) : consumed c s i = some x.1 := by
  obtain ⟨hbeat, hx⟩ := Option.ite_none_right_eq_some.mp h
  obtain rfl := Option.some.inj hx
  obtain ⟨hready, hvalid⟩ := Bool.and_eq_true_iff.mp hbeat
  obtain ⟨henbl, hvalid'⟩ := Bool.and_eq_true_iff.mp hvalid
  refine if_pos (Bool.and_eq_true_iff.mpr ⟨?_, hvalid'⟩)
  rw [sAxisTready]
  split
  · rfl
  · exact Bool.and_eq_true_iff.mpr ⟨henbl, hready⟩

/-- **The packets have `cfg_data + 1` beats each, and their last ones are marked.**  What goes out
has come in, in its order, and is all that has come in unless the core is always ready.  If it is
not to go on there is one packet at most. -/
theorem packetizer_framed (c : Config) (cfgData : BitVec cntrWidth)
    (inputs : ℕ → StreamInput width) (haresetn : ∀ n, (inputs n).aresetn = true) (n : ℕ) :
    let samples := happened (fun k => consumed c (run c cfgData inputs k) (inputs k)) n
    let beats := happened (fun k => delivered cfgData (run c cfgData inputs k) (inputs k)) n
    (∃ packets rest, Framed (cfgData.toNat + 1) beats packets rest) ∧
      (beats.map Prod.fst).Sublist samples ∧
      (c.alwaysReady = false → beats.map Prod.fst = samples) ∧
      (c.continuous = false → beats.length ≤ cfgData.toNat + 1) := by
  intro samples beats
  obtain ⟨packets, rest, hframed, hstate⟩ := packets_run (c := c) haresetn n
  have hbeats : beats.map Prod.fst = happened (fun k =>
      (delivered cfgData (run c cfgData inputs k) (inputs k)).map Prod.fst) n :=
    (happened_map _ _).symm
  refine ⟨⟨packets, rest, hframed⟩, ?_, fun hblocking => ?_, fun honce => ?_⟩
  · rw [hbeats]
    refine happened_sublist (fun k x hx => ?_) n
    obtain ⟨y, hy, rfl⟩ := Option.map_eq_some_iff.mp hx
    exact consumed_of_delivered hy
  · rw [hbeats]
    refine congrArg (happened · n) (funext fun k => ?_)
    rw [delivered, consumed, sAxisTready, hblocking, mAxisTvalid]
    cases (inputs k).mAxisTready <;> cases (run c cfgData inputs k).intEnblReg <;>
      cases (inputs k).sAxisTvalid <;> rfl
  · rcases hstate with ⟨-, hfirst⟩ | ⟨-, -, -, hlen⟩
    · have hflatten := hframed.blocks.flatten
      rw [hfirst honce] at hflatten
      exact (congrArg List.length hflatten).trans_le hframed.blocks.short.le
    · exact hlen.le

theorem packetizer_framed_probe :
    ∃ packets rest, Framed 3 (happened (fun k => delivered 2#4
      (run ⟨true, false⟩ 2#4 probeSamples k) (probeSamples k)) 9) packets rest :=
  (packetizer_framed ⟨true, false⟩ 2#4 probeSamples (fun _ => rfl) 9).1

end AxisPacketizer

/-! ## The generator of `tlast` -/

namespace TlastGen

variable {width : ℕ}

/-- `$clog2(n)` -/
def clog2 (n : ℕ) : ℕ := Nat.clog 2 n

/-- The registers.  Nothing but `count` itself is computed from `count`. -/
structure Registers (pktLength : ℕ) where
  cnt : BitVec (clog2 pktLength + 1)
  count : BitVec 32

/-- `m_axis_tlast` -/
def mAxisTlast {pktLength : ℕ} (s : Registers pktLength) : Bool := s.cnt.toNat + 1 = pktLength

/-- `pkt_count`, which is no count: it gets the same comparison as `m_axis_tlast`. -/
def pktCount {pktLength : ℕ} (s : Registers pktLength) : BitVec 32 :=
  if s.cnt.toNat + 1 = pktLength then 1#32 else 0#32

/-- `tlast_gen`, at `posedge aclk` -/
def posedge {pktLength : ℕ} (s : Registers pktLength) (i : StreamInput width) :
    Registers pktLength :=
  let newSample := i.sAxisTvalid && i.mAxisTready
  if !i.aresetn then ⟨0#_, 0#_⟩
  else if mAxisTlast s && newSample then ⟨0#_, s.count + 1⟩
  else ⟨if newSample then s.cnt + 1 else s.cnt, s.count⟩

/-- The beat that goes through. -/
def delivered {pktLength : ℕ} (s : Registers pktLength) (i : StreamInput width) :
    Option (BitVec width × Bool) :=
  if i.sAxisTvalid && i.mAxisTready then some (i.sAxisTdata, mAxisTlast s) else none

/-- The counters of the beats of a packet and of the packets. -/
def Packets {pktLength : ℕ} (s : Registers pktLength) (beats : List (BitVec width × Bool)) : Prop :=
  ∃ packets rest, Framed pktLength beats packets rest ∧ s.cnt.toNat = rest.length ∧
    s.count = .ofNat 32 packets.length

theorem Packets.posedge {pktLength : ℕ} {s : Registers pktLength} {i : StreamInput width}
    {beats : List (BitVec width × Bool)} (h : Packets s beats) (haresetn : i.aresetn = true) :
    Packets (posedge s i) (beats ++ (delivered s i).toList) := by
  obtain ⟨packets, rest, hframed, hcnt, hcount⟩ := h
  have hshort := hframed.blocks.short
  rw [TlastGen.posedge, haresetn, Bool.not_true, if_neg Bool.false_ne_true, delivered]
  cases hbeat : i.sAxisTvalid && i.mAxisTready with
  | false =>
    rw [Bool.and_false]
    exact ⟨packets, rest, (List.append_nil beats).symm ▸ hframed, hcnt, hcount⟩
  | true =>
    rw [Bool.and_true]
    by_cases hlast : s.cnt.toNat + 1 = pktLength
    · have htlast : mAxisTlast s = true := decide_eq_true hlast
      rw [htlast]
      refine ⟨packets ++ [rest ++ [(i.sAxisTdata, true)]], [],
        hframed.snoc_full _ (hcnt ▸ hlast), rfl, ?_⟩
      rw [List.length_append, List.length_singleton, BitVec.ofNat_add, ← hcount]
      rfl
    · have htlast : mAxisTlast s = false := decide_eq_false hlast
      have hroom : s.cnt.toNat + 1 < 2 ^ (clog2 pktLength + 1) := by
        have hclog : pktLength ≤ 2 ^ clog2 pktLength := Nat.le_pow_clog (by decide) _
        rw [Nat.pow_succ]
        omega
      rw [htlast]
      refine ⟨packets, rest ++ [(i.sAxisTdata, false)], hframed.snoc _ (by omega), ?_, hcount⟩
      have hone : (s.cnt + 1).toNat = (s.cnt.toNat + 1 % 2 ^ (clog2 pktLength + 1))
          % 2 ^ (clog2 pktLength + 1) := BitVec.toNat_add _ _
      rw [Nat.add_mod_mod, Nat.mod_eq_of_lt hroom, hcnt] at hone
      rw [List.length_append]
      exact hone

/-- **The packets have `PKT_LENGTH` beats each, and their last ones are marked**; all that comes in
goes out.  From a reset on `pkt_count` is 1 while a packet lacks its last beat only, and 0
otherwise, however many packets have gone out; their number is in `count`. -/
theorem tlastGen_framed {pktLength : ℕ} (hpos : 0 < pktLength) (inputs : ℕ → StreamInput width)
    (haresetn : ∀ n, (inputs n).aresetn = true) (n : ℕ) :
    let run := trace posedge (⟨0#_, 0#_⟩ : Registers pktLength) inputs
    let beats := happened (fun k => delivered (run k) (inputs k)) n
    beats.map Prod.fst
        = happened (fun k => if (inputs k).sAxisTvalid && (inputs k).mAxisTready then
            some (inputs k).sAxisTdata else none) n ∧
      ∃ packets rest, Framed pktLength beats packets rest ∧
        pktCount (run n) = (if rest.length + 1 = pktLength then 1#32 else 0#32) ∧
        (run n).count = .ofNat 32 packets.length := by
  intro run beats
  have hall : Packets (run n) beats := by
    induction n with
    | zero => exact ⟨[], [], .nil hpos, rfl, rfl⟩
    | succ n ih =>
      have hstep := ih.posedge (haresetn n)
      rw [← happened_succ] at hstep
      exact hstep
  obtain ⟨packets, rest, hframed, hcnt, hcount⟩ := hall
  refine ⟨?_, packets, rest, hframed, ?_, hcount⟩
  · refine (happened_map _ _).symm.trans (congrArg (happened · n) (funext fun k => ?_))
    rw [delivered]
    split <;> rfl
  · rw [pktCount, hcnt]

theorem tlastGen_framed_probe :
    let run := trace posedge (⟨0#_, 0#_⟩ : Registers 3) probeSamples
    let beats := happened (fun k => delivered (run k) (probeSamples k)) 9
    beats.map Prod.fst
        = happened (fun k => if (probeSamples k).sAxisTvalid && (probeSamples k).mAxisTready then
            some (probeSamples k).sAxisTdata else none) 9 ∧
      ∃ packets rest, Framed 3 beats packets rest ∧
        pktCount (run 9) = (if rest.length + 1 = 3 then 1#32 else 0#32) ∧
        (run 9).count = .ofNat 32 packets.length :=
  tlastGen_framed (by decide) probeSamples (fun _ => rfl) 9

end TlastGen

end KoheronSdk
