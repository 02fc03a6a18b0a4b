import Mathlib.Data.BitVec
import KoheronSdk.Lib.Streams

/-!
# The histogram

`axis_histogram` counts how often each sample has come, in a block RAM: it fills the RAM with
zeros, and then reads, increments and writes back one word for each sample.  A count that is full
stays so.

The core is a machine of six states, and for one sample it goes through four of them.  The
read port of the RAM has two registers, so that a word comes out two clocks after its
address was given; the core waits for just as long.  What the RAM does is stated by its signals
(`BlockRam`) and the core is proved against that; at the end a RAM with two registers is put
beside it, so that there is something to which the statement applies.

`Inv` says for each state what is known of the words, the registers and what the RAM is about
to give.  While the RAM is being cleared, the words below the address are zeros; afterwards
the words are the counts of the samples that were accepted, but that in three of the states the last
one is still missing.  One edge keeps this, and the count at which a word stays is the largest one
that it has room for.

* `BlockRam`: what is relied on of the RAM, whose read port has two registers.
* `inv_succ`: every edge keeps what is known.
* `histogram_counts`: whenever the core is ready, the words of the RAM are the counts.
-/

namespace KoheronSdk

open Clocked

/-- The signals of a port of a block RAM over the clocks: a write goes to the word at the next
edge, and what is read without a write comes out two edges later. -/
structure BlockRam {addrWidth dataWidth : ℕ} (mem : ℕ → BitVec addrWidth → BitVec dataWidth)
    (addr : ℕ → BitVec addrWidth) (wrdata rddata : ℕ → BitVec dataWidth) (we : ℕ → Bool) :
    Prop where
  write : ∀ n, mem (n + 1) = if we n then Function.update (mem n) (addr n) (wrdata n) else mem n
  read : ∀ n, we n = false → rddata (n + 2) = mem n (addr n)

namespace AxisHistogram

/-! ## The code -/

variable {width addrWidth dataWidth : ℕ}

/-- The states `int_case_reg`. -/
inductive Case where
  | clear
  | zeros
  | idle
  | wait
  | increment
  | write
  deriving DecidableEq

/-- The registers. -/
structure Registers (addrWidth dataWidth : ℕ) where
  intAddrReg : BitVec addrWidth
  intDataReg : BitVec dataWidth
  intCaseReg : Case
  intTreadyReg : Bool
  intWrenReg : Bool

def Registers.reset : Registers addrWidth dataWidth := ⟨0#_, 0#_, .clear, false, false⟩

/-- The inputs at an edge. -/
structure Input (width dataWidth : ℕ) where
  aresetn : Bool
  sAxisTdata : BitVec width
  sAxisTvalid : Bool
  bramPortaRddata : BitVec dataWidth

/-- `axis_histogram`, at `posedge aclk` -/
def posedge (s : Registers addrWidth dataWidth) (i : Input width dataWidth) :
    Registers addrWidth dataWidth :=
  if i.aresetn then
    match s.intCaseReg with
    | .clear =>
      { s with intAddrReg := 0#_, intDataReg := 0#_, intWrenReg := true, intCaseReg := .zeros }
    | .zeros =>
      let s' := { s with intAddrReg := s.intAddrReg + 1 }
      if s.intAddrReg = .allOnes addrWidth then
        { s' with intTreadyReg := true, intWrenReg := false, intCaseReg := .idle }
      else s'
    | .idle =>
      if i.sAxisTvalid then
        { s with intAddrReg := i.sAxisTdata.setWidth addrWidth, intTreadyReg := false,
                 intCaseReg := .wait }
      else s
    | .wait => { s with intCaseReg := .increment }
    | .increment =>
      { s with intDataReg := i.bramPortaRddata + 1,
               intWrenReg := !(i.bramPortaRddata = .allOnes dataWidth : Bool),
               intCaseReg := .write }
    | .write => { s with intTreadyReg := true, intWrenReg := false, intCaseReg := .idle }
  else .reset

/-- `bram_porta_addr` -/
def bramPortaAddr (s : Registers addrWidth dataWidth) (i : Input width dataWidth) :
    BitVec addrWidth :=
  if s.intWrenReg then s.intAddrReg else i.sAxisTdata.setWidth addrWidth

/-- The address of the sample that is accepted. -/
def accepted (s : Registers addrWidth dataWidth) (i : Input width dataWidth) :
    Option (BitVec addrWidth) :=
  if s.intTreadyReg && i.sAxisTvalid then some (i.sAxisTdata.setWidth addrWidth) else none

/-! ## Counts -/

/-- The words are the counts of the samples, up to the largest one that there is room for. -/
def Recorded (mem : BitVec addrWidth → BitVec dataWidth) (samples : List (BitVec addrWidth)) :
    Prop :=
  ∀ a, mem a = .ofNat dataWidth (min (samples.count a) (2 ^ dataWidth - 1))

theorem recorded_nil {mem : BitVec addrWidth → BitVec dataWidth} (h : ∀ a, mem a = 0#_) :
    Recorded mem [] := fun a => by
  rw [h, List.count_nil, Nat.zero_min]

section Recorded

variable {mem : BitVec addrWidth → BitVec dataWidth} {samples : List (BitVec addrWidth)}
  {a : BitVec addrWidth}

theorem toNat_of_recorded (h : Recorded mem samples) :
    (mem a).toNat = min (samples.count a) (2 ^ dataWidth - 1) := by
  have hpos := Nat.two_pow_pos dataWidth
  rw [h, BitVec.toNat_ofNat, Nat.mod_eq_of_lt (by omega)]

/-- The word of a sample is incremented. -/
theorem Recorded.increment (h : Recorded mem samples) (hroom : mem a ≠ .allOnes dataWidth) :
    Recorded (Function.update mem a (mem a + 1)) (samples ++ [a]) := by
  have hval := toNat_of_recorded (a := a) h
  have hlt : min (samples.count a) (2 ^ dataWidth - 1) ≠ 2 ^ dataWidth - 1 := by
    intro hfull
    exact hroom (BitVec.eq_of_toNat_eq (by rw [hval, hfull, BitVec.toNat_allOnes]))
  intro b
  rw [List.count_append, List.count_singleton]
  by_cases hb : b = a
  · subst hb
    rw [Function.update_self, beq_self_eq_true, if_pos rfl, h b, Nat.min_eq_left (by omega),
      Nat.min_eq_left (by omega), BitVec.ofNat_add]
    rfl
  · rw [Function.update_of_ne hb, if_neg (by simpa using fun h => hb h.symm), Nat.add_zero]
    exact h b

/-- A word that is full stays so. -/
theorem Recorded.full (h : Recorded mem samples) (hfull : mem a = .allOnes dataWidth) :
    Recorded mem (samples ++ [a]) := by
  have hval := toNat_of_recorded (a := a) h
  rw [hfull, BitVec.toNat_allOnes] at hval
  intro b
  rw [List.count_append, List.count_singleton]
  by_cases hb : b = a
  · subst hb
    rw [beq_self_eq_true, if_pos rfl, h b]
    congr 1
    omega
  · rw [if_neg (by simpa using fun h => hb h.symm), Nat.add_zero]
    exact h b

end Recorded

/-- What is known in each state, with what the RAM gives now and at the next clock. -/
def Inv (s : Registers addrWidth dataWidth) (mem : BitVec addrWidth → BitVec dataWidth)
    (rddata rddataNext : BitVec dataWidth) (samples : List (BitVec addrWidth)) : Prop :=
  match s.intCaseReg with
  | .clear => samples = [] ∧ s.intTreadyReg = false
  | .zeros => samples = [] ∧ s.intTreadyReg = false ∧ s.intWrenReg = true ∧ s.intDataReg = 0#_ ∧
      ∀ a < s.intAddrReg, mem a = 0#_
  | .idle => Recorded mem samples ∧ s.intTreadyReg = true ∧ s.intWrenReg = false
  | .wait => s.intTreadyReg = false ∧ s.intWrenReg = false ∧ rddataNext = mem s.intAddrReg ∧
      ∃ before, samples = before ++ [s.intAddrReg] ∧ Recorded mem before
  | .increment => s.intTreadyReg = false ∧ s.intWrenReg = false ∧ rddata = mem s.intAddrReg ∧
      ∃ before, samples = before ++ [s.intAddrReg] ∧ Recorded mem before
  | .write => s.intTreadyReg = false ∧ s.intDataReg = mem s.intAddrReg + 1 ∧
      (s.intWrenReg = true ↔ mem s.intAddrReg ≠ .allOnes dataWidth) ∧
      ∃ before, samples = before ++ [s.intAddrReg] ∧ Recorded mem before

/-! ## The runs -/

/-- The registers over the clocks, from a reset on. -/
def run (addrWidth : ℕ) (inputs : ℕ → Input width dataWidth) : ℕ → Registers addrWidth dataWidth :=
  trace posedge .reset inputs

/-- The samples that have been accepted. -/
def samples (addrWidth : ℕ) (inputs : ℕ → Input width dataWidth) (n : ℕ) :
    List (BitVec addrWidth) :=
  happened (fun k => accepted (run addrWidth inputs k) (inputs k)) n

/-- The core is connected to a block RAM. -/
def Connected (mem : ℕ → BitVec addrWidth → BitVec dataWidth)
    (inputs : ℕ → Input width dataWidth) : Prop :=
  BlockRam mem (fun n => bramPortaAddr (run addrWidth inputs n) (inputs n))
    (fun n => (run addrWidth inputs n).intDataReg) (fun n => (inputs n).bramPortaRddata)
    fun n => (run addrWidth inputs n).intWrenReg

section Run

variable {inputs : ℕ → Input width dataWidth} {mem : ℕ → BitVec addrWidth → BitVec dataWidth}
  {n : ℕ}

theorem samples_of_not_tready (h : (run addrWidth inputs n).intTreadyReg = false) :
    samples addrWidth inputs (n + 1) = samples addrWidth inputs n :=
  happened_succ_of_none (if_neg (by rw [h]; exact Bool.false_ne_true))

/-- Without a write the words stay. -/
theorem Connected.mem_succ (h : Connected mem inputs)
    (hwren : (run addrWidth inputs n).intWrenReg = false) : mem (n + 1) = mem n := by
  have hwrite := h.write n
  rwa [hwren, if_neg Bool.false_ne_true] at hwrite

theorem Connected.mem_succ_of_write (h : Connected mem inputs)
    (hwren : (run addrWidth inputs n).intWrenReg = true) :
    mem (n + 1) = Function.update (mem n) (run addrWidth inputs n).intAddrReg
      (run addrWidth inputs n).intDataReg := by
  have hwrite := h.write n
  rwa [hwren, if_pos rfl, bramPortaAddr, if_pos hwren] at hwrite

theorem lt_add_one_iff {a b : BitVec addrWidth} (hb : b ≠ .allOnes addrWidth) :
    a < b + 1 ↔ a < b ∨ a = b := by
  have hlt := b.isLt
  have hne : b.toNat ≠ 2 ^ addrWidth - 1 := fun h =>
    hb (BitVec.eq_of_toNat_eq (by rw [h, BitVec.toNat_allOnes]))
  have hone : (b + 1).toNat = (b.toNat + 1 % 2 ^ addrWidth) % 2 ^ addrWidth := BitVec.toNat_add _ _
  rw [Nat.add_mod_mod, Nat.mod_eq_of_lt (by omega)] at hone
  rw [BitVec.lt_def, BitVec.lt_def, hone, ← BitVec.toNat_inj]
  omega

/-- **Every edge keeps what is known.** -/
theorem inv_succ (hram : Connected mem inputs) (haresetn : ∀ n, (inputs n).aresetn = true)
    (h : Inv (run addrWidth inputs n) (mem n) (inputs n).bramPortaRddata
      (inputs (n + 1)).bramPortaRddata (samples addrWidth inputs n)) :
    Inv (run addrWidth inputs (n + 1)) (mem (n + 1)) (inputs (n + 1)).bramPortaRddata
      (inputs (n + 2)).bramPortaRddata (samples addrWidth inputs (n + 1)) := by
  have hnext : run addrWidth inputs (n + 1) = posedge (run addrWidth inputs n) (inputs n) := rfl
  rw [posedge, if_pos (haresetn n)] at hnext
  generalize hs : run addrWidth inputs n = s at h hnext
  cases hcase : s.intCaseReg with
  | clear =>
    simp only [Inv, hcase] at h hnext
    obtain ⟨hnil, htready⟩ := h
    rw [hnext, samples_of_not_tready (hs ▸ htready), hnil]
    exact ⟨rfl, htready, rfl, rfl, fun a ha => absurd ha (Nat.not_lt_zero _)⟩
  | zeros =>
    simp only [Inv, hcase] at h hnext
    obtain ⟨hnil, htready, hwren, hdata, hzeros⟩ := h
    have hmem : mem (n + 1) = Function.update (mem n) s.intAddrReg 0#_ := by
      rw [hram.mem_succ_of_write (hs ▸ hwren), hs, hdata]
    rw [samples_of_not_tready (hs ▸ htready), hnil, hmem]
    by_cases hlast : s.intAddrReg = .allOnes addrWidth
    · rw [if_pos hlast] at hnext
      rw [hnext]
      refine ⟨recorded_nil fun a => ?_, rfl, rfl⟩
      by_cases ha : a = s.intAddrReg
      · rw [ha, Function.update_self]
      · rw [Function.update_of_ne ha]
        exact hzeros a (hlast ▸ BitVec.lt_allOnes_iff.mpr (hlast ▸ ha))
    · rw [if_neg hlast] at hnext
      rw [hnext]
      refine ⟨rfl, htready, hwren, hdata, fun a ha => ?_⟩
      rcases (lt_add_one_iff hlast).mp ha with hlt | rfl
      · rw [Function.update_of_ne (BitVec.ne_of_lt hlt)]
        exact hzeros a hlt
      · rw [Function.update_self]
  | idle =>
    simp only [Inv, hcase] at h hnext
    obtain ⟨hrecorded, htready, hwren⟩ := h
    have hmem := hram.mem_succ (hs ▸ hwren)
    cases hvalid : (inputs n).sAxisTvalid with
    | false =>
      have hnone : accepted s (inputs n) = none := by
        rw [accepted, hvalid, Bool.and_false, if_neg Bool.false_ne_true]
      rw [hvalid, if_neg Bool.false_ne_true] at hnext
      rw [hnext, hmem, samples, happened_succ_of_none (hs ▸ hnone)]
      simp only [Inv, hcase]
      exact ⟨hrecorded, htready, hwren⟩
    | true =>
      have haddr : bramPortaAddr s (inputs n) = (inputs n).sAxisTdata.setWidth addrWidth :=
        if_neg (by rw [hwren]; exact Bool.false_ne_true)
      have hsome : accepted s (inputs n) = some ((inputs n).sAxisTdata.setWidth addrWidth) := by
        rw [accepted, htready, hvalid, Bool.and_true, if_pos rfl]
      have hread := hram.read n (hs ▸ hwren)
      rw [hs, haddr] at hread
      rw [hvalid, if_pos rfl] at hnext
      rw [hnext, hmem, samples, happened_succ_of_some (hs ▸ hsome)]
      exact ⟨rfl, hwren, hread, _, rfl, hrecorded⟩
  | wait =>
    simp only [Inv, hcase] at h hnext
    obtain ⟨htready, hwren, hrddata, hbefore⟩ := h
    rw [hnext, samples_of_not_tready (hs ▸ htready), hram.mem_succ (hs ▸ hwren)]
    exact ⟨htready, hwren, hrddata, hbefore⟩
  | increment =>
    simp only [Inv, hcase] at h hnext
    obtain ⟨htready, hwren, hrddata, hbefore⟩ := h
    rw [hnext, samples_of_not_tready (hs ▸ htready), hram.mem_succ (hs ▸ hwren)]
    refine ⟨htready, by rw [hrddata], ?_, hbefore⟩
    rw [← hrddata, Bool.not_eq_true', decide_eq_false_iff_not]
  | write =>
    simp only [Inv, hcase] at h hnext
    obtain ⟨htready, hdata, hwren, before, hsamples, hrecorded⟩ := h
    rw [hnext, samples_of_not_tready (hs ▸ htready), hsamples]
    refine ⟨?_, rfl, rfl⟩
    cases hwrite : s.intWrenReg with
    | false =>
      have hfull : mem n s.intAddrReg = .allOnes dataWidth := by
        by_contra hroom
        exact Bool.false_ne_true (hwrite ▸ hwren.mpr hroom)
      rw [hram.mem_succ (hs ▸ hwrite)]
      exact hrecorded.full hfull
    | true =>
      rw [hram.mem_succ_of_write (hs ▸ hwrite), hs, hdata]
      exact hrecorded.increment (hwren.mp hwrite)

theorem inv_run (hram : Connected mem inputs) (haresetn : ∀ n, (inputs n).aresetn = true) (n : ℕ) :
    Inv (run addrWidth inputs n) (mem n) (inputs n).bramPortaRddata
      (inputs (n + 1)).bramPortaRddata (samples addrWidth inputs n) := by
  induction n with
  | zero => exact ⟨rfl, rfl⟩
  | succ n ih => exact inv_succ hram haresetn ih

/-! ### When the core is ready -/

theorem zeros_run (haresetn : ∀ n, (inputs n).aresetn = true) {k : ℕ} (hk : k < 2 ^ addrWidth) :
    (run addrWidth inputs (1 + k)).intCaseReg = .zeros ∧
      (run addrWidth inputs (1 + k)).intAddrReg = .ofNat addrWidth k := by
  induction k with
  | zero =>
    have hnext : run addrWidth inputs 1 = posedge .reset (inputs 0) := rfl
    rw [posedge, if_pos (haresetn 0)] at hnext
    rw [Nat.add_zero, hnext]
    exact ⟨rfl, rfl⟩
  | succ k ih =>
    obtain ⟨hcase, haddr⟩ := ih (Nat.lt_of_succ_lt hk)
    have hnext : run addrWidth inputs (1 + (k + 1))
        = posedge (run addrWidth inputs (1 + k)) (inputs (1 + k)) := rfl
    have hne : (run addrWidth inputs (1 + k)).intAddrReg ≠ .allOnes addrWidth := by
      intro hlast
      have hnat := congrArg BitVec.toNat (haddr.symm.trans hlast)
      rw [BitVec.toNat_ofNat, Nat.mod_eq_of_lt (by omega), BitVec.toNat_allOnes] at hnat
      omega
    rw [posedge, if_pos (haresetn _), hcase] at hnext
    dsimp only at hnext
    rw [if_neg hne] at hnext
    rw [hnext, BitVec.ofNat_add, haddr]
    exact ⟨rfl, rfl⟩

theorem idle_run (haresetn : ∀ n, (inputs n).aresetn = true) :
    (run addrWidth inputs (1 + 2 ^ addrWidth)).intCaseReg = .idle := by
  have hpos := Nat.two_pow_pos addrWidth
  obtain ⟨k, hk⟩ : ∃ k, 2 ^ addrWidth = k + 1 := ⟨2 ^ addrWidth - 1, by omega⟩
  have hlt : k < 2 ^ addrWidth := hk ▸ Nat.lt_succ_self k
  obtain ⟨hcase, haddr⟩ := zeros_run haresetn hlt
  have hnext : run addrWidth inputs (1 + (k + 1))
      = posedge (run addrWidth inputs (1 + k)) (inputs (1 + k)) := rfl
  have hlast : (run addrWidth inputs (1 + k)).intAddrReg = .allOnes addrWidth := by
    rw [haddr]
    refine BitVec.eq_of_toNat_eq ?_
    rw [BitVec.toNat_ofNat, Nat.mod_eq_of_lt (by omega), BitVec.toNat_allOnes, hk]
    rfl
  rw [posedge, if_pos (haresetn _), hcase] at hnext
  dsimp only at hnext
  rw [if_pos hlast] at hnext
  rw [hk, hnext]

/-- The state after a clock, once the words have been cleared. -/
def Case.next (valid : Bool) : Case → Case
  | .idle => if valid then .wait else .idle
  | .wait => .increment
  | .increment => .write
  | .write => .idle
  | c => c

theorem case_succ (haresetn : ∀ n, (inputs n).aresetn = true)
    (hclear : (run addrWidth inputs n).intCaseReg ≠ .clear)
    (hzeros : (run addrWidth inputs n).intCaseReg ≠ .zeros) :
    (run addrWidth inputs (n + 1)).intCaseReg
      = (run addrWidth inputs n).intCaseReg.next (inputs n).sAxisTvalid := by
  have hnext : run addrWidth inputs (n + 1) = posedge (run addrWidth inputs n) (inputs n) := rfl
  rw [posedge, if_pos (haresetn n)] at hnext
  rw [hnext]
  cases hcase : (run addrWidth inputs n).intCaseReg with
  | clear => exact absurd hcase hclear
  | zeros => exact absurd hcase hzeros
  | idle =>
    dsimp only [Case.next]
    cases (inputs n).sAxisTvalid with
    | false => exact hcase
    | true => rfl
  | wait => rfl
  | increment => rfl
  | write => rfl

theorem serving (haresetn : ∀ n, (inputs n).aresetn = true) (k : ℕ) :
    (run addrWidth inputs (1 + 2 ^ addrWidth + k)).intCaseReg ≠ .clear ∧
      (run addrWidth inputs (1 + 2 ^ addrWidth + k)).intCaseReg ≠ .zeros := by
  induction k with
  | zero =>
    rw [Nat.add_zero, idle_run haresetn]
    exact ⟨Case.noConfusion, Case.noConfusion⟩
  | succ k ih =>
    rw [← Nat.add_assoc, case_succ haresetn ih.1 ih.2]
    cases hcase : (run addrWidth inputs (1 + 2 ^ addrWidth + k)).intCaseReg with
    | clear => exact absurd hcase ih.1
    | zeros => exact absurd hcase ih.2
    | idle => cases (inputs (1 + 2 ^ addrWidth + k)).sAxisTvalid <;> decide
    | _ => exact ⟨Case.noConfusion, Case.noConfusion⟩

/-- A sample takes four clocks. -/
theorem exists_idle (haresetn : ∀ n, (inputs n).aresetn = true) (hn : 1 + 2 ^ addrWidth ≤ n) :
    ∃ k < 4, (run addrWidth inputs (n + k)).intCaseReg = .idle := by
  have hsucc : ∀ m, 1 + 2 ^ addrWidth ≤ m → (run addrWidth inputs (m + 1)).intCaseReg
      = (run addrWidth inputs m).intCaseReg.next (inputs m).sAxisTvalid := by
    intro m hm
    obtain ⟨k, rfl⟩ := Nat.exists_eq_add_of_le hm
    exact case_succ haresetn (serving haresetn k).1 (serving haresetn k).2
  have hone := hsucc n hn
  have htwo := hsucc (n + 1) (by omega)
  have hthree := hsucc (n + 2) (by omega)
  obtain ⟨k, hk⟩ := Nat.exists_eq_add_of_le hn
  cases hcase : (run addrWidth inputs n).intCaseReg with
  | clear => exact absurd (hk ▸ hcase) (serving haresetn k).1
  | zeros => exact absurd (hk ▸ hcase) (serving haresetn k).2
  | idle => exact ⟨0, by decide, hcase⟩
  | write => exact ⟨1, by decide, by rw [hone, hcase]; rfl⟩
  | increment => exact ⟨2, by decide, by rw [htwo, hone, hcase]; rfl⟩
  | wait => exact ⟨3, by decide, by rw [hthree, htwo, hone, hcase]; rfl⟩

/-- **The words are the counts of the samples** whenever the core is ready for another one, and
after clearing them it is so again and again, whatever comes in and when. -/
theorem histogram_counts (inputs : ℕ → Input width dataWidth)
    (mem : ℕ → BitVec addrWidth → BitVec dataWidth) (hram : Connected mem inputs)
    (haresetn : ∀ n, (inputs n).aresetn = true) (n : ℕ) :
    ((run addrWidth inputs n).intTreadyReg = true →
      Recorded (mem n) (samples addrWidth inputs n)) ∧
    (1 + 2 ^ addrWidth ≤ n → ∃ k < 4, (run addrWidth inputs (n + k)).intTreadyReg = true) := by
  refine ⟨fun htready => ?_, fun hn => ?_⟩
  · have h := inv_run hram haresetn n
    cases hcase : (run addrWidth inputs n).intCaseReg with
    | idle =>
      simp only [Inv, hcase] at h
      exact h.1
    | _ =>
      simp only [Inv, hcase, htready] at h
      simp at h
  · obtain ⟨k, hk, hcase⟩ := exists_idle haresetn hn
    have h := inv_run hram haresetn (n + k)
    simp only [Inv, hcase] at h
    exact ⟨k, hk, h.2.1⟩

end Run

/-! ### With a RAM -/

/-- The core and the RAM, with the two registers of its read port. -/
structure Board (addrWidth dataWidth : ℕ) where
  core : Registers addrWidth dataWidth
  mem : BitVec addrWidth → BitVec dataWidth
  read : BitVec dataWidth
  out : BitVec dataWidth

namespace Board

variable (stream : ℕ → BitVec width × Bool)

/-- The inputs of the core. -/
def input (b : Board addrWidth dataWidth) (x : BitVec width × Bool) : Input width dataWidth :=
  ⟨true, x.1, x.2, b.out⟩

def next (b : Board addrWidth dataWidth) (x : BitVec width × Bool) : Board addrWidth dataWidth where
  core := posedge b.core (b.input x)
  mem := if b.core.intWrenReg then Function.update b.mem (bramPortaAddr b.core (b.input x))
    b.core.intDataReg else b.mem
  read := b.mem (bramPortaAddr b.core (b.input x))
  out := b.read

/-- The board over the clocks, with any words in the RAM at first. -/
def run (mem : BitVec addrWidth → BitVec dataWidth) : ℕ → Board addrWidth dataWidth :=
  trace next ⟨.reset, mem, 0#_, 0#_⟩ stream

variable {stream} {mem : BitVec addrWidth → BitVec dataWidth}

theorem core_run (n : ℕ) :
    AxisHistogram.run addrWidth (fun k => (run stream mem k).input (stream k)) n
      = (run stream mem n).core := by
  induction n with
  | zero => rfl
  | succ n ih =>
    exact congrArg (fun s => posedge s ((run stream mem n).input (stream n))) ih

theorem connected :
    Connected (fun n => (run stream mem n).mem) fun n => (run stream mem n).input (stream n) := by
  refine ⟨fun n => ?_, fun n _ => ?_⟩
  · dsimp only
    rw [core_run]
    rfl
  · dsimp only
    rw [core_run]
    rfl

end Board

/-- Ones at every clock, into a RAM of two words. -/
theorem histogram_counts_probe :
    Recorded (Board.run (fun _ => (1#3, true)) (fun _ : BitVec 1 => 2#2) 11).mem
      (samples 1 (fun k => (Board.run (fun _ => (1#3, true)) (fun _ : BitVec 1 => 2#2) k).input
        (1#3, true)) 11) :=
  (histogram_counts _ _ Board.connected (fun _ => rfl) 11).1 (by decide)

end AxisHistogram

end KoheronSdk
