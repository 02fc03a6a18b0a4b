import KoheronSdk.Generator.RegisterMap

/-!
# The register banks of a block design

`ctl_sts.tcl` connects the pins of an instrument to the data ports of the AXI registers: the
pins of a control bank are slices of one port, those of a status bank are brought together by
`xlconcat` cells of at most 32 inputs, and these by another one.

## Where a pin ends up

With at most 32 words, the two hidden ones among them, there is one cell, and a pin is connected by
its own number.  With more there are several cells, and the number has to be taken apart into that
of a cell and that of an input.  The hidden words shift the inputs of the first cell only, and the
script does not come to terms with this: the registers 30 and 31 are connected to inputs that the
first cell does not have, and from there on each register is two words away from where the
header has it.

The procedures are read as to their wiring.  A cell is the list of what drives its inputs,
`dout` its words, low index first, and `stsData` what arrives at the register.
`wiredTo_iff` gives the word of a pin for any number of registers, and everything else
follows from it.

## Software and block design

A bank agrees with the header when the constant of each register is the byte offset
of the word that its pin is tied to.  For the processing system the header leaves the
hidden words out, while the script always puts them in.

* `addConfigRegister`, `addStatusRegister`, `addCtlSts`: the procedures, as to their wiring.
* `StatusBank.stsData`: what each word of a status register carries.
* `wiredTo_iff`: and where a pin ends up.
* `ctl_sts_agree_iff`, `ps_ctl_sts_agree_iff`: when header and block design agree.
-/

namespace KoheronSdk

/-! ## Control registers -/

/-- A slice of `ctl_data` and the pin that it drives. -/
structure SlicePin where
  register : Str
  dinFrom : ℕ
  dinTo : ℕ
  deriving DecidableEq

/-- A hierarchy with a control register. -/
structure ConfigBank where
  memory : Bank
  ctlDataWidth : ℕ
  slices : List SlicePin

/-- `add_config_register` -/
def addConfigRegister (memoryName : Bank) (registers : TclRegisters) : ConfigBank where
  memory := memoryName
  ctlDataWidth := registers.size * 32
  slices := (List.range registers.size).map fun i =>
    ⟨registers.register i, 31 + i * 32, i * 32⟩

/-- The pin of a register is driven by word `j`, the bits `32 * j` to `32 * j + 31`. -/
def ConfigBank.DrivenBy (bank : ConfigBank) (name : Str) (j : ℕ) : Prop :=
  ⟨name, 32 * j + 31, 32 * j⟩ ∈ bank.slices

/-! ## Status registers -/

/-- What drives an input. -/
inductive Source where
  | register (name : Str)
  | dnaData (dinFrom dinTo : ℕ)
  | constant (value : ℕ)
  deriving DecidableEq

/-- A hierarchy with a status register. -/
structure StatusBank where
  memory : Bank
  stsDataWidth : ℕ
  /-- `NUM_PORTS` of `concat_concat` -/
  concatNum : ℕ
  /-- `NUM_PORTS` of `concat_0`, `concat_1`, ... -/
  concatNumPorts : List ℕ
  /-- The calls of `connect_pins`, by cell, input and driver. -/
  connections : List ((ℕ × ℕ) × Source)

/-- `n_hidden_ports` -/
def nHiddenPorts : ℕ := 2

/-- The `while` loop: the sizes of the cells that it creates. -/
def concatLoop (leftPorts : ℕ) : List ℕ :=
  if leftPorts = 0 then []
  else min leftPorts 32 :: concatLoop (leftPorts - min leftPorts 32)
termination_by leftPorts

/-- The cell and the input to which `# Other ports` connects register `i`. -/
def otherPort (i : ℕ) : ℕ × ℕ :=
  let iidx := i % 32
  let cidx := i / 32
  let iidx := if cidx = 0 then iidx + nHiddenPorts else iidx
  (cidx, iidx)

/-- `add_status_register` -/
def addStatusRegister (isZynqMP : Bool) (memoryName : Bank) (registers : TclRegisters)
    (hasDna : Bool) : StatusBank where
  memory := memoryName
  stsDataWidth := (nHiddenPorts + registers.size) * 32
  concatNum := (nHiddenPorts + registers.size) / 32 + 1
  concatNumPorts := concatLoop (nHiddenPorts + registers.size)
  connections :=
    (if isZynqMP = false ∧ hasDna = true then
      [((0, 0), .dnaData 31 0), ((0, 1), .dnaData 63 32)]
    else [((0, 0), .constant 4222), ((0, 1), .constant 78661)]) ++
    (List.range registers.size).map fun i => (otherPort i, .register (registers.register i))

namespace StatusBank

variable (bank : StatusBank)

/-- What drives an input of a cell. -/
def driver (cell input : ℕ) : Option Source := bank.connections.lookup (cell, input)

/-- The words at `dout` of a cell: its inputs, low index first. -/
def dout (cell : ℕ) (numPorts : ℕ) : List (Option Source) :=
  (List.range numPorts).map (bank.driver cell)

/-- The words of `sts_data`: those of the cells that `concat_concat` has an input for, low
index first. -/
def stsData : List (Option Source) :=
  ((bank.concatNumPorts.take bank.concatNum).mapIdx bank.dout).flatten.take
    (bank.stsDataWidth / 32)

/-- The pin of a register is in word `j`. -/
def WiredTo (name : Str) (j : ℕ) : Prop := bank.stsData[j]? = some (some (.register name))

end StatusBank

/-! ### Where a pin ends up -/

theorem concatLoop_zero : concatLoop 0 = [] := by
  rw [concatLoop, if_pos rfl]

theorem concatLoop_of_le {n : ℕ} (hn : 0 < n) (hle : n ≤ 32) : concatLoop n = [n] := by
  rw [concatLoop, if_neg hn.ne', Nat.min_eq_left hle, Nat.sub_self, concatLoop_zero]

theorem concatLoop_of_lt {n : ℕ} (hn : 32 < n) : concatLoop n = 32 :: concatLoop (n - 32) := by
  rw [concatLoop, if_neg (by omega), Nat.min_eq_right hn.le]

theorem length_concatLoop (n : ℕ) : (concatLoop n).length = (n + 31) / 32 := by
  induction n using Nat.strong_induction_on with
  | _ n ih =>
    rcases Nat.eq_zero_or_pos n with rfl | hn
    · rw [concatLoop_zero]
      rfl
    · rcases Nat.lt_or_ge 32 n with hlt | hle
      · rw [concatLoop_of_lt hlt, List.length_cons, ih (n - 32) (by omega)]
        omega
      · rw [concatLoop_of_le hn hle, List.length_singleton]
        omega

/-- The cells side by side: word `w` is at input `w % 32` of cell `w / 32`. -/
theorem flatten_concatLoop {α : Type} (f : ℕ → ℕ → α) (n : ℕ) :
    ((concatLoop n).mapIdx fun cell numPorts => (List.range numPorts).map (f cell)).flatten
      = (List.range n).map fun w => f (w / 32) (w % 32) := by
  induction n using Nat.strong_induction_on generalizing f with
  | _ n ih =>
    rcases Nat.eq_zero_or_pos n with rfl | hn
    · rw [concatLoop_zero]
      rfl
    · rcases Nat.lt_or_ge 32 n with hlt | hle
      · have hsplit : List.range n = List.range 32 ++ (List.range (n - 32)).map (32 + ·) := by
          rw [← List.range_add, Nat.add_sub_cancel' hlt.le]
        rw [concatLoop_of_lt hlt, List.mapIdx_cons, List.flatten_cons,
          ih (n - 32) (by omega) fun cell => f (cell + 1), hsplit, List.map_append, List.map_map]
        refine congrArg₂ (· ++ ·) ?_ ?_
        · refine List.map_congr_left fun w hw => ?_
          rw [Nat.div_eq_of_lt (List.mem_range.mp hw), Nat.mod_eq_of_lt (List.mem_range.mp hw)]
        · refine List.map_congr_left fun w _ => ?_
          rw [Function.comp_apply, Nat.add_div_left w (by decide), Nat.add_mod_left]
      · rw [concatLoop_of_le hn hle, List.mapIdx_singleton, List.flatten_singleton]
        refine List.map_congr_left fun w hw => ?_
        have hw' : w < 32 := (List.mem_range.mp hw).trans_le hle
        rw [Nat.div_eq_of_lt hw', Nat.mod_eq_of_lt hw']

/-- The first two words are not taken into account behind the first cell, and the last two
inputs that its registers are connected to do not exist. -/
theorem otherPort_eq_iff {i j : ℕ} :
    otherPort i = (j / 32, j % 32) ↔ (i < 30 ∧ j = 2 + i) ∨ (32 ≤ i ∧ j = i) := by
  rw [otherPort, Prod.mk.injEq, nHiddenPorts]
  split <;> omega

theorem otherPort_injective : Function.Injective otherPort := by
  intro i i' h
  obtain ⟨hcell, hinput⟩ := Prod.mk.inj h
  rw [nHiddenPorts] at hinput
  split at hinput <;> split at hinput <;> omega

/-- The hidden inputs are no register's. -/
theorem otherPort_ne {i k : ℕ} (hk : k < nHiddenPorts) : otherPort i ≠ (0, k) := by
  intro h
  obtain ⟨hcell, hinput⟩ := Prod.mk.inj h
  rw [if_pos hcell] at hinput
  omega

theorem lookup_map_eq_some {κ β : Type} [BEq κ] [LawfulBEq κ] {g : ℕ → κ}
    (hg : Function.Injective g) (v : ℕ → β) (l : List ℕ) (k : κ) (b : β) :
    (l.map fun i => (g i, v i)).lookup k = some b ↔ ∃ i ∈ l, g i = k ∧ v i = b := by
  induction l with
  | nil => simp
  | cons i l ih =>
    rw [List.map_cons, List.lookup_cons]
    by_cases hk : k = g i
    · rw [beq_iff_eq.mpr hk]
      show some (v i) = some b ↔ _
      rw [Option.some_inj]
      constructor
      · exact fun hb => ⟨i, List.mem_cons_self .., hk.symm, hb⟩
      · rintro ⟨i', -, hi', hb⟩
        rwa [hg (hi'.trans hk)] at hb
    · rw [beq_eq_false_iff_ne.mpr hk]
      show (l.map fun i => (g i, v i)).lookup k = some b ↔ _
      rw [ih]
      simp [Ne.symm hk]

/-- Entries for the hidden inputs do not get in the way of the others. -/
theorem lookup_hidden {β : Type} {a a' b : β} {others : List ((ℕ × ℕ) × β)} {k : ℕ × ℕ}
    (ha : a ≠ b) (ha' : a' ≠ b) (h : others.lookup (0, 0) ≠ some b)
    (h' : others.lookup (0, 1) ≠ some b) :
    ([((0, 0), a), ((0, 1), a')] ++ others).lookup k = some b ↔ others.lookup k = some b := by
  rw [List.lookup_append]
  by_cases hk : k = (0, 0)
  · subst hk
    exact iff_of_false (fun heq => ha (Option.some_inj.mp heq)) h
  · by_cases hk' : k = (0, 1)
    · subst hk'
      exact iff_of_false (fun heq => ha' (Option.some_inj.mp heq)) h'
    · rw [List.lookup_cons, beq_eq_false_iff_ne.mpr hk]
      show ((List.lookup k [((0, 1), a')]).or _) = some b ↔ _
      rw [List.lookup_cons, beq_eq_false_iff_ne.mpr hk']
      rfl

section Wiring

variable (isZynqMP hasDna : Bool) (memoryName : Bank) (registers : TclRegisters)

theorem stsData_addStatusRegister :
    (addStatusRegister isZynqMP memoryName registers hasDna).stsData
      = (List.range (2 + registers.size)).map fun w =>
          (addStatusRegister isZynqMP memoryName registers hasDna).driver (w / 32) (w % 32) := by
  have hcells : (concatLoop (2 + registers.size)).take ((2 + registers.size) / 32 + 1)
      = concatLoop (2 + registers.size) := by
    refine List.take_of_length_le ?_
    rw [length_concatLoop]
    omega
  have hwords : (2 + registers.size) * 32 / 32 = 2 + registers.size :=
    Nat.mul_div_cancel _ (by decide)
  unfold StatusBank.stsData StatusBank.dout
  show List.take ((2 + registers.size) * 32 / 32)
    (List.mapIdx _ ((concatLoop (2 + registers.size)).take
      ((2 + registers.size) / 32 + 1))).flatten = _
  rw [hwords, hcells, flatten_concatLoop, List.take_of_length_le]
  rw [List.length_map, List.length_range]

/-- The register whose pin is at an input, if there is one. -/
theorem driver_eq_register_iff {cell input : ℕ} {name : Str} :
    (addStatusRegister isZynqMP memoryName registers hasDna).driver cell input
        = some (.register name) ↔
      ∃ i < registers.size, otherPort i = (cell, input) ∧ registers.register i = name := by
  have hothers : ∀ k, ((List.range registers.size).map fun i =>
      (otherPort i, Source.register (registers.register i))).lookup k = some (.register name) ↔
        ∃ i < registers.size, otherPort i = k ∧ registers.register i = name := by
    intro k
    rw [lookup_map_eq_some otherPort_injective]
    simp only [List.mem_range, Source.register.injEq]
  have hfree : ∀ k < nHiddenPorts, ((List.range registers.size).map fun i =>
      (otherPort i, Source.register (registers.register i))).lookup (0, k)
        ≠ some (.register name) := by
    intro k hk h
    obtain ⟨i, -, hi, -⟩ := (hothers (0, k)).mp h
    exact otherPort_ne hk hi
  rw [← hothers, StatusBank.driver, addStatusRegister]
  split
  · exact lookup_hidden Source.noConfusion Source.noConfusion (hfree 0 (by decide))
      (hfree 1 (by decide))
  · exact lookup_hidden Source.noConfusion Source.noConfusion (hfree 0 (by decide))
      (hfree 1 (by decide))

/-- **Where a pin ends up**: the first 30 behind the hidden words, the next two nowhere, all
others at the word of their own number. -/
theorem wiredTo_iff {name : Str} {j : ℕ} :
    (addStatusRegister isZynqMP memoryName registers hasDna).WiredTo name j ↔
      ∃ i < registers.size, ((i < 30 ∧ j = 2 + i) ∨ (32 ≤ i ∧ j = i)) ∧
        registers.register i = name := by
  rw [StatusBank.WiredTo, stsData_addStatusRegister, List.getElem?_map]
  rcases Nat.lt_or_ge j (2 + registers.size) with hj | hj
  · rw [List.getElem?_range hj, Option.map_some, Option.some_inj, driver_eq_register_iff]
    simp only [otherPort_eq_iff]
  · rw [List.getElem?_eq_none (by rwa [List.length_range]), Option.map_none]
    refine iff_of_false (fun h => Option.some_ne_none _ h.symm) ?_
    rintro ⟨i, hi, hij, -⟩
    omega

end Wiring

/-! ## Both -/

/-- The register banks of a block design. -/
structure CtlSts where
  ctl : ConfigBank
  sts : StatusBank
  psCtl : Option ConfigBank
  psSts : Option StatusBank

/-- `add_ctl_sts` -/
def addCtlSts (isZynqMP includeDna : Bool) (config : TclConfig) : CtlSts where
  ctl := addConfigRegister .control config.ctl
  sts := addStatusRegister isZynqMP .status config.sts includeDna
  psCtl := if config.psCtl.size > 0 then some (addConfigRegister .psControl config.psCtl) else none
  psSts :=
    if config.psSts.size > 0 then some (addStatusRegister isZynqMP .psStatus config.psSts false)
    else none

/-! ## Software and block design -/

/-- A constant is the byte offset of the word that drives the pin of its register. -/
def ConfigBank.HasAt (bank : ConfigBank) (c : RegisterConstant) : Prop :=
  ∀ j, bank.DrivenBy c.name j ↔ c.offset = 4 * j

/-- A constant is the byte offset of the word that carries the pin of its register. -/
def StatusBank.HasAt (bank : StatusBank) (c : RegisterConstant) : Prop :=
  ∀ j, bank.WiredTo c.name j ↔ c.offset = 4 * j

section Agreement

variable {registers : List Str} (memoryName range : Bank)

theorem tclRegisters_register {i : ℕ} (hi : i < registers.length) :
    (tclRegisters registers).register i = registers[i] :=
  List.getD_eq_getElem registers [] hi

theorem drivenBy_iff (hunique : registers.Nodup) {i : ℕ} (hi : i < registers.length) {j : ℕ} :
    (addConfigRegister memoryName (tclRegisters registers)).DrivenBy registers[i] j ↔ i = j := by
  rw [ConfigBank.DrivenBy, addConfigRegister, List.mem_map]
  constructor
  · rintro ⟨i', hi', h⟩
    have hlt : i' < registers.length := List.mem_range.mp hi'
    obtain ⟨hname, -, hto⟩ := SlicePin.mk.inj h
    rw [tclRegisters_register hlt, hunique.getElem_inj_iff] at hname
    omega
  · rintro rfl
    refine ⟨i, List.mem_range.mpr hi, ?_⟩
    rw [tclRegisters_register hi, Nat.mul_comm, Nat.add_comm]

theorem wiredTo_tclRegisters_iff (hunique : registers.Nodup) {isZynqMP hasDna : Bool} {i : ℕ}
    (hi : i < registers.length) {j : ℕ} :
    (addStatusRegister isZynqMP memoryName (tclRegisters registers) hasDna).WiredTo
        registers[i] j ↔
      (i < 30 ∧ j = 2 + i) ∨ (32 ≤ i ∧ j = i) := by
  rw [wiredTo_iff]
  constructor
  · rintro ⟨i', hi', hj, hname⟩
    have hlt : i' < registers.length := hi'
    rw [tclRegisters_register hlt, hunique.getElem_inj_iff] at hname
    exact hname ▸ hj
  · exact fun hj => ⟨i, hi, hj, tclRegisters_register hi⟩

/-- The offsets of control registers are right, as long as they fit the constants. -/
theorem configBank_hasAt_iff (hunique : registers.Nodup) :
    (∀ c ∈ registerConstants registers (fun index0 => 4 * index0) range,
        (addConfigRegister memoryName (tclRegisters registers)).HasAt c) ↔
      registers.length ≤ 2 ^ 30 := by
  constructor
  · intro h
    by_contra hlen
    have hi : 2 ^ 30 < registers.length := Nat.lt_of_not_le hlen
    have hagree := h _ (mem_registerConstants.mpr ⟨2 ^ 30, hi, rfl⟩) (2 ^ 30)
    rw [drivenBy_iff memoryName hunique hi] at hagree
    have hoffset : 4 * 2 ^ 30 % 2 ^ 32 = 4 * 2 ^ 30 := hagree.mp rfl
    omega
  · intro hlen c hc j
    obtain ⟨i, hi, rfl⟩ := mem_registerConstants.mp hc
    rw [drivenBy_iff memoryName hunique hi]
    show i = j ↔ 4 * i % 2 ^ 32 = 4 * j
    omega

/-- The offsets of status registers are right up to the thirtieth. -/
theorem statusBank_hasAt_iff (hunique : registers.Nodup) (isZynqMP hasDna : Bool) :
    (∀ c ∈ registerConstants registers (fun index0 => 4 * (2 + index0)) range,
        (addStatusRegister isZynqMP memoryName (tclRegisters registers) hasDna).HasAt c) ↔
      registers.length ≤ 30 := by
  constructor
  · intro h
    by_contra hlen
    have hi : 30 < registers.length := Nat.lt_of_not_le hlen
    -- the pin of this one is in no word at all
    have hagree := h _ (mem_registerConstants.mpr ⟨30, hi, rfl⟩) 32
    rw [wiredTo_tclRegisters_iff memoryName hunique hi] at hagree
    have hwired := hagree.mpr rfl
    omega
  · intro hlen c hc j
    obtain ⟨i, hi, rfl⟩ := mem_registerConstants.mp hc
    rw [wiredTo_tclRegisters_iff memoryName hunique hi]
    show (i < 30 ∧ j = 2 + i) ∨ (32 ≤ i ∧ j = i) ↔ 4 * (2 + i) % 2 ^ 32 = 4 * j
    omega

/-- An offset that does not count the hidden words is wrong for the first register. -/
theorem exists_not_statusBank_hasAt (hunique : registers.Nodup) (isZynqMP hasDna : Bool)
    (hne : registers ≠ []) :
    ∃ c ∈ registerConstants registers (fun index0 => 4 * index0) range,
      ¬ (addStatusRegister isZynqMP memoryName (tclRegisters registers) hasDna).HasAt c := by
  have hi : 0 < registers.length := List.length_pos_iff.mpr hne
  refine ⟨_, mem_registerConstants.mpr ⟨0, hi, rfl⟩, fun h => ?_⟩
  have hagree := h 0
  rw [wiredTo_tclRegisters_iff memoryName hunique hi] at hagree
  have hwired := hagree.mpr rfl
  omega

end Agreement

/-! ### The banks of an instrument -/

section Instrument

theorem RegisterLists.names_nodup {config : RegisterLists} (hunique : config.names.Nodup) :
    config.control.Nodup ∧ config.psControl.Nodup ∧ config.status.Nodup ∧
      config.psStatus.Nodup := by
  rw [RegisterLists.names, List.nodup_append', List.nodup_append', List.nodup_append'] at hunique
  exact ⟨hunique.1.1.1, hunique.1.1.2.1, hunique.1.2.1, hunique.2.1⟩

/-- **The control and the status map.**  Header and block design agree as long as the status
registers and the two hidden words fit one `xlconcat`. -/
theorem ctl_sts_agree_iff (raw : RegisterLists) (parameters : Parameters)
    (isZynqMP includeDna : Bool) :
    ∀ config ∈ appendMemoryToConfig raw parameters, config.names.Nodup →
      ((∀ c ∈ (memoryHpp config).control,
          (addCtlSts isZynqMP includeDna (configTcl config)).ctl.HasAt c) ∧
        (∀ c ∈ (memoryHpp config).status,
          (addCtlSts isZynqMP includeDna (configTcl config)).sts.HasAt c) ↔
      config.control.length ≤ 2 ^ 30 ∧ config.status.length ≤ 30) := by
  intro config _ hunique
  obtain ⟨hcontrol, -, hstatus, -⟩ := RegisterLists.names_nodup hunique
  exact and_congr (configBank_hasAt_iff .control .control hcontrol)
    (statusBank_hasAt_iff .status .status hstatus isZynqMP includeDna)

/-- Two control registers from one entry and a status register. -/
theorem ctl_sts_agree_probe :
    (∀ c ∈ (memoryHpp ⟨["led0".toList, "led1".toList], [], ["adc".toList], []⟩).control,
      (addCtlSts false true
        (configTcl ⟨["led0".toList, "led1".toList], [], ["adc".toList], []⟩)).ctl.HasAt c) ∧
    (∀ c ∈ (memoryHpp ⟨["led0".toList, "led1".toList], [], ["adc".toList], []⟩).status,
      (addCtlSts false true
        (configTcl ⟨["led0".toList, "led1".toList], [], ["adc".toList], []⟩)).sts.HasAt c) :=
  (ctl_sts_agree_iff ⟨["led[n]".toList], [], ["adc".toList], []⟩ [("n".toList, 2)] false true
    _ rfl (by decide)).mpr ⟨by decide, by decide⟩

/-- With 31 status registers one of them is not connected. -/
theorem not_ctl_sts_agree :
    ¬ ∀ (raw : RegisterLists) (parameters : Parameters) (isZynqMP includeDna : Bool),
      ∀ config ∈ appendMemoryToConfig raw parameters, config.names.Nodup →
        (∀ c ∈ (memoryHpp config).control,
          (addCtlSts isZynqMP includeDna (configTcl config)).ctl.HasAt c) ∧
        (∀ c ∈ (memoryHpp config).status,
          (addCtlSts isZynqMP includeDna (configTcl config)).sts.HasAt c) := by
  intro h
  have hstatus : (expandRegister "adc".toList 31).Nodup := by decide
  have hagree := (h ⟨[], [], ["adc[31]".toList], []⟩ [] false true
    ⟨[], [], expandRegister "adc".toList 31, []⟩ rfl
    (by simpa [RegisterLists.names] using hstatus)).2
  have hlen := (statusBank_hasAt_iff .status .status hstatus false true).mp hagree
  revert hlen
  decide

/-- **The maps of the processing system.**  The control registers agree, the status registers
never do: the offsets leave out the hidden words, which are always there. -/
theorem ps_ctl_sts_agree_iff (raw : RegisterLists) (parameters : Parameters)
    (isZynqMP includeDna : Bool) :
    ∀ config ∈ appendMemoryToConfig raw parameters, config.names.Nodup →
      config.psControl.length ≤ 30 → config.psStatus.length ≤ 30 →
      ((∀ c ∈ (memoryHpp config).psControl,
          ∃ bank ∈ (addCtlSts isZynqMP includeDna (configTcl config)).psCtl,
            bank.HasAt c ∧ c.range = bank.memory) ∧
        (∀ c ∈ (memoryHpp config).psStatus,
          ∃ bank ∈ (addCtlSts isZynqMP includeDna (configTcl config)).psSts,
            bank.HasAt c ∧ c.range = bank.memory) ↔
      config.psStatus = []) := by
  intro config _ hunique hcontrolLen _
  obtain ⟨-, hcontrol, -, hstatus⟩ := RegisterLists.names_nodup hunique
  have hctl : ∀ c ∈ (memoryHpp config).psControl,
      ∃ bank ∈ (addCtlSts isZynqMP includeDna (configTcl config)).psCtl,
        bank.HasAt c ∧ c.range = bank.memory := by
    intro c hc
    obtain ⟨i, hi, hci⟩ := mem_registerConstants.mp hc
    have hpos : config.psControl.length > 0 := Nat.zero_lt_of_lt hi
    refine ⟨_, if_pos hpos, ?_, congrArg RegisterConstant.range hci⟩
    exact (configBank_hasAt_iff .psControl .psControl hcontrol).mpr (by omega) c hc
  constructor
  · rintro ⟨-, hsts⟩
    by_contra hne
    obtain ⟨c, hc, hnot⟩ :=
      exists_not_statusBank_hasAt .psStatus .status hstatus isZynqMP false hne
    have hpos : config.psStatus.length > 0 := List.length_pos_iff.mpr hne
    have hsome : (addCtlSts isZynqMP includeDna (configTcl config)).psSts
        = some (addStatusRegister isZynqMP .psStatus (tclRegisters config.psStatus) false) :=
      if_pos hpos
    obtain ⟨bank, hbank, hhas, -⟩ := hsts c hc
    rw [hsome, Option.mem_some_iff] at hbank
    exact hnot (hbank ▸ hhas)
  · intro hnil
    refine ⟨hctl, fun c hc => ?_⟩
    obtain ⟨i, hi, -⟩ := mem_registerConstants.mp hc
    rw [hnil] at hi
    exact absurd hi (Nat.not_lt_zero i)

/-- An instrument with control registers only. -/
theorem ps_ctl_sts_agree_probe :
    (∀ c ∈ (memoryHpp ⟨[], ["led0".toList, "led1".toList], [], []⟩).psControl,
      ∃ bank ∈ (addCtlSts false true
          (configTcl ⟨[], ["led0".toList, "led1".toList], [], []⟩)).psCtl,
        bank.HasAt c ∧ c.range = bank.memory) ∧
    (∀ c ∈ (memoryHpp ⟨[], ["led0".toList, "led1".toList], [], []⟩).psStatus,
      ∃ bank ∈ (addCtlSts false true
          (configTcl ⟨[], ["led0".toList, "led1".toList], [], []⟩)).psSts,
        bank.HasAt c ∧ c.range = bank.memory) :=
  (ps_ctl_sts_agree_iff ⟨[], ["led[2]".toList], [], []⟩ [] false true _ rfl (by decide)
    (by decide) (by decide)).mpr rfl

/-- One status register is enough. -/
theorem not_ps_ctl_sts_agree :
    ¬ ∀ (raw : RegisterLists) (parameters : Parameters) (isZynqMP includeDna : Bool),
      ∀ config ∈ appendMemoryToConfig raw parameters, config.names.Nodup →
        config.psControl.length ≤ 30 → config.psStatus.length ≤ 30 →
        (∀ c ∈ (memoryHpp config).psControl,
          ∃ bank ∈ (addCtlSts isZynqMP includeDna (configTcl config)).psCtl,
            bank.HasAt c ∧ c.range = bank.memory) ∧
        (∀ c ∈ (memoryHpp config).psStatus,
          ∃ bank ∈ (addCtlSts isZynqMP includeDna (configTcl config)).psSts,
            bank.HasAt c ∧ c.range = bank.memory) := by
  intro h
  have hagree := (h ⟨[], [], [], ["adc".toList]⟩ [] false true ⟨[], [], [], ["adc".toList]⟩
    rfl (by decide) (by decide) (by decide)).2
  obtain ⟨bank, hbank, -, hrange⟩ := hagree ⟨"adc".toList, 0, .status⟩ (by decide)
  rw [← Option.mem_some_iff.mp hbank] at hrange
  exact Bank.noConfusion hrange

end Instrument

end KoheronSdk
