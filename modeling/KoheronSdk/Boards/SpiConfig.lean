import KoheronSdk.Lib.Transition
import KoheronSdk.Fpga.SpiCfg

/-!
# The driver of the configuration SPI

`SpiConfig::write_reg` waits until the core is ready, writes the data and then the command
with its valid bit, and clears that bit again.  The core takes a command whenever it is ready
and the bit is set, so that it matters when the bit is cleared.

Processor and core have clocks of their own, and nothing says how many clocks of the core lie
between two accesses.  `step` is one access or one clock, in any order.  If the bit is cleared
before the core has seen it, the command is lost.  If it is still set when the frame is over,
the core takes the command once more, and the slave has the same data twice.

`Synced` is the invariant of the runs in time.  It has one constructor for each of the three
states in which the two can stand to each other: nothing is asked for, a command is written and not
taken, or a frame is on its way.  In the last one the registers of the core and what is seen on the
bus are `SpiCfg.inFrame` and `SpiSlave.inFrame`, which are proved of the core alone.

* `SpiConfig.step`: an access of the processor or a clock of the core, in any order.
* `OneFrameEach`: every call has had one frame, but that the last one may be outstanding.
* `oneFrameEach_iff_inTime`: this holds throughout a run exactly when the bit is cleared in
  time, after a clock and before the end of the frame.
-/

namespace KoheronSdk

open Transition

/-- A call `write_reg<cs_id, nbytes>(data)`. -/
structure WriteReg where
  csId : ℕ
  nbytes : ℕ
  data : BitVec 32
  csId_le : csId ≤ 2
  nbytes_pos : 0 < nbytes
  nbytes_le : nbytes ≤ 4
  deriving DecidableEq

namespace WriteReg

/-- `TVALID_IDX` -/
def tvalidIdx : ℕ := 8

/-- `cmd` -/
def cmd (call : WriteReg) : BitVec 32 :=
  BitVec.ofNat 32 ((1 <<< tvalidIdx) + ((call.nbytes - 1) <<< 2) + call.csId)

/-- The frame that the call asks for. -/
def frame (nSlaves : ℕ) (call : WriteReg) : SpiFrame nSlaves :=
  ⟨BitVec.allOnes nSlaves &&& ~~~((1 : BitVec nSlaves) <<< call.csId),
    SpiSlave.firstBits call.data (8 * call.nbytes)⟩

end WriteReg

namespace SpiConfig

/-- The next access of the processor. -/
inductive Access where
  | poll
  | writeData
  | writeCmd
  | clearTvalid
  deriving DecidableEq, Repr

/-- The processor in the calls to `write_reg` that are made one after another under the lock,
its two registers, the core and what is seen on the bus.  `issued` are the calls whose command
has been written, `delay` the clocks since the last one. -/
structure State (clkDiv nSlaves : ℕ) where
  todo : List WriteReg
  next : Access
  spiCfgData : BitVec 32
  spiCfgCmd : BitVec 32
  core : SpiCfg clkDiv nSlaves
  bus : SpiSlave nSlaves
  issued : List WriteReg
  delay : ℕ

/-- Who goes on. -/
inductive Label where
  | cpu
  | clock
  deriving DecidableEq, Repr

variable {clkDiv nSlaves : ℕ}

/-- `s_axis_tvalid` and `cmd` are slices of the register. -/
def clock (s : State clkDiv nSlaves) : State clkDiv nSlaves :=
  let core := s.core.posedge s.spiCfgData (s.spiCfgCmd.getLsbD 8) (s.spiCfgCmd.setWidth 8)
  { s with core := core, bus := s.bus.pins core, delay := s.delay + 1 }

/-- One access of the processor, or one clock. -/
def step (s : State clkDiv nSlaves) : Label → Option (State clkDiv nSlaves)
  | .clock => some (clock s)
  | .cpu =>
    match s.next, s.todo with
    | .poll, _ :: _ =>
      if s.core.sAxisTready = false then some s else some { s with next := .writeData }
    | .writeData, call :: _ => some { s with spiCfgData := call.data, next := .writeCmd }
    | .writeCmd, call :: rest =>
      some { s with
        spiCfgCmd := call.cmd, next := .clearTvalid, todo := rest,
        issued := s.issued ++ [call], delay := 0 }
    | .clearTvalid, _ =>
      some { s with
        spiCfgCmd := s.spiCfgCmd &&& ~~~(1#32 <<< WriteReg.tvalidIdx), next := .poll }
    | _, [] => none

/-- Power up: `core` holds anything where the core has no initial value. -/
def start (core : SpiCfg clkDiv nSlaves) (calls : List WriteReg) : State clkDiv nSlaves where
  todo := calls
  next := .poll
  spiCfgData := 0
  spiCfgCmd := 0
  core := { core with
    sAxisTready := true, cs := BitVec.allOnes nSlaves, endSequence := false, cntClk := 0 }
  bus := ⟨core.sclk, none, []⟩
  issued := []
  delay := 0

/-- The last frame has not been shifted out to its end. -/
def outstanding (s : State clkDiv nSlaves) : Prop :=
  s.core.sAxisTready = false ∨ (s.next = .clearTvalid ∧ s.delay = 0)

instance (s : State clkDiv nSlaves) : Decidable (outstanding s) :=
  inferInstanceAs (Decidable (_ ∨ _))

/-- The frames are those of the calls, in order, one for each. -/
def OneFrameEach (s : State clkDiv nSlaves) : Prop :=
  s.bus.frames =
    (if outstanding s then s.issued.dropLast else s.issued).map (WriteReg.frame nSlaves)

instance (s : State clkDiv nSlaves) : Decidable (OneFrameEach s) :=
  inferInstanceAs (Decidable (s.bus.frames = _))

/-- The valid bit is cleared after a clock at least, and before the frame is over. -/
def InTime (s : State clkDiv nSlaves) : Label → Prop
  | .cpu => s.next = .clearTvalid → 1 ≤ s.delay
  | .clock => s.next = .clearTvalid → ∀ call ∈ s.issued.getLast?,
      s.delay ≤ SpiCfg.frameClocks clkDiv (8 * call.nbytes)

instance (s : State clkDiv nSlaves) : (l : Label) → Decidable (InTime s l)
  | .cpu => inferInstanceAs (Decidable (s.next = .clearTvalid → 1 ≤ s.delay))
  | .clock => inferInstanceAs (Decidable (s.next = .clearTvalid → ∀ call ∈ s.issued.getLast?,
      s.delay ≤ SpiCfg.frameClocks clkDiv (8 * call.nbytes)))

end SpiConfig

/-! ## Commands -/

namespace WriteReg

variable (call : WriteReg) {nSlaves : ℕ}

/-- The fields of the command register. -/
theorem cmd_fields : call.cmd.getLsbD 8 = true ∧
    SpiCfg.lengthField (call.cmd.setWidth 8) = call.nbytes - 1 ∧
    (call.cmd.setWidth 8).toNat % 4 = call.csId := by
  have hall : ∀ n < 4, ∀ cs < 3,
      (BitVec.ofNat 32 ((1 <<< tvalidIdx) + (n <<< 2) + cs)).getLsbD 8 = true ∧
      SpiCfg.lengthField ((BitVec.ofNat 32 ((1 <<< tvalidIdx) + (n <<< 2) + cs)).setWidth 8) = n ∧
      ((BitVec.ofNat 32 ((1 <<< tvalidIdx) + (n <<< 2) + cs)).setWidth 8).toNat % 4 = cs := by
    decide
  have hle := call.nbytes_le
  have hpos := call.nbytes_pos
  exact hall (call.nbytes - 1) (by omega) call.csId (Nat.lt_succ_iff.mpr call.csId_le)

theorem frameBits_cmd : SpiCfg.frameBits (call.cmd.setWidth 8) = 8 * call.nbytes := by
  rw [SpiCfg.frameBits, call.cmd_fields.2.1, Nat.sub_add_cancel call.nbytes_pos]

theorem select_cmd : SpiCfg.select (BitVec.allOnes nSlaves) (call.cmd.setWidth 8)
    = (call.frame nSlaves).cs := by
  rw [SpiCfg.select, call.cmd_fields.2.2]
  rfl

/-- One of the chip selects is low in the frame. -/
theorem frame_cs_ne (hslaves : 3 ≤ nSlaves) :
    (call.frame nSlaves).cs ≠ BitVec.allOnes nSlaves := by
  intro h
  have hlt : call.csId < nSlaves := (Nat.lt_succ_iff.mpr call.csId_le).trans_le hslaves
  have hbit := congrArg (BitVec.getLsbD · call.csId) h
  simp [frame, hlt] at hbit

end WriteReg

namespace SpiConfig

variable {clkDiv nSlaves : ℕ}

theorem getLsbD_cleared (cmd : BitVec 32) :
    (cmd &&& ~~~(1#32 <<< WriteReg.tvalidIdx)).getLsbD 8 = false := by
  simp [WriteReg.tvalidIdx]

/-! ## In step with the core -/

/-- How processor, core and bus stand to each other as long as the bit is cleared in time. -/
inductive Synced : State clkDiv nSlaves → Prop where
  /-- The core waits for the next command. -/
  | waiting {s : State clkDiv nSlaves} (hnext : s.next ≠ .clearTvalid)
    (htvalid : s.spiCfgCmd.getLsbD 8 = false)
    (hdata : s.next = .writeCmd → ∀ call ∈ s.todo.head?, s.spiCfgData = call.data)
    (hcore : s.core.Idle) (hbus : s.bus.current = none)
    (hframes : s.bus.frames = s.issued.map (WriteReg.frame nSlaves)) : Synced s
  /-- The command has been written, and not been taken yet. -/
  | commanded {s : State clkDiv nSlaves} {calls : List WriteReg} {call : WriteReg}
    (hnext : s.next = .clearTvalid) (hcmd : s.spiCfgCmd = call.cmd)
    (hdata : s.spiCfgData = call.data) (hcore : s.core.Idle) (hbus : s.bus.current = none)
    (hissued : s.issued = calls ++ [call])
    (hframes : s.bus.frames = calls.map (WriteReg.frame nSlaves)) (hdelay : s.delay = 0) : Synced s
  /-- The frame is being shifted out. -/
  | shifting {s : State clkDiv nSlaves} {calls : List WriteReg} {call : WriteReg} (sdi : Bool)
    (k c : ℕ) (hk : k ≤ 8 * call.nbytes) (hc : c < 2 ^ clkDiv)
    (hcore : s.core = SpiCfg.inFrame clkDiv (call.frame nSlaves).cs call.data
      (call.cmd.setWidth 8) sdi k c)
    (hbus : s.bus = SpiSlave.inFrame clkDiv (call.frame nSlaves).cs call.data
      (calls.map (WriteReg.frame nSlaves)) k c)
    (hissued : s.issued = calls ++ [call])
    (hnext : (s.next = .poll ∧ s.spiCfgCmd.getLsbD 8 = false) ∨
      (s.next = .clearTvalid ∧ s.spiCfgCmd.getLsbD 8 = true ∧
        s.delay = 2 ^ clkDiv * k + c + 1)) : Synced s
  /-- The frame is over, and the bit still set. -/
  | late {s : State clkDiv nSlaves} {calls : List WriteReg} {call : WriteReg}
    (hnext : s.next = .clearTvalid) (htvalid : s.spiCfgCmd.getLsbD 8 = true)
    (hcore : s.core.Idle) (hbus : s.bus.current = none)
    (hissued : s.issued = calls ++ [call])
    (hframes : s.bus.frames = s.issued.map (WriteReg.frame nSlaves))
    (hdelay : s.delay = SpiCfg.frameClocks clkDiv (8 * call.nbytes) + 1) : Synced s

/-- What an access can be. -/
theorem step_cpu_cases {s s' : State clkDiv nSlaves} (hstep : step s .cpu = some s') :
    (s.next = .poll ∧ s.core.sAxisTready = false ∧ s' = s) ∨
    (s.next = .poll ∧ s.core.sAxisTready = true ∧ s' = { s with next := .writeData }) ∨
    (∃ call rest, s.next = .writeData ∧ s.todo = call :: rest ∧
      s' = { s with spiCfgData := call.data, next := .writeCmd }) ∨
    (∃ call rest, s.next = .writeCmd ∧ s.todo = call :: rest ∧
      s' = { s with
        spiCfgCmd := call.cmd, next := .clearTvalid, todo := rest,
        issued := s.issued ++ [call], delay := 0 }) ∨
    (s.next = .clearTvalid ∧
      s' = { s with
        spiCfgCmd := s.spiCfgCmd &&& ~~~(1#32 <<< WriteReg.tvalidIdx), next := .poll }) := by
  obtain ⟨todo, next, data, cmd, core, bus, issued, delay⟩ := s
  cases next with
  | poll =>
    cases todo with
    | nil => simp [step] at hstep
    | cons call rest =>
      have hpoll : (if core.sAxisTready = false then some (⟨call :: rest, .poll, data, cmd, core,
            bus, issued, delay⟩ : State clkDiv nSlaves)
          else some ⟨call :: rest, .writeData, data, cmd, core, bus, issued, delay⟩) = some s' :=
        hstep
      split at hpoll
      · rename_i hbusy
        exact Or.inl ⟨rfl, hbusy, (Option.some.inj hpoll).symm⟩
      · rename_i hready
        exact Or.inr (Or.inl
          ⟨rfl, Bool.eq_true_of_not_eq_false hready, (Option.some.inj hpoll).symm⟩)
  | writeData =>
    cases todo with
    | nil => simp [step] at hstep
    | cons call rest =>
      exact Or.inr (Or.inr (Or.inl ⟨call, rest, rfl, rfl, (Option.some.inj hstep).symm⟩))
  | writeCmd =>
    cases todo with
    | nil => simp [step] at hstep
    | cons call rest =>
      exact Or.inr (Or.inr (Or.inr (Or.inl ⟨call, rest, rfl, rfl, (Option.some.inj hstep).symm⟩)))
  | clearTvalid =>
    exact Or.inr (Or.inr (Or.inr (Or.inr ⟨rfl, (Option.some.inj hstep).symm⟩)))

theorem Synced.oneFrameEach {s : State clkDiv nSlaves} (h : Synced s) : OneFrameEach s := by
  rw [OneFrameEach]
  cases h with
  | waiting hnext htvalid hdata hcore hbus hframes =>
    have hdone : ¬ outstanding s := by
      rintro (hbusy | hcleared)
      · exact Bool.noConfusion (hcore.ready.symm.trans hbusy)
      · exact hnext hcleared.1
    rw [if_neg hdone, hframes]
  | commanded hnext hcmd hdata hcore hbus hissued hframes hdelay =>
    have hout : outstanding s := Or.inr ⟨hnext, hdelay⟩
    rw [if_pos hout, hissued, List.dropLast_concat, hframes]
  | shifting sdi k c hk hc hcore hbus hissued hnext =>
    have hout : outstanding s := Or.inl (hcore ▸ rfl)
    rw [if_pos hout, hissued, List.dropLast_concat, hbus]
    rfl
  | late hnext htvalid hcore hbus hissued hframes hdelay =>
    have hdone : ¬ outstanding s := by
      rintro (hbusy | hcleared)
      · exact Bool.noConfusion (hcore.ready.symm.trans hbusy)
      · rw [hdelay] at hcleared
        exact Nat.succ_ne_zero _ hcleared.2
    rw [if_neg hdone, hframes]

/-- A clock in the middle of a frame. -/
theorem Synced.clock_shifting (hdiv : 0 < clkDiv) (hslaves : 3 ≤ nSlaves)
    {s : State clkDiv nSlaves} {calls : List WriteReg} {call : WriteReg} {sdi : Bool} {k c : ℕ}
    (hk : k ≤ 8 * call.nbytes) (hc : c < 2 ^ clkDiv)
    (hcore : s.core = SpiCfg.inFrame clkDiv (call.frame nSlaves).cs call.data
      (call.cmd.setWidth 8) sdi k c)
    (hbus : s.bus = SpiSlave.inFrame clkDiv (call.frame nSlaves).cs call.data
      (calls.map (WriteReg.frame nSlaves)) k c)
    (hissued : s.issued = calls ++ [call])
    (hnext : (s.next = .poll ∧ s.spiCfgCmd.getLsbD 8 = false) ∨
      (s.next = .clearTvalid ∧ s.spiCfgCmd.getLsbD 8 = true ∧
        s.delay = 2 ^ clkDiv * k + c + 1)) : Synced (SpiConfig.clock s) := by
  have hcs := call.frame_cs_ne hslaves
  have hbits := call.nbytes_le
  have hclock : (SpiConfig.clock s).core = s.core.posedge s.spiCfgData (s.spiCfgCmd.getLsbD 8)
      (s.spiCfgCmd.setWidth 8) := rfl
  have hbus' : (SpiConfig.clock s).bus = s.bus.pins (SpiConfig.clock s).core := rfl
  rcases Nat.lt_or_ge (c + 1) (2 ^ clkDiv) with hlt | hend
  · have hcore' : (SpiConfig.clock s).core = SpiCfg.inFrame clkDiv (call.frame nSlaves).cs call.data
        (call.cmd.setWidth 8) sdi k (c + 1) := by
      rw [hclock, hcore]
      exact SpiCfg.posedge_inFrame _ _ _ hlt
    refine .shifting sdi k (c + 1) hk hlt hcore' ?_ hissued ?_
    · rw [hbus', hcore', hbus]
      exact SpiSlave.pins_inFrame hcs (by omega)
    · exact hnext.imp_right fun h => ⟨h.1, h.2.1, congrArg (· + 1) h.2.2⟩
  · have hc' : c = 2 ^ clkDiv - 1 := by omega
    subst hc'
    rcases Nat.lt_or_ge k (8 * call.nbytes) with hbit | hlast
    · have hcore' : (SpiConfig.clock s).core = SpiCfg.inFrame clkDiv (call.frame nSlaves).cs
          call.data (call.cmd.setWidth 8) sdi (k + 1) 0 := by
        rw [hclock, hcore]
        exact SpiCfg.posedge_nextBit _ _ _ hdiv (call.frameBits_cmd ▸ hbit)
      refine .shifting sdi (k + 1) 0 hbit (Nat.two_pow_pos _) hcore' ?_ hissued ?_
      · rw [hbus', hcore', hbus]
        exact SpiSlave.pins_nextBit hdiv hcs
      · refine hnext.imp_right fun h => ⟨h.1, h.2.1, ?_⟩
        show s.delay + 1 = 2 ^ clkDiv * (k + 1) + 0 + 1
        rw [h.2.2, Nat.mul_succ]
        omega
    · have hk' : k = SpiCfg.frameBits (call.cmd.setWidth 8) := by
        rw [call.frameBits_cmd]
        omega
      have hidle : (SpiConfig.clock s).core.Idle := by
        rw [hclock, hcore, hk']
        exact SpiCfg.posedge_lastPeriod _ _ _
      have hseen : (SpiConfig.clock s).bus = ⟨(SpiConfig.clock s).core.sclk, none,
          s.issued.map (WriteReg.frame nSlaves)⟩ := by
        rw [hbus', hbus, SpiSlave.pins_end hdiv (by have := call.nbytes_pos; omega) hidle,
          hissued, List.map_append, hk', call.frameBits_cmd]
        rfl
      rcases hnext with ⟨hpoll, htvalid⟩ | ⟨hclear, htvalid, hdelay⟩
      · refine .waiting (fun h => ?_) htvalid (fun h => ?_) hidle (hseen ▸ rfl) (hseen ▸ rfl)
        · exact Access.noConfusion (hpoll.symm.trans h)
        · exact Access.noConfusion (hpoll.symm.trans h)
      · refine .late hclear htvalid hidle (hseen ▸ rfl) hissued (hseen ▸ rfl) ?_
        show s.delay + 1 = _
        rw [hdelay, SpiCfg.frameClocks, hk', call.frameBits_cmd, Nat.mul_succ]
        omega

theorem Synced.clock (hdiv : 0 < clkDiv) (hslaves : 3 ≤ nSlaves) {s : State clkDiv nSlaves}
    (h : Synced s) (htime : InTime s .clock) : Synced (clock s) := by
  cases h with
  | waiting hnext htvalid hdata hcore hbus hframes =>
    have hidle : (SpiConfig.clock s).core.Idle := by
      rw [SpiConfig.clock, htvalid]
      exact SpiCfg.posedge_idle _ _ hcore
    have hseen : (SpiConfig.clock s).bus
        = ⟨(SpiConfig.clock s).core.sclk, none, s.bus.frames⟩ := SpiSlave.pins_idle hbus hidle
    exact .waiting hnext htvalid hdata hidle (hseen ▸ rfl) (hseen ▸ hframes)
  | @commanded calls call hnext hcmd hdata hcore hbus hissued hframes hdelay =>
    have htvalid : s.spiCfgCmd.getLsbD 8 = true := hcmd ▸ call.cmd_fields.1
    have hcore' : (SpiConfig.clock s).core = SpiCfg.inFrame clkDiv (call.frame nSlaves).cs
        call.data (call.cmd.setWidth 8) s.core.sdi 0 0 := by
      rw [SpiConfig.clock, htvalid, hcmd, hdata, ← call.select_cmd]
      exact SpiCfg.posedge_accept _ _ hcore
    refine .shifting s.core.sdi 0 0 (Nat.zero_le _) (Nat.two_pow_pos _) hcore' ?_ hissued ?_
    · show s.bus.pins (SpiConfig.clock s).core = _
      rw [hcore', ← hframes]
      exact SpiSlave.pins_accept hbus (call.frame_cs_ne hslaves)
    · refine Or.inr ⟨hnext, htvalid, ?_⟩
      show s.delay + 1 = _
      rw [hdelay, Nat.mul_zero]
  | shifting sdi k c hk hc hcore hbus hissued hnext =>
    exact clock_shifting hdiv hslaves hk hc hcore hbus hissued hnext
  | @late calls call hnext htvalid hcore hbus hissued hframes hdelay =>
    have hin := htime hnext call (by rw [hissued, List.getLast?_concat]; rfl)
    omega

theorem Synced.cpu {s s' : State clkDiv nSlaves} (h : Synced s) (htime : InTime s .cpu)
    (hstep : step s .cpu = some s') : Synced s' := by
  have hcases := step_cpu_cases hstep
  cases h with
  | waiting hnext htvalid hdata hcore hbus hframes =>
    rcases hcases with ⟨-, -, rfl⟩ | ⟨-, -, rfl⟩ | ⟨call, rest, -, htodo, rfl⟩ |
      ⟨call, rest, hcmd, htodo, rfl⟩ | ⟨hclear, -⟩
    · exact .waiting hnext htvalid hdata hcore hbus hframes
    · exact .waiting Access.noConfusion htvalid (fun h => Access.noConfusion h) hcore hbus hframes
    · refine .waiting Access.noConfusion htvalid (fun _ call' hcall' => ?_) hcore hbus hframes
      rw [htodo] at hcall'
      exact congrArg WriteReg.data (Option.some.inj hcall')
    · have hcall : s.spiCfgData = call.data := hdata hcmd call (by rw [htodo]; rfl)
      exact .commanded rfl rfl hcall hcore hbus rfl hframes rfl
    · exact absurd hclear hnext
  | commanded hnext hcmd hdata hcore hbus hissued hframes hdelay =>
    exact absurd (htime hnext) (by omega)
  | @shifting calls call sdi k c hk hc hcore hbus hissued hnext =>
    rcases hnext with ⟨hpoll, htvalid⟩ | ⟨hclear, htvalid, hdelay⟩
    · rcases hcases with ⟨-, -, rfl⟩ | ⟨-, hready, -⟩ | ⟨call', rest, hother, -⟩ |
        ⟨call', rest, hother, -⟩ | ⟨hother, -⟩
      · exact .shifting sdi k c hk hc hcore hbus hissued (Or.inl ⟨hpoll, htvalid⟩)
      · rw [hcore] at hready
        exact Bool.noConfusion hready
      · exact Access.noConfusion (hpoll.symm.trans hother)
      · exact Access.noConfusion (hpoll.symm.trans hother)
      · exact Access.noConfusion (hpoll.symm.trans hother)
    · rcases hcases with ⟨hother, -⟩ | ⟨hother, -⟩ | ⟨call', rest, hother, -⟩ |
        ⟨call', rest, hother, -⟩ | ⟨-, rfl⟩
      · exact Access.noConfusion (hclear.symm.trans hother)
      · exact Access.noConfusion (hclear.symm.trans hother)
      · exact Access.noConfusion (hclear.symm.trans hother)
      · exact Access.noConfusion (hclear.symm.trans hother)
      · exact .shifting sdi k c hk hc hcore hbus hissued (Or.inl ⟨rfl, getLsbD_cleared _⟩)
  | late hnext htvalid hcore hbus hissued hframes hdelay =>
    rcases hcases with ⟨hother, -⟩ | ⟨hother, -⟩ | ⟨call', rest, hother, -⟩ |
      ⟨call', rest, hother, -⟩ | ⟨-, rfl⟩
    · exact Access.noConfusion (hnext.symm.trans hother)
    · exact Access.noConfusion (hnext.symm.trans hother)
    · exact Access.noConfusion (hnext.symm.trans hother)
    · exact Access.noConfusion (hnext.symm.trans hother)
    · exact .waiting Access.noConfusion (getLsbD_cleared _) (fun h => Access.noConfusion h)
        hcore hbus
        hframes

/-! ### Out of time -/

theorem InTime.of_next_ne {s : State clkDiv nSlaves} (hnext : s.next ≠ .clearTvalid) (l : Label) :
    InTime s l := by
  cases l with
  | cpu => exact fun h => absurd h hnext
  | clock => exact fun h => absurd h hnext

/-- The bit was cleared before the core had seen it: the command is lost. -/
theorem not_oneFrameEach_of_early {s s' : State clkDiv nSlaves} {calls : List WriteReg}
    {call : WriteReg} (hnext : s.next = .clearTvalid) (hcore : s.core.Idle)
    (hissued : s.issued = calls ++ [call])
    (hframes : s.bus.frames = calls.map (WriteReg.frame nSlaves))
    (hstep : step s .cpu = some s') : ¬ OneFrameEach s' := by
  intro hone
  rcases step_cpu_cases hstep with ⟨hother, -⟩ | ⟨hother, -⟩ | ⟨call', rest, hother, -⟩ |
    ⟨call', rest, hother, -⟩ | ⟨-, rfl⟩
  · exact Access.noConfusion (hnext.symm.trans hother)
  · exact Access.noConfusion (hnext.symm.trans hother)
  · exact Access.noConfusion (hnext.symm.trans hother)
  · exact Access.noConfusion (hnext.symm.trans hother)
  · have hdone : ¬ outstanding { s with
        spiCfgCmd := s.spiCfgCmd &&& ~~~(1#32 <<< WriteReg.tvalidIdx), next := Access.poll } := by
      rintro (hbusy | hcleared)
      · exact Bool.noConfusion (hcore.ready.symm.trans hbusy)
      · exact Access.noConfusion hcleared.1
    rw [OneFrameEach, if_neg hdone] at hone
    have hlen := congrArg List.length (hframes.symm.trans hone)
    rw [List.length_map, List.length_map] at hlen
    dsimp only at hlen
    rw [hissued, List.length_append, List.length_singleton] at hlen
    omega

/-- The bit is still set when the core is ready again: the command is taken twice. -/
theorem not_oneFrameEach_of_late {s : State clkDiv nSlaves} {calls : List WriteReg}
    {call : WriteReg} (htvalid : s.spiCfgCmd.getLsbD 8 = true) (hcore : s.core.Idle)
    (hbus : s.bus.current = none) (hissued : s.issued = calls ++ [call])
    (hframes : s.bus.frames = s.issued.map (WriteReg.frame nSlaves)) :
    ¬ OneFrameEach (clock s) := by
  intro hone
  have hout : outstanding (clock s) := by
    refine Or.inl ?_
    rw [clock, htvalid]
    exact congrArg SpiCfg.sAxisTready (SpiCfg.posedge_accept s.spiCfgData _ hcore)
  have hsame : (clock s).bus.frames = s.bus.frames := SpiSlave.frames_pins hbus _
  rw [OneFrameEach, if_pos hout, hsame, hframes] at hone
  have hlen := congrArg List.length hone
  rw [List.length_map, List.length_map] at hlen
  change s.issued.length = s.issued.dropLast.length at hlen
  rw [hissued, List.dropLast_concat, List.length_append, List.length_singleton] at hlen
  omega

theorem Synced.not_inTime {s s' : State clkDiv nSlaves} {l : Label} (h : Synced s)
    (htime : ¬ InTime s l) (hstep : step s l = some s') : ¬ OneFrameEach s' := by
  cases h with
  | waiting hnext htvalid hdata hcore hbus hframes => exact absurd (InTime.of_next_ne hnext l) htime
  | commanded hnext hcmd hdata hcore hbus hissued hframes hdelay =>
    cases l with
    | cpu => exact not_oneFrameEach_of_early hnext hcore hissued hframes hstep
    | clock => exact absurd (fun _ call _ => hdelay ▸ Nat.zero_le _) htime
  | @shifting calls call sdi k c hk hc hcore hbus hissued hnext =>
    -- a frame that goes on is in time
    refine absurd ?_ htime
    rcases hnext with ⟨hpoll, -⟩ | ⟨hclear, -, hdelay⟩
    · exact InTime.of_next_ne (fun h => Access.noConfusion (hpoll.symm.trans h)) l
    · cases l with
      | cpu => exact fun _ => hdelay ▸ Nat.succ_pos _
      | clock =>
        intro _ call' hcall'
        rw [hissued, List.getLast?_concat, Option.mem_some_iff] at hcall'
        rw [← hcall', hdelay, SpiCfg.frameClocks, Nat.mul_succ]
        have hmul := Nat.mul_le_mul_left (2 ^ clkDiv) hk
        omega
  | late hnext htvalid hcore hbus hissued hframes hdelay =>
    cases l with
    | cpu => exact absurd (fun _ => hdelay ▸ Nat.succ_pos _) htime
    | clock =>
      exact Option.some.inj hstep ▸ not_oneFrameEach_of_late htvalid hcore hbus hissued hframes

/-! ## Runs -/

/-- **One frame for each call**, throughout a run, exactly when the valid bit is cleared in
time in all of its calls. -/
theorem oneFrameEach_iff_inTime (hdiv : 0 < clkDiv) (hslaves : 3 ≤ nSlaves)
    (core : SpiCfg clkDiv nSlaves) (calls : List WriteReg) (ls : List Label)
    {s' : State clkDiv nSlaves} (hrun : run step (start core calls) ls = some s') :
    Throughout step OneFrameEach (start core calls) ls ↔
      Along step InTime (start core calls) ls := by
  refine throughout_iff_along_of_invariant (fun s => Synced.oneFrameEach) ?_
    (fun s l s' => Synced.not_inTime) ?_ hrun
  · intro s l s' h htime hstep
    cases l with
    | cpu => exact h.cpu htime hstep
    | clock => exact Option.some.inj hstep ▸ h.clock hdiv hslaves htime
  · have htvalid : (0 : BitVec 32).getLsbD 8 = false := by decide
    exact .waiting Access.noConfusion htvalid (fun h => Access.noConfusion h) ⟨rfl, rfl, rfl⟩
      rfl rfl

/-- The core of the boards, before anything has happened. -/
def probeCore : SpiCfg 3 3 := ⟨7, false, false, true, 0, 0, 0, 0, false, false⟩

/-- One byte for the second slave. -/
def probeCall : WriteReg := ⟨1, 1, 0xA5000000, by decide, by decide, by decide⟩

/-- Two calls whose bit is cleared after ten clocks. -/
theorem oneFrameEach_probe :
    Throughout step OneFrameEach (start probeCore [probeCall, probeCall])
      ([.cpu, .cpu, .cpu] ++ List.replicate 10 .clock ++ [.cpu] ++ List.replicate 70 .clock ++
        [.cpu, .cpu, .cpu] ++ List.replicate 10 .clock ++ [.cpu]) := by
  obtain ⟨s', hrun⟩ : ∃ s', run step (start probeCore [probeCall, probeCall])
      ([.cpu, .cpu, .cpu] ++ List.replicate 10 .clock ++ [.cpu] ++ List.replicate 70 .clock ++
        [.cpu, .cpu, .cpu] ++ List.replicate 10 .clock ++ [.cpu]) = some s' :=
    Option.isSome_iff_exists.mp (by decide +kernel)
  exact (oneFrameEach_iff_inTime (by decide) (by decide) _ _ _ hrun).mpr (by decide +kernel)

/-- When the processor is held up for 74 clocks the byte goes out a second time. -/
theorem not_oneFrameEach :
    ¬ ∀ (clkDiv nSlaves : ℕ), 0 < clkDiv → 3 ≤ nSlaves →
      ∀ (core : SpiCfg clkDiv nSlaves) (calls : List WriteReg) (ls : List Label)
        (s' : State clkDiv nSlaves), run step (start core calls) ls = some s' →
          Throughout step OneFrameEach (start core calls) ls := by
  intro h
  obtain ⟨s', hrun⟩ : ∃ s', run step (start probeCore [probeCall])
      ([.cpu, .cpu, .cpu] ++ List.replicate 74 .clock) = some s' :=
    Option.isSome_iff_exists.mp (by decide +kernel)
  have hone := (h 3 3 (by decide) (by decide) _ _ _ s' hrun).last hrun
  have hbad : (run step (start probeCore [probeCall])
      ([.cpu, .cpu, .cpu] ++ List.replicate 74 .clock)).any (fun s => decide (OneFrameEach s))
        = false := by
    decide +kernel
  rw [hrun, Option.any_some, decide_eq_false_iff_not] at hbad
  exact hbad hone

end SpiConfig
end KoheronSdk
