import Mathlib.Data.Nat.ModEq
import KoheronSdk.Lib.Clocked
import KoheronSdk.Fpga.SpiCfg

/-!
# The frames of the configuration SPI

What the core `spi_cfg` does from a command on, clock by clock, whatever its inputs are meanwhile.

`Fpga/SpiCfg` gives the registers in the middle of a frame.  Here a run of the core is
taken, with any inputs, and it is shown to be there: from power-up on the core is idle or at
some clock of some frame, and nothing else is reached.  So whenever it is ready, it is idle, and
the command that it then takes has the whole frame that follows to itself.

`ExactFrame` is what a data sheet would draw: which chip select is low and for how long, how often
`sclk` rises, which bit is on `sdi` there, that it has been there for half a period before, and
when the core is ready again.

* `trace_frame`: the registers of a frame.
* `ExactFrame`: what a frame is.
* `frames_exact`: every command that is taken has its frame, and between the frames the core is
  idle.
-/

namespace KoheronSdk

open Clocked

namespace SpiCfg

variable {clkDiv nSlaves : ℕ}

/-- The inputs at a clock. -/
structure Input where
  sAxisTdata : BitVec 32
  sAxisTvalid : Bool
  cmd : BitVec 8

/-- `posedge aclk` -/
def clock (r : SpiCfg clkDiv nSlaves) (i : Input) : SpiCfg clkDiv nSlaves :=
  r.posedge i.sAxisTdata i.sAxisTvalid i.cmd

section Frame

variable {cs : BitVec nSlaves} {dataReg : BitVec 32} {cmdReg : BitVec 8} {sdi : Bool}

/-- The last clock of a frame. -/
theorem clock_lastPeriod (hdiv : 0 < clkDiv) (i : Input) :
    ((inFrame clkDiv cs dataReg cmdReg sdi (frameBits cmdReg) (2 ^ clkDiv - 1)).clock i).Idle ∧
      ((inFrame clkDiv cs dataReg cmdReg sdi (frameBits cmdReg) (2 ^ clkDiv - 1)).clock i).sclk
        = false := by
  refine ⟨posedge_lastPeriod _ _ _, ?_⟩
  rw [clock, posedge_endOfPeriod, spiPosedge]
  have hend : ¬ (inFrame clkDiv cs dataReg cmdReg sdi (frameBits cmdReg)
      (2 ^ clkDiv - 1)).endSequence = false := by
    show ¬ decide (frameBits cmdReg ≤ frameBits cmdReg) = false
    rw [decide_eq_true le_rfl]
    exact Bool.true_eq_false_eq_False
  have hsclk : (inFrame clkDiv cs dataReg cmdReg sdi (frameBits cmdReg) (2 ^ clkDiv - 1)).sclkReg
      = false := inFrame_sclkReg_endOfPeriod hdiv
  rw [if_neg hend]
  exact hsclk

/-- **The registers of a frame,** clock by clock. -/
theorem trace_frame (hdiv : 0 < clkDiv) (y : ℕ → Input) {k c : ℕ} (hk : k ≤ frameBits cmdReg)
    (hc : c < 2 ^ clkDiv) :
    trace clock (inFrame clkDiv cs dataReg cmdReg sdi 0 0) y (2 ^ clkDiv * k + c)
      = inFrame clkDiv cs dataReg cmdReg sdi k c := by
  have hpos : 0 < 2 ^ clkDiv := Nat.two_pow_pos _
  -- from the begin of a period to its end
  have hwithin : ∀ k, trace clock (inFrame clkDiv cs dataReg cmdReg sdi 0 0) y (2 ^ clkDiv * k)
      = inFrame clkDiv cs dataReg cmdReg sdi k 0 → ∀ c ≤ 2 ^ clkDiv - 1,
        trace clock (inFrame clkDiv cs dataReg cmdReg sdi 0 0) y (2 ^ clkDiv * k + c)
          = inFrame clkDiv cs dataReg cmdReg sdi k c := fun k hstart =>
    trace_along hstart fun c hc => posedge_inFrame _ _ _ (Nat.add_lt_of_lt_sub hc)
  refine hwithin k ?_ c (Nat.le_sub_one_of_lt hc)
  induction k with
  | zero => rfl
  | succ k ih =>
    have hlast := hwithin k (ih (Nat.le_of_succ_le hk)) (2 ^ clkDiv - 1) le_rfl
    have hclock : 2 ^ clkDiv * (k + 1) = 2 ^ clkDiv * k + (2 ^ clkDiv - 1) + 1 := by
      rw [Nat.mul_succ]
      omega
    rw [hclock, trace_succ, hlast]
    exact posedge_nextBit _ _ _ hdiv hk

theorem frameClocks_eq (clkDiv n : ℕ) :
    frameClocks clkDiv n = 2 ^ clkDiv * n + (2 ^ clkDiv - 1) + 1 := by
  have hpos : 0 < 2 ^ clkDiv := Nat.two_pow_pos _
  rw [frameClocks, Nat.mul_succ]
  omega

/-- The clock behind its last one. -/
theorem trace_endOfFrame (hdiv : 0 < clkDiv) (y : ℕ → Input) :
    (trace clock (inFrame clkDiv cs dataReg cmdReg sdi 0 0) y
      (frameClocks clkDiv (frameBits cmdReg))).Idle ∧
    (trace clock (inFrame clkDiv cs dataReg cmdReg sdi 0 0) y
      (frameClocks clkDiv (frameBits cmdReg))).sclk = false := by
  have hpos : 0 < 2 ^ clkDiv := Nat.two_pow_pos _
  rw [frameClocks_eq, trace_succ, trace_frame hdiv y le_rfl (by omega)]
  exact clock_lastPeriod hdiv _

/-- Each clock of a frame is a clock of one of its periods. -/
theorem exists_period {n m : ℕ} (hm : m < frameClocks clkDiv n) :
    ∃ k c, k ≤ n ∧ c < 2 ^ clkDiv ∧ m = 2 ^ clkDiv * k + c := by
  have hpos : 0 < 2 ^ clkDiv := Nat.two_pow_pos _
  refine ⟨m / 2 ^ clkDiv, m % 2 ^ clkDiv, ?_, Nat.mod_lt _ hpos, (Nat.div_add_mod _ _).symm⟩
  exact Nat.le_of_lt_succ ((Nat.div_lt_iff_lt_mul hpos).mpr (Nat.mul_comm _ _ ▸ hm))

end Frame

/-! ## What a frame is -/

section Exact

/-- What a frame is, from the registers behind the clock at which its command is taken: the
selected chip select is low, and no other, the bits of the data are on `sdi` at the rising edges of
`sclk`, and have been for half a period, and behind it the core is idle. -/
structure ExactFrame (clkDiv : ℕ) (command : Input) (s : ℕ → SpiCfg clkDiv nSlaves) : Prop where
  cs : ∀ m < frameClocks clkDiv (frameBits command.cmd), ∀ j < nSlaves,
    (s m).cs.getLsbD j = decide (j ≠ command.cmd.toNat % 4)
  busy : ∀ m < frameClocks clkDiv (frameBits command.cmd), (s m).sAxisTready = false
  bits : sampled (fun m => (s m).sclk) (fun m => (s m).sdi)
      (fun m => !(s m).cs.getLsbD (command.cmd.toNat % 4))
      (frameClocks clkDiv (frameBits command.cmd))
    = (List.range (frameBits command.cmd)).map fun k => command.sAxisTdata.getLsbD (32 - (k + 1))
  stable : ∀ m < frameClocks clkDiv (frameBits command.cmd), (s m).sclk = false →
    (s (m + 1)).sclk = true → ∀ j ≤ 2 ^ (clkDiv - 1), j ≤ m ∧ (s (m + 1 - j)).sdi = (s (m + 1)).sdi
  finish : (s (frameClocks clkDiv (frameBits command.cmd))).Idle ∧
    (s (frameClocks clkDiv (frameBits command.cmd))).sclk = false

/-- The selected chip select is low. -/
theorem getLsbD_select (cmd : BitVec 8) {j : ℕ} (hj : j < nSlaves) :
    (select (BitVec.allOnes nSlaves) cmd).getLsbD j = decide (j ≠ cmd.toNat % 4) := by
  have hone : ((1 : BitVec nSlaves) <<< (cmd.toNat % 4)).getLsbD j
      = decide (j = cmd.toNat % 4) := by
    show (BitVec.ofNat nSlaves 1 <<< (cmd.toNat % 4)).getLsbD j = _
    rw [BitVec.getLsbD_shiftLeft, BitVec.getLsbD_one]
    grind
  rw [select, BitVec.getLsbD_and, BitVec.getLsbD_allOnes, BitVec.getLsbD_not, hone,
    decide_eq_true hj, Bool.true_and, Bool.true_and, ← decide_not]

variable {tdata : BitVec 32} {cmd : BitVec 8} {sdi : Bool} {y : ℕ → Input}

/-- The registers of a frame whose command is taken by an idle core. -/
def afterAccept (clkDiv nSlaves : ℕ) (tdata : BitVec 32) (cmd : BitVec 8) (sdi : Bool)
    (y : ℕ → Input) : ℕ → SpiCfg clkDiv nSlaves :=
  trace clock (inFrame clkDiv (select (BitVec.allOnes nSlaves) cmd) tdata cmd sdi 0 0) y

/-- `sclk` is high in the second half of every period but the first. -/
theorem sclk_afterAccept (hdiv : 0 < clkDiv) {m : ℕ} (hm : m ≤ frameClocks clkDiv (frameBits cmd)) :
    (afterAccept clkDiv nSlaves tdata cmd sdi y m).sclk
      = decide (2 ^ clkDiv ≤ m ∧ 2 ^ (clkDiv - 1) ≤ m % 2 ^ clkDiv) := by
  have hhalf := two_pow_clkDiv hdiv
  have hpos : 0 < 2 ^ (clkDiv - 1) := Nat.two_pow_pos _
  rcases Nat.lt_or_eq_of_le hm with hlt | rfl
  · obtain ⟨k, c, hk, hc, rfl⟩ := exists_period hlt
    rw [afterAccept, trace_frame hdiv y hk hc, Nat.mul_add_mod, Nat.mod_eq_of_lt hc]
    refine decide_eq_decide.mpr (and_congr_left fun _ => ?_)
    constructor
    · exact fun hk1 => Nat.le_trans (Nat.le_mul_of_pos_right _ hk1) (Nat.le_add_right _ _)
    · intro hle
      by_contra hk0
      obtain rfl : k = 0 := by omega
      omega
  · rw [afterAccept, (trace_endOfFrame hdiv y).2, frameClocks, Nat.mul_mod_right]
    refine (decide_eq_false ?_).symm
    omega

/-- It rises in the middle of these periods. -/
theorem rises_iff (hdiv : 0 < clkDiv) {m : ℕ} (hm : m + 1 ≤ frameClocks clkDiv (frameBits cmd)) :
    ((afterAccept clkDiv nSlaves tdata cmd sdi y m).sclk = false ∧
      (afterAccept clkDiv nSlaves tdata cmd sdi y (m + 1)).sclk = true) ↔
        2 ^ clkDiv ≤ m + 1 ∧ (m + 1) % 2 ^ clkDiv = 2 ^ (clkDiv - 1) := by
  have hhalf := two_pow_clkDiv hdiv
  have hpos : 0 < 2 ^ (clkDiv - 1) := Nat.two_pow_pos _
  rw [sclk_afterAccept hdiv (Nat.le_of_succ_le hm), sclk_afterAccept hdiv hm,
    decide_eq_false_iff_not, decide_eq_true_eq]
  obtain ⟨k, c, hk, hc, rfl⟩ := exists_period hm
  have hfirst : k = 0 ∨ 2 ^ clkDiv ≤ 2 ^ clkDiv * k := by
    rcases Nat.eq_zero_or_pos k with h0 | hk1
    · exact Or.inl h0
    · exact Or.inr (Nat.le_mul_of_pos_right _ hk1)
  rw [Nat.add_assoc, Nat.mul_add_mod, Nat.mul_add_mod, Nat.mod_eq_of_lt hc]
  by_cases hlast : c + 1 < 2 ^ clkDiv
  · rw [Nat.mod_eq_of_lt hlast]
    rcases hfirst with rfl | hle
    · omega
    · omega
  · have hend : c + 1 = 2 ^ clkDiv := by omega
    rw [hend, Nat.mod_self]
    omega

/-- The bits at the rising edges. -/
theorem bits_afterAccept (hdiv : 0 < clkDiv) (hselect : cmd.toNat % 4 < nSlaves) :
    sampled (fun m => (afterAccept clkDiv nSlaves tdata cmd sdi y m).sclk)
      (fun m => (afterAccept clkDiv nSlaves tdata cmd sdi y m).sdi)
      (fun m => !(afterAccept clkDiv nSlaves tdata cmd sdi y m).cs.getLsbD (cmd.toNat % 4))
      (frameClocks clkDiv (frameBits cmd))
    = (List.range (frameBits cmd)).map fun k => tdata.getLsbD (32 - (k + 1)) := by
  have hhalf := two_pow_clkDiv hdiv
  have hpos : 0 < 2 ^ (clkDiv - 1) := Nat.two_pow_pos _
  -- all edges are behind the first half of a period
  have hsplit : frameClocks clkDiv (frameBits cmd)
      = 2 ^ (clkDiv - 1) + (2 ^ clkDiv * frameBits cmd + 2 ^ (clkDiv - 1)) := by
    rw [frameClocks, Nat.mul_succ]
    omega
  have hcount : (2 ^ clkDiv * frameBits cmd + 2 ^ (clkDiv - 1)) / 2 ^ clkDiv = frameBits cmd := by
    rw [Nat.mul_add_div (Nat.two_pow_pos _), Nat.div_eq_of_lt (by omega), Nat.add_zero]
  have hnone : sampled (fun m => (afterAccept clkDiv nSlaves tdata cmd sdi y m).sclk)
      (fun m => (afterAccept clkDiv nSlaves tdata cmd sdi y m).sdi)
      (fun m => !(afterAccept clkDiv nSlaves tdata cmd sdi y m).cs.getLsbD (cmd.toNat % 4))
      (0 + 2 ^ (clkDiv - 1)) = [] := by
    refine sampled_add_of_not_edge 0 _ fun k hk hand => ?_
    rw [Nat.zero_add] at hand
    have hrise := (rises_iff hdiv (by omega)).mp ⟨hand.1, hand.2.1⟩
    omega
  rw [Nat.zero_add] at hnone
  rw [hsplit, sampled_add, hnone, List.nil_append]
  refine Eq.trans (sampled_periodic _ _ _ (fun k hk => ?_) (fun j hj => ?_) le_rfl)
    (congrArg (fun n => (List.range n).map fun k => tdata.getLsbD (32 - (k + 1))) hcount)
  · have hm : 2 ^ (clkDiv - 1) + k + 1 ≤ frameClocks clkDiv (frameBits cmd) := by omega
    have hmod : 2 ^ clkDiv ≤ 2 ^ (clkDiv - 1) + k + 1 ∧
        (2 ^ (clkDiv - 1) + k + 1) % 2 ^ clkDiv = 2 ^ (clkDiv - 1) ↔
          (k + 1) % 2 ^ clkDiv = 0 := by
      have hdvd : (2 ^ (clkDiv - 1) + k + 1) % 2 ^ clkDiv = 2 ^ (clkDiv - 1) ↔
          2 ^ clkDiv ∣ k + 1 := by
        have hsub : 2 ^ (clkDiv - 1) + k + 1 - 2 ^ (clkDiv - 1) = k + 1 := by omega
        have hmodEq := Nat.modEq_iff_dvd' (n := 2 ^ clkDiv) (a := 2 ^ (clkDiv - 1))
          (b := 2 ^ (clkDiv - 1) + k + 1) (by omega)
        rw [hsub, Nat.ModEq, Nat.mod_eq_of_lt (by omega : 2 ^ (clkDiv - 1) < 2 ^ clkDiv)] at hmodEq
        rw [← hmodEq, eq_comm]
      rw [hdvd, ← Nat.dvd_iff_mod_eq_zero, and_iff_right_iff_imp]
      intro hk1
      have hle := Nat.le_of_dvd (Nat.succ_pos k) hk1
      omega
    rw [← Nat.add_assoc, ← hmod, ← rises_iff hdiv hm, and_assoc.symm, and_iff_left_iff_imp]
    intro hrise
    have hlt : 2 ^ (clkDiv - 1) + k + 1 < frameClocks clkDiv (frameBits cmd) := by
      refine Nat.lt_of_le_of_ne hm fun hend => ?_
      have hlow := ((rises_iff hdiv hm).mp hrise).2
      rw [hend, frameClocks, Nat.mul_mod_right] at hlow
      omega
    obtain ⟨k', c, hk', hc, hclock⟩ := exists_period hlt
    rw [hclock, afterAccept, trace_frame hdiv y hk' hc]
    show (!(select (BitVec.allOnes nSlaves) cmd).getLsbD (cmd.toNat % 4)) = true
    rw [getLsbD_select cmd hselect, decide_eq_false (not_not_intro rfl)]
    rfl
  · have hle : j + 1 ≤ frameBits cmd := by
      rw [← hcount, Nat.le_div_iff_mul_le (Nat.two_pow_pos _), Nat.mul_comm]
      exact hj
    have hclock : 2 ^ (clkDiv - 1) + 2 ^ clkDiv * (j + 1)
        = 2 ^ clkDiv * (j + 1) + 2 ^ (clkDiv - 1) := Nat.add_comm _ _
    rw [hclock, afterAccept, trace_frame hdiv y hle (by omega)]
    show (if j + 1 = 0 then sdi else tdata.getLsbD (32 - (j + 1))) = _
    rw [if_neg (Nat.succ_ne_zero j)]

/-- The bit has been there for half a period. -/
theorem stable_afterAccept (hdiv : 0 < clkDiv) {m : ℕ}
    (hm : m < frameClocks clkDiv (frameBits cmd))
    (hlow : (afterAccept clkDiv nSlaves tdata cmd sdi y m).sclk = false)
    (hhigh : (afterAccept clkDiv nSlaves tdata cmd sdi y (m + 1)).sclk = true) {j : ℕ}
    (hj : j ≤ 2 ^ (clkDiv - 1)) : j ≤ m ∧
      (afterAccept clkDiv nSlaves tdata cmd sdi y (m + 1 - j)).sdi
        = (afterAccept clkDiv nSlaves tdata cmd sdi y (m + 1)).sdi := by
  have hhalf := two_pow_clkDiv hdiv
  have hpos : 0 < 2 ^ (clkDiv - 1) := Nat.two_pow_pos _
  obtain ⟨hfirst, hmod⟩ := (rises_iff hdiv hm).mp ⟨hlow, hhigh⟩
  have hlt : m + 1 < frameClocks clkDiv (frameBits cmd) := by
    refine Nat.lt_of_le_of_ne hm fun hend => ?_
    rw [hend, frameClocks, Nat.mul_mod_right] at hmod
    omega
  obtain ⟨k, c, hk, hc, hclock⟩ := exists_period hlt
  rw [hclock, Nat.mul_add_mod, Nat.mod_eq_of_lt hc] at hmod
  have hback : m + 1 - j = 2 ^ clkDiv * k + (c - j) := by omega
  refine ⟨by omega, ?_⟩
  rw [hback, hclock, afterAccept, trace_frame hdiv y hk hc, trace_frame hdiv y hk (by omega)]
  rfl

/-- **A command that is taken by an idle core has its frame.** -/
theorem exactFrame_afterAccept (hdiv : 0 < clkDiv) (hselect : cmd.toNat % 4 < nSlaves)
    (tvalid : Bool) :
    ExactFrame clkDiv ⟨tdata, tvalid, cmd⟩ (afterAccept clkDiv nSlaves tdata cmd sdi y) := by
  have hframe : ∀ m < frameClocks clkDiv (frameBits cmd), ∃ k c,
      afterAccept clkDiv nSlaves tdata cmd sdi y m
        = inFrame clkDiv (select (BitVec.allOnes nSlaves) cmd) tdata cmd sdi k c := by
    intro m hm
    obtain ⟨k, c, hk, hc, rfl⟩ := exists_period hm
    exact ⟨k, c, trace_frame hdiv y hk hc⟩
  refine ⟨fun m hm j hj => ?_, fun m hm => ?_, bits_afterAccept hdiv hselect,
    fun m hm hlow hhigh j hj => stable_afterAccept hdiv hm hlow hhigh hj, trace_endOfFrame hdiv y⟩
  · obtain ⟨k, c, heq⟩ := hframe m hm
    rw [heq]
    exact getLsbD_select cmd hj
  · obtain ⟨k, c, heq⟩ := hframe m hm
    rw [heq]
    rfl

/-- The inputs of a frame have no effect on it. -/
theorem afterAccept_congr (hdiv : 0 < clkDiv) (z : ℕ → Input) {m : ℕ}
    (hm : m ≤ frameClocks clkDiv (frameBits cmd)) :
    afterAccept clkDiv nSlaves tdata cmd sdi y m
      = afterAccept clkDiv nSlaves tdata cmd sdi z m := by
  unfold afterAccept
  rcases Nat.lt_or_eq_of_le hm with hlt | rfl
  · obtain ⟨k, c, hk, hc, rfl⟩ := exists_period hlt
    rw [trace_frame hdiv y hk hc, trace_frame hdiv z hk hc]
  · have hpos : 0 < 2 ^ clkDiv := Nat.two_pow_pos _
    rw [frameClocks_eq, trace_succ, trace_succ, trace_frame hdiv y le_rfl (by omega),
      trace_frame hdiv z le_rfl (by omega), clock, clock, posedge_endOfPeriod, posedge_endOfPeriod]

end Exact

/-! ## From power-up on -/

section Reachable

/-- The core is idle, or in the middle of a frame. -/
def Reached (r : SpiCfg clkDiv nSlaves) : Prop :=
  r.Idle ∨ ∃ cs dataReg cmdReg sdi k c, k ≤ frameBits cmdReg ∧ c < 2 ^ clkDiv ∧
    r = inFrame clkDiv cs dataReg cmdReg sdi k c

theorem reached_clock (hdiv : 0 < clkDiv) (r : SpiCfg clkDiv nSlaves) (i : Input) (h : Reached r) :
    Reached (r.clock i) := by
  have hpos : 0 < 2 ^ clkDiv := Nat.two_pow_pos _
  rcases h with hidle | ⟨cs, dataReg, cmdReg, sdi, k, c, hk, hc, rfl⟩
  · rcases i with ⟨tdata, tvalid, cmd⟩
    cases tvalid with
    | false => exact Or.inl (posedge_idle tdata cmd hidle)
    | true => exact Or.inr ⟨_, _, _, _, 0, 0, Nat.zero_le _, hpos, posedge_accept tdata cmd hidle⟩
  · rcases Nat.lt_or_ge (c + 1) (2 ^ clkDiv) with hlt | hge
    · exact Or.inr ⟨_, _, _, _, k, c + 1, hk, hlt, posedge_inFrame _ _ _ hlt⟩
    · obtain rfl : c = 2 ^ clkDiv - 1 := by omega
      rcases Nat.lt_or_eq_of_le hk with hbit | rfl
      · exact Or.inr ⟨_, _, _, _, k + 1, 0, hbit, hpos, posedge_nextBit _ _ _ hdiv hbit⟩
      · exact Or.inl (posedge_lastPeriod _ _ _)

theorem reached_trace (hdiv : 0 < clkDiv) {r : SpiCfg clkDiv nSlaves} (h : r.Idle) (x : ℕ → Input)
    (n : ℕ) : Reached (trace clock r x n) :=
  trace_invariant (P := Reached) (Or.inl h) (reached_clock hdiv) n

/-- A core that is ready is idle. -/
theorem Reached.idle {r : SpiCfg clkDiv nSlaves} (h : Reached r) (hready : r.sAxisTready = true) :
    r.Idle := by
  rcases h with hidle | ⟨cs, dataReg, cmdReg, sdi, k, c, -, -, rfl⟩
  · exact hidle
  · cases hready

/-- **The frames are exact.**  From power-up on, with any inputs, the core is idle or in the middle
of a frame, it is idle when it is ready, and a command that it takes has its frame, on which the
later inputs have no effect. -/
theorem frames_exact (hdiv : 2 ≤ clkDiv) {r : SpiCfg clkDiv nSlaves} (h : r.Idle) (x : ℕ → Input)
    (n : ℕ) : Reached (trace clock r x n) ∧
      ((trace clock r x n).sAxisTready = true → (trace clock r x n).Idle ∧
        ((x n).sAxisTvalid = true → (x n).cmd.toNat % 4 < nSlaves →
          ExactFrame clkDiv (x n) (fun m => trace clock r x (n + 1 + m)) ∧
          ∀ y, ∀ m ≤ frameClocks clkDiv (frameBits (x n).cmd),
            trace clock (trace clock r x (n + 1)) y m = trace clock r x (n + 1 + m))) := by
  have hpos : 0 < clkDiv := Nat.lt_of_lt_of_le Nat.zero_lt_two hdiv
  have hreached := reached_trace hpos h x n
  refine ⟨hreached, fun hready => ⟨hreached.idle hready, fun hvalid hselect => ?_⟩⟩
  have haccept : trace clock r x (n + 1) = inFrame clkDiv
      (select (BitVec.allOnes nSlaves) (x n).cmd) (x n).sAxisTdata (x n).cmd
      (trace clock r x n).sdi 0 0 := by
    rw [trace_succ, clock, hvalid]
    exact posedge_accept _ _ (hreached.idle hready)
  have hframe : (fun m => trace clock r x (n + 1 + m)) = afterAccept clkDiv nSlaves
      (x n).sAxisTdata (x n).cmd (trace clock r x n).sdi fun m => x (n + 1 + m) := by
    funext m
    rw [trace_add, haccept]
    rfl
  constructor
  · rw [hframe]
    exact exactFrame_afterAccept hpos hselect (x n).sAxisTvalid
  · intro y m hm
    rw [congrFun hframe m, haccept]
    exact afterAccept_congr hpos _ hm

/-- The registers of the example at power-up, and its command. -/
def powerUp : SpiCfg 2 4 := ⟨0b1111#4, false, false, true, 0, 0, 0, 0, false, false⟩

def oneByte : Input := ⟨0xA5000000#32, true, 0#8⟩

theorem frames_exact_oneByte : Reached (trace clock powerUp (fun _ => oneByte) 0) ∧
    ((trace clock powerUp (fun _ => oneByte) 0).sAxisTready = true →
      (trace clock powerUp (fun _ => oneByte) 0).Idle ∧
      (oneByte.sAxisTvalid = true → oneByte.cmd.toNat % 4 < 4 →
        ExactFrame 2 oneByte (fun m => trace clock powerUp (fun _ => oneByte) (0 + 1 + m)) ∧
        ∀ y, ∀ m ≤ frameClocks 2 (frameBits oneByte.cmd),
          trace clock (trace clock powerUp (fun _ => oneByte) (0 + 1)) y m
            = trace clock powerUp (fun _ => oneByte) (0 + 1 + m))) :=
  frames_exact le_rfl ⟨rfl, rfl, rfl⟩ (fun _ => oneByte) 0

end Reachable

end SpiCfg

end KoheronSdk
