import KoheronSdk.Lib.Clocked

/-!
# The precision DAC

The core `precision_dac` sends the four channels one after another, in a cycle of 128 periods of
`sclk` that is divided into four frames of 32.  One counter is frame, field and bit at once.
Command and data are latched at the begin of a cycle, but it is the input `cmd` itself that is sent.

## Three scales

A run is described at three scales, each by one lemma that the next one starts from.  One period of
`sclk` has many clocks, and of these only one shifts a bit and only a few change a register:
`trace_period` gives the registers after a period from those before.  Then `Sent` describes
the registers after any number of periods, and `sent_trace` that a run comes
by there.  Last, `shown_trace` gives the pins at every clock.

## The command

The bits of a frame are the command, the address of the channel, and the data.  The data come from a
register that was loaded at the begin of the cycle, so they do not change on the
way.  The command is read from the input at each of its bits.  So what is sent is consistent
exactly if the input has the right bit at the times at which one is sent, and this is what
`Steady` asks for, and no more.

* `PrecisionDac.posedge`: one clock of the core.
* `trace_period`: one period of `sclk`, of which one clock shifts.
* `Sent`: the registers between two periods; `sent_shifted`.
* `Consistent`: what a cycle is for.
* `consistent_iff_steady`: the cycles that are consistent.
-/

namespace KoheronSdk

open Clocked

/-- The registers of `precision_dac`. -/
structure PrecisionDac where
  sync : Bool
  sclk : Bool
  sdi : Bool
  ldac : Bool
  dataReg : BitVec 128
  cmdReg : BitVec 4
  cntClk : ℕ
  cntSclk : ℕ

namespace PrecisionDac

/-- The inputs at a clock. -/
structure Input where
  data : BitVec 64
  valid : Bool
  cmd : BitVec 4

/-- The clocks of half a period of `sclk`: `{{1'b0}, {(CLK_DIV-1){1'b1}}}` is the last of them. -/
def half (clkDiv : ℕ) : ℕ := 2 ^ (clkDiv - 1)

/-- The clocks of a period of `sclk`: `{(CLK_DIV){1'b1}}` is the last of them. -/
def period (clkDiv : ℕ) : ℕ := 2 ^ clkDiv

/-- The bits of a frame; `sync` is raised behind the last one. -/
def sendBit (r next : PrecisionDac) (cmd : BitVec 4) : PrecisionDac :=
  if r.cntSclk % 32 / 4 = 0 then
    { next with sdi := cmd.getLsbD (3 - r.cntSclk % 4) } -- write command bits
  else if r.cntSclk % 32 / 4 = 1 then
    { next with sdi := decide (r.cntSclk / 32 = 3 - r.cntSclk % 4) }
  else if r.cntSclk % 32 = 24 then
    let next := { next with sync := true }
    if r.cntSclk / 32 = 3 then { next with ldac := false } else next
  else { next with sdi := r.dataReg.getLsbD (16 * (r.cntSclk / 32) + 23 - r.cntSclk % 32) }

/-- The begin of a cycle. -/
def latch (r next : PrecisionDac) (i : Input) : PrecisionDac :=
  if r.cntSclk = 0 then
    { next with ldac := true, cmdReg := i.cmd, dataReg := i.data.setWidth 128 }
  else next

/-- The begin of a frame. -/
def lowerSync (r next : PrecisionDac) : PrecisionDac :=
  if r.cntSclk % 32 = 0 then { next with sync := false } else next

/-- The rising edge of `sclk`. -/
def shift (r next : PrecisionDac) (i : Input) : PrecisionDac :=
  let next := lowerSync r (latch r { next with sclk := true } i)
  let next := { next with cntSclk := (r.cntSclk + 1) % 2 ^ 7 }
  if r.sync = false ∨ r.cntSclk % 32 = 0 then sendBit r next i.cmd else next

/-- `posedge clk` -/
def posedge (clkDiv : ℕ) (r : PrecisionDac) (i : Input) : PrecisionDac :=
  if i.valid = true then
    let next := { r with cntClk := (r.cntClk + 1) % period clkDiv }
    let next := if r.cntClk = half clkDiv - 1 then shift r next i else next
    if r.cntClk = period clkDiv - 1 then { next with sclk := false } else next
  else
    { r with cntClk := 0, cntSclk := 0, sync := true, sdi := false, ldac := false, sclk := false }

/-! ## One period -/

section Period

variable {clkDiv : ℕ}

theorem period_eq (hdiv : 2 ≤ clkDiv) : period clkDiv = 2 * half clkDiv ∧ 2 ≤ half clkDiv := by
  obtain ⟨n, rfl⟩ : ∃ n, clkDiv = n + 2 := ⟨clkDiv - 2, by omega⟩
  have hpos : 0 < 2 ^ n := Nat.two_pow_pos n
  have hsub : n + 2 - 1 = n + 1 := rfl
  rw [period, half, hsub, Nat.pow_succ, Nat.pow_succ]
  omega

/-- The shift does not use the divider. -/
theorem shift_cntClk (r : PrecisionDac) (a b : ℕ) (i : Input) :
    shift { r with cntClk := a } { r with cntClk := b } i = { shift r r i with cntClk := b } := by
  have hsend : ∀ next : PrecisionDac, sendBit r { next with cntClk := b } i.cmd =
      { sendBit r next i.cmd with cntClk := b } := by
    intro next
    unfold sendBit
    split_ifs <;> rfl
  have hlatch : ∀ next : PrecisionDac, latch r { next with cntClk := b } i =
      { latch r next i with cntClk := b } := by
    intro next
    unfold latch
    split <;> rfl
  have hlower : ∀ next : PrecisionDac, lowerSync r { next with cntClk := b } =
      { lowerSync r next with cntClk := b } := by
    intro next
    unfold lowerSync
    split <;> rfl
  show shift r { r with cntClk := b } i = _
  unfold shift
  rw [hlatch { r with sclk := true }, hlower]
  split
  · exact hsend { lowerSync r (latch r { r with sclk := true } i) with
      cntSclk := (r.cntSclk + 1) % 2 ^ 7 }
  · rfl

theorem sclk_sendBit (r next : PrecisionDac) (cmd : BitVec 4) :
    (sendBit r next cmd).sclk = next.sclk := by
  unfold sendBit
  split_ifs <;> rfl

theorem sclk_shift (r next : PrecisionDac) (i : Input) : (shift r next i).sclk = true := by
  have hnext : (lowerSync r (latch r { next with sclk := true } i)).sclk = true := by
    unfold lowerSync latch
    split_ifs <;> rfl
  unfold shift
  split
  · rw [sclk_sendBit]
    exact hnext
  · exact hnext

/-- The registers within a period, from those at its begin and the inputs at the rising edge. -/
def inPeriod (clkDiv : ℕ) (r : PrecisionDac) (i : Input) (j : ℕ) : PrecisionDac :=
  if j < half clkDiv then { r with cntClk := j }
  else { shift r r i with cntClk := j % period clkDiv, sclk := decide (j < period clkDiv) }

theorem posedge_of_ne (r : PrecisionDac) {i : Input} (hvalid : i.valid = true)
    (hcnt : r.cntClk ≠ half clkDiv - 1) : posedge clkDiv r i =
      { r with
        cntClk := (r.cntClk + 1) % period clkDiv
        sclk := if r.cntClk = period clkDiv - 1 then false else r.sclk } := by
  unfold posedge
  simp only [if_pos hvalid, if_neg hcnt]
  split <;> rfl

theorem posedge_of_eq (hdiv : 2 ≤ clkDiv) (r : PrecisionDac) {i : Input} (hvalid : i.valid = true)
    (hcnt : r.cntClk = half clkDiv - 1) :
    posedge clkDiv r i = shift r { r with cntClk := half clkDiv } i := by
  obtain ⟨hperiod, hhalf⟩ := period_eq hdiv
  have hlast : ¬ r.cntClk = period clkDiv - 1 := by omega
  have hmod : (r.cntClk + 1) % period clkDiv = half clkDiv := by
    rw [Nat.mod_eq_of_lt (by omega)]
    omega
  unfold posedge
  simp only [if_pos hvalid, if_pos hcnt, if_neg hlast, hmod]

theorem posedge_inPeriod (hdiv : 2 ≤ clkDiv) (r : PrecisionDac) {i i' : Input} {j : ℕ}
    (hj : j < period clkDiv) (hvalid : i'.valid = true) (hi : j = half clkDiv - 1 → i' = i) :
    posedge clkDiv (inPeriod clkDiv r i j) i' = inPeriod clkDiv r i (j + 1) := by
  obtain ⟨hperiod, hhalf⟩ := period_eq hdiv
  rcases Nat.lt_or_ge j (half clkDiv) with hlt | hge
  · have hbefore : inPeriod clkDiv r i j = { r with cntClk := j } := if_pos hlt
    have hmod : (j + 1) % period clkDiv = j + 1 := Nat.mod_eq_of_lt (by omega)
    have hlast : ¬ j = period clkDiv - 1 := by omega
    rw [hbefore]
    by_cases hshift : j = half clkDiv - 1
    · have hafter : ¬ j + 1 < half clkDiv := by omega
      have hhigh : j + 1 < period clkDiv := by omega
      have hhalf' : half clkDiv = j + 1 := by omega
      rw [posedge_of_eq hdiv _ hvalid hshift, hi hshift, shift_cntClk, inPeriod, if_neg hafter,
        decide_eq_true hhigh, hmod, hhalf', ← sclk_shift r r i]
    · have hafter : j + 1 < half clkDiv := by omega
      rw [posedge_of_ne _ hvalid hshift, inPeriod, if_pos hafter]
      simp only [hmod, if_neg hlast]
  · have hbefore : inPeriod clkDiv r i j = { shift r r i with cntClk := j, sclk := true } := by
      rw [inPeriod, if_neg (by omega), Nat.mod_eq_of_lt hj, decide_eq_true hj]
    have hshift : j ≠ half clkDiv - 1 := by omega
    have hafter : ¬ j + 1 < half clkDiv := by omega
    rw [hbefore, posedge_of_ne _ hvalid hshift, inPeriod, if_neg hafter]
    by_cases hlast : j = period clkDiv - 1
    · have hhigh : ¬ j + 1 < period clkDiv := by omega
      simp only [if_pos hlast, decide_eq_false hhigh]
    · have hhigh : j + 1 < period clkDiv := by omega
      simp only [if_neg hlast, decide_eq_true hhigh]

/-- **One period of `sclk`,** or a part of it. -/
theorem trace_period (hdiv : 2 ≤ clkDiv) {r : PrecisionDac} {x : ℕ → Input} {n j : ℕ}
    (hcnt : (trace (posedge clkDiv) r x n).cntClk = 0) (hj : j ≤ period clkDiv)
    (hvalid : ∀ k < j, (x (n + k)).valid = true) : trace (posedge clkDiv) r x (n + j)
      = inPeriod clkDiv (trace (posedge clkDiv) r x n) (x (n + (half clkDiv - 1))) j := by
  obtain ⟨hperiod, hhalf⟩ := period_eq hdiv
  refine trace_along ?_ (fun k hk => ?_) j le_rfl
  · rw [inPeriod, if_pos (by omega), ← hcnt]
  · exact posedge_inPeriod hdiv _ (Nat.lt_of_lt_of_le hk hj) (hvalid k hk) fun hshift => by
      rw [hshift]

end Period

/-! ## Between two periods -/

section Between

variable (clkDiv : ℕ) (x : ℕ → Input)

/-- The inputs at the rising edge of `sclk` in the period `p`. -/
def inputAt (p : ℕ) : Input := x (period clkDiv * p + (half clkDiv - 1))

/-- The bit on `sdi` in a period of a frame. -/
def sentBit (p : ℕ) : Bool :=
  if p % 32 < 4 then (inputAt clkDiv x p).cmd.getLsbD (3 - p % 32)
  else if p % 32 < 8 then decide (p % 128 / 32 = 7 - p % 32)
  else (inputAt clkDiv x (128 * (p / 128))).data.getLsbD (16 * (p % 128 / 32) + 23 - p % 32)

/-- The registers after `p` periods. -/
structure Sent (p : ℕ) (r : PrecisionDac) : Prop where
  cntClk : r.cntClk = 0
  cntSclk : r.cntSclk = p % 128
  sync : r.sync = decide (p % 32 = 0 ∨ 24 < p % 32)
  ldac : 0 < p → r.ldac = decide ((p - 1) % 128 < 120)
  dataReg : 0 < p →
    r.dataReg = (inputAt clkDiv x (128 * ((p - 1) / 128))).data.setWidth 128
  sdi : 0 < p → (p - 1) % 32 < 24 → r.sdi = sentBit clkDiv x (p - 1)
  sclk : 0 < p → r.sclk = false

variable {clkDiv x} {p : ℕ} {r : PrecisionDac}

/-- The counter and the data after a shift. -/
theorem counter_shift (r : PrecisionDac) (i : Input) :
    (shift r r i).cntSclk = (r.cntSclk + 1) % 128 ∧
      (shift r r i).dataReg = if r.cntSclk = 0 then i.data.setWidth 128 else r.dataReg := by
  have hsend : ∀ next : PrecisionDac, (sendBit r next i.cmd).cntSclk = next.cntSclk ∧
      (sendBit r next i.cmd).dataReg = next.dataReg := by
    intro next
    unfold sendBit
    split_ifs <;> exact ⟨rfl, rfl⟩
  have hdata : (lowerSync r (latch r { r with sclk := true } i)).dataReg =
      if r.cntSclk = 0 then i.data.setWidth 128 else r.dataReg := by
    unfold lowerSync latch
    split_ifs <;> rfl
  unfold shift
  split
  · obtain ⟨hcount, hsame⟩ := hsend { lowerSync r (latch r { r with sclk := true } i) with
      cntSclk := (r.cntSclk + 1) % 2 ^ 7 }
    exact ⟨hcount, hsame.trans hdata⟩
  · exact ⟨rfl, hdata⟩

/-- `sync` is lowered with the first bit and raised behind the last one. -/
theorem sync_shift (r : PrecisionDac) (i : Input) : (shift r r i).sync =
    if r.cntSclk % 32 = 0 then false
    else if r.sync = false ∧ r.cntSclk % 32 = 24 then true else r.sync := by
  have hsend : ∀ next : PrecisionDac, (sendBit r next i.cmd).sync =
      if r.cntSclk % 32 = 24 then true else next.sync := by
    intro next
    unfold sendBit
    split_ifs <;> first | rfl | omega
  have hnext : (lowerSync r (latch r { r with sclk := true } i)).sync =
      if r.cntSclk % 32 = 0 then false else r.sync := by
    unfold lowerSync latch
    split_ifs <;> rfl
  unfold shift
  split
  · rw [hsend]
    dsimp only
    rw [hnext]
    grind
  · dsimp only
    rw [hnext]
    grind

/-- `ldac` is raised at the begin of a cycle and lowered behind its last bit. -/
theorem ldac_shift (r : PrecisionDac) (i : Input) : (shift r r i).ldac =
    if r.cntSclk = 0 then true
    else if r.sync = false ∧ r.cntSclk % 32 = 24 ∧ r.cntSclk / 32 = 3 then false else r.ldac := by
  have hsend : ∀ next : PrecisionDac, (sendBit r next i.cmd).ldac =
      if r.cntSclk % 32 = 24 ∧ r.cntSclk / 32 = 3 then false else next.ldac := by
    intro next
    unfold sendBit
    split_ifs <;> first | rfl | omega
  have hnext : (lowerSync r (latch r { r with sclk := true } i)).ldac =
      if r.cntSclk = 0 then true else r.ldac := by
    unfold lowerSync latch
    split_ifs <;> rfl
  unfold shift
  split
  · rw [hsend]
    dsimp only
    rw [hnext]
    grind
  · dsimp only
    rw [hnext]
    grind

theorem sdi_shift (r : PrecisionDac) (i : Input) (hsync : r.sync = false ∨ r.cntSclk % 32 = 0)
    (hbit : r.cntSclk % 32 < 24) : (shift r r i).sdi =
    if r.cntSclk % 32 < 4 then i.cmd.getLsbD (3 - r.cntSclk % 32)
    else if r.cntSclk % 32 < 8 then decide (r.cntSclk / 32 = 7 - r.cntSclk % 32)
    else r.dataReg.getLsbD (16 * (r.cntSclk / 32) + 23 - r.cntSclk % 32) := by
  have hbit3 : r.cntSclk % 32 < 4 → 3 - r.cntSclk % 4 = 3 - r.cntSclk % 32 := by omega
  have hbit7 : ¬ r.cntSclk % 32 < 4 → r.cntSclk % 32 < 8 →
      3 - r.cntSclk % 4 = 7 - r.cntSclk % 32 := by omega
  have hsend : ∀ next : PrecisionDac, (sendBit r next i.cmd).sdi =
      if r.cntSclk % 32 < 4 then i.cmd.getLsbD (3 - r.cntSclk % 32)
      else if r.cntSclk % 32 < 8 then decide (r.cntSclk / 32 = 7 - r.cntSclk % 32)
      else r.dataReg.getLsbD (16 * (r.cntSclk / 32) + 23 - r.cntSclk % 32) := by
    intro next
    unfold sendBit
    by_cases hcmd : r.cntSclk % 32 < 4
    · rw [if_pos hcmd, if_pos (by omega), hbit3 hcmd]
    · rw [if_neg hcmd, if_neg (by omega)]
      by_cases haddr : r.cntSclk % 32 < 8
      · rw [if_pos haddr, if_pos (by omega), hbit7 hcmd haddr]
      · rw [if_neg haddr, if_neg (by omega), if_neg (by omega)]
  unfold shift
  simp only [if_pos hsync]
  exact hsend _

/-- **What a period does.** -/
theorem sent_shifted (h : Sent clkDiv x p r) : Sent clkDiv x (p + 1)
    { shift r r (inputAt clkDiv x p) with cntClk := 0, sclk := false } := by
  obtain ⟨hnext, hdata⟩ := counter_shift r (inputAt clkDiv x p)
  have hcnt := h.cntSclk
  have hmod : p % 128 % 32 = p % 32 := by omega
  have hlow : r.sync = false ↔ ¬ (p % 32 = 0 ∨ 24 < p % 32) := by
    rw [h.sync, decide_eq_false_iff_not]
  rw [hcnt] at hnext hdata
  refine ⟨rfl, ?_, ?_, fun _ => ?_, fun _ => ?_, fun _ hbit => ?_, fun _ => rfl⟩
  · show (shift r r (inputAt clkDiv x p)).cntSclk = _
    rw [hnext]
    omega
  · show (shift r r (inputAt clkDiv x p)).sync = _
    rw [sync_shift, hcnt, hmod]
    simp only [hlow]
    rw [h.sync]
    split
    · refine (decide_eq_false ?_).symm
      omega
    · split
      · refine (decide_eq_true ?_).symm
        omega
      · refine decide_eq_decide.mpr ?_
        omega
  · show (shift r r (inputAt clkDiv x p)).ldac = _
    rw [ldac_shift, hcnt, hmod, Nat.add_sub_cancel]
    simp only [hlow]
    split
    · refine (decide_eq_true ?_).symm
      omega
    · split
      · refine (decide_eq_false ?_).symm
        omega
      · rw [h.ldac (by omega)]
        refine decide_eq_decide.mpr ?_
        omega
  · show (shift r r (inputAt clkDiv x p)).dataReg = _
    rw [hdata, Nat.add_sub_cancel]
    split
    · have hstart : 128 * (p / 128) = p := by omega
      rw [hstart]
    · have hsame : (p - 1) / 128 = p / 128 := by omega
      rw [h.dataReg (by omega), hsame]
  · show (shift r r (inputAt clkDiv x p)).sdi = _
    rw [Nat.add_sub_cancel] at hbit ⊢
    rw [sdi_shift r _ (by rw [hlow, hcnt]; omega) (by omega), hcnt, hmod, sentBit]
    refine ite_congr rfl (fun _ => rfl) fun hcmd => ite_congr rfl (fun _ => rfl) fun haddr => ?_
    have hsame : (p - 1) / 128 = p / 128 := by omega
    rw [h.dataReg (by omega), hsame, BitVec.getLsbD_setWidth, decide_eq_true (by omega),
      Bool.true_and]

/-- The registers with which `valid` can rise. -/
structure Ready (r : PrecisionDac) : Prop where
  cntClk : r.cntClk = 0
  cntSclk : r.cntSclk = 0
  sync : r.sync = true

/-- **The registers between two periods,** as long as `valid` is high. -/
theorem sent_trace (hdiv : 2 ≤ clkDiv) (h : Ready r)
    (hvalid : ∀ k < period clkDiv * p, (x k).valid = true) :
    Sent clkDiv x p (trace (posedge clkDiv) r x (period clkDiv * p)) := by
  induction p with
  | zero =>
    exact ⟨h.cntClk, h.cntSclk, h.sync, fun hp => absurd hp (Nat.lt_irrefl 0),
      fun hp => absurd hp (Nat.lt_irrefl 0), fun hp => absurd hp (Nat.lt_irrefl 0),
      fun hp => absurd hp (Nat.lt_irrefl 0)⟩
  | succ p ih =>
    obtain ⟨hperiod, hhalf⟩ := period_eq hdiv
    rw [Nat.mul_succ] at hvalid ⊢
    have hsent := ih fun k hk => hvalid k (Nat.lt_add_right _ hk)
    rw [trace_period hdiv hsent.cntClk le_rfl fun j hj => hvalid _ (Nat.add_lt_add_left hj _),
      inPeriod, if_neg (by omega), Nat.mod_self, decide_eq_false (Nat.lt_irrefl _)]
    exact sent_shifted hsent

end Between

/-! ## Clock by clock -/

section Clocks

variable {clkDiv : ℕ} {x : ℕ → Input} {r : PrecisionDac}

/-- The rising edges of `sclk` in the first `k` clocks. -/
def edges (clkDiv k : ℕ) : ℕ := (k + half clkDiv) / period clkDiv

theorem edges_add (hdiv : 2 ≤ clkDiv) (p k : ℕ) :
    edges clkDiv (period clkDiv * p + k) = p + edges clkDiv k := by
  obtain ⟨hperiod, hhalf⟩ := period_eq hdiv
  rw [edges, edges, Nat.add_assoc, Nat.mul_add_div (by omega)]

theorem edges_of_lt (hdiv : 2 ≤ clkDiv) {j : ℕ} (hj : j < half clkDiv) : edges clkDiv j = 0 := by
  obtain ⟨hperiod, hhalf⟩ := period_eq hdiv
  exact Nat.div_eq_of_lt (by omega)

theorem edges_of_le (hdiv : 2 ≤ clkDiv) {j : ℕ} (hj : half clkDiv ≤ j) (hlt : j < period clkDiv) :
    edges clkDiv j = 1 := by
  obtain ⟨hperiod, hhalf⟩ := period_eq hdiv
  exact Nat.div_eq_of_lt_le (by omega) (by omega)

/-- What is on the pins after `k` clocks, and `sclk` before the first edge. -/
structure Shown (clkDiv : ℕ) (x : ℕ → Input) (r : PrecisionDac) (k : ℕ) (q : PrecisionDac) :
    Prop where
  sync : q.sync = decide (edges clkDiv k % 32 = 0 ∨ 24 < edges clkDiv k % 32)
  ldac : 0 < edges clkDiv k → q.ldac = decide ((edges clkDiv k - 1) % 128 < 120)
  sdi : 0 < edges clkDiv k → (edges clkDiv k - 1) % 32 < 24 →
    q.sdi = sentBit clkDiv x (edges clkDiv k - 1)
  sclk : q.sclk = if edges clkDiv k = 0 then r.sclk else decide (half clkDiv ≤ k % period clkDiv)

/-- **The pins, clock by clock,** as long as `valid` is high. -/
theorem shown_trace (hdiv : 2 ≤ clkDiv) (h : Ready r) {k : ℕ}
    (hvalid : ∀ k' < k, (x k').valid = true) :
    Shown clkDiv x r k (trace (posedge clkDiv) r x k) := by
  obtain ⟨hperiod, hhalf⟩ := period_eq hdiv
  obtain ⟨p, j, hj, rfl⟩ : ∃ p j, j < period clkDiv ∧ k = period clkDiv * p + j :=
    ⟨k / period clkDiv, k % period clkDiv, Nat.mod_lt _ (by omega), (Nat.div_add_mod _ _).symm⟩
  have hsent := sent_trace hdiv h fun k hk => hvalid k (Nat.lt_add_right j hk)
  have hmod : (period clkDiv * p + j) % period clkDiv = j := by
    rw [Nat.mul_add_mod, Nat.mod_eq_of_lt hj]
  rw [trace_period hdiv hsent.cntClk (Nat.le_of_lt hj)
    fun k hk => hvalid _ (Nat.add_lt_add_left hk _)]
  rcases Nat.lt_or_ge j (half clkDiv) with hlt | hge
  · have hedges : edges clkDiv (period clkDiv * p + j) = p := by
      rw [edges_add hdiv, edges_of_lt hdiv hlt, Nat.add_zero]
    rw [inPeriod, if_pos hlt]
    refine ⟨?_, ?_, ?_, ?_⟩
    · rw [hedges]
      exact hsent.sync
    · rw [hedges]
      exact hsent.ldac
    · rw [hedges]
      exact hsent.sdi
    · rw [hedges, hmod, decide_eq_false (Nat.not_le.mpr hlt)]
      rcases Nat.eq_zero_or_pos p with rfl | hp
      · rfl
      · rw [if_neg (Nat.pos_iff_ne_zero.mp hp)]
        exact hsent.sclk hp
  · have hedges : edges clkDiv (period clkDiv * p + j) = p + 1 := by
      rw [edges_add hdiv, edges_of_le hdiv hge hj]
    have hshifted := sent_shifted hsent
    rw [inPeriod, if_neg (Nat.not_lt.mpr hge)]
    refine ⟨?_, ?_, ?_, ?_⟩
    · rw [hedges]
      exact hshifted.sync
    · rw [hedges]
      exact hshifted.ldac
    · rw [hedges]
      exact hshifted.sdi
    · rw [hedges, hmod, if_neg (Nat.succ_ne_zero p), decide_eq_true hge, decide_eq_true hj]

/-- `sclk` falls at the end of every period. -/
theorem falls_iff (hdiv : 2 ≤ clkDiv) (h : Ready r) {k : ℕ}
    (hvalid : ∀ k' < k + 1, (x k').valid = true) :
    ((trace (posedge clkDiv) r x k).sclk = true ∧
        (trace (posedge clkDiv) r x (k + 1)).sclk = false) ↔
      (k + 1) % period clkDiv = 0 := by
  obtain ⟨hperiod, hhalf⟩ := period_eq hdiv
  rw [(shown_trace hdiv h fun k' hk => hvalid k' (Nat.lt_succ_of_lt hk)).sclk,
    (shown_trace hdiv h hvalid).sclk]
  obtain ⟨p, j, hj, rfl⟩ : ∃ p j, j < period clkDiv ∧ k = period clkDiv * p + j :=
    ⟨k / period clkDiv, k % period clkDiv, Nat.mod_lt _ (by omega), (Nat.div_add_mod _ _).symm⟩
  rw [Nat.add_assoc, edges_add hdiv, edges_add hdiv, Nat.mul_add_mod, Nat.mul_add_mod,
    Nat.mod_eq_of_lt hj]
  by_cases hlast : j + 1 < period clkDiv
  · rw [Nat.mod_eq_of_lt hlast]
    refine iff_of_false ?_ (Nat.succ_ne_zero j)
    rcases Nat.lt_or_ge (j + 1) (half clkDiv) with hlt | hge
    · -- in the first half `sclk` stays as it is
      rw [edges_of_lt hdiv hlt, edges_of_lt hdiv (Nat.lt_of_succ_lt hlt),
        decide_eq_false (by omega), decide_eq_false (by omega)]
      rintro ⟨htrue, hfalse⟩
      rw [htrue] at hfalse
      cases hfalse
    · rw [edges_of_le hdiv hge hlast, if_neg (Nat.succ_ne_zero p), decide_eq_true hge]
      exact fun hand => Bool.noConfusion hand.2
  · have hj' : j + 1 = period clkDiv := by omega
    have hedges : edges clkDiv (j + 1) = 1 := by
      rw [hj', edges, Nat.add_comm, Nat.add_div_right _ (by omega),
        Nat.div_eq_of_lt (by omega)]
    rw [hedges, hj', Nat.mod_self, edges_of_le hdiv (by omega) hj, if_neg (Nat.succ_ne_zero p),
      if_neg (Nat.succ_ne_zero p), decide_eq_true (by omega), decide_eq_false (by omega)]
    exact iff_of_true ⟨rfl, rfl⟩ rfl

end Clocks

/-! ## A cycle -/

section Cycle

variable (clkDiv : ℕ) (x : ℕ → Input) (r : PrecisionDac)

/-- The word of a frame: the command, the address of the channel with one bit set, the data. -/
def frameWord (cmd : BitVec 4) (data : BitVec 64) (f : ℕ) : BitVec 24 :=
  cmd ++ (1#4 <<< f) ++ data.extractLsb' (16 * f) 16

/-- The bits on `sdi` at the falling edges of `sclk` where `sync` is low, from a clock on. -/
def frameBits (w len : ℕ) : List Bool :=
  sampled (fun k => !(trace (posedge clkDiv) r x (w + k)).sclk)
    (fun k => (trace (posedge clkDiv) r x (w + k)).sdi)
    (fun k => !(trace (posedge clkDiv) r x (w + k)).sync) len

/-- What a cycle is for: the four frames with the command and the data of its begin, most
significant bit first, `sync` low for these bits, and `ldac` low from behind the last one to the
begin of the next cycle. -/
structure Consistent (c : ℕ) : Prop where
  frames : ∀ f < 4, frameBits clkDiv x r (period clkDiv * (128 * c + 32 * f)) (period clkDiv * 32) =
    (List.range 24).map fun i => (frameWord (inputAt clkDiv x (128 * c)).cmd
      (inputAt clkDiv x (128 * c)).data f).getLsbD (23 - i)
  sync : ∀ f < 4, ∀ k < period clkDiv * 32,
    ((trace (posedge clkDiv) r x (period clkDiv * (128 * c + 32 * f) + k)).sync = false ↔
      half clkDiv ≤ k ∧ k < period clkDiv * 24 + half clkDiv)
  ldac : ∀ k, half clkDiv ≤ k → k < period clkDiv * 128 + half clkDiv →
    ((trace (posedge clkDiv) r x (period clkDiv * (128 * c) + k)).ldac = false ↔
      period clkDiv * 120 + half clkDiv ≤ k)
  next : (trace (posedge clkDiv) r x
    (period clkDiv * (128 * (c + 1)) + half clkDiv)).ldac = true

/-- The command stays, as far as it is used: at each bit that is sent of it, it has the bit of the
begin of the cycle. -/
def Steady (c : ℕ) : Prop :=
  ∀ f < 4, ∀ i < 4, (inputAt clkDiv x (128 * c + 32 * f + i)).cmd.getLsbD (3 - i) =
    (inputAt clkDiv x (128 * c)).cmd.getLsbD (3 - i)

variable {clkDiv x r} {c : ℕ}

theorem getLsbD_frameWord (cmd : BitVec 4) (data : BitVec 64) {f i : ℕ} (hf : f < 4) (hi : i < 24) :
    (frameWord cmd data f).getLsbD (23 - i) =
      if i < 4 then cmd.getLsbD (3 - i)
      else if i < 8 then decide (f = 7 - i)
      else data.getLsbD (16 * f + 23 - i) := by
  rw [frameWord, BitVec.getLsbD_append, BitVec.getLsbD_append]
  by_cases hcmd : i < 4
  · rw [if_pos hcmd, if_neg (by omega), if_neg (by omega)]
    exact congrArg _ (by omega)
  · rw [if_neg hcmd]
    by_cases haddr : i < 8
    · rw [if_pos haddr, if_neg (by omega), if_pos (by omega), BitVec.getLsbD_shiftLeft,
        BitVec.getLsbD_one]
      grind
    · rw [if_neg haddr, if_pos (by omega), BitVec.getLsbD_extractLsb', decide_eq_true (by omega),
        Bool.true_and]
      exact congrArg _ (by omega)

/-- The bits that are sent in a frame. -/
theorem frameBits_eq (hdiv : 2 ≤ clkDiv) (h : Ready r) {q : ℕ} (hq : q % 32 = 0)
    (hvalid : ∀ k < period clkDiv * (q + 32), (x k).valid = true) :
    frameBits clkDiv x r (period clkDiv * q) (period clkDiv * 32) =
      (List.range 24).map fun i => sentBit clkDiv x (q + i) := by
  obtain ⟨hperiod, hhalf⟩ := period_eq hdiv
  rw [Nat.mul_add] at hvalid
  have hfalls : ∀ k < period clkDiv * 32,
      ((!(trace (posedge clkDiv) r x (period clkDiv * q + k)).sclk) = false ∧
        (!(trace (posedge clkDiv) r x (period clkDiv * q + (k + 1))).sclk) = true) ↔
          (k + 1) % period clkDiv = 0 := by
    intro k hk
    rw [Bool.not_eq_false', Bool.not_eq_true', ← Nat.add_assoc,
      falls_iff hdiv h fun k' hk' => hvalid k' (by omega), Nat.add_assoc, Nat.mul_add_mod]
  have hshown : ∀ m ≤ 32, Shown clkDiv x r (period clkDiv * q + period clkDiv * m)
      (trace (posedge clkDiv) r x (period clkDiv * q + period clkDiv * m)) := fun m hm =>
    shown_trace hdiv h fun k' hk' => hvalid k' (by
      have hle := Nat.mul_le_mul_left (period clkDiv) hm
      omega)
  have hedges : ∀ m, edges clkDiv (period clkDiv * q + period clkDiv * m) = q + m := by
    intro m
    rw [← Nat.mul_add, ← Nat.add_zero (period clkDiv * (q + m)), edges_add hdiv,
      edges_of_lt hdiv (by omega), Nat.add_zero]
  have hsplit : period clkDiv * 32 = period clkDiv * 24 + period clkDiv * 8 := by omega
  have hcount : period clkDiv * 24 / period clkDiv = 24 := Nat.mul_div_cancel_left _ (by omega)
  unfold frameBits
  rw [hsplit, sampled_add_of_not_edge]
  · -- the bits
    refine Eq.trans (sampled_periodic _ _ _ (fun k hk => ?_) (fun i hi => ?_) le_rfl)
      (congrArg (fun n => (List.range n).map fun i => sentBit clkDiv x (q + i)) hcount)
    · rw [← hfalls k (by omega), and_assoc.symm, and_iff_left_iff_imp]
      intro hfall
      obtain ⟨m, hm⟩ := Nat.dvd_of_mod_eq_zero ((hfalls _ (by omega)).mp hfall)
      have hpos : 0 < m := Nat.pos_of_ne_zero fun hzero => by
        rw [hzero, Nat.mul_zero] at hm
        omega
      have hle : m ≤ 24 := Nat.le_of_mul_le_mul_left (by omega) (by omega : 0 < period clkDiv)
      rw [hm, (hshown m (by omega)).sync, hedges, Bool.not_eq_true', decide_eq_false_iff_not]
      omega
    · have hle : i + 1 ≤ 24 := Nat.le_of_mul_le_mul_left hi (by omega : 0 < period clkDiv)
      have hsdi := (hshown (i + 1) (by omega)).sdi
      rw [hedges] at hsdi
      exact hsdi (by omega) (by omega)
  · -- behind them `sync` is high
    rintro k hk ⟨hhigh, hlow, hsync⟩
    obtain ⟨m, hm⟩ := Nat.dvd_of_mod_eq_zero ((hfalls _ (by omega)).mp ⟨hhigh, hlow⟩)
    have hlt : 24 < m := Nat.lt_of_mul_lt_mul_left (a := period clkDiv) (by omega)
    have hle : m ≤ 32 := Nat.le_of_mul_le_mul_left (by omega) (by omega : 0 < period clkDiv)
    rw [hm, (hshown m hle).sync, hedges, Bool.not_eq_true', decide_eq_false_iff_not] at hsync
    omega

/-- The bits of the frame that is wanted are those of the inputs at the begin of the cycle. -/
theorem sentBit_frame {f i : ℕ} (hf : f < 4) (hi : i < 24) :
    sentBit clkDiv x (128 * c + 32 * f + i) =
      if i < 4 then (inputAt clkDiv x (128 * c + 32 * f + i)).cmd.getLsbD (3 - i)
      else if i < 8 then decide (f = 7 - i)
      else (inputAt clkDiv x (128 * c)).data.getLsbD (16 * f + 23 - i) := by
  have hbit : (128 * c + 32 * f + i) % 32 = i := by omega
  have hframe : (128 * c + 32 * f + i) % 128 / 32 = f := by omega
  have hcycle : (128 * c + 32 * f + i) / 128 = c := by omega
  rw [sentBit, hbit, hframe, hcycle]

/-- The four frames are as wanted exactly if the command stays. -/
theorem frames_iff_steady (hdiv : 2 ≤ clkDiv) (h : Ready r)
    (hvalid : ∀ k < period clkDiv * (128 * (c + 1)), (x k).valid = true) :
    (∀ f < 4, frameBits clkDiv x r (period clkDiv * (128 * c + 32 * f)) (period clkDiv * 32) =
      (List.range 24).map fun i => (frameWord (inputAt clkDiv x (128 * c)).cmd
        (inputAt clkDiv x (128 * c)).data f).getLsbD (23 - i)) ↔ Steady clkDiv x c := by
  refine forall_congr' fun f => forall_congr' fun hf => ?_
  have hframe : ∀ k < period clkDiv * (128 * c + 32 * f + 32), (x k).valid = true := by
    intro k hk
    refine hvalid k (Nat.lt_of_lt_of_le hk (Nat.mul_le_mul_left _ ?_))
    omega
  rw [frameBits_eq hdiv h (by omega) hframe, List.map_inj_left]
  constructor
  · intro hall i hi
    have hbit := hall i (List.mem_range.mpr (by omega))
    rwa [sentBit_frame hf (by omega), getLsbD_frameWord _ _ hf (by omega), if_pos hi,
      if_pos hi] at hbit
  · intro hsteady i hi
    have hi24 := List.mem_range.mp hi
    rw [sentBit_frame hf hi24, getLsbD_frameWord _ _ hf hi24]
    exact ite_congr rfl (fun hcmd => hsteady i hcmd) fun _ => rfl

/-- `sync` is low for the bits of a frame. -/
theorem sync_frame (hdiv : 2 ≤ clkDiv) (h : Ready r) {q k : ℕ} (hq : q % 32 = 0)
    (hk : k < period clkDiv * 32)
    (hvalid : ∀ k' < period clkDiv * q + k, (x k').valid = true) :
    (trace (posedge clkDiv) r x (period clkDiv * q + k)).sync = false ↔
      half clkDiv ≤ k ∧ k < period clkDiv * 24 + half clkDiv := by
  obtain ⟨hperiod, hhalf⟩ := period_eq hdiv
  have hpos : 0 < period clkDiv := by omega
  have hfirst : 1 ≤ edges clkDiv k ↔ half clkDiv ≤ k := by
    rw [edges, Nat.le_div_iff_mul_le hpos]
    omega
  have hlast : edges clkDiv k < 25 ↔ k < period clkDiv * 24 + half clkDiv := by
    rw [edges, Nat.div_lt_iff_lt_mul hpos]
    omega
  have hbound : edges clkDiv k < 33 := by
    rw [edges, Nat.div_lt_iff_lt_mul hpos]
    omega
  rw [(shown_trace hdiv h hvalid).sync, edges_add hdiv, decide_eq_false_iff_not, ← hfirst, ← hlast]
  omega

/-- `ldac` is low behind the last frame of a cycle. -/
theorem ldac_cycle (hdiv : 2 ≤ clkDiv) (h : Ready r) {k : ℕ} (hk : half clkDiv ≤ k)
    (hlt : k < period clkDiv * 128 + half clkDiv)
    (hvalid : ∀ k' < period clkDiv * (128 * c) + k, (x k').valid = true) :
    (trace (posedge clkDiv) r x (period clkDiv * (128 * c) + k)).ldac = false ↔
      period clkDiv * 120 + half clkDiv ≤ k := by
  obtain ⟨hperiod, hhalf⟩ := period_eq hdiv
  have hpos : 0 < period clkDiv := by omega
  have hfirst : 1 ≤ edges clkDiv k := by
    rw [edges, Nat.le_div_iff_mul_le hpos]
    omega
  have hbound : edges clkDiv k < 129 := by
    rw [edges, Nat.div_lt_iff_lt_mul hpos]
    omega
  have hlow : 121 ≤ edges clkDiv k ↔ period clkDiv * 120 + half clkDiv ≤ k := by
    rw [edges, Nat.le_div_iff_mul_le hpos]
    omega
  have hedges := edges_add hdiv (128 * c) k
  rw [(shown_trace hdiv h hvalid).ldac (by omega), hedges, decide_eq_false_iff_not, ← hlow]
  omega

/-- **A cycle is consistent exactly if the command stays.** -/
theorem consistent_iff_of_ready (hdiv : 2 ≤ clkDiv) (h : Ready r)
    (hvalid : ∀ k < period clkDiv * (128 * (c + 1)) + half clkDiv, (x k).valid = true) :
    Consistent clkDiv x r c ↔ Steady clkDiv x c := by
  obtain ⟨hperiod, hhalf⟩ := period_eq hdiv
  have hcycle : ∀ k < period clkDiv * (128 * (c + 1)), (x k).valid = true := fun k hk =>
    hvalid k (Nat.lt_add_right _ hk)
  have hlen : period clkDiv * (128 * (c + 1))
      = period clkDiv * (128 * c) + period clkDiv * 128 := by
    rw [Nat.mul_succ, Nat.mul_add]
  rw [← frames_iff_steady hdiv h hcycle]
  constructor
  · exact fun hconsistent => hconsistent.frames
  · intro hframes
    refine ⟨hframes, fun f hf k hk => ?_, fun k hk hlt => ?_, ?_⟩
    · have hle : period clkDiv * (128 * c + 32 * f + 32) ≤ period clkDiv * (128 * (c + 1)) :=
        Nat.mul_le_mul_left _ (by omega)
      rw [Nat.mul_add _ (128 * c + 32 * f) 32] at hle
      exact sync_frame hdiv h (by omega) hk fun k' hk' => hcycle k' (by omega)
    · exact ldac_cycle hdiv h hk hlt fun k' hk' => hvalid k' (by omega)
    · have hedges := edges_add hdiv (128 * (c + 1)) (half clkDiv)
      rw [edges_of_le hdiv le_rfl (by omega)] at hedges
      rw [(shown_trace hdiv h hvalid).ldac (by omega), hedges]
      refine decide_eq_true ?_
      omega

end Cycle

/-! ## From power-up on -/

section PowerUp

variable {clkDiv : ℕ}

/-- A clock with `valid` low leaves the registers ready. -/
theorem ready_posedge (r : PrecisionDac) {i : Input} (hlow : i.valid = false) :
    Ready (posedge clkDiv r i) := by
  unfold posedge
  rw [if_neg (by rw [hlow]; exact Bool.false_ne_true)]
  exact ⟨rfl, rfl, rfl⟩

/-- **The cycles since `valid` has been high are consistent exactly if the command stays:** at
power-up, or from a clock on before which `valid` is low. -/
theorem consistent_iff_steady (hdiv : 2 ≤ clkDiv) {r : PrecisionDac} (h : Ready r)
    (x : ℕ → Input) (n c : ℕ) (hlow : ∀ m, n = m + 1 → (x m).valid = false)
    (hvalid : ∀ k < period clkDiv * (128 * (c + 1)) + half clkDiv, (x (n + k)).valid = true) :
    Consistent clkDiv (fun k => x (n + k)) (trace (posedge clkDiv) r x n) c ↔
      Steady clkDiv (fun k => x (n + k)) c := by
  refine consistent_iff_of_ready hdiv ?_ hvalid
  cases n with
  | zero => exact h
  | succ m => exact ready_posedge _ (hlow m rfl)

/-- The registers of the examples at power-up. -/
def powerUp : PrecisionDac := ⟨true, false, false, false, 0, 0, 0, 0⟩

/-- The command is there only at the begin of the first cycle. -/
def commandOnce (k : ℕ) : Input := ⟨0, true, if k = 1 then 0b1111#4 else 0⟩

theorem consistent_commandOnce_iff :
    Consistent 2 (fun k => commandOnce (0 + k)) (trace (posedge 2) powerUp commandOnce 0) 0 ↔
      Steady 2 (fun k => commandOnce (0 + k)) 0 :=
  consistent_iff_steady le_rfl ⟨rfl, rfl, rfl⟩ commandOnce 0 0 (fun _ h => by cases h)
    fun _ _ => rfl

/-- Its last three bits are those of another one. -/
theorem not_forall_consistent : ¬ ∀ clkDiv, 2 ≤ clkDiv → ∀ r : PrecisionDac, Ready r →
    ∀ (x : ℕ → Input) (n c : ℕ), (∀ m, n = m + 1 → (x m).valid = false) →
      (∀ k < period clkDiv * (128 * (c + 1)) + half clkDiv, (x (n + k)).valid = true) →
        Consistent clkDiv (fun k => x (n + k)) (trace (posedge clkDiv) r x n) c := by
  intro h
  have hconsistent := h 2 le_rfl powerUp ⟨rfl, rfl, rfl⟩ commandOnce 0 0 (fun _ h => by cases h)
    fun _ _ => rfl
  have hsteady := (consistent_iff_of_ready le_rfl ⟨rfl, rfl, rfl⟩ fun _ _ => rfl).mp hconsistent
  have hbit := hsteady 0 (by decide) 1 (by decide)
  revert hbit
  decide

end PowerUp

end PrecisionDac

end KoheronSdk
