import Mathlib.Data.Nat.Basic
import KoheronSdk.Lib.Clocked

/-!
# The reader of the AD7124

The core `ad7124` sends a read command in every frame of 16384 clocks and takes the bits that
come back.  The branch that would hand them over has the same condition as the one before it,
and is never taken.

The number of the bit period is the counter divided by 16.  In the first 8 of them the command is
sent and in the next 24 a bit is taken, as long as the number is below 32; and then there is
`else if` with 32 again.  So `dout` and `valid` keep what they have, but that `valid` falls
with the begin of a frame, and no conversion is ever seen behind the core.

`Delivers` asks for what can be seen at the pins: the command, and that before `cs` rises the 24
bits are in `dout` with `valid` for the first time.  That it fails in every frame needs
one fact about one clock, what becomes of `valid`, and an induction over the clocks of a frame.

* `Ad7124.posedge`: one clock of the core.
* `Delivers`: what a frame is for.
* `not_delivers`: no frame does it.
-/

namespace KoheronSdk

open Clocked

/-- The registers of `ad7124`. -/
structure Ad7124 where
  sclk : Bool
  cs : Bool
  sdi : Bool
  dout : BitVec 24
  valid : Bool
  cnt : ℕ
  doutReg : BitVec 24

namespace Ad7124

/-- `READ_CODE` -/
def readCode : BitVec 8 := 0b01000010#8

/-- The inputs at a clock. -/
structure Input where
  resetn : Bool
  sdo : Bool

/-- The block of `cs`, which also begins a frame. -/
def frameBlock (r next : Ad7124) : Ad7124 :=
  if r.cnt = 0 then { next with cs := false, sclk := false, valid := false }
  else if r.cnt = 512 then { next with cs := true }
  else next

/-- The block of the bits. -/
def bitBlock (r next : Ad7124) (sdo : Bool) : Ad7124 :=
  if r.cnt % 16 = 0 ∧ r.cs = false then
    let next := { next with sclk := false }
    if r.cnt / 16 < 8 then { next with sdi := readCode.getLsbD (7 - r.cnt / 16) }
    else if r.cnt / 16 < 32 then
      { next with sdi := false, doutReg := setBit r.doutReg (32 - r.cnt / 16) sdo }
    else if r.cnt / 16 < 32 then { next with dout := r.doutReg, valid := true }
    else next
  else if r.cnt % 16 = 8 then { next with sclk := true }
  else next

/-- `posedge clk`: the three blocks. -/
def posedge (r : Ad7124) (i : Input) : Ad7124 :=
  if i.resetn = false then { r with cnt := 0 }
  else bitBlock r (frameBlock r { r with cnt := (r.cnt + 1) % 2 ^ 14 }) i.sdo

/-! ## A frame -/

/-- The registers after a reset. -/
def reset (r : Ad7124) : Ad7124 := { r with cnt := 0 }

/-- The registers, clock by clock, when there is no reset. -/
def running (r : Ad7124) (sdo : ℕ → Bool) : ℕ → Ad7124 :=
  trace posedge r fun k => ⟨true, sdo k⟩

/-- The bits of `sdi` at the rising edges of `sclk`, as long as `cs` is low. -/
def sentBits (r : Ad7124) (sdo : ℕ → Bool) : List Bool :=
  ((List.range (2 ^ 14)).filter fun k => (running r sdo k).sclk = false ∧
    (running r sdo (k + 1)).sclk = true ∧ (running r sdo (k + 1)).cs = false).map fun k =>
      (running r sdo (k + 1)).sdi

/-- The 24 bits of `sdo` in the bit periods behind the command, most significant bit first. -/
def presentBits (sdo : ℕ → Bool) : List Bool := (List.range 24).map fun i => sdo (16 * (i + 8))

/-- What a frame is for: the command is sent, and before `cs` rises the bits that have come back
are in `dout`, with `valid` for the first time. -/
structure Delivers (r : Ad7124) (sdo : ℕ → Bool) : Prop where
  command : (sentBits r sdo).take 8 = (List.range 8).map fun i => readCode.getLsbD (7 - i)
  delivered : ∃ k, 0 < k ∧ k < 2 ^ 14 ∧ (∀ j, 0 < j → j ≤ k → (running r sdo j).cs = false) ∧
    (∀ j, 0 < j → j < k → (running r sdo j).valid = false) ∧ (running r sdo k).valid = true ∧
    (List.range 24).map (fun i => (running r sdo k).dout.getLsbD (23 - i)) = presentBits sdo

/-- The counter of clocks. -/
theorem cnt_posedge (r : Ad7124) (sdo : Bool) :
    (r.posedge ⟨true, sdo⟩).cnt = (r.cnt + 1) % 2 ^ 14 := by
  rw [posedge, if_neg fun h => Bool.noConfusion h, bitBlock, frameBlock]
  split_ifs <;> rfl

/-- `valid` falls at the begin of a frame, and does not rise. -/
theorem valid_posedge (r : Ad7124) (sdo : Bool) :
    (r.posedge ⟨true, sdo⟩).valid = if r.cnt = 0 then false else r.valid := by
  rw [posedge, if_neg fun h => Bool.noConfusion h, bitBlock, frameBlock]
  split_ifs <;> rfl

theorem cnt_running (r : Ad7124) (sdo : ℕ → Bool) (hr : r.cnt = 0) (n : ℕ) :
    (running r sdo n).cnt = n % 2 ^ 14 := by
  induction n with
  | zero => exact hr
  | succ n ih =>
    rw [running, trace_succ, cnt_posedge, ← running, ih]
    omega

/-- From the second clock of a frame on `valid` is low. -/
theorem valid_running {r : Ad7124} (hr : r.cnt = 0) (sdo : ℕ → Bool) (n : ℕ) :
    (running r sdo (n + 1)).valid = false := by
  induction n with
  | zero => rw [running, trace_succ, valid_posedge, trace_zero, if_pos hr]
  | succ n ih =>
    rw [running, trace_succ, valid_posedge, ← running, ih, ite_self]

theorem not_delivers_of_cnt {r : Ad7124} (hr : r.cnt = 0) (sdo : ℕ → Bool) : ¬ Delivers r sdo := by
  rintro ⟨-, k, hk, -, -, -, hvalid, -⟩
  obtain ⟨k, rfl⟩ : ∃ j, k = j + 1 := ⟨k - 1, (Nat.sub_add_cancel hk).symm⟩
  rw [valid_running hr] at hvalid
  cases hvalid

/-- **No frame delivers its conversion:** neither the first one after a reset nor a later one,
whatever the registers were and whatever bits come back. -/
theorem not_delivers (r : Ad7124) (sdo : ℕ → Bool) (n : ℕ) :
    ¬ Delivers (running (reset r) sdo (2 ^ 14 * n)) fun k => sdo (2 ^ 14 * n + k) := by
  refine not_delivers_of_cnt ?_ _
  rw [cnt_running (reset r) sdo rfl, Nat.mul_mod_right]

/-- After power-up, with ones on `sdo`. -/
theorem not_forall_delivers : ¬ ∀ (r : Ad7124) (sdo : ℕ → Bool) (n : ℕ),
    Delivers (running (reset r) sdo (2 ^ 14 * n)) fun k => sdo (2 ^ 14 * n + k) := by
  intro h
  have hfirst := h ⟨true, true, false, 0, false, 0, 0⟩ (fun _ => true) 0
  exact not_delivers_of_cnt rfl _ hfirst

end Ad7124

end KoheronSdk
