import KoheronSdk.Context.MemoryMap
import KoheronSdk.Server.AtomicCalls

/-!
# Clients that share a register

`LedBlinker` keeps all LEDs in one register, and `set_led` reads it, changes one bit and writes it
back.  The mutex of the driver is all that keeps two clients from undoing what the other one has
done.

The operations are those of the source on the registers of `Context/MemoryMap`, so that a call on
64 bits of a register that cannot be accessed as a `uintptr_t` does not return.  `set_led` does not
look at its index: what `1U << index` is from 32 on is left to the processor, and a call with index
37 changes LED 5 on aarch64 and none on arm.  A client spares an LED if its calls leave the bit
alone, whatever index they have.

The driver reaches its own state only.  `Common` writes the same register behind a mutex of its
own; here nobody uses it, and where somebody did, neither mutex would keep the two apart.

* `LedBlinker.operate`: the operations on the control registers.
* `LedBlinker.ledAfter`: what becomes of one LED.
* `LedBlinker.led_undisturbed`: a LED that one client alone sets is as this client has left it,
  while the others set theirs.
-/

namespace KoheronSdk

open Effects Atomicity
open Transition (run)

namespace LedBlinker

/-! ## The driver -/

theorem void_fits : RetType.void.scalarBytes ≤ scalarPackLen := by decide

theorem word_fits : (RetType.scalar .uint32).scalarBytes ≤ scalarPackLen := by decide

theorem noArguments_nodup : (([] : List Arg).map Arg.name).Nodup := List.nodup_nil

theorem noArguments_fit : (buildArgsPacks []).2 = false →
    reqBuffSize (buildArgsPacks []).1 ≤ cmdPayloadBufferLen := by decide

def setLeds : Operation where
  name := "set_leds"
  retType := .void
  arguments := [⟨"led_value", .scalar .uint32⟩]
  names_nodup := by decide
  ret_fits := void_fits
  args_fit := by decide

def getLeds : Operation where
  name := "get_leds"
  retType := .scalar .uint32
  arguments := []
  names_nodup := noArguments_nodup
  ret_fits := word_fits
  args_fit := noArguments_fit

def setLed : Operation where
  name := "set_led"
  retType := .void
  arguments := [⟨"index", .scalar .uint32⟩, ⟨"status", .scalar .bool⟩]
  names_nodup := by decide
  ret_fits := void_fits
  args_fit := by decide

def getFortyTwo : Operation where
  name := "get_forty_two"
  retType := .scalar .uint32
  arguments := []
  names_nodup := noArguments_nodup
  ret_fits := word_fits
  args_fit := noArguments_fit

/-- `class LedBlinker` -/
def driver : Driver := ⟨"LedBlinker", [setLeds, getLeds, setLed, getFortyTwo]⟩

/-- A call of the driver. -/
inductive Call where
  | setLeds (ledValue : UInt32)
  | getLeds
  | setLed (index : UInt32) (status : Bool)
  | getFortyTwo

/-- The operations are numbered as they are declared. -/
def Call.of : OpCall → Option Call
  | (0, [some (.scalar (.uint32 ledValue))]) => some (.setLeds ledValue)
  | (1, []) => some .getLeds
  | (2, [some (.scalar (.uint32 index)), some (.scalar (.bool status))]) =>
    some (.setLed index status)
  | (3, []) => some .getFortyTwo
  | _ => none

variable {range : ℕ}

/-- What a call does to the control registers; `get_forty_two` reads a status register. -/
def Call.operate (arch : Arch) (led : Offset range) :
    Call → Registers range → RetVal → Option (Registers range)
  | .setLeds ledValue, ctl, v =>
    if v = .void then some (ctl.store led ledValue.toBitVec) else none
  | .getLeds, ctl, v => if v = .scalar (.uint32 ⟨ctl led⟩) then some ctl else none
  | .setLed index status, ctl, v =>
    if v = .void then ctl.writeBitReg arch led index status else none
  | .getFortyTwo, ctl, _ => some ctl

/-- The driver, which uses no other one. -/
def operate (arch : Arch) (led : Offset range) : Operations (Registers range) :=
  Behaviour.ofOwn fun _ asked ctl v =>
    (Call.of asked).bind fun call => call.operate arch led ctl v

/-! ## One LED -/

/-- LED `k` after a call. -/
def Call.ledAfter (arch : Arch) (k : Fin 32) (bit : Bool) : Call → Bool
  | .setLeds ledValue => ledValue.toBitVec.getLsbD k
  | .setLed index status => if (arch.oneShift index).getLsbD k then status else bit
  | _ => bit

/-- LED `k` after whatever has been asked. -/
def ledAfter (arch : Arch) (k : Fin 32) (bit : Bool) (asked : OpCall) : Bool :=
  (Call.of asked).elim bit (Call.ledAfter arch k bit)

/-- A call that leaves LED `k` as it is. -/
def Spares (arch : Arch) (k : Fin 32) (asked : OpCall) : Prop :=
  ∀ bit, ledAfter arch k bit asked = bit

theorem getLsbD_writeBitReg {arch : Arch} {led : Offset range} {ctl ctl' : Registers range}
    {index : UInt32} {status : Bool} (h : ctl.writeBitReg arch led index status = some ctl')
    (k : Fin 32) : (ctl' led).getLsbD k
      = if (arch.oneShift index).getLsbD k then status else (ctl led).getLsbD k := by
  have hreach : Registers.InReach arch led := by
    by_contra hout
    have hnone : ctl.writeBitReg arch led index status = none := by
      cases status <;> exact Registers.modifyPtr_eq_none_iff.mpr hout
    rw [hnone] at h
    cases h
  cases status with
  | true =>
    have hset : ctl.writeBitReg arch led index true
        = some (Function.update ctl led (ctl led ||| arch.oneShift index)) :=
      Registers.modifyPtr_or hreach _
    obtain rfl := Option.some.inj (hset.symm.trans h)
    rw [Function.update_self, BitVec.getLsbD_or]
    cases (arch.oneShift index).getLsbD k <;> simp
  | false =>
    have hclear : ctl.writeBitReg arch led index false
        = some (Function.update (ctl.zeroNext arch led) led
            (ctl led &&& ~~~(arch.oneShift index))) :=
      Registers.modifyPtr_and hreach _
    obtain rfl := Option.some.inj (hclear.symm.trans h)
    rw [Function.update_self, BitVec.getLsbD_and, BitVec.getLsbD_not, decide_eq_true k.isLt]
    cases (arch.oneShift index).getLsbD k <;> simp

/-- **An operation** changes the LEDs as it says. -/
theorem getLsbD_operate {arch : Arch} {led : Offset range} {call : Call}
    {ctl ctl' : Registers range} {v : RetVal} (h : call.operate arch led ctl v = some ctl')
    (k : Fin 32) : (ctl' led).getLsbD k = call.ledAfter arch k ((ctl led).getLsbD k) := by
  cases call with
  | setLeds ledValue =>
    rw [Call.operate] at h
    split at h
    · obtain rfl := Option.some.inj h
      rw [Registers.store, Function.update_self]
      rfl
    · cases h
  | getLeds =>
    rw [Call.operate] at h
    split at h
    · obtain rfl := Option.some.inj h
      rfl
    · cases h
  | setLed index status =>
    rw [Call.operate] at h
    split at h
    · exact getLsbD_writeBitReg h k
    · cases h
  | getFortyTwo =>
    obtain rfl := Option.some.inj h
    rfl

section Run

variable {ι : Type} [DecidableEq ι] {arch : Arch} {led : Offset range} {k : Fin 32} {i : ι} {d : ℕ}

/-- LED `k` is as the calls of one party have left it. -/
theorem getLsbD_run {h : List (ι × Operated)} (honly : ∀ y ∈ h, y.2.object = d)
    (hspares : ∀ y ∈ h, y.1 ≠ i → Spares arch k y.2.call) {s s' : ℕ → Registers range}
    (hrun : run (operate arch led).step s (h.map Prod.snd) = some s') :
    (s' d led).getLsbD k
      = (own h i).foldl (fun bit x => ledAfter arch k bit x.call) ((s d led).getLsbD k) := by
  have hstep : ∀ s x s', x.object = d → (operate arch led).step s x = some s' →
      (s' d led).getLsbD k = ledAfter arch k ((s d led).getLsbD k) x.call := by
    rintro s x s' rfl hx
    obtain ⟨t, ht, rfl⟩ := Behaviour.step_ofOwn.mp hx
    obtain ⟨call, hcall, hoperate⟩ := Option.bind_eq_some_iff.mp ht
    rw [Function.update_self, ledAfter, hcall, Option.elim_some]
    exact getLsbD_operate hoperate k
  have hown := run_own (i := i) (f := fun bit x => some (ledAfter arch k bit x.call))
    (P := fun j x => x.object = d ∧ (j ≠ i → Spares arch k x.call))
    (fun s x s' hP hx => congrArg some (hstep s x s' hP.1 hx).symm)
    (fun j s x s' hj hP hx => (hstep s x s' hP.1 hx).trans (hP.2 hj _))
    (fun y hy => ⟨honly y hy, hspares y hy⟩) hrun
  rw [Transition.run_total] at hown
  exact (Option.some.inj hown).symm

end Run

/-- **A LED that one client alone sets** is as the first of its commands have left it, whatever the
other clients have done to theirs in the meantime. -/
theorem led_undisturbed {ι : Type} [DecidableEq ι] {range : ℕ} (arch : Arch) (before : List Driver)
    (led : Offset range) (s₀ : ℕ → Registers range) (sessions : ι → Session) (fuel : ι → ℕ)
    (cmds : ι → List ClientCommand)
    (hcmds : ∀ i, ∀ c ∈ cmds i, c.WellFormed (before ++ [driver]) ∧
      c.driver.toNat = firstDriverId + before.length)
    (input : ι → List UInt8) (hinput : ∀ i, Sent (sessions i).type (cmds i) (input i))
    (ending : ι → Ending) {i : ι} {k : Fin 32}
    (hspares : ∀ j ≠ i, ∀ c ∈ cmds j, Spares arch k c.asked.2)
    {c : Config ι Action Answer (Plant ι (Registers range)) ℤ}
    (hreach : (plant ι (before ++ [driver]) (operate arch led)).Reachable
      (plantStart arch (before ++ [driver]) sessions fuel input ending s₀) c) :
    ∃ done, done <+: cmds i ∧
      (progress (c.world.server.trace i)).executed.map (fun x => (x.object, x.call))
        = done.map ClientCommand.asked ∧
      (c.world.objects.state (firstDriverId + before.length) led).getLsbD k
        = done.foldl (fun bit c => ledAfter arch k bit c.asked.2)
            ((s₀ (firstDriverId + before.length) led).getLsbD k) := by
  have h := atomic_of_reachable sessions cmds arch fuel (fun i c hc => (hcmds i c hc).1) input
    hinput ending (Behaviour.separate_ofOwn _ _) hreach
  have hasked : ∀ y ∈ c.world.objects.history, ∃ c' ∈ cmds y.1, c'.asked = (y.2.object, y.2.call) :=
    fun y hy => List.mem_map.mp ((h.asked y.1).subset (List.mem_map_of_mem (mem_own hy)))
  have honly : ∀ y ∈ c.world.objects.history, y.2.object = firstDriverId + before.length := by
    intro y hy
    obtain ⟨c', hc', hsame⟩ := hasked y hy
    rw [← (hcmds y.1 c' hc').2]
    exact (congrArg Prod.fst hsame).symm
  have hothers : ∀ y ∈ c.world.objects.history, y.1 ≠ i → Spares arch k y.2.call := by
    intro y hy hne
    obtain ⟨c', hc', hsame⟩ := hasked y hy
    have hspared := hspares y.1 hne c' hc'
    rwa [hsame] at hspared
  obtain ⟨done, hdone, hmap⟩ := List.prefix_map_iff.mp (h.asked i)
  refine ⟨done, hdone, by rw [h.executed, hmap], ?_⟩
  have hfold : ∀ bit,
      (own c.world.objects.history i).foldl (fun bit x => ledAfter arch k bit x.call) bit
      = done.foldl (fun bit c => ledAfter arch k bit c.asked.2) bit := by
    intro bit
    have hcalls := congrArg (fun l => (l.map Prod.snd).foldl (ledAfter arch k) bit) hmap
    simpa only [List.map_map, List.foldl_map, Function.comp] using hcalls
  rw [getLsbD_run honly hothers h.legal, hfold]

/-- `set_led(index, status)`, for a driver behind one other. -/
def setLedCommand (index : UInt32) (status : Bool) : ClientCommand :=
  ⟨3, 2, [.scalar (.uint32 index), .scalar (.bool status)]⟩

/-- One client turns the first LED on and the other one the second. -/
def probeLeds (b : Bool) : List ClientCommand :=
  [setLedCommand (if b then UInt32.ofNat 0 else UInt32.ofNat 1) true]

theorem wellFormed_probeLeds (b : Bool) :
    ∀ c ∈ probeLeds b, c.WellFormed (probeDrivers ++ [driver]) := by
  intro c hc
  rw [List.mem_singleton.mp hc]
  refine ⟨setLed, rfl, .cons rfl (.cons rfl .nil), ?_, ?_, ?_⟩
  · cases b <;> decide
  · cases b <;> decide
  · intro v hv
    simp only [setLedCommand, List.mem_cons, ArgVal.scalar.injEq, List.not_mem_nil, or_false] at hv
    rcases hv with rfl | rfl <;> rfl

theorem zero_aligned : 4 ∣ 0 := Nat.dvd_zero 4

theorem zero_lt_leds : 0 < 32 := Nat.zero_lt_succ 31

theorem four_le_page : 0 + 4 ≤ 4096 := by omega

/-- The register at offset 0 of a page. -/
def probeLed : Offset 4096 := ⟨0, zero_aligned, four_le_page⟩

/-- All LEDs are off. -/
def probeRegisters (_ : ℕ) : Registers 4096 := fun _ => BitVec.ofNat 32 0

theorem led_undisturbed_probe :
    ∃ c, (plant Bool (probeDrivers ++ [driver]) (operate .lp64 probeLed)).Reachable
        (plantStart .lp64 (probeDrivers ++ [driver]) (fun _ => probeSession) (fun _ => 3)
          (fun b => streamOf ((probeLeds b).map ClientCommand.message)) (fun _ => .eof)
          probeRegisters) c ∧
      (∀ c', ¬ (plant Bool (probeDrivers ++ [driver]) (operate .lp64 probeLed)).Step c c') ∧
      ∃ done, done <+: probeLeds true ∧
        (progress (c.world.server.trace true)).executed.map (fun x => (x.object, x.call))
          = done.map ClientCommand.asked ∧
        (c.world.objects.state 3 probeLed).getLsbD 0
          = done.foldl (fun bit c => ledAfter .lp64 ⟨0, zero_lt_leds⟩ bit c.asked.2) false := by
  obtain ⟨c, hreach, hend⟩ :=
    (plant Bool (probeDrivers ++ [driver]) (operate .lp64 probeLed)).exists_terminal
      (plantStart .lp64 (probeDrivers ++ [driver]) (fun _ => probeSession) (fun _ => 3)
        (fun b => streamOf ((probeLeds b).map ClientCommand.message)) (fun _ => .eof)
        probeRegisters)
  refine ⟨c, hreach, hend, led_undisturbed (i := true) (k := ⟨0, zero_lt_leds⟩) .lp64
    probeDrivers probeLed probeRegisters (fun _ => probeSession) (fun _ => 3) probeLeds
    (fun b c hc => ?_) _ (fun b => .stream SockType.noConfusion (probeLeds b)) (fun _ => .eof)
    (fun j hj c hc => ?_) hreach⟩
  · refine ⟨wellFormed_probeLeds b c hc, ?_⟩
    rw [List.mem_singleton.mp hc]
    rfl
  · obtain rfl : j = false := by simpa using hj
    rw [List.mem_singleton.mp hc]
    exact fun bit => rfl

end LedBlinker

end KoheronSdk
