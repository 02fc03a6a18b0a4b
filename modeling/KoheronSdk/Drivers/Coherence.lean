import Mathlib.Data.List.Nodup
import Mathlib.Data.Fintype.Card
import KoheronSdk.Lib.Dependency
import KoheronSdk.Drivers.Allocation

/-!
# What an allocation leaves of the driver manager

`Coherent deps stack m` is what holds of the state `m` of the driver manager while the
constructors in `stack` are pending, the last one first: the marks of the two levels agree,
nothing has been entered twice, and as long as no allocation has failed, everything started
has what it needs.

The drivers that are marked as starting are those of the stack.  A constructor that has asked in
vain goes on as if nothing had happened, so this holds after a failure too; the last
fields of the structure tell what has become of the drivers that were pending when one failed.
The relation `Needs` is the dependency that the constructors have.  Each constructor
of the stack needs the one that is entered next, so that a driver asked for a second time on the
way closes a cycle.

There are four things that an allocation does to the state, and one lemma for each.  The
programs of `Drivers/Allocation` are walked through once, in `Drivers/Requests`, and
there only these lemmas are used.

* `ManagerState.begin`, `complete`, `fail`, `refer`: what an allocation does to the state.
* `Coherent.begin`, `Coherent.complete`, ..: each of these keeps the state coherent.
-/

namespace KoheronSdk

open Dependency

variable {drivers : List Driver}

/-- `d` asks for `e` in its constructor. -/
def Needs (deps : DriverIndex drivers → List (DriverIndex drivers)) (d e : DriverIndex drivers) :
    Prop := e ∈ deps d

namespace ManagerState

/-- No driver has been started. -/
def initial (drivers : List Driver) : ManagerState drivers where
  isStarted _ := false
  deviceList _ := false
  containerIsStarted _ := false
  isStarting _ := false
  driverTuple _ := false
  entered := []
  references := []
  failures := []

variable (m : ManagerState drivers) (d dep : DriverIndex drivers)

/-- The constructor of `d` has been entered. -/
def begin : ManagerState drivers :=
  { m with
    isStarting := Function.update m.isStarting d true
    entered := m.entered ++ [d] }

/-- The driver `d` has been made and marked. -/
def complete : ManagerState drivers :=
  { m with
    isStarted := Function.update m.isStarted d true
    deviceList := Function.update m.deviceList d true
    containerIsStarted := Function.update m.containerIsStarted d true
    isStarting := Function.update m.isStarting d false
    driverTuple := Function.update m.driverTuple d true }

/-- The allocation of `d` has failed. -/
def fail : ManagerState drivers := { m with failures := m.failures ++ [(d, m.isStarting)] }

/-- A constructor has gone on with a reference to `dep`. -/
def refer : ManagerState drivers :=
  { m with references := m.references ++ [(dep, m.driverTuple dep, m.isStarted dep)] }

end ManagerState

/-- What holds of the driver manager while the constructors in `stack` are pending. -/
structure Coherent (deps : DriverIndex drivers → List (DriverIndex drivers))
    (stack : List (DriverIndex drivers)) (m : ManagerState drivers) : Prop where
  starting : ∀ d, m.isStarting d = true ↔ d ∈ stack
  stack_nodup : stack.Nodup
  notStarted : ∀ d ∈ stack, m.isStarted d = false
  container : m.containerIsStarted = m.isStarted
  tuple : m.driverTuple = m.isStarted
  device : m.deviceList = m.isStarted
  entered_nodup : m.entered.Nodup
  mem_entered : ∀ d, d ∈ m.entered ↔ m.isStarted d = true ∨ d ∈ stack
  closed : m.failures = [] → ∀ d, m.isStarted d = true → ∀ e ∈ deps d, m.isStarted e = true
  grounded : m.failures = [] → ∀ d, m.isStarted d = true → Grounded (Needs deps) d
  references : m.failures = [] → ∀ r ∈ m.references, r.2 = (true, true)
  poisoned : ∀ f ∈ m.failures, ∀ d, f.2 d = true → m.isStarted d = true ∨ d ∈ stack
  pending : ∀ f ∈ m.failures, ∃ d, f.2 d = true

variable {deps : DriverIndex drivers → List (DriverIndex drivers)}
  {stack : List (DriverIndex drivers)} {m : ManagerState drivers} {d dep : DriverIndex drivers}

theorem coherent_initial : Coherent deps [] (ManagerState.initial drivers) where
  starting _ := ⟨fun h => Bool.noConfusion h, fun h => absurd h List.not_mem_nil⟩
  stack_nodup := List.nodup_nil
  notStarted _ h := absurd h List.not_mem_nil
  container := rfl
  tuple := rfl
  device := rfl
  entered_nodup := List.nodup_nil
  mem_entered _ := ⟨fun h => absurd h List.not_mem_nil, fun h => by
    rcases h with h | h
    · exact Bool.noConfusion h
    · exact h⟩
  closed _ _ h := Bool.noConfusion h
  grounded _ _ h := Bool.noConfusion h
  references _ _ h := absurd h List.not_mem_nil
  poisoned _ h := absurd h List.not_mem_nil
  pending _ h := absurd h List.not_mem_nil

/-- A driver that is neither started nor pending has not been entered. -/
theorem Coherent.not_mem_entered (h : Coherent deps stack m) (hd : m.isStarted d = false)
    (hstack : d ∉ stack) : d ∉ m.entered := by
  rw [h.mem_entered d, hd]
  rintro (h0 | h0)
  · exact Bool.noConfusion h0
  · exact hstack h0

/-- Its constructor is entered for the first time. -/
theorem Coherent.begin (h : Coherent deps stack m) (hd : m.isStarted d = false)
    (hstack : d ∉ stack) : Coherent deps (d :: stack) (m.begin d) := by
  have hentered := h.not_mem_entered hd hstack
  refine { h with starting := ?_, stack_nodup := ?_, notStarted := ?_, entered_nodup := ?_,
                  mem_entered := ?_, poisoned := ?_ }
  · intro e
    by_cases he : e = d
    · subst he
      simp [ManagerState.begin]
    · simp [ManagerState.begin, h.starting, he]
  · exact List.nodup_cons.mpr ⟨hstack, h.stack_nodup⟩
  · intro e he
    rcases List.mem_cons.mp he with rfl | he
    · exact hd
    · exact h.notStarted e he
  · exact List.nodup_append.mpr ⟨h.entered_nodup, List.nodup_singleton d, by
      rintro a ha b hb rfl
      rw [List.mem_singleton.mp hb] at ha
      exact hentered ha⟩
  · intro e
    change e ∈ m.entered ++ [d] ↔ m.isStarted e = true ∨ e ∈ d :: stack
    rw [List.mem_append, List.mem_singleton, List.mem_cons, h.mem_entered e]
    tauto
  · intro f hf e he
    rcases h.poisoned f hf e he with h0 | h0
    · exact Or.inl h0
    · exact Or.inr (List.mem_cons_of_mem d h0)

/-- The driver whose constructor is the last pending one is done; if nothing has failed it
has got all that it asked for. -/
theorem Coherent.complete (h : Coherent deps (d :: stack) m)
    (hdeps : m.failures = [] → ∀ e ∈ deps d, m.isStarted e = true) :
    Coherent deps stack (m.complete d) := by
  obtain ⟨hd, hnodup⟩ := List.nodup_cons.mp h.stack_nodup
  have hmark : ∀ e, (m.complete d).isStarted e = true ↔ e = d ∨ m.isStarted e = true := by
    intro e
    by_cases he : e = d
    · subst he
      simp [ManagerState.complete]
    · simp [ManagerState.complete, he]
  refine { starting := ?_, stack_nodup := hnodup, notStarted := ?_, container := ?_, tuple := ?_,
           device := ?_, entered_nodup := h.entered_nodup, mem_entered := ?_, closed := ?_,
           grounded := ?_, references := h.references, poisoned := ?_, pending := h.pending }
  · intro e
    by_cases he : e = d
    · subst he
      simp [ManagerState.complete, hd]
    · have hstarting := h.starting e
      simp [ManagerState.complete, hstarting, he]
  · intro e he
    have hne : e ≠ d := fun h0 => hd (h0 ▸ he)
    have hstarted := h.notStarted e (List.mem_cons_of_mem d he)
    simpa [ManagerState.complete, Function.update_of_ne hne] using hstarted
  · exact congrArg (Function.update · d true) h.container
  · exact congrArg (Function.update · d true) h.tuple
  · exact congrArg (Function.update · d true) h.device
  · intro e
    rw [hmark]
    change e ∈ m.entered ↔ _
    rw [h.mem_entered e, List.mem_cons]
    tauto
  · intro hfailures e he e' he'
    rw [hmark] at he ⊢
    rcases he with rfl | he
    · exact Or.inr (hdeps hfailures e' he')
    · exact Or.inr (h.closed hfailures e he e' he')
  · intro hfailures e he
    rw [hmark] at he
    rcases he with rfl | he
    · exact Grounded.of_forall fun e' he' => h.grounded hfailures e' (hdeps hfailures e' he')
    · exact h.grounded hfailures e he
  · intro f hf e he
    rw [hmark]
    rcases h.poisoned f hf e he with h0 | h0
    · exact Or.inl (Or.inr h0)
    · rcases List.mem_cons.mp h0 with rfl | h0
      · exact Or.inl (Or.inl rfl)
      · exact Or.inr h0

/-- A driver that is pending has been asked for again. -/
theorem Coherent.fail (h : Coherent deps stack m) (hd : d ∈ stack) :
    Coherent deps stack (m.fail d) := by
  have hne : (m.fail d).failures ≠ [] := by simp [ManagerState.fail]
  refine { h with closed := fun h0 => absurd h0 hne, grounded := fun h0 => absurd h0 hne,
                  references := fun h0 => absurd h0 hne, poisoned := ?_, pending := ?_ }
  · intro f hf e he
    rcases List.mem_append.mp hf with hf | hf
    · exact h.poisoned f hf e he
    · rw [List.mem_singleton.mp hf] at he
      exact Or.inr ((h.starting e).mp he)
  · intro f hf
    rcases List.mem_append.mp hf with hf | hf
    · exact h.pending f hf
    · rw [List.mem_singleton.mp hf]
      exact ⟨d, (h.starting d).mpr hd⟩

/-- A constructor goes on; if nothing has failed, what it asked for is there. -/
theorem Coherent.refer (h : Coherent deps stack m)
    (hdep : m.failures = [] → m.isStarted dep = true) : Coherent deps stack (m.refer dep) := by
  refine { h with references := ?_ }
  intro hfailures r hr
  rcases List.mem_append.mp hr with hr | hr
  · exact h.references hfailures r hr
  · rw [List.mem_singleton.mp hr]
    have hstarted := hdep hfailures
    change (m.driverTuple dep, m.isStarted dep) = _
    rw [h.tuple, hstarted]

/-- There are no more pending constructors than drivers. -/
theorem Coherent.length_stack (h : Coherent deps stack m) : stack.length ≤ drivers.length := by
  have hcard := h.stack_nodup.length_le_card
  rwa [Fintype.card_fin] at hcard

end KoheronSdk
