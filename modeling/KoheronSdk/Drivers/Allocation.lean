import KoheronSdk.Lib.Interpretation
import KoheronSdk.Server.Session

/-!
# Starting drivers

`DriverContainer` and `DriverManager` of `drivers_manager.hpp`, with the constructors that
come back to them through `ctx.get`.  Here the actions of a session thread on the driver
manager are no single actions any more, but the programs that the manager runs: `manage`
puts these in their place.

## Two levels of marks

The manager and the container each have their own `is_started`, and the container has `is_starting`
besides.  The manager asks its own marks first without the mutex and again under it, and the
container then asks its own.  A driver is marked in the container when its constructor has returned,
and in the manager a little later, so for a while the two disagree.  The mutex is recursive: a
constructor that asks for a driver enters `alloc_driver` again on the same thread and locks the
mutex once more.

## Constructors

A constructor is the list of the drivers that it asks for.  What the recursion does with a
cyclic list is part of the program: `is_starting` is found set, an error is returned and the
flag `exit_all` is raised.  Its fuel is no part of the program, and is shown to be enough: no
more constructors are pending than there are drivers.

The state also has fields that the code does not keep, the constructors that were entered, the
references with which they went on, and the allocations that failed.  No action reads them;
they are there for what is said about a run.

* `containerAlloc`, `allocDriver`: the two levels of the allocation.
* `Request`, `Request.run`: `get` and `execute`.
-/

namespace KoheronSdk

open Effects

/-- The index of a driver: its id without `NoDriver` and `Server`. -/
abbrev DriverIndex (drivers : List Driver) := Fin drivers.length

/-- What a thread asks the driver manager for: `get`, or `execute` with a command that the
assertion in `execute` admits. -/
inductive Request (drivers : List Driver) where
  | get (d : DriverIndex drivers)
  | execute (s : Session) (cmd : Command) (h : cmd.driver < deviceNum drivers)

/-- The driver that a request names, if it names one that is started on request. -/
def Request.driver? {drivers : List Driver} : Request drivers → Option (DriverIndex drivers)
  | .get d => some d
  | .execute _ cmd h =>
    if h2 : firstDriverId ≤ cmd.driver then
      some ⟨cmd.driver - firstDriverId, by rw [deviceNum] at h; rw [firstDriverId] at *; omega⟩
    else none

/-! ## Actions -/

/-- What a thread does in the driver manager, and around it. -/
inductive ManagerAction (drivers : List Driver) where
  /-- Acquire and release the recursive mutex. -/
  | lock
  | unlock
  /-- `DriverManager::is_started` -/
  | isStarted (d : DriverIndex drivers)
  | setIsStarted (d : DriverIndex drivers)
  /-- `DriverContainer::is_started` and `DriverContainer::is_starting` -/
  | containerIsStarted (d : DriverIndex drivers)
  | setContainerIsStarted (d : DriverIndex drivers)
  | isStarting (d : DriverIndex drivers)
  | setIsStarting (d : DriverIndex drivers) (b : Bool)
  /-- The constructor of a driver is entered, goes on with a reference to another driver, and
  has made the driver. -/
  | enter (d : DriverIndex drivers)
  | refer (d dep : DriverIndex drivers)
  | setDriverTuple (d : DriverIndex drivers)
  /-- `device_list[d] = ...`, and `device_list[d].get()`, answered by the type of the device. -/
  | setDeviceList (d : DriverIndex drivers)
  | device (d : DriverIndex drivers)
  /-- `server->exit_all = true` -/
  | fail (d : DriverIndex drivers)
  /-- `*std::get<d>(driver_tuple)`, outside of a constructor. -/
  | dereference (d : DriverIndex drivers)
  /-- A request begins, and `execute` has returned. -/
  | begin (r : Request drivers)
  | finish (n : ℤ)
  /-- Whatever else a session thread does. -/
  | session (e : Action)
  /-- Behaviour that C++ leaves undefined. -/
  | fault (f : Fault)
  | outOfFuel
  /-- `exit_all.store(b)` and a load of `exit_all`. -/
  | storeExitAll (b : Bool)
  | exitAll
  /-- The workers of the listeners are started, and the shutdown branch is taken. -/
  | startWorkers
  | shutdown
  /-- A call of something else, which may fail. -/
  | attempt

/-- The drivers that are marked, and what has happened to them.  The last three say what the
code does not keep: the constructors that were entered, the references they went on with,
and the allocations that failed, with the constructors pending then. -/
structure ManagerState (drivers : List Driver) where
  isStarted : DriverIndex drivers → Bool
  deviceList : DriverIndex drivers → Bool
  containerIsStarted : DriverIndex drivers → Bool
  isStarting : DriverIndex drivers → Bool
  driverTuple : DriverIndex drivers → Bool
  entered : List (DriverIndex drivers)
  references : List (DriverIndex drivers × Bool × Bool)
  failures : List (DriverIndex drivers × (DriverIndex drivers → Bool))

/-- How an action is answered; a mutex, by the state that it protects. -/
def ManagerAnswer (drivers : List Driver) : ManagerAction drivers → Type
  | .lock => ManagerState drivers
  | .isStarted _ => Bool
  | .containerIsStarted _ => Bool
  | .isStarting _ => Bool
  | .device _ => Option ℕ
  | .exitAll => Bool
  | .attempt => Bool
  | .session e => Answer e
  | _ => Unit

/-- A program of a thread, with the driver manager. -/
abbrev ManagerProgram (drivers : List Driver) (α : Type) :=
  Prog (ManagerAction drivers) (ManagerAnswer drivers) α

section Programs

variable {drivers : List Driver}

/-- An action that is not asked for an answer. -/
def manager (e : ManagerAction drivers) : ManagerProgram drivers Unit := .act e fun _ => .pure ()

def managerIsStarted (d : DriverIndex drivers) : ManagerProgram drivers Bool :=
  Prog.perform (A := ManagerAnswer drivers) (.isStarted d)

def containerIsStarted (d : DriverIndex drivers) : ManagerProgram drivers Bool :=
  Prog.perform (A := ManagerAnswer drivers) (.containerIsStarted d)

def isStarting (d : DriverIndex drivers) : ManagerProgram drivers Bool :=
  Prog.perform (A := ManagerAnswer drivers) (.isStarting d)

def managerDevice (d : DriverIndex drivers) : ManagerProgram drivers (Option ℕ) :=
  Prog.perform (A := ManagerAnswer drivers) (.device d)

/-! ## Allocation -/

/-- The drivers that a constructor asks for, one after the other, and goes on with. -/
def constructorBody (get : DriverIndex drivers → ManagerProgram drivers Unit)
    (d : DriverIndex drivers) : List (DriverIndex drivers) → ManagerProgram drivers Unit
  | [] => return ()
  | dep :: deps => do
    get dep
    manager (.refer d dep)
    constructorBody get d deps

/-- `std::get<d>(driver_tuple) = std::make_unique<device_t<d>>(ctx)` -/
def construct (deps : DriverIndex drivers → List (DriverIndex drivers))
    (get : DriverIndex drivers → ManagerProgram drivers Unit) (d : DriverIndex drivers) :
    ManagerProgram drivers Unit := do
  manager (.enter d)
  constructorBody get d (deps d)
  manager (.setDriverTuple d)

/-- `DriverContainer::alloc` -/
def containerAlloc (construct : DriverIndex drivers → ManagerProgram drivers Unit)
    (d : DriverIndex drivers) : ManagerProgram drivers ℤ := do
  if ← containerIsStarted d then return 0
  if ← isStarting d then return -1
  manager (.setIsStarting d true)
  construct d
  manager (.setIsStarting d false)
  manager (.setContainerIsStarted d)
  return 0

/-- `DriverManager::get`, before the reference is made. -/
def managerGet (allocDriver : DriverIndex drivers → ManagerProgram drivers Unit)
    (d : DriverIndex drivers) : ManagerProgram drivers Unit := do
  if !(← managerIsStarted d) then allocDriver d

/-- `DriverManager::alloc_driver` under its lock guard, which unlocks the mutex on each path. -/
def allocDriverLocked (deps : DriverIndex drivers → List (DriverIndex drivers))
    (get : DriverIndex drivers → ManagerProgram drivers Unit) (d : DriverIndex drivers) :
    ManagerProgram drivers Unit := do
  if ← managerIsStarted d then
    manager .unlock
  else
    let err ← containerAlloc (construct deps get) d
    if err < 0 then
      manager (.fail d)
      manager .unlock
    else
      manager (.setDeviceList d)
      manager (.setIsStarted d)
      manager .unlock

/-- `DriverManager::alloc_driver` -/
def managerAllocDriver (deps : DriverIndex drivers → List (DriverIndex drivers)) :
    ℕ → DriverIndex drivers → ManagerProgram drivers Unit
  | 0, _ => manager .outOfFuel
  | fuel + 1, d => do
    manager .lock
    allocDriverLocked deps (managerGet (managerAllocDriver deps fuel)) d

/-! ## Requests -/

/-- What the driver manager does for a session thread. -/
def manage (deps : DriverIndex drivers → List (DriverIndex drivers)) (fuel : ℕ) :
    (e : Action) → ManagerProgram drivers (Answer e)
  | .isStarted i =>
    if h : i < drivers.length then managerIsStarted ⟨i, h⟩
    else do
      manager (.fault .outOfBounds)
      return false
  | .allocDriver driver =>
    if h : driver - firstDriverId < drivers.length then
      managerAllocDriver deps fuel ⟨driver - firstDriverId, h⟩
    else manager (.fault .outOfBounds)
  | .device i =>
    if h : i < drivers.length then do
      match ← managerDevice ⟨i, h⟩ with
      | some type => return type
      | none =>
        manager (.fault .nullDereference)
        return (0 : ℕ)
    else do
      manager (.fault .outOfBounds)
      return (0 : ℕ)
  | e => Prog.perform (A := ManagerAnswer drivers) (.session e)

/-- What a thread does for a request. -/
def Request.run (arch : Arch) (deps : DriverIndex drivers → List (DriverIndex drivers))
    (fuel : ℕ) : Request drivers → ManagerProgram drivers Unit
  | .get d => do
    managerGet (managerAllocDriver deps fuel) d
    manager (.dereference d)
  | .execute s cmd _ => do
    let (n, _) ← (DriverManager.execute arch drivers s cmd).interpret (manage deps fuel)
    manager (.finish n)

/-- A thread with its requests, one after the other. -/
def runRequests (arch : Arch) (deps : DriverIndex drivers → List (DriverIndex drivers))
    (fuel : ℕ) : List (Request drivers) → ManagerProgram drivers Unit
  | [] => return ()
  | r :: rs => do
    manager (.begin r)
    r.run arch deps fuel
    runRequests arch deps fuel rs

end Programs

end KoheronSdk
