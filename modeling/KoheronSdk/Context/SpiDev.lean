import Mathlib.Data.Int.Notation
import Mathlib.Logic.Function.Basic
import KoheronSdk.Lib.Transition

/-!
# The SPI devices of the context

A driver asks the `SpiManager` for a device with its mode, speed and word length.  `SpiDev::init`
opens the device and sets the three, each of which can fail, but all that it goes by later on is
whether the device is open.

So a second `init` after a failed setting finds the device open and returns 0 at once, with the
system told nothing.  The same happens when a second driver asks for an open device with
other parameters.  In both cases the caller gets a device that is good by its
own account and is configured for somebody else, or not at all.

The model keeps the calls to the system with their answers, the last one first.  What the
system has been told is read off this list: the last mode, speed and word length whose call was
answered well.  The fields of the device are no witness for it, since the code sets
them before it asks the system.

`Known` is the invariant of the runs in which all requests are steady: a closed device
has been told nothing, and an open one what its fields say.  From a known device a
request is honoured exactly if it is steady, and then the device is known again.

* `SpiPort.init`: the calls to the system, with any answers.
* `Honoured`: what a request is for.
* `Steady`: the requests that are honoured.
* `along_honoured_iff`: the runs of requests that are.
-/

namespace KoheronSdk

open Transition

/-- What a driver asks for. -/
structure SpiParams where
  mode : UInt8
  speed : UInt32
  wordLength : UInt8
  deriving DecidableEq

/-- The fields of a `SpiDev` that are set on a request. -/
structure SpiDev where
  mode : UInt8 := 0
  speed : UInt32 := 1000000
  wordLength : UInt8 := 8
  fd : ℤ := -1

namespace SpiDev

def isOk (dev : SpiDev) : Bool := 0 ≤ dev.fd

def params (dev : SpiDev) : SpiParams := ⟨dev.mode, dev.speed, dev.wordLength⟩

end SpiDev

/-- The calls to the system. -/
inductive SpiCall where
  | openDev
  | wrMode (mode : UInt8)
  | wrMaxSpeedHz (speed : UInt32)
  | wrBitsPerWord (wordLength : UInt8)
  deriving DecidableEq

/-- The answers of the system to the calls of one request. -/
structure SpiAnswers where
  fd : ℤ
  mode : ℤ
  speed : ℤ
  wordLength : ℤ

/-- A device with the calls that were made for it, the last one first, and what the last `init`
returned. -/
structure SpiPort where
  dev : SpiDev := {}
  calls : List (SpiCall × ℤ) := []
  result : Option ℤ := none

namespace SpiPort

/-- `if (ioctl(fd, request, &value) < 0) return -1;  return 0;` -/
def ioctl (port : SpiPort) (call : SpiCall) (answer : ℤ) : ℤ × SpiPort :=
  (if answer < 0 then -1 else 0, { port with calls := (call, answer) :: port.calls })

def setMode (port : SpiPort) (mode : UInt8) (answer : ℤ) : ℤ × SpiPort :=
  if port.dev.isOk = false then (-1, port)
  else ioctl { port with dev := { port.dev with mode := mode } } (.wrMode mode) answer

def setSpeed (port : SpiPort) (speed : UInt32) (answer : ℤ) : ℤ × SpiPort :=
  if port.dev.isOk = false then (-1, port)
  else ioctl { port with dev := { port.dev with speed := speed } } (.wrMaxSpeedHz speed) answer

def setWordLength (port : SpiPort) (wordLength : UInt8) (answer : ℤ) : ℤ × SpiPort :=
  if port.dev.isOk = false then (-1, port)
  else ioctl { port with dev := { port.dev with wordLength := wordLength } }
    (.wrBitsPerWord wordLength) answer

/-- `fd = open(devpath, O_RDWR | O_NOCTTY)` -/
def openDev (port : SpiPort) (answer : ℤ) : SpiPort :=
  { port with dev := { port.dev with fd := answer }, calls := (.openDev, answer) :: port.calls }

/-- The three settings, as far as none of them fails. -/
def configure (port : SpiPort) (params : SpiParams) (answers : SpiAnswers) : ℤ × SpiPort :=
  let set := port.setMode params.mode answers.mode
  if set.1 < 0 then (-1, set.2)
  else
    let set := set.2.setSpeed params.speed answers.speed
    if set.1 < 0 then (-1, set.2)
    else
      let set := set.2.setWordLength params.wordLength answers.wordLength
      if set.1 < 0 then (-1, set.2) else (0, set.2)

/-- `SpiDev::init` -/
def init (port : SpiPort) (params : SpiParams) (answers : SpiAnswers) : ℤ × SpiPort :=
  if 0 ≤ port.dev.fd then (0, port)
  else
    let port := port.openDev answers.fd
    if port.dev.fd < 0 then (-1, port) else port.configure params answers

/-- A request, with what it returned. -/
def request (port : SpiPort) (params : SpiParams) (answers : SpiAnswers) : SpiPort :=
  { (port.init params answers).2 with result := some (port.init params answers).1 }

/-! ## What the system has been told -/

/-- The mode that a call sets. -/
def modeSet : SpiCall × ℤ → Option UInt8
  | (.wrMode mode, answer) => if answer < 0 then none else some mode
  | (.openDev, _) => none
  | (.wrMaxSpeedHz _, _) => none
  | (.wrBitsPerWord _, _) => none

/-- The speed that a call sets. -/
def speedSet : SpiCall × ℤ → Option UInt32
  | (.wrMaxSpeedHz speed, answer) => if answer < 0 then none else some speed
  | (.openDev, _) => none
  | (.wrMode _, _) => none
  | (.wrBitsPerWord _, _) => none

/-- The word length that a call sets. -/
def wordLengthSet : SpiCall × ℤ → Option UInt8
  | (.wrBitsPerWord wordLength, answer) => if answer < 0 then none else some wordLength
  | (.openDev, _) => none
  | (.wrMode _, _) => none
  | (.wrMaxSpeedHz _, _) => none

/-- The last settings that were successful are these. -/
structure Configured (port : SpiPort) (params : SpiParams) : Prop where
  mode : port.calls.findSome? modeSet = some params.mode
  speed : port.calls.findSome? speedSet = some params.speed
  wordLength : port.calls.findSome? wordLengthSet = some params.wordLength

/-- They are those of one set of parameters. -/
theorem Configured.params_eq {port : SpiPort} {p q : SpiParams} (hp : port.Configured p)
    (hq : port.Configured q) : p = q := by
  cases p
  cases q
  rw [SpiParams.mk.injEq]
  exact ⟨Option.some.inj (hp.mode.symm.trans hq.mode),
    Option.some.inj (hp.speed.symm.trans hq.speed),
    Option.some.inj (hp.wordLength.symm.trans hq.wordLength)⟩

/-! ## A request -/

section Init

variable {port : SpiPort} {params : SpiParams} {answers : SpiAnswers}

/-- All the answers to the settings are good. -/
def Accepted (answers : SpiAnswers) : Prop :=
  0 ≤ answers.mode ∧ 0 ≤ answers.speed ∧ 0 ≤ answers.wordLength

/-- A device that is open stays as it is. -/
theorem init_of_isOpen (hfd : 0 ≤ port.dev.fd) : port.init params answers = (0, port) :=
  if_pos hfd

theorem init_of_open_fails (hfd : ¬ 0 ≤ port.dev.fd) (hopen : answers.fd < 0) :
    port.init params answers = (-1, port.openDev answers.fd) := by
  unfold init
  rw [if_neg hfd]
  exact if_pos hopen

theorem init_of_opens (hfd : ¬ 0 ≤ port.dev.fd) (hopen : ¬ answers.fd < 0) :
    port.init params answers = (port.openDev answers.fd).configure params answers := by
  unfold init
  rw [if_neg hfd]
  exact if_neg hopen

/-- A setter on a device that is open makes its call. -/
theorem setMode_of_isOpen {mode : UInt8} {answer : ℤ} (hfd : 0 ≤ port.dev.fd) :
    port.setMode mode answer =
      ioctl { port with dev := { port.dev with mode := mode } } (.wrMode mode) answer :=
  if_neg fun h => of_decide_eq_false h hfd

theorem setSpeed_of_isOpen {speed : UInt32} {answer : ℤ} (hfd : 0 ≤ port.dev.fd) :
    port.setSpeed speed answer =
      ioctl { port with dev := { port.dev with speed := speed } } (.wrMaxSpeedHz speed) answer :=
  if_neg fun h => of_decide_eq_false h hfd

theorem setWordLength_of_isOpen {wordLength : UInt8} {answer : ℤ} (hfd : 0 ≤ port.dev.fd) :
    port.setWordLength wordLength answer =
      ioctl { port with dev := { port.dev with wordLength := wordLength } }
        (.wrBitsPerWord wordLength) answer :=
  if_neg fun h => of_decide_eq_false h hfd

theorem ioctl_neg_iff {call : SpiCall} {answer : ℤ} :
    (port.ioctl call answer).1 < 0 ↔ answer < 0 := by
  unfold ioctl
  split <;> omega

/-- The settings are made in order, until one of them fails. -/
theorem configure_eq (hfd : 0 ≤ port.dev.fd) : port.configure params answers =
    if answers.mode < 0 then
      (-1, { port with
        dev := { port.dev with mode := params.mode }
        calls := (.wrMode params.mode, answers.mode) :: port.calls })
    else if answers.speed < 0 then
      (-1, { port with
        dev := { port.dev with mode := params.mode, speed := params.speed }
        calls := (.wrMaxSpeedHz params.speed, answers.speed) ::
          (.wrMode params.mode, answers.mode) :: port.calls })
    else
      (if answers.wordLength < 0 then -1 else 0, { port with
        dev := { mode := params.mode, speed := params.speed, wordLength := params.wordLength
                 fd := port.dev.fd }
        calls := (.wrBitsPerWord params.wordLength, answers.wordLength) ::
          (.wrMaxSpeedHz params.speed, answers.speed) ::
          (.wrMode params.mode, answers.mode) :: port.calls }) := by
  unfold configure
  rw [setMode_of_isOpen hfd]
  simp only [ioctl_neg_iff]
  split
  · rfl
  · rw [setSpeed_of_isOpen]
    · simp only [ioctl_neg_iff]
      split
      · rfl
      · rw [setWordLength_of_isOpen]
        · simp only [ioctl_neg_iff]
          split <;> rfl
        · exact hfd
    · exact hfd

/-- What a device that was closed has been told is what was asked for, when all went well. -/
theorem configured_configure (hfd : 0 ≤ port.dev.fd) (haccepted : Accepted answers) :
    (port.configure params answers).1 = 0 ∧
      (port.configure params answers).2.Configured params := by
  obtain ⟨hmode, hspeed, hword⟩ := haccepted
  rw [configure_eq hfd, if_neg (Int.not_lt.mpr hmode), if_neg (Int.not_lt.mpr hspeed),
    if_neg (Int.not_lt.mpr hword)]
  refine ⟨rfl, ?_, ?_, ?_⟩
  · simp only [List.findSome?_cons, modeSet, if_neg (Int.not_lt.mpr hmode)]
  · simp only [List.findSome?_cons, speedSet, if_neg (Int.not_lt.mpr hspeed)]
  · simp only [List.findSome?_cons, wordLengthSet, if_neg (Int.not_lt.mpr hword)]

/-- What a device has not been told of before, it has not been told of when something went
wrong. -/
theorem not_configured_configure (hfd : 0 ≤ port.dev.fd) (haccepted : ¬ Accepted answers)
    (hmode : port.calls.findSome? modeSet = none) (hspeed : port.calls.findSome? speedSet = none)
    (hword : port.calls.findSome? wordLengthSet = none) :
    ¬ (port.configure params answers).2.Configured params := by
  intro hconf
  rw [configure_eq hfd] at hconf
  by_cases hm : answers.mode < 0
  · rw [if_pos hm] at hconf
    have hset := hconf.mode
    simp [modeSet, hm, hmode] at hset
  · rw [if_neg hm] at hconf
    by_cases hs : answers.speed < 0
    · rw [if_pos hs] at hconf
      have hset := hconf.speed
      simp [List.findSome?_cons, speedSet, hs, hspeed] at hset
    · rw [if_neg hs] at hconf
      have hw : answers.wordLength < 0 := by
        by_contra hw
        exact haccepted ⟨Int.not_lt.mp hm, Int.not_lt.mp hs, Int.not_lt.mp hw⟩
      have hset := hconf.wordLength
      simp [List.findSome?_cons, wordLengthSet, hw, hword] at hset

/-- The descriptor and the cached parameters of a device that was configured. -/
theorem dev_configure (hfd : 0 ≤ port.dev.fd) :
    (port.configure params answers).2.dev.fd = port.dev.fd ∧
      (Accepted answers → (port.configure params answers).2.dev.params = params) := by
  rw [configure_eq hfd]
  constructor
  · split
    · rfl
    · split <;> rfl
  · rintro ⟨hmode, hspeed, -⟩
    rw [if_neg (Int.not_lt.mpr hmode), if_neg (Int.not_lt.mpr hspeed)]
    rfl

end Init

end SpiPort

/-! ## The manager -/

/-- The devices that were found. -/
structure SpiManager where
  spiDrivers : String → Option SpiPort

/-- `get(devname, mode, speed, word_length)`, and how the system answers. -/
structure SpiRequest where
  devname : String
  params : SpiParams
  answers : SpiAnswers

namespace SpiManager

/-- `SpiManager::init`: the entries of `/sys/class/spidev`, if it is there. -/
def init (entries : Option (List String)) : SpiManager where
  spiDrivers := fun devname =>
    if ∃ names ∈ entries, devname ∈ names ∧ devname.toList.head? ≠ some '.' then some {} else none

def hasDevice (manager : SpiManager) (devname : String) : Bool :=
  (manager.spiDrivers devname).isSome

/-- The manager after a request, and the device that is handed out. -/
def get (manager : SpiManager) (request : SpiRequest) : SpiManager × SpiDev :=
  if hfound : manager.hasDevice request.devname then
    let port := ((manager.spiDrivers request.devname).get hfound).request request.params
      request.answers
    ({ manager with
        spiDrivers := Function.update manager.spiDrivers request.devname (some port) }, port.dev)
  else (manager, {})

def step (manager : SpiManager) (request : SpiRequest) : Option SpiManager :=
  some (manager.get request).1

/-! ## Requests that are honoured -/

section Honoured

variable (manager : SpiManager) (request : SpiRequest)

/-- What a request for a device that is there is for: `init` returns 0 only for a device that has
been told what is asked for, it does not do so without trying again when it returned -1 before, and
a device that is handed out as `is_ok()` has been told what is asked for. -/
structure Honoured : Prop where
  success : ∀ port, manager.spiDrivers request.devname = some port →
    (port.init request.params request.answers).1 = 0 →
      (port.init request.params request.answers).2.Configured request.params
  again : ∀ port, manager.spiDrivers request.devname = some port → port.result = some (-1) →
    (port.init request.params request.answers).1 = 0 →
      (port.init request.params request.answers).2.calls ≠ port.calls
  handedOut : ∀ port, manager.spiDrivers request.devname = some port →
    (manager.get request).2.isOk = true →
      (port.request request.params request.answers).Configured request.params

/-- A device that is closed is opened and takes all three settings, or cannot be opened; of one
that is open nothing else is asked for than what it has. -/
def Steady : Prop :=
  ∀ port, manager.spiDrivers request.devname = some port →
    if port.dev.isOk then request.params = port.dev.params
    else request.answers.fd < 0 ∨ SpiPort.Accepted request.answers

/-- A device that is closed has not been told anything; one that is open has been told what it
has. -/
structure Known (port : SpiPort) : Prop where
  closed : port.dev.isOk = false → port.calls.findSome? SpiPort.modeSet = none ∧
    port.calls.findSome? SpiPort.speedSet = none ∧
    port.calls.findSome? SpiPort.wordLengthSet = none
  opened : port.dev.isOk = true → port.Configured port.dev.params ∧ port.result = some 0

/-- The invariant of the runs in which all requests are steady. -/
def AllKnown : Prop := ∀ devname port, manager.spiDrivers devname = some port → Known port

end Honoured

theorem allKnown_init (entries : Option (List String)) : AllKnown (init entries) := by
  intro devname port hport
  obtain ⟨-, hfresh⟩ := Option.ite_none_right_eq_some.mp hport
  obtain rfl : {} = port := Option.some.inj hfresh
  exact ⟨fun _ => ⟨rfl, rfl, rfl⟩, fun h => absurd h (by decide)⟩

section Port

variable {port : SpiPort} {params : SpiParams} {answers : SpiAnswers}

/-- What is steady of one device. -/
def SteadyPort (port : SpiPort) (params : SpiParams) (answers : SpiAnswers) : Prop :=
  if port.dev.isOk then params = port.dev.params
  else answers.fd < 0 ∨ SpiPort.Accepted answers

/-- **A steady request** leaves a device that is known. -/
theorem known_request (hknown : Known port) (hsteady : SteadyPort port params answers) :
    Known (port.request params answers) := by
  by_cases hok : port.dev.isOk = true
  · -- the device stays as it is
    unfold SpiPort.request
    rw [SpiPort.init_of_isOpen (of_decide_eq_true hok)]
    refine ⟨hknown.closed, fun h => ⟨?_, rfl⟩⟩
    obtain ⟨hmode, hspeed, hword⟩ := (hknown.opened h).1
    exact ⟨hmode, hspeed, hword⟩
  · rw [SteadyPort, if_neg hok] at hsteady
    have hfd : ¬ 0 ≤ port.dev.fd := fun h => hok (decide_eq_true h)
    by_cases hopen : answers.fd < 0
    · unfold SpiPort.request
      rw [SpiPort.init_of_open_fails hfd hopen]
      refine ⟨fun _ => ?_, fun h => absurd hopen (Int.not_lt.mpr (of_decide_eq_true h))⟩
      exact hknown.closed (eq_false_of_ne_true hok)
    · have haccepted := hsteady.resolve_left hopen
      have hpos : 0 ≤ (port.openDev answers.fd).dev.fd := Int.not_lt.mp hopen
      obtain ⟨hresult, hconf⟩ : _ ∧ SpiPort.Configured _ params :=
        SpiPort.configured_configure hpos haccepted
      obtain ⟨hdev, hparams⟩ : _ ∧ (SpiPort.Accepted answers → SpiDev.params _ = params) :=
        SpiPort.dev_configure hpos
      unfold SpiPort.request
      rw [SpiPort.init_of_opens hfd hopen, hresult]
      refine ⟨fun h => absurd h ?_, fun _ => ⟨?_, rfl⟩⟩
      · refine ne_false_of_eq_true (decide_eq_true ?_)
        rw [hdev]
        exact hpos
      · show SpiPort.Configured _ (SpiDev.params (SpiPort.configure _ _ _).2.dev)
        rw [hparams haccepted]
        exact ⟨hconf.mode, hconf.speed, hconf.wordLength⟩

/-- What a device that is not configured as requested leads to. -/
theorem steadyPort_of_honoured (hknown : Known port)
    (hsuccess : (port.init params answers).1 = 0 →
      (port.init params answers).2.Configured params)
    (hhanded : (port.request params answers).dev.isOk = true →
      (port.request params answers).Configured params) : SteadyPort port params answers := by
  unfold SteadyPort
  by_cases hok : port.dev.isOk = true
  · rw [if_pos hok]
    rw [SpiPort.init_of_isOpen (of_decide_eq_true hok)] at hsuccess
    exact (hsuccess rfl).params_eq (hknown.opened hok).1
  · rw [if_neg hok]
    have hfd : ¬ 0 ≤ port.dev.fd := fun h => hok (decide_eq_true h)
    obtain ⟨hmode, hspeed, hword⟩ := hknown.closed (eq_false_of_ne_true hok)
    by_cases hopen : answers.fd < 0
    · exact Or.inl hopen
    · refine Or.inr ?_
      by_contra haccepted
      have hpos : 0 ≤ (port.openDev answers.fd).dev.fd := Int.not_lt.mp hopen
      have hdev : (SpiPort.configure _ params answers).2.dev.fd = _ :=
        (SpiPort.dev_configure hpos).1
      unfold SpiPort.request at hhanded
      rw [SpiPort.init_of_opens hfd hopen] at hhanded
      obtain ⟨hm, hs, hw⟩ := hhanded (by
        refine decide_eq_true ?_
        show 0 ≤ (SpiPort.configure _ _ _).2.dev.fd
        rw [hdev]
        exact hpos)
      exact SpiPort.not_configured_configure hpos haccepted hmode hspeed hword ⟨hm, hs, hw⟩

/-- A steady request is honoured by its device. -/
theorem honoured_of_steadyPort (hknown : Known port) (hsteady : SteadyPort port params answers) :
    ((port.init params answers).1 = 0 → (port.init params answers).2.Configured params) ∧
      (port.result = some (-1) → (port.init params answers).1 = 0 →
        (port.init params answers).2.calls ≠ port.calls) ∧
      ((port.request params answers).dev.isOk = true →
        (port.request params answers).Configured params) := by
  by_cases hok : port.dev.isOk = true
  · rw [SteadyPort, if_pos hok] at hsteady
    obtain ⟨hconf, hresult⟩ := hknown.opened hok
    have hinit : port.init params answers = (0, port) :=
      SpiPort.init_of_isOpen (of_decide_eq_true hok)
    unfold SpiPort.request
    rw [hinit, hsteady, hresult]
    exact ⟨fun _ => hconf, fun h => absurd (Option.some.inj h) (by decide), fun _ =>
      ⟨hconf.mode, hconf.speed, hconf.wordLength⟩⟩
  · rw [SteadyPort, if_neg hok] at hsteady
    have hfd : ¬ 0 ≤ port.dev.fd := fun h => hok (decide_eq_true h)
    unfold SpiPort.request
    by_cases hopen : answers.fd < 0
    · rw [SpiPort.init_of_open_fails hfd hopen]
      have hne : (-1 : ℤ) ≠ 0 := by decide
      exact ⟨fun h => absurd h hne, fun _ h => absurd h hne, fun h =>
        absurd hopen (Int.not_lt.mpr (of_decide_eq_true h))⟩
    · have haccepted := hsteady.resolve_left hopen
      have hpos : 0 ≤ (port.openDev answers.fd).dev.fd := Int.not_lt.mp hopen
      obtain ⟨-, hconf⟩ : _ ∧ SpiPort.Configured _ params :=
        SpiPort.configured_configure hpos haccepted
      rw [SpiPort.init_of_opens hfd hopen]
      refine ⟨fun _ => hconf, fun _ _ hcalls => ?_, fun _ =>
        ⟨hconf.mode, hconf.speed, hconf.wordLength⟩⟩
      -- a device that was closed had not been told of any mode
      have hmode := (hknown.closed (eq_false_of_ne_true hok)).1
      rw [← hcalls, hconf.mode] at hmode
      cases hmode

end Port

theorem get_of_found {manager : SpiManager} {request : SpiRequest} {port : SpiPort}
    (hport : manager.spiDrivers request.devname = some port) : manager.get request =
      ({ manager with
          spiDrivers := Function.update manager.spiDrivers request.devname
            (some (port.request request.params request.answers)) },
        (port.request request.params request.answers).dev) := by
  have hfound : manager.hasDevice request.devname = true := Option.isSome_of_eq_some hport
  rw [get, dif_pos hfound, Option.get_of_eq_some hfound hport]

theorem get_of_not_found {manager : SpiManager} {request : SpiRequest}
    (hport : manager.spiDrivers request.devname = none) : manager.get request = (manager, {}) := by
  refine dif_neg fun hfound => ?_
  rw [hasDevice, hport] at hfound
  exact Bool.false_ne_true hfound

/-- **A request is honoured exactly if it is steady,** as long as all have been so far. -/
theorem honoured_iff {manager : SpiManager} (hknown : AllKnown manager) (request : SpiRequest) :
    Honoured manager request ↔ Steady manager request := by
  constructor
  · intro h port hport
    refine steadyPort_of_honoured (hknown _ _ hport) (h.success port hport) ?_
    have hhanded := h.handedOut port hport
    rw [get_of_found hport] at hhanded
    exact hhanded
  · intro h
    refine ⟨fun port hport => ?_, fun port hport => ?_, fun port hport => ?_⟩
    · exact (honoured_of_steadyPort (hknown _ _ hport) (h port hport)).1
    · exact (honoured_of_steadyPort (hknown _ _ hport) (h port hport)).2.1
    · rw [get_of_found hport]
      exact (honoured_of_steadyPort (hknown _ _ hport) (h port hport)).2.2

theorem allKnown_step {manager manager' : SpiManager} {request : SpiRequest}
    (hknown : AllKnown manager) (hsteady : Steady manager request)
    (hstep : manager.step request = some manager') : AllKnown manager' := by
  obtain rfl : (manager.get request).1 = manager' := Option.some.inj hstep
  cases hport : manager.spiDrivers request.devname with
  | none =>
    rw [get_of_not_found hport]
    exact hknown
  | some port =>
    rw [get_of_found hport]
    intro devname port' hport'
    replace hport' : Function.update manager.spiDrivers request.devname
      (some (port.request request.params request.answers)) devname = some port' := hport'
    by_cases hname : devname = request.devname
    · subst hname
      rw [Function.update_self] at hport'
      obtain rfl : port.request request.params request.answers = port' := Option.some.inj hport'
      exact known_request (hknown _ _ hport) (hsteady port hport)
    · rw [Function.update_of_ne hname] at hport'
      exact hknown devname port' hport'

/-- **All requests of a run are honoured exactly if all are steady.** -/
theorem along_honoured_iff (entries : Option (List String)) (requests : List SpiRequest) :
    Along step Honoured (init entries) requests ↔ Along step Steady (init entries) requests :=
  along_iff_along (fun _ _ _ hknown hsteady hstep => allKnown_step hknown hsteady hstep)
    (fun _ request hknown => honoured_iff hknown request) (allKnown_init entries) requests

/-- A request whose speed is refused. -/
def refused : SpiRequest := ⟨"spidev1.0", ⟨0, 1000000, 8⟩, ⟨3, 0, -1, 0⟩⟩

/-- The device is handed out all the same. -/
theorem not_forall_along_honoured : ¬ ∀ entries requests,
    Along step Honoured (init entries) requests := by
  intro h
  have hhonoured := (h (some ["spidev1.0"]) [refused]).1
  have hfound : (init (some ["spidev1.0"])).spiDrivers refused.devname = some {} := by
    unfold init
    dsimp only
    rw [if_pos ⟨["spidev1.0"], rfl, List.mem_singleton.mpr rfl, by decide⟩]
  have hsteady := (honoured_iff (allKnown_init _) refused).mp hhonoured {} hfound
  revert hsteady
  unfold SpiPort.Accepted refused
  decide

end SpiManager

end KoheronSdk
