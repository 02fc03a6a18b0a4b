import KoheronSdk.Server.Session
import KoheronSdk.Server.SessionManager

/-!
# Listeners, session threads and the shutdown

The threads of the server: one listener for each channel (`comm_thread_call`), the session
threads that they spawn (`session_thread_call`), and the main thread, which ends in the
shutdown sequence of `Server::run` (`delete_all`, then `close_listeners`).

## What is one step

Every access to what the threads share is a step of its own: the loads of `exit_comm`,
`accept()` with the socket options, `is_max_threads`, the start of a thread, the increment
and the decrement of `number_of_threads`, and the calls of the session manager.  So the test of the
worker limit and the increment that it is to guard are two steps of two threads, and anything may
come between them; the same is true of `create_session` and `run()`.  The session manager's own
functions hold its mutex and are one step each, but `delete_all`, which asks for the ids and then
deletes one after the other.

How `accept()` goes, how long `run()` takes and when the shutdown begins is up to the
environment, and stands in the labels.  A session is for this module what the manager sees of it:
its descriptor, and which thread made it.

## The steps as a relation

`step` is a function, to be computed.  `Step` has the same steps with one constructor for each
branch of the code and the whole state after it, and `step_cases` says that there are no others.
The results of the modules that build on this one (the worker limit, the descriptors, the
lifetime of a session) are case distinctions over `Step`, and none of them unfolds `step`.

* `ServerState`, `step`: the state and its steps.
* `Step`, `step_cases`: the same steps as a relation, one constructor for each branch.
-/

namespace KoheronSdk

open Transition

/-! ## The state -/

/-- The part of a `Session` that the session manager looks at; `creator` is the thread that
made the object. -/
structure SessionObject where
  type : SockType
  commFd : ℕ
  creator : ℕ
  deriving DecidableEq, Repr

/-- Where `comm_thread_call` stands.  A negative `comm_fd` is `none`. -/
inductive ListenerAt where
  /-- Not started, or returned. -/
  | stopped
  /-- At the head of the loop. -/
  | polling
  | opening
  /-- `open_communication` has returned. -/
  | opened (commFd : Option ℕ)
  /-- `exit_comm` has been tested again. -/
  | checked (commFd : Option ℕ)
  /-- The maximum of threads is not reached. -/
  | admitted (commFd : ℕ)
  deriving DecidableEq, Repr

/-- `ListeningChannel` -/
structure ListeningChannel where
  numberOfThreads : ℤ
  commThread : ListenerAt
  deriving DecidableEq, Repr

/-- Where `session_thread_call` stands. -/
inductive ThreadAt where
  | spawned
  /-- `number_of_threads` has been incremented. -/
  | counted
  | created (sid : SessionID)
  /-- Inside `session->run()`. -/
  | running (sid : SessionID) (session : SessionObject)
  | returned (sid : SessionID)
  | deleted
  | finished
  deriving DecidableEq, Repr

/-- A call of `session_thread_call`. -/
structure SessionThread where
  channel : SockType
  commFd : ℕ
  pos : ThreadAt
  deriving DecidableEq, Repr

/-- Where `Server::run` stands. -/
inductive MainAt where
  | running
  /-- In `delete_all`, with the ids it has still to delete. -/
  | deleting (ids : List SessionID)
  /-- In `close_listeners`, before and after `exit_comm.store(true)`. -/
  | closing
  | joining
  | done
  deriving DecidableEq, Repr

/-- The server.  Descriptors and session threads are numbered as they come; `closed` has
the descriptors that `close()` was called for.  A process with an uncaught exception is
terminated. -/
structure ServerState where
  exitComm : Bool
  manager : SessionManager SessionObject
  listeners : SockType → ListeningChannel
  threads : ℕ → SessionThread
  numThreads : ℕ
  numAccepted : ℕ
  closed : List ℕ
  main : MainAt
  terminated : Bool

namespace ServerState

/-- The listener of channel `c` goes on to `pos`. -/
def setListener (s : ServerState) (c : SockType) (pos : ListenerAt) : ServerState :=
  { s with
    listeners := Function.update s.listeners c { s.listeners c with commThread := pos } }

/-- `number_of_threads += n` -/
def addThreads (s : ServerState) (c : SockType) (n : ℤ) : ServerState :=
  { s with
    listeners := Function.update s.listeners c
      { s.listeners c with numberOfThreads := (s.listeners c).numberOfThreads + n } }

/-- Session thread `t` goes on to `pos`. -/
def setThread (s : ServerState) (t : ℕ) (pos : ThreadAt) : ServerState :=
  { s with threads := Function.update s.threads t { s.threads t with pos := pos } }

/-- `delete_session(id)` -/
def deleteSession (s : ServerState) (id : SessionID) : ServerState :=
  { s with
    manager := (s.manager.deleteSession id).1
    closed := s.closed ++ ((s.manager.deleteSession id).2.map SessionObject.commFd).toList }

/-- A descriptor has been accepted. -/
def accept (s : ServerState) : ServerState := { s with numAccepted := s.numAccepted + 1 }

/-- The last descriptor that was accepted has been closed again. -/
def refuse (s : ServerState) : ServerState :=
  { s with
    numAccepted := s.numAccepted + 1
    closed := s.closed ++ [s.numAccepted] }

/-- A session thread is started for `commFd`. -/
def spawn (s : ServerState) (c : SockType) (commFd : ℕ) : ServerState :=
  { s with
    threads := Function.update s.threads s.numThreads ⟨c, commFd, .spawned⟩
    numThreads := s.numThreads + 1 }

/-- The session object that thread `t` makes. -/
def ownSession (s : ServerState) (t : ℕ) : SessionObject :=
  ⟨(s.threads t).channel, (s.threads t).commFd, t⟩

/-- The listeners are about to run, when `Server::run` begins. -/
def start (workerConnections : SockType → ℕ) : ServerState where
  exitComm := false
  manager := SessionManager.empty
  listeners := fun c => ⟨0, if 0 < workerConnections c then .polling else .stopped⟩
  threads := fun _ => ⟨.tcp, 0, .finished⟩
  numThreads := 0
  numAccepted := 0
  closed := []
  main := .running
  terminated := false

section Updates

variable (s : ServerState) (c : SockType) (t : ℕ)

@[simp] theorem listeners_setListener_self (pos : ListenerAt) :
    (s.setListener c pos).listeners c = { s.listeners c with commThread := pos } :=
  Function.update_self ..

theorem listeners_setListener_of_ne {c' : SockType} (h : c' ≠ c) (pos : ListenerAt) :
    (s.setListener c pos).listeners c' = s.listeners c' :=
  Function.update_of_ne h ..

@[simp] theorem listeners_addThreads_self (n : ℤ) :
    (s.addThreads c n).listeners c
      = { s.listeners c with numberOfThreads := (s.listeners c).numberOfThreads + n } :=
  Function.update_self ..

theorem listeners_addThreads_of_ne {c' : SockType} (h : c' ≠ c) (n : ℤ) :
    (s.addThreads c n).listeners c' = s.listeners c' :=
  Function.update_of_ne h ..

@[simp] theorem threads_setThread_self (pos : ThreadAt) :
    (s.setThread t pos).threads t = { s.threads t with pos := pos } :=
  Function.update_self ..

theorem threads_setThread_of_ne {t' : ℕ} (h : t' ≠ t) (pos : ThreadAt) :
    (s.setThread t pos).threads t' = s.threads t' :=
  Function.update_of_ne h ..

@[simp] theorem threads_spawn_self (commFd : ℕ) :
    (s.spawn c commFd).threads s.numThreads = ⟨c, commFd, .spawned⟩ :=
  Function.update_self ..

theorem threads_spawn_of_ne {t' : ℕ} (h : t' ≠ s.numThreads) (commFd : ℕ) :
    (s.spawn c commFd).threads t' = s.threads t' :=
  Function.update_of_ne h ..

end Updates

/-! ## Steps -/

/-- What comes of `open_communication`: `accept()` fails, or a socket option cannot be set
and the descriptor is closed, or there is a connection. -/
inductive OpenResult where
  | failed
  | refused
  | accepted
  deriving DecidableEq, Repr

/-- Who takes a step. -/
inductive Label where
  | poll (c : SockType)
  | connect (c : SockType) (r : OpenResult)
  | exitTest (c : SockType)
  | maxTest (c : SockType)
  | spawn (c : SockType)
  /-- The next step of a session thread. -/
  | thread (t : ℕ)
  /-- The main loop sees `interrupt()` or `exit_all`, and `delete_all` asks for the ids. -/
  | interrupt
  /-- The next step of the shutdown. -/
  | shutdown
  deriving DecidableEq, Repr

/-- `open_communication`; a Unix socket has no options to set. -/
def openStep (s : ServerState) (c : SockType) : OpenResult → Option ServerState
  | .failed => some (s.setListener c (.opened none))
  | .refused => if c = .unix then none else some (s.refuse.setListener c (.opened none))
  | .accepted => some (s.accept.setListener c (.opened (some s.numAccepted)))

/-- `session_thread_call` -/
def threadStep (s : ServerState) (t : ℕ) : Option ServerState :=
  match (s.threads t).pos with
  | .spawned => some ((s.addThreads (s.threads t).channel 1).setThread t .counted)
  | .counted =>
    let (sid, manager) := s.manager.createSession (s.ownSession t)
    some ({ s with manager := manager }.setThread t (.created sid))
  | .created sid =>
    match s.manager.getSession sid with
    | none => some { s with terminated := true }
    | some session => some (s.setThread t (.running sid session))
  | .running sid _ => some (s.setThread t (.returned sid))
  | .returned sid => some ((s.deleteSession sid).setThread t .deleted)
  | .deleted => some ((s.addThreads (s.threads t).channel (-1)).setThread t .finished)
  | .finished => none

/-- The shutdown branch of `Server::run`. -/
def shutdownStep (s : ServerState) : Option ServerState :=
  match s.main with
  | .running | .done => none
  | .deleting (id :: ids) => some { s.deleteSession id with main := .deleting ids }
  | .deleting [] => some { s with main := .closing }
  | .closing => some { s with exitComm := true, main := .joining }
  | .joining =>
    if ∀ c ∈ [SockType.tcp, .websock, .unix], (s.listeners c).commThread = .stopped then
      some { s with main := .done }
    else none

/-- One step of the server. -/
def step (workerConnections : SockType → ℕ) (s : ServerState) (l : Label) : Option ServerState :=
  if s.terminated then none
  else
    match l with
    | .poll c =>
      if (s.listeners c).commThread = .polling then
        some (s.setListener c (if s.exitComm then .stopped else .opening))
      else none
    | .connect c r => if (s.listeners c).commThread = .opening then openStep s c r else none
    | .exitTest c =>
      match (s.listeners c).commThread with
      | .opened commFd => some (s.setListener c (if s.exitComm then .stopped else .checked commFd))
      | _ => none
    | .maxTest c =>
      match (s.listeners c).commThread with
      | .checked none => some (s.setListener c .polling)
      | .checked (some commFd) =>
        -- `is_max_threads`
        if workerConnections c ≤ (s.listeners c).numberOfThreads then
          some (s.setListener c .polling)
        else some (s.setListener c (.admitted commFd))
      | _ => none
    | .spawn c =>
      match (s.listeners c).commThread with
      | .admitted commFd => some ((s.spawn c commFd).setListener c .polling)
      | _ => none
    | .thread t => if t < s.numThreads then threadStep s t else none
    | .interrupt =>
      if s.main = .running then some { s with main := .deleting s.manager.getSessionIds }
      else none
    | .shutdown => shutdownStep s

/-! ## The steps as a relation -/

/-- What a step of the server can be. -/
inductive Step (workerConnections : SockType → ℕ) (s : ServerState) :
    Label → ServerState → Prop where
  | poll {c} (pos : (s.listeners c).commThread = .polling) :
      Step workerConnections s (.poll c)
        (s.setListener c (if s.exitComm then .stopped else .opening))
  | failed {c} (pos : (s.listeners c).commThread = .opening) :
      Step workerConnections s (.connect c .failed) (s.setListener c (.opened none))
  | refused {c} (pos : (s.listeners c).commThread = .opening) (type : c ≠ .unix) :
      Step workerConnections s (.connect c .refused) (s.refuse.setListener c (.opened none))
  | accepted {c} (pos : (s.listeners c).commThread = .opening) :
      Step workerConnections s (.connect c .accepted)
        (s.accept.setListener c (.opened (some s.numAccepted)))
  | exited {c commFd} (pos : (s.listeners c).commThread = .opened commFd)
      (exit : s.exitComm = true) :
      Step workerConnections s (.exitTest c) (s.setListener c .stopped)
  | checked {c commFd} (pos : (s.listeners c).commThread = .opened commFd)
      (exit : s.exitComm = false) :
      Step workerConnections s (.exitTest c) (s.setListener c (.checked commFd))
  | noFd {c} (pos : (s.listeners c).commThread = .checked none) :
      Step workerConnections s (.maxTest c) (s.setListener c .polling)
  | atMax {c commFd} (pos : (s.listeners c).commThread = .checked (some commFd))
      (max : workerConnections c ≤ (s.listeners c).numberOfThreads) :
      Step workerConnections s (.maxTest c) (s.setListener c .polling)
  | admitted {c commFd} (pos : (s.listeners c).commThread = .checked (some commFd))
      (max : (s.listeners c).numberOfThreads < workerConnections c) :
      Step workerConnections s (.maxTest c) (s.setListener c (.admitted commFd))
  | spawn {c commFd} (pos : (s.listeners c).commThread = .admitted commFd) :
      Step workerConnections s (.spawn c) ((s.spawn c commFd).setListener c .polling)
  | counted {t} (lt : t < s.numThreads) (pos : (s.threads t).pos = .spawned) :
      Step workerConnections s (.thread t)
        ((s.addThreads (s.threads t).channel 1).setThread t .counted)
  | created {t} (lt : t < s.numThreads) (pos : (s.threads t).pos = .counted) :
      Step workerConnections s (.thread t)
        ({ s with manager := (s.manager.createSession (s.ownSession t)).2 }.setThread t
          (.created (s.manager.createSession (s.ownSession t)).1))
  | thrown {t sid} (lt : t < s.numThreads) (pos : (s.threads t).pos = .created sid)
      (none : s.manager.getSession sid = none) :
      Step workerConnections s (.thread t) { s with terminated := true }
  | entered {t sid session} (lt : t < s.numThreads) (pos : (s.threads t).pos = .created sid)
      (get : s.manager.getSession sid = some session) :
      Step workerConnections s (.thread t) (s.setThread t (.running sid session))
  | returned {t sid session} (lt : t < s.numThreads)
      (pos : (s.threads t).pos = .running sid session) :
      Step workerConnections s (.thread t) (s.setThread t (.returned sid))
  | deleted {t sid} (lt : t < s.numThreads) (pos : (s.threads t).pos = .returned sid) :
      Step workerConnections s (.thread t) ((s.deleteSession sid).setThread t .deleted)
  | finished {t} (lt : t < s.numThreads) (pos : (s.threads t).pos = .deleted) :
      Step workerConnections s (.thread t)
        ((s.addThreads (s.threads t).channel (-1)).setThread t .finished)
  | interrupt (pos : s.main = .running) :
      Step workerConnections s .interrupt { s with main := .deleting s.manager.getSessionIds }
  | deleteNext {id ids} (pos : s.main = .deleting (id :: ids)) :
      Step workerConnections s .shutdown { s.deleteSession id with main := .deleting ids }
  | deletedAll (pos : s.main = .deleting []) :
      Step workerConnections s .shutdown { s with main := .closing }
  | close (pos : s.main = .closing) :
      Step workerConnections s .shutdown { s with exitComm := true, main := .joining }
  | join (pos : s.main = .joining) :
      Step workerConnections s .shutdown { s with main := .done }

variable {workerConnections : SockType → ℕ} {s s' : ServerState}

theorem threadStep_cases {t : ℕ} (hlt : t < s.numThreads) (h : threadStep s t = some s') :
    Step workerConnections s (.thread t) s' := by
  rw [threadStep] at h
  cases hpos : (s.threads t).pos with
  | spawned =>
    rw [hpos] at h
    obtain rfl := Option.some.inj h
    exact .counted hlt hpos
  | counted =>
    rw [hpos] at h
    obtain rfl := Option.some.inj h
    exact .created hlt hpos
  | created sid =>
    rw [hpos] at h
    cases hget : s.manager.getSession sid with
    | none =>
      simp only [hget] at h
      obtain rfl := Option.some.inj h
      exact .thrown hlt hpos hget
    | some session =>
      simp only [hget] at h
      obtain rfl := Option.some.inj h
      exact .entered hlt hpos hget
  | running sid session =>
    rw [hpos] at h
    obtain rfl := Option.some.inj h
    exact .returned hlt hpos
  | returned sid =>
    rw [hpos] at h
    obtain rfl := Option.some.inj h
    exact .deleted hlt hpos
  | deleted =>
    rw [hpos] at h
    obtain rfl := Option.some.inj h
    exact .finished hlt hpos
  | finished =>
    rw [hpos] at h
    cases h

theorem shutdownStep_cases (h : shutdownStep s = some s') :
    Step workerConnections s .shutdown s' := by
  rw [shutdownStep] at h
  cases hpos : s.main with
  | running | done =>
    rw [hpos] at h
    cases h
  | deleting ids =>
    rw [hpos] at h
    cases ids with
    | nil =>
      obtain rfl := Option.some.inj h
      exact .deletedAll hpos
    | cons id ids =>
      obtain rfl := Option.some.inj h
      exact .deleteNext hpos
  | closing =>
    rw [hpos] at h
    obtain rfl := Option.some.inj h
    exact .close hpos
  | joining =>
    rw [hpos] at h
    obtain ⟨-, hsome⟩ := Option.ite_none_right_eq_some.mp h
    obtain rfl := Option.some.inj hsome
    exact .join hpos

/-- **Every step is one of the branches of the code.** -/
theorem step_cases {l : Label} (h : step workerConnections s l = some s') :
    Step workerConnections s l s' := by
  obtain ⟨-, h⟩ := Option.ite_none_left_eq_some.mp h
  cases l with
  | poll c =>
    obtain ⟨hpos, hsome⟩ := Option.ite_none_right_eq_some.mp h
    obtain rfl := Option.some.inj hsome
    exact .poll hpos
  | connect c r =>
    obtain ⟨hpos, hopen⟩ := Option.ite_none_right_eq_some.mp h
    cases r with
    | failed =>
      obtain rfl := Option.some.inj hopen
      exact .failed hpos
    | refused =>
      obtain ⟨htype, hsome⟩ := Option.ite_none_left_eq_some.mp hopen
      obtain rfl := Option.some.inj hsome
      exact .refused hpos htype
    | accepted =>
      obtain rfl := Option.some.inj hopen
      exact .accepted hpos
  | exitTest c =>
    cases hpos : (s.listeners c).commThread with
    | opened commFd =>
      simp only [hpos] at h
      obtain rfl := Option.some.inj h
      cases hexit : s.exitComm with
      | false => exact .checked hpos hexit
      | true => exact .exited hpos hexit
    | _ => simp only [hpos, reduceCtorEq] at h
  | maxTest c =>
    cases hpos : (s.listeners c).commThread with
    | checked commFd =>
      cases commFd with
      | none =>
        simp only [hpos] at h
        obtain rfl := Option.some.inj h
        exact .noFd hpos
      | some commFd =>
        simp only [hpos] at h
        by_cases hmax : (workerConnections c : ℤ) ≤ (s.listeners c).numberOfThreads
        · rw [if_pos hmax] at h
          obtain rfl := Option.some.inj h
          exact .atMax hpos hmax
        · rw [if_neg hmax] at h
          obtain rfl := Option.some.inj h
          exact .admitted hpos (not_le.mp hmax)
    | _ => simp only [hpos, reduceCtorEq] at h
  | spawn c =>
    cases hpos : (s.listeners c).commThread with
    | admitted commFd =>
      simp only [hpos] at h
      obtain rfl := Option.some.inj h
      exact .spawn hpos
    | _ => simp only [hpos, reduceCtorEq] at h
  | thread t =>
    obtain ⟨hlt, hthread⟩ := Option.ite_none_right_eq_some.mp h
    exact threadStep_cases hlt hthread
  | interrupt =>
    obtain ⟨hpos, hsome⟩ := Option.ite_none_right_eq_some.mp h
    obtain rfl := Option.some.inj hsome
    exact .interrupt hpos
  | shutdown => exact shutdownStep_cases h

end ServerState

end KoheronSdk
