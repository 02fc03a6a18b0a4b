import KoheronSdk.Lib.Program
import KoheronSdk.Generator.Signature

/-!
# What a session thread does, and what it sees

A session thread is a program over the actions below: system calls on its socket,
accesses to what the threads share (the driver manager, a driver's mutex and its
`args_<op>` structs), and the calls of driver operations.

## The view of one thread

`session drivers` is the meaning of these actions from where one thread stands.
Everything that is not decided by the thread itself is left open: how the incoming
bytes are cut into `read()` results, how much a `write()` takes, what other threads
did to the driver manager and what they left in an `args_<op>` struct before the
mutex was acquired, and what a driver operation returns.  A result about all runs of a
thread in its view is therefore one about the thread among any others, as soon as it is known that
what happens to it there is something that can happen in its view; `Server/ConcurrentSessions`
shows this.

The bytes of the socket are a list and an `Ending`, that is, what `read()` says
once they are used up.  A `read()` takes a nonempty first part of them, not longer than it
asked for.  `Env` restricts the answers further where a result needs it, for an exit signal that
is not raised, say, or writes that take everything.

## What is not answered

A thread can come to a stop: by an exception, by waiting for bytes that do not come, or at
something that the language leaves undefined, as an operation called with a field that
has no value.  The view says so (`View.stop`), so that "nothing undefined happens" is a statement
about runs.

* `Action`, `Program`: what a session thread can do.
* `View`, `session`: what it sees.
* `Event`: the trace of a run, in which results are stated.
* `eager`: a run in which everything goes well, for examples.
* `wp_read` to `wp_outOfFuel`: one rule for each action.
-/

namespace KoheronSdk

open Effects

/-- `SessionID` -/
abbrev SessionID := ℕ

/-- The result of `read()`: some bytes, 0, or a negative value. -/
inductive ReadResult where
  | bytes (bs : List UInt8)
  | zero
  | negative
  deriving DecidableEq, Repr

/-- The contents of the `args_<op>` structs of a driver: operation id, argument
name, and the value of the field.  `none` is a field whose contents are not one
value: never written, or a container that is being filled in place. -/
abbrev ArgStructs := ℕ → String → Option ArgVal

/-- Give one field of one struct a new content. -/
def ArgStructs.set (s : ArgStructs) (operation : ℕ) (name : String) (v : Option ArgVal) :
    ArgStructs :=
  fun op x => if op = operation ∧ x = name then v else s op x

/-- What a session thread can do. -/
inductive Action where
  /-- `::read(comm_fd, ..., n)` -/
  | read (n : ℕ)
  /-- `::write(fd, ...)` on the socket of session `dest`. -/
  | write (dest : SessionID) (bytes : List UInt8)
  /-- Load of `exit_signal`. -/
  | exitSignal
  /-- What an uninitialised buffer on the stack holds, and what lies after it. -/
  | uninit
  /-- A header has been decoded; both `read_command` log it. -/
  | received (driver operation : ℕ)
  /-- `DriverManager::is_started[i]` -/
  | isStarted (i : ℕ)
  /-- `DriverManager::alloc_driver<driver>()` -/
  | allocDriver (driver : ℕ)
  /-- `DriverManager::device_list[i].get()`, answered by the type of the device. -/
  | device (i : ℕ)
  /-- Acquire and release the mutex of a driver (1: `Server::ks_mutex`). -/
  | lock (driver : ℕ)
  | unlock (driver : ℕ)
  /-- Give a field of `args_<op>` a content. -/
  | store (driver operation : ℕ) (name : String) (v : Option ArgVal)
  /-- Enter a driver operation with the named fields of `args_<op>`, and leave it. -/
  | call (driver operation : ℕ) (names : List String)
  | ret (driver operation : ℕ)
  /-- An exception that nothing catches. -/
  | throw
  /-- A write past the end of a buffer. -/
  | overrun
  /-- A loop of the model has used up its fuel. -/
  | outOfFuel

/-- How an action is answered. -/
def Answer : Action → Type
  | .read _ => ReadResult
  | .write _ _ => ℤ
  | .exitSignal => Bool
  | .uninit => ℕ → UInt8
  | .isStarted _ => Bool
  | .device _ => ℕ
  | .lock _ => ArgStructs
  | .ret _ _ => RetVal
  | _ => Unit

/-- A program of a session thread. -/
abbrev Program (α : Type) := Prog Action Answer α

/-! ## The programs of one action -/

def read (n : ℕ) : Program ReadResult := Prog.perform (A := Answer) (.read n)

def write (dest : SessionID) (bytes : List UInt8) : Program ℤ :=
  Prog.perform (A := Answer) (.write dest bytes)

def exitSignal : Program Bool := Prog.perform (A := Answer) .exitSignal

def uninit : Program (ℕ → UInt8) := Prog.perform (A := Answer) .uninit

def received (driver operation : ℕ) : Program Unit :=
  Prog.perform (A := Answer) (.received driver operation)

def isStarted (i : ℕ) : Program Bool := Prog.perform (A := Answer) (.isStarted i)

def allocDriver (driver : ℕ) : Program Unit := Prog.perform (A := Answer) (.allocDriver driver)

def device (i : ℕ) : Program ℕ := Prog.perform (A := Answer) (.device i)

def lock (driver : ℕ) : Program ArgStructs := Prog.perform (A := Answer) (.lock driver)

def unlock (driver : ℕ) : Program Unit := Prog.perform (A := Answer) (.unlock driver)

def store (driver operation : ℕ) (name : String) (v : Option ArgVal) : Program Unit :=
  Prog.perform (A := Answer) (.store driver operation name v)

def call (driver operation : ℕ) (names : List String) : Program Unit :=
  Prog.perform (A := Answer) (.call driver operation names)

def ret (driver operation : ℕ) : Program RetVal :=
  Prog.perform (A := Answer) (.ret driver operation)

def throw : Program Unit := Prog.perform (A := Answer) .throw

def overrun : Program Unit := Prog.perform (A := Answer) .overrun

def outOfFuel : Program Unit := Prog.perform (A := Answer) .outOfFuel

/-! ## What one thread sees -/

/-- What a thread leaves behind. -/
inductive Event where
  /-- A header was decoded when `consumed` bytes had been read. -/
  | header (driver operation consumed : ℕ)
  /-- An operation was entered with these argument values when `consumed` bytes had
  been read. -/
  | call (driver operation : ℕ) (args : List (Option ArgVal)) (consumed : ℕ)
  | ret (driver operation : ℕ) (v : RetVal)
  /-- `write()` was offered these bytes and returned `n`. -/
  | wrote (dest : SessionID) (offered : List UInt8) (n : ℤ)
  deriving DecidableEq

/-- What `read()` returns when the bytes are used up. -/
inductive Ending where
  | eof
  | error
  | waiting
  deriving DecidableEq, Repr

/-- What a session thread sees: the rest of its input, the mutex it holds and the
structs this mutex protects, the operation it is in, and what it did so far. -/
structure View where
  input : List UInt8
  ending : Ending
  consumed : ℕ
  held : Option ℕ
  args : ArgStructs
  calling : Option (ℕ × ℕ)
  trace : List Event

/-- A session that has not begun, with the bytes it will be sent. -/
def View.start (input : List UInt8) (ending : Ending) : View where
  input := input
  ending := ending
  consumed := 0
  held := none
  args := fun _ _ => none
  calling := none
  trace := []

/-- Behaviour that C++ leaves undefined. -/
inductive Fault where
  | outOfBounds
  | nullDereference
  | overrun
  | mutex
  | unprotected
  deriving DecidableEq, Repr

/-- Why a thread does not go on. -/
inductive Stop where
  | blocked
  | terminated
  | outOfFuel
  | undefined (f : Fault)
  deriving DecidableEq, Repr

/-- Where a program stops in the view of its thread. -/
def View.stop (drivers : List Driver) : Action → View → Option Stop
  | .read n, w => if 0 < n ∧ w.input = [] ∧ w.ending = .waiting then some .blocked else none
  | .isStarted i, _ => if i < drivers.length then none else some (.undefined .outOfBounds)
  | .device i, _ => if i < drivers.length then none else some (.undefined .outOfBounds)
  | .lock _, w => if w.held = none then none else some (.undefined .mutex)
  | .unlock d, w => if w.held = some d then none else some (.undefined .mutex)
  | .store d _ _ _, w => if w.held = some d then none else some (.undefined .unprotected)
  | .call d _ _, w => if w.held = some d then none else some (.undefined .unprotected)
  | .ret d op, w => if w.calling = some (d, op) then none else some (.undefined .unprotected)
  | .throw, _ => some .terminated
  | .overrun, _ => some (.undefined .overrun)
  | .outOfFuel, _ => some .outOfFuel
  | _, _ => none

/-- The value can be returned by the operation. -/
def Returns (drivers : List Driver) (driver operation : ℕ) (v : RetVal) : Prop :=
  ∀ op, findOperation drivers driver operation = some op → v.HasType op.retType

/-- The answers a thread can get. -/
def View.ok (drivers : List Driver) : (e : Action) → View → Answer e → Prop
  | .read n, w, .bytes bs => bs ≠ [] ∧ bs.length ≤ n ∧ bs <+: w.input
  | .read n, w, .zero => n = 0 ∨ (w.input = [] ∧ w.ending = .eof)
  | .read n, w, .negative => 0 < n ∧ w.input = [] ∧ w.ending = .error
  | .write _ bs, _, (n : ℤ) => -1 ≤ n ∧ n ≤ bs.length
  | .device i, _, (type : ℕ) => type = i + firstDriverId
  | .ret d op, _, (v : RetVal) => Returns drivers d op v
  | _, _, _ => True

/-- The view when `n` more bytes have been read. -/
def View.advance (w : View) (n : ℕ) : View :=
  { w with input := w.input.drop n, consumed := w.consumed + n }

/-- The view when a field of the structs has got a content. -/
def View.setArg (w : View) (operation : ℕ) (name : String) (v : Option ArgVal) : View :=
  { w with args := w.args.set operation name v }

/-- The view when an event has been added to the trace. -/
def View.log (w : View) (e : Event) : View := { w with trace := w.trace ++ [e] }

/-- The view when the mutex has been acquired and when it has been released. -/
def View.locked (w : View) (driver : ℕ) (s : ArgStructs) : View :=
  { w with held := some driver, args := s }

def View.unlocked (w : View) : View := { w with held := none, args := fun _ _ => none }

/-- The view inside an operation, or outside. -/
def View.inside (w : View) (c : Option (ℕ × ℕ)) : View := { w with calling := c }

@[simp] theorem View.advance_zero (w : View) : w.advance 0 = w := rfl

@[simp] theorem View.input_advance (w : View) (n : ℕ) :
    (w.advance n).input = w.input.drop n := rfl

@[simp] theorem View.ending_advance (w : View) (n : ℕ) : (w.advance n).ending = w.ending := rfl

@[simp] theorem View.consumed_advance (w : View) (n : ℕ) :
    (w.advance n).consumed = w.consumed + n := rfl

@[simp] theorem View.held_advance (w : View) (n : ℕ) : (w.advance n).held = w.held := rfl

@[simp] theorem View.args_advance (w : View) (n : ℕ) : (w.advance n).args = w.args := rfl

@[simp] theorem View.calling_advance (w : View) (n : ℕ) : (w.advance n).calling = w.calling := rfl

@[simp] theorem View.trace_advance (w : View) (n : ℕ) : (w.advance n).trace = w.trace := rfl

section SetArg

variable (w : View) (operation : ℕ) (name : String) (v : Option ArgVal)

@[simp] theorem View.input_setArg : (w.setArg operation name v).input = w.input := rfl

@[simp] theorem View.ending_setArg : (w.setArg operation name v).ending = w.ending := rfl

@[simp] theorem View.consumed_setArg : (w.setArg operation name v).consumed = w.consumed := rfl

@[simp] theorem View.held_setArg : (w.setArg operation name v).held = w.held := rfl

@[simp] theorem View.args_setArg :
    (w.setArg operation name v).args = w.args.set operation name v := rfl

@[simp] theorem View.calling_setArg : (w.setArg operation name v).calling = w.calling := rfl

@[simp] theorem View.trace_setArg : (w.setArg operation name v).trace = w.trace := rfl

theorem View.advance_setArg (n : ℕ) :
    (w.advance n).setArg operation name v = (w.setArg operation name v).advance n := rfl

@[simp] theorem ArgStructs.set_set (s : ArgStructs) (u : Option ArgVal) :
    (s.set operation name u).set operation name v = s.set operation name v := by
  funext op x
  simp only [ArgStructs.set]
  split <;> rfl

@[simp] theorem View.setArg_setArg (u : Option ArgVal) :
    (w.setArg operation name u).setArg operation name v = w.setArg operation name v := by
  simp [View.setArg]

end SetArg

theorem View.advance_advance (w : View) (n m : ℕ) :
    (w.advance n).advance m = w.advance (n + m) := by
  simp only [View.advance, List.drop_drop, Nat.add_assoc]

/-- The view after an action. -/
def View.next : (e : Action) → View → Answer e → View
  | .read _, w, .bytes bs => w.advance bs.length
  | .write dest bs, w, (n : ℤ) => w.log (.wrote dest bs n)
  | .received d op, w, _ => w.log (.header d op w.consumed)
  | .lock d, w, (s : ArgStructs) => w.locked d s
  | .unlock _, w, _ => w.unlocked
  | .store _ op name v, w, _ => w.setArg op name v
  | .call d op names, w, _ =>
    (w.inside (some (d, op))).log (.call d op (names.map (w.args op)) w.consumed)
  | .ret d op, w, (v : RetVal) => (w.inside none).log (.ret d op v)
  | _, w, _ => w

/-- What is known about the surroundings of a session: the values `exit_signal` may
have, and what `write()` may return when it is offered some bytes. -/
structure Env where
  exit : Bool → Prop
  write : List UInt8 → ℤ → Prop

/-- Nothing is known. -/
def Env.any : Env := ⟨fun _ => True, fun _ _ => True⟩

/-- No exit signal is raised. -/
def Env.noExit : Env := ⟨(· = false), fun _ _ => True⟩

/-- The surroundings leave out no answer altogether. -/
structure Env.Possible (env : Env) : Prop where
  exit : ∃ b, env.exit b
  write : ∀ bytes : List UInt8, ∃ n : ℤ, (-1 ≤ n ∧ n ≤ bytes.length) ∧ env.write bytes n

theorem Env.any_possible : Env.any.Possible :=
  ⟨⟨false, trivial⟩, fun _ => ⟨0, ⟨by omega, by omega⟩, trivial⟩⟩

theorem Env.noExit_possible : Env.noExit.Possible :=
  ⟨⟨false, rfl⟩, fun _ => ⟨0, ⟨by omega, by omega⟩, trivial⟩⟩

/-- The answers that the surroundings allow. -/
def Env.ok (env : Env) : (e : Action) → Answer e → Prop
  | .exitSignal, (b : Bool) => env.exit b
  | .write _ bytes, (n : ℤ) => env.write bytes n
  | _, _ => True

/-- The actions as one session thread sees them. -/
def session (drivers : List Driver) (env : Env) : Handler Action Answer View Stop where
  stop := View.stop drivers
  ok := fun e w x => View.ok drivers e w x ∧ env.ok e x
  next := View.next

/-! ## No action is left without an answer -/

/-- Some value of a type. -/
def RetType.some : RetType → RetVal
  | .void => .void
  | .scalar t => .scalar (t.ofMem [])
  | .tuple ts => .tuple (ts.map (·.ofMem []))
  | .array t n => .array (ofMemOf t n [])
  | .vector _ => .vector []
  | .string => .string []
  | .cString => .cString []

theorem RetType.hasType_some (t : RetType) : t.some.HasType t := by
  cases t with
  | void => trivial
  | scalar t => exact t.type_ofMem []
  | tuple ts =>
    change (ts.map (·.ofMem [])).map ScalarVal.type = ts
    rw [List.map_map]
    exact List.map_id'' (fun t => t.type_ofMem []) ts
  | array t n => exact ⟨length_ofMemOf t n [], fun v hv => type_of_mem_ofMemOf hv⟩
  | vector t => simp [RetType.some, RetVal.HasType]
  | string => trivial
  | cString => simp [RetType.some, RetVal.HasType]

theorem exists_returns (drivers : List Driver) (driver operation : ℕ) :
    ∃ v, Returns drivers driver operation v := by
  cases hop : findOperation drivers driver operation with
  | none => exact ⟨.void, fun op h => by rw [hop] at h; cases h⟩
  | some op =>
    refine ⟨op.retType.some, fun op' h => ?_⟩
    obtain rfl : op = op' := Option.some.inj (hop ▸ h)
    exact op.retType.hasType_some

/-- The answer of a `read()` that takes all there is. -/
def eagerRead (n : ℕ) (w : View) : ReadResult :=
  if n = 0 then .zero
  else if w.input = [] then
    match w.ending with
    | .eof => .zero
    | _ => .negative
  else .bytes (w.input.take n)

theorem eagerRead_ok (drivers : List Driver) {n : ℕ} {w : View}
    (hs : View.stop drivers (.read n) w = none) :
    View.ok drivers (.read n) w (eagerRead n w) := by
  unfold eagerRead
  by_cases hn : n = 0
  · rw [if_pos hn]
    exact Or.inl hn
  · by_cases hin : w.input = []
    · rw [if_neg hn, if_pos hin]
      cases hend : w.ending with
      | eof => exact Or.inr ⟨hin, hend⟩
      | error => exact ⟨Nat.pos_of_ne_zero hn, hin, hend⟩
      | waiting =>
        rw [View.stop, if_pos ⟨Nat.pos_of_ne_zero hn, hin, hend⟩] at hs
        cases hs
    · rw [if_neg hn, if_neg hin]
      refine ⟨?_, List.length_take_le n w.input, List.take_prefix n w.input⟩
      intro h
      rcases List.take_eq_nil_iff.mp h with h0 | h0
      · exact hn h0
      · exact hin h0

theorem session_live (drivers : List Driver) {env : Env} (henv : env.Possible) :
    (session drivers env).Live := by
  intro e w hs
  cases e with
  | read n => exact ⟨eagerRead n w, eagerRead_ok drivers hs, trivial⟩
  | write dest bytes =>
    obtain ⟨n, hn, hok⟩ := henv.write bytes
    exact ⟨n, hn, hok⟩
  | exitSignal =>
    obtain ⟨b, hb⟩ := henv.exit
    exact ⟨b, trivial, hb⟩
  | device i => exact ⟨i + firstDriverId, rfl, trivial⟩
  | ret d op =>
    obtain ⟨v, hv⟩ := exists_returns drivers d op
    exact ⟨v, hv, trivial⟩
  | uninit => exact ⟨fun _ => 0, trivial, trivial⟩
  | isStarted i => exact ⟨false, trivial, trivial⟩
  | lock d => exact ⟨fun _ _ => none, trivial, trivial⟩
  | _ => exact ⟨(), trivial, trivial⟩

instance (e : Action) : Nonempty (Answer e) := by
  cases e with
  | read n => exact ⟨ReadResult.zero⟩
  | write dest bytes => exact ⟨(0 : ℤ)⟩
  | exitSignal => exact ⟨false⟩
  | uninit => exact ⟨fun _ => (0 : UInt8)⟩
  | isStarted i => exact ⟨false⟩
  | device i => exact ⟨(0 : ℕ)⟩
  | lock d => exact ⟨fun _ _ => none⟩
  | ret d op => exact ⟨RetVal.void⟩
  | _ => exact ⟨()⟩

/-- Surroundings in which everything goes well: a `read()` takes all there is, a
`write()` all it is offered, memory is zero, and operations return some value. -/
def eager (drivers : List Driver) : ℕ → (e : Action) → View → Answer e
  | _, .read n, w => eagerRead n w
  | _, .write _ bytes, _ => (bytes.length : ℤ)
  | _, .exitSignal, _ => false
  | _, .uninit, _ => fun _ => (0 : UInt8)
  | _, .received _ _, _ => ()
  | _, .isStarted _, _ => false
  | _, .allocDriver _, _ => ()
  | _, .device i, _ => i + firstDriverId
  | _, .lock _, _ => fun _ _ => none
  | _, .unlock _, _ => ()
  | _, .store _ _ _ _, _ => ()
  | _, .call _ _ _, _ => ()
  | _, .ret d op, _ =>
    match findOperation drivers d op with
    | some op => op.retType.some
    | none => .void
  | _, .throw, _ => ()
  | _, .overrun, _ => ()
  | _, .outOfFuel, _ => ()

theorem eager_allows (drivers : List Driver) :
    (session drivers .noExit).Allows (eager drivers) := by
  intro i e w hs
  cases e with
  | read n => exact ⟨eagerRead_ok drivers hs, trivial⟩
  | write dest bytes =>
    refine ⟨⟨?_, le_rfl⟩, trivial⟩
    simp only [eager]
    omega
  | exitSignal => exact ⟨trivial, rfl⟩
  | device i => exact ⟨rfl, trivial⟩
  | ret d op =>
    refine ⟨fun op' h => ?_, trivial⟩
    simp only [eager, h]
    exact op'.retType.hasType_some
  | _ => exact ⟨trivial, trivial⟩

theorem Env.ok_any (e : Action) (x : Answer e) : Env.any.ok e x := by
  cases e <;> trivial

theorem eager_allows_any (drivers : List Driver) :
    (session drivers .any).Allows (eager drivers) :=
  fun i e w hs => ⟨(eager_allows drivers i e w hs).1, Env.ok_any e _⟩

/-! ## The trace only grows -/

theorem trace_next (e : Action) (w : View) (x : Answer e) :
    w.trace <+: (View.next e w x).trace := by
  cases e with
  | read n => cases x <;> exact List.prefix_rfl
  | write dest bytes => exact List.prefix_append ..
  | received d op => exact List.prefix_append ..
  | call d op names => exact List.prefix_append ..
  | ret d op => exact List.prefix_append ..
  | _ => exact List.prefix_rfl

/-- No program takes anything back from the trace. -/
theorem wp_trace {drivers : List Driver} {env : Env} {α : Type} (p : Program α) (w : View) :
    (session drivers env).wp p (fun r => w.trace <+: r.world.trace) w := by
  exact (session drivers env).wp_of_only (φ := fun _ => True)
    (I := fun w' => w.trace <+: w'.trace)
    (fun e w' x _ h _ => h.trans (trace_next e w' x)) p.only_true List.prefix_rfl

/-! ## One rule for each action

`post` after the action is what has to hold before it. -/

section Rules

variable {drivers : List Driver} {env : Env} {w : View}

theorem wp_read {n : ℕ} (hn : 0 < n) (hw : w.input ≠ [])
    {post : Result Stop View ReadResult → Prop} :
    (session drivers env).wp (read n) post w ↔
      ∀ bs, bs ≠ [] → bs.length ≤ n → bs <+: w.input →
        post (.ret (.bytes bs) (w.advance bs.length)) := by
  have hs : (session drivers env).stop (.read n) w = none := if_neg fun h => hw h.2.1
  refine ((session drivers env).wp_perform hs).trans ?_
  constructor
  · exact fun h bs hne hlen hpre => h (.bytes bs) ⟨⟨hne, hlen, hpre⟩, trivial⟩
  · intro h x hx
    cases x with
    | bytes bs => exact h bs hx.1.1 hx.1.2.1 hx.1.2.2
    | zero =>
      rcases hx.1 with h0 | h0
      · omega
      · exact absurd h0.1 hw
    | negative => exact absurd hx.1.2.1 hw

/-- What `read()` comes to when the bytes are used up. -/
theorem wp_read_nil {n : ℕ} (hn : 0 < n) (hw : w.input = [])
    {post : Result Stop View ReadResult → Prop} :
    (session drivers env).wp (read n) post w ↔
      match w.ending with
      | .eof => post (.ret .zero w)
      | .error => post (.ret .negative w)
      | .waiting => post (.halt .blocked w) := by
  cases hend : w.ending with
  | waiting => exact (session drivers env).wp_act_some (if_pos ⟨hn, hw, hend⟩)
  | eof =>
    have hs : (session drivers env).stop (.read n) w = none :=
      if_neg fun h => by rw [hend] at h; cases h.2.2
    refine ((session drivers env).wp_perform hs).trans ?_
    refine ⟨fun h => h .zero ⟨Or.inr ⟨hw, hend⟩, trivial⟩, fun h x hx => ?_⟩
    cases x with
    | bytes bs => exact absurd (List.prefix_nil.mp (hw ▸ hx.1.2.2)) hx.1.1
    | zero => exact h
    | negative => exact absurd (hend.symm.trans hx.1.2.2) (by decide)
  | error =>
    have hs : (session drivers env).stop (.read n) w = none :=
      if_neg fun h => by rw [hend] at h; cases h.2.2
    refine ((session drivers env).wp_perform hs).trans ?_
    refine ⟨fun h => h .negative ⟨⟨hn, hw, hend⟩, trivial⟩, fun h x hx => ?_⟩
    cases x with
    | bytes bs => exact absurd (List.prefix_nil.mp (hw ▸ hx.1.2.2)) hx.1.1
    | zero =>
      rcases hx.1 with h0 | h0
      · omega
      · exact absurd (hend.symm.trans h0.2) (by decide)
    | negative => exact h

theorem wp_write {dest : SessionID} {bytes : List UInt8} {post : Result Stop View ℤ → Prop} :
    (session drivers env).wp (write dest bytes) post w ↔
      ∀ n : ℤ, -1 ≤ n → n ≤ bytes.length → env.write bytes n →
        post (.ret n (w.log (.wrote dest bytes n))) :=
  ⟨fun h n hn hn' he => h n ⟨⟨hn, hn'⟩, he⟩, fun h n hn => h n hn.1.1 hn.1.2 hn.2⟩

theorem wp_exitSignal {post : Result Stop View Bool → Prop} :
    (session drivers env).wp exitSignal post w ↔ ∀ b, env.exit b → post (.ret b w) :=
  ⟨fun h b hb => h b ⟨trivial, hb⟩, fun h b hb => h b hb.2⟩

theorem wp_uninit {post : Result Stop View (ℕ → UInt8) → Prop} :
    (session drivers env).wp uninit post w ↔ ∀ mem, post (.ret mem w) :=
  ⟨fun h mem => h mem ⟨trivial, trivial⟩, fun h mem _ => h mem⟩

theorem wp_received {driver operation : ℕ} {post : Result Stop View Unit → Prop} :
    (session drivers env).wp (received driver operation) post w ↔
      post (.ret () (w.log (.header driver operation w.consumed))) :=
  ⟨fun h => h () ⟨trivial, trivial⟩, fun h _ _ => h⟩

theorem wp_allocDriver {driver : ℕ} {post : Result Stop View Unit → Prop} :
    (session drivers env).wp (allocDriver driver) post w ↔ post (.ret () w) :=
  ⟨fun h => h () ⟨trivial, trivial⟩, fun h _ _ => h⟩

theorem wp_isStarted {i : ℕ} (hi : i < drivers.length) {post : Result Stop View Bool → Prop} :
    (session drivers env).wp (isStarted i) post w ↔ ∀ b, post (.ret b w) := by
  have hs : (session drivers env).stop (.isStarted i) w = none := if_pos hi
  refine ((session drivers env).wp_perform hs).trans ?_
  exact ⟨fun h b => h b ⟨trivial, trivial⟩, fun h b _ => h b⟩

theorem wp_isStarted_of_le {i : ℕ} (hi : drivers.length ≤ i)
    {post : Result Stop View Bool → Prop} :
    (session drivers env).wp (isStarted i) post w ↔ post (.halt (.undefined .outOfBounds) w) :=
  (session drivers env).wp_act_some (if_neg (Nat.not_lt.mpr hi))

theorem wp_device {i : ℕ} (hi : i < drivers.length) {post : Result Stop View ℕ → Prop} :
    (session drivers env).wp (device i) post w ↔ post (.ret (i + firstDriverId) w) := by
  have hs : (session drivers env).stop (.device i) w = none := if_pos hi
  refine ((session drivers env).wp_perform hs).trans ?_
  exact ⟨fun h => h _ ⟨rfl, trivial⟩, fun h t ht => by cases ht.1; exact h⟩

theorem wp_lock {driver : ℕ} (hw : w.held = none) {post : Result Stop View ArgStructs → Prop} :
    (session drivers env).wp (lock driver) post w ↔
      ∀ s, post (.ret s (w.locked driver s)) := by
  have hs : (session drivers env).stop (.lock driver) w = none := if_pos hw
  refine ((session drivers env).wp_perform hs).trans ?_
  exact ⟨fun h s => h s ⟨trivial, trivial⟩, fun h s _ => h s⟩

theorem wp_unlock {driver : ℕ} (hw : w.held = some driver)
    {post : Result Stop View Unit → Prop} :
    (session drivers env).wp (unlock driver) post w ↔
      post (.ret () w.unlocked) := by
  have hs : (session drivers env).stop (.unlock driver) w = none := if_pos hw
  refine ((session drivers env).wp_perform hs).trans ?_
  exact ⟨fun h => h () ⟨trivial, trivial⟩, fun h _ _ => h⟩

theorem wp_store {driver operation : ℕ} {name : String} {v : Option ArgVal}
    (hw : w.held = some driver) {post : Result Stop View Unit → Prop} :
    (session drivers env).wp (store driver operation name v) post w ↔
      post (.ret () (w.setArg operation name v)) := by
  have hs : (session drivers env).stop (.store driver operation name v) w = none := if_pos hw
  refine ((session drivers env).wp_perform hs).trans ?_
  exact ⟨fun h => h () ⟨trivial, trivial⟩, fun h _ _ => h⟩

theorem wp_call {driver operation : ℕ} {names : List String} (hw : w.held = some driver)
    {post : Result Stop View Unit → Prop} :
    (session drivers env).wp (call driver operation names) post w ↔
      post (.ret () ((w.inside (some (driver, operation))).log
        (.call driver operation (names.map (w.args operation)) w.consumed))) := by
  have hs : (session drivers env).stop (.call driver operation names) w = none := if_pos hw
  refine ((session drivers env).wp_perform hs).trans ?_
  exact ⟨fun h => h () ⟨trivial, trivial⟩, fun h _ _ => h⟩

theorem wp_ret {driver operation : ℕ} (hw : w.calling = some (driver, operation))
    {post : Result Stop View RetVal → Prop} :
    (session drivers env).wp (ret driver operation) post w ↔
      ∀ v, Returns drivers driver operation v →
        post (.ret v ((w.inside none).log (.ret driver operation v))) := by
  have hs : (session drivers env).stop (.ret driver operation) w = none := if_pos hw
  refine ((session drivers env).wp_perform hs).trans ?_
  exact ⟨fun h v hv => h v ⟨hv, trivial⟩, fun h v hv => h v hv.1⟩

theorem wp_throw {post : Result Stop View Unit → Prop} :
    (session drivers env).wp throw post w ↔ post (.halt .terminated w) := Iff.rfl

theorem wp_outOfFuel {post : Result Stop View Unit → Prop} :
    (session drivers env).wp outOfFuel post w ↔ post (.halt .outOfFuel w) := Iff.rfl

end Rules

end KoheronSdk
