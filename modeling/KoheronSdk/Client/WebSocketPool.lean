import Mathlib.Data.List.Perm.Basic
import Mathlib.Data.List.Nodup
import Mathlib.Logic.Function.Basic
import KoheronSdk.Lib.Transition

/-!
# The pool of WebSockets in the browser

`WebSocketPool` hands out the ids of its sockets.  An id comes into the pool when a socket opens,
leaves it in `requestSocket` and is given back by `freeSocket`.  Everything runs in one thread:
the browser calls one handler after another, and a handler goes on until it returns.

## What can come between

Between two handlers anything may happen that the browser or the user's code can do.  A request that
finds no free socket is tried again by a timer; one that has a socket may have to wait for it to be
ready, again by a timer; a reply comes as an event of the socket.  A handler calls back into the
user's code, which may make requests or exit before it returns, or throw.  `Label` has all of these,
and a run is any sequence of them.  Timers stay when the pool exits, and fire later.

## The invariant

`Inv` has three parts.  An id is at one place: in the pool, in the hands of a requester, or on its
way (`Ids`).  A requester that has an id waits for its socket, or for its reply, with its own
handler on the socket, or is in its callback (`Replies`).  And so every reply that is delivered goes
to the callback of the request it answers.  That a stale handler of an earlier requester cannot get
a reply rests on the order within a handler: the socket is given back only when its reply has come.

* `State`: the fields of the pool and of the client, the timers, the handlers and the replies
  that are still to come.
* `step`: an event of the browser, a call of the user's code, or the end of a callback that a
  handler has called.
* `Inv`: an id is in the pool or in the hands of one requester, and only the socket of a
  requester that has sent its command has a reply to come.
* `sound_throughout`: no two requesters share a socket, and every reply goes to its own callback.
-/

namespace KoheronSdk

open Transition

namespace WebSocketPool

/-- A call of `_readBase`, whose command has a reply, or of `send`, by its number. -/
structure Request where
  id : ℕ
  reads : Bool
  deriving DecidableEq

/-- A requester, and the socket id that it has been given. -/
structure Holder where
  request : ℕ
  sockid : ℕ
  deriving DecidableEq

/-- What a `setTimeout` will call: `waitForConnection` for an open socket or for a requester,
or `requestSocket`. -/
inductive Timer where
  | opening
  | waiting (r : Request) (sockid : ℕ)
  | requesting (r : Request)
  deriving DecidableEq

/-- A callback that a handler has called and that has not returned: `onOpenCallback`, or the
`fn` of a `_readBase`. -/
inductive Callback where
  | onOpen
  | reply (h : Holder)
  deriving DecidableEq

/-- The pool and its client.  `opened` are the sockets that have had their open event, `pending`
the commands sent on a socket whose replies are to come, `held` the ids that requesters have and
`delivered` the replies so far, each with the request whose callback got it. -/
structure State where
  freeSockets : List ℕ
  socketCounter : ℕ
  exiting : Bool
  websockpool : Bool
  opened : List ℕ
  timers : List Timer
  onmessage : ℕ → Option Holder
  pending : ℕ → List ℕ
  running : Option Callback
  calls : ℕ
  held : List Holder
  delivered : List (ℕ × Option ℕ)

/-- The sockets that the constructor makes; its loop goes down when `poolSize - 1` is
negative. -/
def created (poolSize : ℕ) : ℕ := if 0 < poolSize then poolSize else 2

/-- `constructor` -/
def start : State where
  freeSockets := []
  socketCounter := 0
  exiting := false
  websockpool := true
  opened := []
  timers := []
  onmessage _ := none
  pending _ := []
  running := none
  calls := 0
  held := []
  delivered := []

namespace State

variable (poolSize : ℕ) (s : State)

/-- `waitForConnection`; `ready` is whether the socket's `readyState` is 1. -/
def waitForConnection (ready : Bool) (timer : Timer) (callback : State → State) : State :=
  if ready then if s.exiting then s else callback s
  else { s with timers := s.timers ++ [timer] }

/-- What is to be done when a socket has opened, up to `onOpenCallback`. -/
def socketOpened : State :=
  let s := { s with freeSockets := s.freeSockets ++ [s.socketCounter] }
  if s.socketCounter = 0 then { s with running := some .onOpen }
  else { s with socketCounter := s.socketCounter + 1 }

/-- `getSocket`: the index in `pool`, or `none` when it returns `null` or throws. -/
def getSocket (sockid : ℕ) : Option ℕ :=
  if s.exiting then none
  else if sockid ∉ s.freeSockets ∧ sockid < poolSize then some sockid else none

/-- `freeSocket`, called by a requester. -/
def freeSocket (h : Holder) : State :=
  let s := { s with held := s.held.erase h }
  if s.exiting then s
  else if h.sockid ∉ s.freeSockets ∧ h.sockid < poolSize then
    { s with freeSockets := s.freeSockets ++ [h.sockid] }
  else s

/-- `freeSocket`, if the client still has its pool. -/
def giveBack (h : Holder) : State := if s.websockpool then s.freeSocket poolSize h else s

/-- The callbacks of `_readBase` and of `send`, with a socket id.  Nothing is done behind a
`getSocket` that has thrown. -/
def granted (r : Request) (sockid : ℕ) : State :=
  match s.getSocket poolSize sockid with
  | none => s
  | some socket =>
    if r.reads then
      { s with
        pending := Function.update s.pending socket (s.pending socket ++ [r.id])
        onmessage := Function.update s.onmessage socket (some ⟨r.id, sockid⟩) }
    else s.giveBack poolSize ⟨r.id, sockid⟩

/-- An id leaves the pool. -/
def take (r : Request) (sockid : ℕ) : State :=
  { s with freeSockets := s.freeSockets.dropLast, held := s.held ++ [⟨r.id, sockid⟩] }

/-- `requestSocket`, of a pool that exits with the callback on `-1`, which does nothing to the
pool. -/
def requestSocket (r : Request) (ready : Bool) : State :=
  if s.exiting then s
  else match s.freeSockets.getLast? with
    | some sockid => (s.take r sockid).waitForConnection ready (.waiting r sockid)
        fun s => s.granted poolSize r sockid
    | none => { s with timers := s.timers ++ [.requesting r] }

/-- `Client.send` and `Client._readBase` -/
def request (reads ready : Bool) : State :=
  if s.websockpool then
    State.requestSocket poolSize { s with calls := s.calls + 1 } ⟨s.calls, reads⟩ ready
  else s

/-- A timer fires. -/
def fire (ready : Bool) : Timer → State
  | .opening => s.waitForConnection ready .opening socketOpened
  | .waiting r sockid => s.waitForConnection ready (.waiting r sockid)
      fun s => s.granted poolSize r sockid
  | .requesting r => s.requestSocket poolSize r ready

/-- `onmessage`, up to the callback, with the reply of a command. -/
def message (command : ℕ) : Option Holder → State
  | none => { s with delivered := s.delivered ++ [(command, none)] }
  | some h =>
    { s with delivered := s.delivered ++ [(command, some h.request)], running := some (.reply h) }

/-- What is left of a handler behind its callback. -/
def resume : Callback → State
  | .onOpen => { s with socketCounter := s.socketCounter + 1 }
  | .reply h => s.giveBack poolSize h

/-- `WebSocketPool.exit` -/
def exit : State := { s with exiting := true, freeSockets := [], socketCounter := 0 }

end State

/-- What can happen.  The browser calls a handler (`opened`, `timer`, `message`) when nothing
runs; the user's code makes a `request` or exits, also in a callback; a callback `returns`, and
one for a reply may throw (`onOpenCallback` is `loadCmds`, which does not).  `ready` is whether
the socket in question has `readyState` 1. -/
inductive Label where
  | opened (i : ℕ) (ready : Bool)
  | timer (j : ℕ) (ready : Bool)
  | message (i : ℕ)
  | request (reads ready : Bool)
  | exit
  | clientExit
  | returns
  | throws
  deriving DecidableEq

/-- The system takes a step. -/
def step (poolSize : ℕ) (s : State) : Label → Option State
  | .opened i ready =>
    if s.running = none ∧ i < created poolSize ∧ i ∉ s.opened then
      -- every handler waits for the variable `websocket` that they share
      some (State.waitForConnection { s with opened := s.opened ++ [i] } ready .opening
        State.socketOpened)
    else none
  | .timer j ready =>
    if s.running = none then s.timers[j]?.map fun timer =>
      State.fire poolSize { s with timers := s.timers.eraseIdx j } ready timer
    else none
  | .message i =>
    if s.running = none then (s.pending i).head?.map fun command =>
      State.message { s with pending := Function.update s.pending i (s.pending i).tail } command
        (s.onmessage i)
    else none
  | .request reads ready => some (s.request poolSize reads ready)
  | .exit => some s.exit
  | .clientExit => if s.websockpool then some { s.exit with websockpool := false } else none
  | .returns => s.running.map fun callback =>
    State.resume poolSize { s with running := none } callback
  | .throws => s.running.bind fun callback =>
    if callback = .onOpen then none else some { s with running := none }

/-- A free socket is in use by nobody, a socket in use has one owner, and every reply went to the
request it answers. -/
structure Sound (poolSize : ℕ) (s : State) : Prop where
  free_nodup : s.freeSockets.Nodup
  free_lt : ∀ sockid ∈ s.freeSockets, sockid < poolSize
  free_not_held : ∀ sockid ∈ s.freeSockets, ∀ h ∈ s.held, h.sockid ≠ sockid
  held_once : (s.held.map Holder.sockid).Nodup
  own_reply : ∀ reply ∈ s.delivered, reply.2 = some reply.1

/-! ## The invariant -/

/-- The requester that a timer will call. -/
def Timer.holder? : Timer → Option Holder
  | .waiting r sockid => some ⟨r.id, sockid⟩
  | _ => none

namespace State

/-- The requesters that wait for their socket to be ready. -/
def waits (s : State) : List Holder := s.timers.filterMap Timer.holder?

/-- The ids in the pool and in the hands of requesters. -/
def ids (s : State) : List ℕ := s.freeSockets ++ s.held.map Holder.sockid

/-- How many ids have come into the pool. -/
def given (s : State) : ℕ := s.socketCounter + if s.running = some .onOpen then 1 else 0

/-- A socket has opened whose id has not come into the pool. -/
def Spare (s : State) : Prop :=
  s.exiting = false → s.given + s.timers.count .opening + 1 ≤ s.opened.length

/-- A requester that has an id, and nothing under way. -/
structure Idle (s : State) (h : Holder) : Prop where
  held : h ∈ s.held
  pending : s.pending h.sockid = []
  not_waits : h ∉ s.waits
  not_running : s.running ≠ some (.reply h)

end State

/-- Where the ids are: each at one place, and no more of them than sockets that have opened. -/
structure Ids (poolSize : ℕ) (s : State) : Prop where
  nodup : s.ids.Nodup
  lt : ∀ sockid ∈ s.ids, sockid < poolSize
  lt_given : s.exiting = false → ∀ sockid ∈ s.ids, sockid < s.given
  given_le : s.exiting = false → s.given + s.timers.count .opening ≤ s.opened.length
  opened_nodup : s.opened.Nodup
  opened_lt : ∀ i ∈ s.opened, i < poolSize
  exiting : s.exiting = true → s.freeSockets = []

/-- Where the requesters are: each waits for its socket, or for its reply with its handler on
the socket, or is in its callback. -/
structure Replies (s : State) : Prop where
  waits_nodup : s.waits.Nodup
  waits : ∀ h ∈ s.waits, h ∈ s.held ∧ s.pending h.sockid = []
  running : ∀ h, s.running = some (.reply h) →
    h ∈ s.held ∧ s.pending h.sockid = [] ∧ h ∉ s.waits
  pending : ∀ i, s.pending i = [] ∨
    ∃ c, s.pending i = [c] ∧ s.onmessage i = some ⟨c, i⟩ ∧ ⟨c, i⟩ ∈ s.held

/-- The invariant of the pool. -/
structure Inv (poolSize : ℕ) (s : State) : Prop where
  ids : Ids poolSize s
  replies : Replies s
  own_reply : ∀ reply ∈ s.delivered, reply.2 = some reply.1

theorem inv_start (poolSize : ℕ) : Inv poolSize start where
  ids :=
    { nodup := List.nodup_nil
      lt := fun _ h => absurd h List.not_mem_nil
      lt_given := fun _ _ h => absurd h List.not_mem_nil
      given_le := fun _ => Nat.le_refl 0
      opened_nodup := List.nodup_nil
      opened_lt := fun _ h => absurd h List.not_mem_nil
      exiting := fun _ => rfl }
  replies :=
    { waits_nodup := List.nodup_nil
      waits := fun _ h => absurd h List.not_mem_nil
      running := fun _ h => absurd h.symm (Option.some_ne_none _)
      pending := fun _ => Or.inl rfl }
  own_reply := fun _ h => absurd h List.not_mem_nil

variable {poolSize : ℕ} {s : State}

/-- In a state of the invariant no socket is lost or shared and no reply went astray. -/
theorem Inv.sound (h : Inv poolSize s) : Sound poolSize s := by
  obtain ⟨hfree, hheld, hdisjoint⟩ := List.nodup_append.mp h.ids.nodup
  exact {
    free_nodup := hfree
    free_lt := fun sockid hid => h.ids.lt sockid (List.mem_append_left _ hid)
    free_not_held := fun sockid hid holder hholder heq =>
      hdisjoint sockid hid holder.sockid (List.mem_map_of_mem hholder) heq.symm
    held_once := hheld
    own_reply := h.own_reply }

/-- Two requesters with one id are one. -/
theorem Ids.holder_eq (h : Ids poolSize s) {a b : Holder} (ha : a ∈ s.held) (hb : b ∈ s.held)
    (hab : a.sockid = b.sockid) : a = b :=
  List.inj_on_of_nodup_map (List.nodup_append.mp h.nodup).2.1 ha hb hab

theorem Ids.not_mem_free (h : Ids poolSize s) {a : Holder} (ha : a ∈ s.held) :
    a.sockid ∉ s.freeSockets := fun hfree =>
  (List.nodup_append.mp h.nodup).2.2 _ hfree _ (List.mem_map_of_mem ha) rfl

theorem Ids.holder_lt (h : Ids poolSize s) {a : Holder} (ha : a ∈ s.held) :
    a.sockid < poolSize := h.lt _ (List.mem_append_right _ (List.mem_map_of_mem ha))

/-! ### Timers -/

theorem waits_append (s : State) (timer : Timer) :
    State.waits { s with timers := s.timers ++ [timer] } = s.waits ++ timer.holder?.toList := by
  show (s.timers ++ [timer]).filterMap _ = _
  rw [List.filterMap_append, List.filterMap_cons]
  cases timer <;> rfl

theorem count_append (s : State) (timer : Timer) :
    (s.timers ++ [timer]).count .opening
      = s.timers.count .opening + if timer = .opening then 1 else 0 := by
  rw [List.count_append, List.count_singleton]
  cases timer <;> rfl

/-- A timer is set that no requester waits for. -/
theorem Inv.setTimer (h : Inv poolSize s) {timer : Timer} (hholder : timer.holder? = none)
    (hspare : timer = .opening → s.Spare) :
    Inv poolSize { s with timers := s.timers ++ [timer] } := by
  have hwaits : State.waits { s with timers := s.timers ++ [timer] } = s.waits := by
    rw [waits_append, hholder]
    exact List.append_nil _
  refine ⟨⟨h.ids.nodup, h.ids.lt, h.ids.lt_given, fun hexit => ?_, h.ids.opened_nodup,
    h.ids.opened_lt, h.ids.exiting⟩, ⟨?_, ?_, ?_, h.replies.pending⟩, h.own_reply⟩
  · show s.given + (s.timers ++ [timer]).count .opening ≤ s.opened.length
    rw [count_append]
    split
    · rename_i hopening
      exact hspare hopening hexit
    · exact h.ids.given_le hexit
  · rw [hwaits]
    exact h.replies.waits_nodup
  · rw [hwaits]
    exact h.replies.waits
  · rw [hwaits]
    exact h.replies.running

/-- A requester that has its id waits for the socket. -/
theorem Inv.setWaiting (h : Inv poolSize s) {r : Request} {sockid : ℕ}
    (hidle : s.Idle ⟨r.id, sockid⟩) :
    Inv poolSize { s with timers := s.timers ++ [.waiting r sockid] } := by
  have hwaits : State.waits { s with timers := s.timers ++ [.waiting r sockid] }
      = s.waits ++ [⟨r.id, sockid⟩] := waits_append s _
  have hmem : ∀ holder, holder ∈ State.waits { s with timers := s.timers ++ [.waiting r sockid] } ↔
      holder ∈ s.waits ∨ holder = ⟨r.id, sockid⟩ := fun holder => by
    rw [hwaits, List.mem_append, List.mem_singleton]
  refine ⟨⟨h.ids.nodup, h.ids.lt, h.ids.lt_given, fun hexit => ?_, h.ids.opened_nodup,
    h.ids.opened_lt, h.ids.exiting⟩, ⟨?_, fun holder hholder => ?_, fun holder hrun => ?_,
    h.replies.pending⟩, h.own_reply⟩
  · show s.given + (s.timers ++ [Timer.waiting r sockid]).count Timer.opening ≤ s.opened.length
    rw [count_append]
    exact h.ids.given_le hexit
  · rw [hwaits, ← List.concat_eq_append]
    exact (List.nodup_concat _ _).mpr ⟨hidle.not_waits, h.replies.waits_nodup⟩
  · rcases (hmem holder).mp hholder with hold | rfl
    · exact h.replies.waits holder hold
    · exact ⟨hidle.held, hidle.pending⟩
  · obtain ⟨hheld, hpending, hnot⟩ := h.replies.running holder hrun
    refine ⟨hheld, hpending, fun hwait => ?_⟩
    rcases (hmem holder).mp hwait with hold | rfl
    · exact hnot hold
    · exact hidle.not_running hrun

/-- A timer that fires is none of those that are left. -/
theorem timers_perm {timers : List Timer} {j : ℕ} {timer : Timer} (h : timers[j]? = some timer) :
    (timer :: timers.eraseIdx j).Perm timers := by
  obtain ⟨hj, rfl⟩ := List.getElem?_eq_some_iff.mp h
  exact List.getElem_cons_eraseIdx_perm hj

theorem Inv.clearTimer (h : Inv poolSize s) (j : ℕ) :
    Inv poolSize { s with timers := s.timers.eraseIdx j } := by
  have hsub : (s.timers.eraseIdx j).Sublist s.timers := List.eraseIdx_sublist _ _
  have hwaits := hsub.filterMap Timer.holder?
  refine ⟨⟨h.ids.nodup, h.ids.lt, h.ids.lt_given, fun hexit => ?_, h.ids.opened_nodup,
    h.ids.opened_lt, h.ids.exiting⟩, ⟨h.replies.waits_nodup.sublist hwaits, fun holder hholder =>
    h.replies.waits holder (hwaits.mem hholder), fun holder hrun => ?_, h.replies.pending⟩,
    h.own_reply⟩
  · have := h.ids.given_le hexit
    have := hsub.count_le .opening
    show s.given + (s.timers.eraseIdx j).count .opening ≤ s.opened.length
    omega
  · obtain ⟨hheld, hpending, hnot⟩ := h.replies.running holder hrun
    exact ⟨hheld, hpending, fun hwait => hnot (hwaits.mem hwait)⟩

theorem Inv.spare_clearTimer (h : Inv poolSize s) {j : ℕ} (hj : s.timers[j]? = some .opening) :
    State.Spare { s with timers := s.timers.eraseIdx j } := fun hexit => by
  have hle := h.ids.given_le hexit
  rw [← (timers_perm hj).count_eq .opening, List.count_cons_self] at hle
  exact hle

theorem Inv.idle_clearTimer (h : Inv poolSize s) {j : ℕ} {r : Request} {sockid : ℕ}
    (hj : s.timers[j]? = some (.waiting r sockid)) (hrun : s.running = none) :
    State.Idle { s with timers := s.timers.eraseIdx j } ⟨r.id, sockid⟩ := by
  have hperm : (⟨r.id, sockid⟩ :: (s.timers.eraseIdx j).filterMap Timer.holder?).Perm s.waits :=
    (timers_perm hj).filterMap Timer.holder?
  obtain ⟨hheld, hpending⟩ := h.replies.waits _ (hperm.mem_iff.mp List.mem_cons_self)
  refine ⟨hheld, hpending, ?_, fun hreply => ?_⟩
  · exact (List.nodup_cons.mp (hperm.nodup_iff.mpr h.replies.waits_nodup)).1
  · exact Option.some_ne_none _ (hreply.symm.trans hrun)

/-! ### Ids -/

/-- An id comes into the pool. -/
theorem Inv.socketOpened (h : Inv poolSize s) (hspare : s.Spare) (hrun : s.running = none)
    (hexit : s.exiting = false) : Inv poolSize s.socketOpened := by
  have hgiven : s.given = s.socketCounter := by
    rw [State.given, hrun, if_neg (Option.some_ne_none _).symm, Nat.add_zero]
  have hroom := hspare hexit
  have hlength : s.opened.length ≤ poolSize := by
    have := (List.subperm_of_subset h.ids.opened_nodup fun i hi =>
      List.mem_range.mpr (h.ids.opened_lt i hi)).length_le
    rwa [List.length_range] at this
  have hlt : ∀ sockid ∈ s.ids, sockid < s.socketCounter := fun sockid hid =>
    hgiven ▸ h.ids.lt_given hexit sockid hid
  have hids : ((s.freeSockets ++ [s.socketCounter]) ++ s.held.map Holder.sockid).Perm
      (s.socketCounter :: s.ids) := by
    rw [List.append_assoc, List.singleton_append]
    exact List.perm_middle
  have hmem : ∀ sockid ∈ (s.freeSockets ++ [s.socketCounter]) ++ s.held.map Holder.sockid,
      sockid ≤ s.socketCounter := fun sockid hid => by
    rcases List.mem_cons.mp (hids.mem_iff.mp hid) with rfl | hold
    · exact Nat.le_refl _
    · exact Nat.le_of_lt (hlt sockid hold)
  have hnodup : ((s.freeSockets ++ [s.socketCounter]) ++ s.held.map Holder.sockid).Nodup :=
    hids.nodup_iff.mpr (List.nodup_cons.mpr
      ⟨fun hin => Nat.lt_irrefl _ (hlt _ hin), h.ids.nodup⟩)
  have hboth : ∀ t : State, t.freeSockets = s.freeSockets ++ [s.socketCounter] →
      t.held = s.held → t.given = s.given + 1 → t.timers = s.timers → t.opened = s.opened →
      t.exiting = s.exiting → Ids poolSize t := by
    intro t hfree hheld hgiven' htimers hopened hexit'
    have hids' : t.ids = (s.freeSockets ++ [s.socketCounter]) ++ s.held.map Holder.sockid := by
      rw [State.ids, hfree, hheld]
    refine ⟨?_, ?_, ?_, ?_, ?_, ?_, ?_⟩
    · rwa [hids']
    · intro sockid hid
      have := hmem sockid (hids' ▸ hid)
      omega
    · intro _ sockid hid
      have := hmem sockid (hids' ▸ hid)
      omega
    · intro _
      rw [hgiven', htimers, hopened]
      omega
    · rw [hopened]
      exact h.ids.opened_nodup
    · rw [hopened]
      exact h.ids.opened_lt
    · rw [hexit', hexit]
      exact fun hfalse => absurd hfalse Bool.false_ne_true
  rw [State.socketOpened]
  split
  · refine ⟨hboth _ rfl rfl ?_ rfl rfl rfl, ⟨h.replies.waits_nodup, h.replies.waits,
      fun holder hreply => ?_, h.replies.pending⟩, h.own_reply⟩
    · rw [hgiven]
      rfl
    · cases hreply
  · refine ⟨hboth _ rfl rfl ?_ rfl rfl rfl, ⟨h.replies.waits_nodup, h.replies.waits,
      h.replies.running, h.replies.pending⟩, h.own_reply⟩
    rw [hgiven, State.given]
    show s.socketCounter + 1 + (if s.running = some .onOpen then 1 else 0) = _
    rw [hrun, if_neg (Option.some_ne_none _).symm]

/-- An id leaves the pool. -/
theorem Inv.take (h : Inv poolSize s) {sockid : ℕ} (hlast : s.freeSockets.getLast? = some sockid)
    (r : Request) : Inv poolSize (s.take r sockid) ∧ (s.take r sockid).Idle ⟨r.id, sockid⟩ := by
  have hfree : s.freeSockets = s.freeSockets.dropLast ++ [sockid] :=
    (List.dropLast_append_getLast? sockid hlast).symm
  have hmem : sockid ∈ s.freeSockets := List.mem_of_getLast? hlast
  have hids : (s.take r sockid).ids.Perm s.ids := by
    show (s.freeSockets.dropLast ++ (s.held ++ [_]).map Holder.sockid).Perm
      (s.freeSockets ++ s.held.map Holder.sockid)
    conv_rhs => rw [hfree]
    rw [List.map_append, List.append_assoc]
    exact List.perm_append_comm.append_left _
  have hnot : ∀ holder ∈ s.held, holder.sockid ≠ sockid := fun holder hholder heq =>
    h.ids.not_mem_free hholder (heq ▸ hmem)
  have hheld : ∀ holder ∈ s.held, holder ∈ (s.take r sockid).held := fun holder hholder =>
    List.mem_append_left _ hholder
  refine ⟨⟨⟨hids.nodup_iff.mpr h.ids.nodup, fun i hi => h.ids.lt i (hids.mem_iff.mp hi),
    fun hexit i hi => h.ids.lt_given hexit i (hids.mem_iff.mp hi), h.ids.given_le,
    h.ids.opened_nodup, h.ids.opened_lt, fun hexit => ?_⟩, ⟨h.replies.waits_nodup, ?_, ?_, ?_⟩,
    h.own_reply⟩, ⟨?_, ?_, ?_, ?_⟩⟩
  · show s.freeSockets.dropLast = []
    rw [h.ids.exiting hexit]
    rfl
  · intro holder hwait
    obtain ⟨hin, hpending⟩ := h.replies.waits holder hwait
    exact ⟨hheld holder hin, hpending⟩
  · intro holder hrun
    obtain ⟨hin, hpending, hwait⟩ := h.replies.running holder hrun
    exact ⟨hheld holder hin, hpending, hwait⟩
  · intro i
    rcases h.replies.pending i with hnone | ⟨c, hpending, hhandler, hin⟩
    · exact Or.inl hnone
    · exact Or.inr ⟨c, hpending, hhandler, hheld _ hin⟩
  · exact List.mem_append_right _ List.mem_cons_self
  · show s.pending sockid = []
    rcases h.replies.pending sockid with hnone | ⟨c, -, -, hin⟩
    · exact hnone
    · exact absurd rfl (hnot _ hin)
  · exact fun hwait => hnot _ (h.replies.waits _ hwait).1 rfl
  · exact fun hrun => hnot _ (h.replies.running _ hrun).1 rfl

/-- An id is given back. -/
theorem Inv.freeSocket (h : Inv poolSize s) {holder : Holder} (hidle : s.Idle holder) :
    Inv poolSize (s.freeSocket poolSize holder) := by
  have hperm : s.held.Perm (holder :: s.held.erase holder) := List.perm_cons_erase hidle.held
  have hids : s.ids.Perm (s.freeSockets ++ holder.sockid ::
      (s.held.erase holder).map Holder.sockid) := (hperm.map Holder.sockid).append_left _
  have hstay : ∀ a ∈ s.held, a ≠ holder → a ∈ s.held.erase holder := fun a ha hne =>
    (List.mem_erase_of_ne hne).mpr ha
  have hreplies : ∀ t : State, t.held = s.held.erase holder → t.timers = s.timers →
      t.pending = s.pending → t.onmessage = s.onmessage → t.running = s.running → Replies t := by
    intro t hheld htimers hpending hhandler hrunning
    have hwaits : t.waits = s.waits := congrArg (List.filterMap Timer.holder?) htimers
    constructor
    · rw [hwaits]
      exact h.replies.waits_nodup
    · intro a ha
      rw [hwaits] at ha
      obtain ⟨hin, hnone⟩ := h.replies.waits a ha
      rw [hheld, hpending]
      exact ⟨hstay a hin fun heq => hidle.not_waits (heq ▸ ha), hnone⟩
    · intro a ha
      rw [hrunning] at ha
      obtain ⟨hin, hnone, hnot⟩ := h.replies.running a ha
      rw [hheld, hpending, hwaits]
      exact ⟨hstay a hin fun heq => hidle.not_running (heq ▸ ha), hnone, hnot⟩
    · intro i
      rw [hheld, hpending, hhandler]
      rcases h.replies.pending i with hnone | ⟨c, hsome, hon, hin⟩
      · exact Or.inl hnone
      · refine Or.inr ⟨c, hsome, hon, hstay _ hin fun heq => ?_⟩
        have hnone := hidle.pending
        rw [← heq, hsome] at hnone
        exact absurd hnone (List.cons_ne_nil c [])
  have hkeep : ∀ t : State, (∃ sockids : List ℕ, s.ids.Perm (sockids ++ t.ids)) →
      t.given = s.given → t.timers = s.timers → t.opened = s.opened → t.exiting = s.exiting →
      (s.exiting = true → t.freeSockets = []) → Ids poolSize t := by
    rintro t ⟨sockids, hsplit⟩ hgiven htimers hopened hexit hfree
    have hsub : ∀ sockid ∈ t.ids, sockid ∈ s.ids := fun sockid hid =>
      hsplit.mem_iff.mpr (List.mem_append_right _ hid)
    refine ⟨(List.nodup_append.mp (hsplit.nodup_iff.mp h.ids.nodup)).2.1,
      fun i hi => h.ids.lt i (hsub i hi), ?_, ?_, ?_, ?_, ?_⟩
    · rw [hexit, hgiven]
      exact fun hlive i hi => h.ids.lt_given hlive i (hsub i hi)
    · rw [hexit, hgiven, htimers, hopened]
      exact h.ids.given_le
    · rw [hopened]
      exact h.ids.opened_nodup
    · rw [hopened]
      exact h.ids.opened_lt
    · rwa [hexit]
  have hgone : ∃ sockids : List ℕ, s.ids.Perm
      (sockids ++ State.ids { s with held := s.held.erase holder }) :=
    ⟨[holder.sockid], hids.trans List.perm_middle⟩
  rw [State.freeSocket]
  split
  · exact ⟨hkeep _ hgone rfl rfl rfl rfl h.ids.exiting, hreplies _ rfl rfl rfl rfl rfl,
      h.own_reply⟩
  · rename_i hlive
    split
    · refine ⟨hkeep _ ⟨[], ?_⟩ rfl rfl rfl rfl fun hexit => absurd hexit hlive,
        hreplies _ rfl rfl rfl rfl rfl, h.own_reply⟩
      show s.ids.Perm ((s.freeSockets ++ [holder.sockid]) ++ _)
      rw [List.append_assoc]
      exact hids
    · exact ⟨hkeep _ hgone rfl rfl rfl rfl h.ids.exiting, hreplies _ rfl rfl rfl rfl rfl,
        h.own_reply⟩

theorem Inv.giveBack (h : Inv poolSize s) {holder : Holder} (hidle : s.Idle holder) :
    Inv poolSize (s.giveBack poolSize holder) := by
  rw [State.giveBack]
  split
  · exact h.freeSocket hidle
  · exact h

theorem Inv.exit (h : Inv poolSize s) : Inv poolSize s.exit where
  ids :=
    { nodup := (List.nodup_append.mp h.ids.nodup).2.1
      lt := fun sockid hid => h.ids.lt sockid (List.mem_append_right _ hid)
      lt_given := fun hlive => absurd hlive.symm Bool.false_ne_true
      given_le := fun hlive => absurd hlive.symm Bool.false_ne_true
      opened_nodup := h.ids.opened_nodup
      opened_lt := h.ids.opened_lt
      exiting := fun _ => rfl }
  replies := ⟨h.replies.waits_nodup, h.replies.waits, h.replies.running, h.replies.pending⟩
  own_reply := h.own_reply

/-! ### Commands and replies -/

/-- A requester that has its id gets its socket. -/
theorem getSocket_eq (h : Inv poolSize s) {holder : Holder} (hheld : holder ∈ s.held)
    (hlive : s.exiting = false) : s.getSocket poolSize holder.sockid = some holder.sockid := by
  rw [State.getSocket, hlive, if_neg Bool.false_ne_true,
    if_pos ⟨h.ids.not_mem_free hheld, h.ids.holder_lt hheld⟩]

/-- A command is sent on the socket of its requester, who waits for the reply. -/
theorem Inv.send (h : Inv poolSize s) {holder : Holder} (hidle : s.Idle holder) :
    Inv poolSize { s with
      pending := Function.update s.pending holder.sockid
        (s.pending holder.sockid ++ [holder.request])
      onmessage := Function.update s.onmessage holder.sockid (some holder) } := by
  have hother : ∀ a ∈ s.held, a ≠ holder → a.sockid ≠ holder.sockid := fun a ha hne heq =>
    hne (h.ids.holder_eq ha hidle.held heq)
  have hpending : ∀ a ∈ s.held, a ≠ holder → s.pending a.sockid = [] →
      Function.update s.pending holder.sockid (s.pending holder.sockid ++ [holder.request])
        a.sockid = [] := fun a ha hne hnone => by
    rw [Function.update_of_ne (hother a ha hne), hnone]
  refine ⟨⟨h.ids.nodup, h.ids.lt, h.ids.lt_given, h.ids.given_le, h.ids.opened_nodup,
    h.ids.opened_lt, h.ids.exiting⟩, ⟨h.replies.waits_nodup, ?_, ?_, ?_⟩, h.own_reply⟩
  · intro a ha
    obtain ⟨hin, hnone⟩ := h.replies.waits a ha
    exact ⟨hin, hpending a hin (fun heq => hidle.not_waits (heq ▸ ha)) hnone⟩
  · intro a ha
    obtain ⟨hin, hnone, hnot⟩ := h.replies.running a ha
    exact ⟨hin, hpending a hin (fun heq => hidle.not_running (heq ▸ ha)) hnone, hnot⟩
  · intro i
    show Function.update s.pending _ _ i = [] ∨ ∃ c, Function.update s.pending _ _ i = [c] ∧
      Function.update s.onmessage _ _ i = _ ∧ _
    by_cases hi : i = holder.sockid
    · rw [hi, Function.update_self, Function.update_self, hidle.pending]
      exact Or.inr ⟨holder.request, rfl, rfl, hidle.held⟩
    · rw [Function.update_of_ne hi, Function.update_of_ne hi]
      exact h.replies.pending i

theorem Inv.granted (h : Inv poolSize s) {r : Request} {sockid : ℕ}
    (hidle : s.Idle ⟨r.id, sockid⟩) (hlive : s.exiting = false) :
    Inv poolSize (s.granted poolSize r sockid) := by
  rw [State.granted, getSocket_eq h hidle.held hlive]
  show Inv poolSize (if r.reads then _ else _)
  split
  · exact h.send hidle
  · exact h.giveBack hidle

/-- A requester that has its id goes on, or waits for its socket. -/
theorem Inv.waitForConnection (h : Inv poolSize s) {r : Request} {sockid : ℕ}
    (hidle : s.Idle ⟨r.id, sockid⟩) (ready : Bool) :
    Inv poolSize (s.waitForConnection ready (.waiting r sockid)
      fun s => s.granted poolSize r sockid) := by
  rw [State.waitForConnection]
  split
  · split
    · exact h
    · exact h.granted hidle (eq_false_of_ne_true ‹_›)
  · exact h.setWaiting hidle

/-- A socket that has opened goes on, or waits. -/
theorem Inv.waitForOpening (h : Inv poolSize s) (hspare : s.Spare) (hrun : s.running = none)
    (ready : Bool) :
    Inv poolSize (s.waitForConnection ready .opening State.socketOpened) := by
  rw [State.waitForConnection]
  split
  · split
    · exact h
    · exact h.socketOpened hspare hrun (eq_false_of_ne_true ‹_›)
  · exact h.setTimer rfl fun _ => hspare

theorem Inv.requestSocket (h : Inv poolSize s) (r : Request) (ready : Bool) :
    Inv poolSize (s.requestSocket poolSize r ready) := by
  rw [State.requestSocket]
  split
  · exact h
  · rcases hlast : s.freeSockets.getLast? with _ | sockid
    · exact h.setTimer rfl fun heq => by cases heq
    · obtain ⟨htake, hidle⟩ := h.take hlast r
      exact htake.waitForConnection hidle ready

theorem Inv.request (h : Inv poolSize s) (reads ready : Bool) :
    Inv poolSize (s.request poolSize reads ready) := by
  rw [State.request]
  split
  · have hcalls : Inv poolSize { s with calls := s.calls + 1 } :=
      ⟨⟨h.ids.nodup, h.ids.lt, h.ids.lt_given, h.ids.given_le, h.ids.opened_nodup,
        h.ids.opened_lt, h.ids.exiting⟩, ⟨h.replies.waits_nodup, h.replies.waits,
        h.replies.running, h.replies.pending⟩, h.own_reply⟩
    exact hcalls.requestSocket _ ready
  · exact h

/-- A timer fires. -/
theorem Inv.fire (h : Inv poolSize s) (hrun : s.running = none) {j : ℕ} {timer : Timer}
    (hj : s.timers[j]? = some timer) (ready : Bool) :
    Inv poolSize (State.fire poolSize { s with timers := s.timers.eraseIdx j } ready timer) := by
  have hclear := h.clearTimer j
  cases timer with
  | opening => exact hclear.waitForOpening (h.spare_clearTimer hj) hrun ready
  | waiting r sockid => exact hclear.waitForConnection (h.idle_clearTimer hj hrun) ready
  | requesting r => exact hclear.requestSocket r ready

/-- A socket opens. -/
theorem Inv.addOpened (h : Inv poolSize s) {i : ℕ} (hlt : i < poolSize) (hnew : i ∉ s.opened) :
    Inv poolSize { s with opened := s.opened ++ [i] } ∧
      State.Spare { s with opened := s.opened ++ [i] } := by
  have hlength : (s.opened ++ [i]).length = s.opened.length + 1 := List.length_append
  have hspare : State.Spare { s with opened := s.opened ++ [i] } := fun hexit => by
    have := h.ids.given_le hexit
    show s.given + s.timers.count .opening + 1 ≤ (s.opened ++ [i]).length
    omega
  refine ⟨⟨⟨h.ids.nodup, h.ids.lt, h.ids.lt_given, fun hexit =>
    Nat.le_of_succ_le (hspare hexit), ?_, ?_, h.ids.exiting⟩, ⟨h.replies.waits_nodup,
    h.replies.waits, h.replies.running, h.replies.pending⟩, h.own_reply⟩, hspare⟩
  · rw [← List.concat_eq_append]
    exact (List.nodup_concat _ _).mpr ⟨hnew, h.ids.opened_nodup⟩
  · intro a ha
    rcases List.mem_append.mp ha with hold | hi
    · exact h.ids.opened_lt a hold
    · rwa [List.mem_singleton.mp hi]

/-- A reply comes: the handler is that of the command. -/
theorem Inv.message (h : Inv poolSize s) (hrun : s.running = none) {i command : ℕ}
    (hhead : (s.pending i).head? = some command) :
    Inv poolSize (State.message { s with pending := Function.update s.pending i (s.pending i).tail }
      command (s.onmessage i)) := by
  rcases h.replies.pending i with hnone | ⟨c, hpending, hhandler, hheld⟩
  · rw [hnone] at hhead
    exact absurd hhead.symm (Option.some_ne_none command)
  · rw [hpending] at hhead
    obtain rfl : c = command := Option.some.inj hhead
    rw [hhandler, hpending]
    have hwaits : (⟨c, i⟩ : Holder) ∉ s.waits := fun hwait => by
      have hnone := (h.replies.waits _ hwait).2
      rw [hpending] at hnone
      exact absurd hnone (List.cons_ne_nil c [])
    refine ⟨⟨h.ids.nodup, h.ids.lt, ?_, ?_, h.ids.opened_nodup, h.ids.opened_lt, h.ids.exiting⟩,
      ⟨h.replies.waits_nodup, ?_, ?_, ?_⟩, ?_⟩
    · intro hexit sockid hid
      have := h.ids.lt_given hexit sockid hid
      rw [State.given, hrun] at this
      exact this
    · intro hexit
      have := h.ids.given_le hexit
      rw [State.given, hrun] at this
      exact this
    · intro a ha
      obtain ⟨hin, hnone⟩ := h.replies.waits a ha
      refine ⟨hin, ?_⟩
      show Function.update s.pending i [] a.sockid = []
      by_cases hi : a.sockid = i
      · rw [hi, Function.update_self]
      · rw [Function.update_of_ne hi, hnone]
    · intro a ha
      obtain rfl : (⟨c, i⟩ : Holder) = a := by
        injection ha with ha
        injection ha
      exact ⟨hheld, Function.update_self _ _ _, hwaits⟩
    · intro k
      show Function.update s.pending i [] k = [] ∨ ∃ c', Function.update s.pending i [] k = [c'] ∧ _
      by_cases hk : k = i
      · exact Or.inl (by rw [hk, Function.update_self])
      · rw [Function.update_of_ne hk]
        exact h.replies.pending k
    · intro reply hreply
      rcases List.mem_append.mp hreply with hold | hnew
      · exact h.own_reply reply hold
      · rw [List.mem_singleton.mp hnew]

/-- A callback for a reply returns or throws: its requester has nothing more under way. -/
theorem Inv.replied (h : Inv poolSize s) {holder : Holder}
    (hrun : s.running = some (.reply holder)) :
    Inv poolSize { s with running := none } ∧ State.Idle { s with running := none } holder := by
  have hgiven : s.given = s.socketCounter := by
    rw [State.given, hrun]
    rfl
  obtain ⟨hheld, hpending, hwaits⟩ := h.replies.running holder hrun
  refine ⟨⟨⟨h.ids.nodup, h.ids.lt, ?_, ?_, h.ids.opened_nodup, h.ids.opened_lt, h.ids.exiting⟩,
    ⟨h.replies.waits_nodup, h.replies.waits, ?_, h.replies.pending⟩, h.own_reply⟩,
    ⟨hheld, hpending, hwaits, ?_⟩⟩
  · intro hexit sockid hid
    have := h.ids.lt_given hexit sockid hid
    rwa [hgiven] at this
  · intro hexit
    have := h.ids.given_le hexit
    rwa [hgiven] at this
  · exact fun _ hreply => absurd hreply.symm (Option.some_ne_none _)
  · exact (Option.some_ne_none _).symm

/-- `onOpenCallback` returns. -/
theorem Inv.onOpened (h : Inv poolSize s) (hrun : s.running = some .onOpen) :
    Inv poolSize { s with running := none, socketCounter := s.socketCounter + 1 } := by
  have hgiven : s.given = s.socketCounter + 1 := by
    rw [State.given, hrun, if_pos rfl]
  refine ⟨⟨h.ids.nodup, h.ids.lt, ?_, ?_, h.ids.opened_nodup, h.ids.opened_lt, h.ids.exiting⟩,
    ⟨h.replies.waits_nodup, h.replies.waits, ?_, h.replies.pending⟩, h.own_reply⟩
  · intro hexit sockid hid
    have := h.ids.lt_given hexit sockid hid
    rwa [hgiven] at this
  · intro hexit
    have := h.ids.given_le hexit
    rwa [hgiven] at this
  · exact fun _ hreply => absurd hreply.symm (Option.some_ne_none _)

/-- **Every step keeps the invariant.** -/
theorem Inv.step (hsize : 1 ≤ poolSize) (h : Inv poolSize s) {l : Label} {s' : State}
    (hstep : step poolSize s l = some s') : Inv poolSize s' := by
  cases l with
  | opened i ready =>
    obtain ⟨⟨hrun, hlt, hnew⟩, hs'⟩ := Option.ite_none_right_eq_some.mp hstep
    obtain rfl := Option.some.inj hs'
    rw [created, if_pos (Nat.lt_of_succ_le hsize)] at hlt
    obtain ⟨hopened, hspare⟩ := h.addOpened hlt hnew
    exact hopened.waitForOpening hspare hrun ready
  | timer j ready =>
    obtain ⟨hrun, hs'⟩ := Option.ite_none_right_eq_some.mp hstep
    obtain ⟨timer, hj, rfl⟩ := Option.map_eq_some_iff.mp hs'
    exact h.fire hrun hj ready
  | message i =>
    obtain ⟨hrun, hs'⟩ := Option.ite_none_right_eq_some.mp hstep
    obtain ⟨command, hhead, rfl⟩ := Option.map_eq_some_iff.mp hs'
    exact h.message hrun hhead
  | request reads ready =>
    obtain rfl := Option.some.inj hstep
    exact h.request reads ready
  | exit =>
    obtain rfl := Option.some.inj hstep
    exact h.exit
  | clientExit =>
    obtain ⟨-, hs'⟩ := Option.ite_none_right_eq_some.mp hstep
    obtain rfl := Option.some.inj hs'
    have hexit := h.exit
    exact ⟨⟨hexit.ids.nodup, hexit.ids.lt, hexit.ids.lt_given, hexit.ids.given_le,
      hexit.ids.opened_nodup, hexit.ids.opened_lt, hexit.ids.exiting⟩,
      ⟨hexit.replies.waits_nodup, hexit.replies.waits, hexit.replies.running,
        hexit.replies.pending⟩, hexit.own_reply⟩
  | returns =>
    obtain ⟨callback, hrun, rfl⟩ := Option.map_eq_some_iff.mp hstep
    cases callback with
    | onOpen => exact h.onOpened hrun
    | reply holder =>
      obtain ⟨hidle, hholder⟩ := h.replied hrun
      exact hidle.giveBack hholder
  | throws =>
    obtain ⟨callback, hrun, hs'⟩ := Option.bind_eq_some_iff.mp hstep
    obtain ⟨hreply, hs'⟩ := Option.ite_none_left_eq_some.mp hs'
    obtain rfl := Option.some.inj hs'
    cases callback with
    | onOpen => exact absurd rfl hreply
    | reply holder => exact (h.replied hrun).1

end WebSocketPool
end KoheronSdk
