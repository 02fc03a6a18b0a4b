import Mathlib.Data.Fintype.Sum
import KoheronSdk.Client.RemoteCalls
import KoheronSdk.Server.ConcurrentSessions

/-!
# Clients and their server

Clients and the sessions that serve them, side by side.  A client and its session are connected by
a socket, which takes all that is written to it and gives it back in any pieces; the sessions share
the drivers, with their mutexes and structs.  A client runs a program whose next call may depend
on what its calls so far have returned.

## Assumptions

The sockets are stream sockets, TCP or Unix, and they work: every `write()` and `send()` takes all
that it is offered, no call fails or runs into a time limit, and no exit signal is raised
(`Env.taking`).  What becomes of a session where this is not so is known, but it is nothing
that a client could rely on: a reply that is cut off is followed by the next one.  The calls
are well-formed for the drivers, what the operations return can be received, and no message or
container has 2^31 bytes; `Connections` collects this.

## Each side alone

A session is a sequential program on the commands that its client sends, and a client one on the
replies (`Client/RemoteCalls`).  But neither is there as a whole when the other one starts: the
client's next call may depend on the last reply.  So the threads have the views of `Lib/Foresight`,
one for each prophecy of the calls that will be made and the values they will return.  Under a
prophecy both programs see their whole input from the start; a step of the other side only rules
prophecies out.  The invariant (`Inv`) ties what a side has read to what the other one has written.

Threads end, so a configuration in which none can go on is reached, and there each client is done
and has had all its calls executed.

* `network`: the threads, the sockets, and what the sessions share.
* `Accounted`: what may be seen of one connection.
* `foresight`: what each thread sees, when it is known which calls will be made and what they will
  return.
* `remote_calls`: every client gets what its own calls have returned, and at the end all the calls
  of all clients have been executed, once each and in order.
-/

namespace KoheronSdk

open Effects

/-! ## The network -/

/-- A thread of a client, or one of the server. -/
inductive Party (ι : Type) where
  | client (i : ι)
  | session (i : ι)
  deriving DecidableEq

instance {ι : Type} [Fintype ι] : Fintype (Party ι) :=
  .ofEquiv (ι ⊕ ι) ⟨Sum.elim .client .session,
    fun | .client i => .inl i | .session i => .inr i,
    fun | .inl _ => rfl | .inr _ => rfl, fun | .client _ => rfl | .session _ => rfl⟩

/-- The server, and what each client has done and can still read. -/
structure Network (ι : Type) where
  server : ServerWorld ι
  client : ι → View

/-- The bytes that a `write()` has taken. -/
def Action.taken : (e : Action) → Answer e → List UInt8
  | .write _ bytes, (n : ℤ) => bytes.take n.toNat
  | _, _ => []

/-- The bytes that go to the socket of session `id`. -/
def Action.delivered (id : SessionID) : (e : Action) → Answer e → List UInt8
  | .write dest bytes, (n : ℤ) => if dest = id then bytes.take n.toNat else []
  | _, _ => []

/-- More bytes can be read. -/
def View.receive (w : View) (bytes : List UInt8) : View := { w with input := w.input ++ bytes }

section Definitions

variable {ι : Type} [DecidableEq ι]

/-- Session `i` can read more bytes. -/
def ServerWorld.receive (w : ServerWorld ι) (i : ι) (bytes : List UInt8) : ServerWorld ι :=
  { w with input := Function.update w.input i (w.input i ++ bytes) }

namespace Network

/-- A client waits for bytes, a session for bytes and for mutexes. -/
def Enabled (drivers : List Driver) : Party ι → Action → Network ι → Prop
  | .client i, e, w => View.stop drivers e (w.client i) = none
  | .session i, e, w => ServerWorld.Enabled i e w.server

/-- The answers that there are. -/
def ok (drivers : List Driver) : Party ι → (e : Action) → Network ι → Answer e → Prop
  | .client i, e, w, x => (attending drivers).ok e (w.client i) x
  | .session i, e, w, x =>
    ServerWorld.ok drivers i e w.server x ∧ Env.taking.ok e x ∧ e.AnswersSmall x

/-- What one socket takes the other one gives. -/
def next (id : ι → SessionID) : Party ι → (e : Action) → Network ι → Answer e → Network ι
  | .client i, e, w, x =>
    ⟨w.server.receive i (e.taken x), Function.update w.client i (View.next e (w.client i) x)⟩
  | .session i, e, w, x =>
    ⟨ServerWorld.next i e w.server x, fun j => (w.client j).receive (e.delivered (id j) x)⟩

/-- Nothing has been sent yet. -/
def start : Network ι where
  server := ServerWorld.start (fun _ => []) fun _ => .waiting
  client := fun _ => View.start [] .waiting

end Network

/-- The clients and the server. -/
def network (drivers : List Driver) (id : ι → SessionID) :
    System (Party ι) Action Answer (Network ι) where
  enabled := Network.Enabled drivers
  ok := Network.ok drivers
  next := Network.next id

variable {α : Type}

/-- The clients with their threads, and the sessions. -/
def networkStart (arch : Arch) (drivers : List Driver) (sessions : ι → Session) (fuel : ι → ℕ)
    (thread : ι → Program α) : Config (Party ι) Action Answer (Network ι) (ℤ ⊕ α) where
  progs
    | .client i => thread i >>= fun a => pure (.inr a)
    | .session i => (sessions i).run arch drivers (fun s => pure (0, s)) (fuel i) >>= fun n =>
        pure (.inl n)
  world := Network.start

/-- The calls that are made and what they return make a run of the client's program with this
value, and the session has executed the first of them, one after the other. -/
structure Accounted (drivers : List Driver) (id : SessionID)
    (p : Prog ClientCommand (fun _ => RetVal) α) (t : List Event) (xs : List Exchange) (a : α) :
    Prop where
  run : p.Exchanges (xs.map Exchange.received) (.pure a)
  possible : ∀ x ∈ xs, x.Possible drivers
  trace : t <+: served id 0 xs

end Definitions

/-! ## One action -/

section View

variable {drivers : List Driver} {e : Action} {v : View} {F : List UInt8}

/-- The view when it is known what will have been sent. -/
def View.foreseen (v : View) (F : List UInt8) : View := { v with input := F.drop v.consumed }

/-- How many bytes have been read. -/
def Action.got : (e : Action) → Answer e → ℕ
  | .read _, .bytes bs => bs.length
  | _, _ => 0

/-- What is noted of an action. -/
def Action.noted : (e : Action) → View → Answer e → List Event
  | .write dest bytes, _, (n : ℤ) => [.wrote dest bytes n]
  | .received d op, v, _ => [.header d op v.consumed]
  | .call d op names, v, _ => [.call d op (names.map (v.args op)) v.consumed]
  | .ret d op, _, (u : RetVal) => [.ret d op u]
  | _, _, _ => []

theorem View.input_next (e : Action) (v : View) (x : Answer e) :
    (View.next e v x).input = v.input.drop (e.got x) := by
  cases e with
  | read n => cases x <;> rfl
  | _ => rfl

theorem View.consumed_next (e : Action) (v : View) (x : Answer e) :
    (View.next e v x).consumed = v.consumed + e.got x := by
  cases e with
  | read n => cases x <;> rfl
  | _ => rfl

theorem View.ending_next (e : Action) (v : View) (x : Answer e) :
    (View.next e v x).ending = v.ending := by
  cases e with
  | read n => cases x <;> rfl
  | _ => rfl

theorem View.trace_next_eq (e : Action) (v : View) (x : Answer e) :
    (View.next e v x).trace = v.trace ++ e.noted v x := by
  cases e with
  | read n => cases x <;> exact (List.append_nil _).symm
  | write dest bytes => rfl
  | received d op => rfl
  | call d op names => rfl
  | ret d op => rfl
  | _ => exact (List.append_nil _).symm

theorem Action.sentOf_noted (e : Action) (v : View) (x : Answer e) :
    sentOf (e.noted v x) = e.taken x := by
  cases e with
  | write dest bytes => exact List.append_nil _
  | _ => rfl

theorem Action.noted_cases (e : Action) (v : View) (x : Answer e) :
    e.noted v x = [] ∨ ∃ event, e.noted v x = [event] := by
  cases e with
  | write dest bytes => exact Or.inr ⟨_, rfl⟩
  | received d op => exact Or.inr ⟨_, rfl⟩
  | call d op names => exact Or.inr ⟨_, rfl⟩
  | ret d op => exact Or.inr ⟨_, rfl⟩
  | _ => exact Or.inl rfl

/-- No more is read than there is. -/
theorem View.got_le {x : Answer e} (h : View.ok drivers e v x) : e.got x ≤ v.input.length := by
  cases e with
  | read n =>
    cases x with
    | bytes bs => exact h.2.2.length_le
    | zero => exact Nat.zero_le _
    | negative => exact Nat.zero_le _
  | _ => exact Nat.zero_le _

/-- What is delivered has been taken, from a `write()` to this socket. -/
theorem Action.delivered_eq {id : SessionID} (e : Action) (v : View) (x : Answer e)
    (h : ∀ dest bytes n, .wrote dest bytes n ∈ e.noted v x → dest = id) :
    e.delivered id x = e.taken x := by
  cases e with
  | write dest bytes => exact if_pos (h dest bytes x (List.mem_singleton_self _))
  | _ => rfl

/-- Nothing is delivered to another socket. -/
theorem Action.delivered_eq_nil {id id' : SessionID} (e : Action) (v : View) (x : Answer e)
    (h : ∀ dest bytes n, .wrote dest bytes n ∈ e.noted v x → dest = id) (hne : id' ≠ id) :
    e.delivered id' x = [] := by
  cases e with
  | write dest bytes =>
    refine if_neg fun hdest => hne ?_
    rw [← hdest, h dest bytes x (List.mem_singleton_self _)]
  | _ => rfl

theorem View.foreseen_next (e : Action) (v : View) (F : List UInt8) (x : Answer e) :
    View.next e (v.foreseen F) x = (View.next e v x).foreseen F := by
  cases e with
  | read n =>
    cases x with
    | bytes bs =>
      simp only [View.next, View.advance, View.foreseen, List.drop_drop]
    | zero => rfl
    | negative => rfl
  | _ => rfl

/-- Nothing but a `read()` looks at what there is to read. -/
theorem View.stop_foreseen (hin : v.input <+: F.drop v.consumed)
    (h : View.stop drivers e v = none) : View.stop drivers e (v.foreseen F) = none := by
  cases e with
  | read n =>
    refine if_neg fun hblocked => ?_
    have hnil : v.input = [] := by
      rw [show F.drop v.consumed = [] from hblocked.2.1] at hin
      exact List.prefix_nil.mp hin
    rw [View.stop, if_pos ⟨hblocked.1, hnil, hblocked.2.2⟩] at h
    cases h
  | _ => exact h

theorem View.stop_eq_blocked (h : View.stop drivers e v = some .blocked) :
    ∃ n, e = .read n ∧ 0 < n ∧ v.input = [] ∧ v.ending = .waiting := by
  have hundefined : ∀ {c : Prop} [Decidable c] {fault : Fault},
      (if c then none else some (Stop.undefined fault)) ≠ some .blocked := by
    intro c _ fault
    split <;> exact fun h => by cases h
  cases e with
  | read n =>
    rw [View.stop] at h
    split at h
    · rename_i hblocked
      exact ⟨n, rfl, hblocked⟩
    · cases h
  | isStarted i => exact absurd h hundefined
  | device i => exact absurd h hundefined
  | lock d => exact absurd h hundefined
  | unlock d => exact absurd h hundefined
  | store d op name u => exact absurd h hundefined
  | call d op names => exact absurd h hundefined
  | ret d op => exact absurd h hundefined
  | _ => cases h

/-- The answers that there are can be foreseen. -/
theorem View.ok_foreseen (hin : v.input <+: F.drop v.consumed) (hwaiting : v.ending = .waiting)
    {x : Answer e} (h : View.ok drivers e v x) : View.ok drivers e (v.foreseen F) x := by
  cases e with
  | read n =>
    cases x with
    | bytes bs => exact ⟨h.1, h.2.1, h.2.2.trans hin⟩
    | zero =>
      rcases h with h | h
      · exact Or.inl h
      · rw [hwaiting] at h
        cases h.2
    | negative =>
      rw [View.ok, hwaiting] at h
      cases h.2.2
  | _ => exact h

end View

/-! ## What each thread sees -/

/-- The sessions are open, on stream sockets of their own, and go on for long enough; what the
operations return can be received, and the programs of the clients make no other calls than such
as they may. -/
structure Connections {ι α : Type} (drivers : List Driver) (sessions : ι → Session)
    (fuel : ι → ℕ) (opTable : ι → Option OpDetail.OpTable)
    (p : ι → Prog ClientCommand (fun _ => RetVal) α) : Prop where
  stream : ∀ i, (sessions i).type ≠ .websock
  opened : ∀ i, (sessions i).closed = false
  distinct : Function.Injective fun i => (sessions i).id
  receivable : Receivable drivers
  callable : ∀ i, (p i).Only (Callable drivers (opTable i))
  fuel : ∀ i (xs : List Exchange) (a : α), (p i).Exchanges (xs.map Exchange.received) (.pure a) →
    xs.length < fuel i

/-- The calls are such as the client may make. -/
theorem Accounted.callable {α : Type} {drivers : List Driver} {id : SessionID}
    {p : Prog ClientCommand (fun _ => RetVal) α} {table : Option OpDetail.OpTable}
    {t : List Event} {xs : List Exchange} {a : α} (h : Accounted drivers id p t xs a)
    (hp : p.Only (Callable drivers table)) : ∀ x ∈ xs, Callable drivers table x.1 := fun x hx =>
  (h.run.only hp).1 x.received (List.mem_map_of_mem hx)

/-- A session that has done less has done it for the same calls. -/
theorem Accounted.mono {α : Type} {drivers : List Driver} {id : SessionID}
    {p : Prog ClientCommand (fun _ => RetVal) α} {t t' : List Event} {xs : List Exchange} {a : α}
    (h : Accounted drivers id p t xs a) (ht : t' <+: t) : Accounted drivers id p t' xs a :=
  ⟨h.run, h.possible, ht.trans h.trace⟩

/-- A client can receive `r` for the command `c`. -/
def CanReceive (drivers : List Driver) (c : ClientCommand) (r : RetVal) : Prop :=
  ∃ u, r = RetVal.received u ∧ Exchange.Possible drivers ⟨c, u⟩

theorem exists_canReceive {drivers : List Driver} (h : Receivable drivers) (c : ClientCommand) :
    ∃ r, CanReceive drivers c r := by
  obtain ⟨u, hu⟩ := exists_small_returns h c.driver.toNat c.operation.toNat
  exact ⟨u.received, u, rfl, hu⟩

/-- Values that are received in the end have been returned. -/
theorem exists_map_received {drivers : List Driver} {zs : List Exchange}
    (h : ∀ z ∈ zs, CanReceive drivers z.1 z.2) :
    ∃ xs : List Exchange, xs.map Exchange.received = zs ∧ ∀ x ∈ xs, x.Possible drivers := by
  induction zs with
  | nil => exact ⟨[], rfl, fun x hx => (List.not_mem_nil hx).elim⟩
  | cons z zs ih =>
    obtain ⟨⟨u, hu, hz⟩, hzs⟩ := List.forall_mem_cons.mp h
    obtain ⟨xs, rfl, hxs⟩ := ih hzs
    refine ⟨⟨z.1, u⟩ :: xs, ?_, List.forall_mem_cons.mpr ⟨hz, hxs⟩⟩
    rw [List.map_cons, Exchange.received, ← hu]

theorem sentOf_prefix {t t' : List Event} (h : t <+: t') : sentOf t <+: sentOf t' := by
  obtain ⟨u, rfl⟩ := h
  rw [sentOf_append]
  exact List.prefix_append _ _

/-- What a client sends are the commands. -/
theorem sentOf_callsMade (xs : List Exchange) :
    sentOf (callsMade (xs.map Sigma.fst)) = commandStream xs := by
  induction xs with
  | nil => rfl
  | cons x xs ih =>
    have htake : x.1.message.bytes.take ((x.1.message.bytes.length : ℤ).toNat)
        = x.1.message.bytes := by
      rw [Int.toNat_natCast, List.take_length]
    rw [commandStream_cons, ← ih]
    change x.1.message.bytes.take ((x.1.message.bytes.length : ℤ).toNat) ++ _ = _
    rw [htake]
    rfl

namespace Network

variable {ι α : Type} [DecidableEq ι]

section Views

variable (drivers : List Driver) (sessions : ι → Session) (fuel : ι → ℕ)
  (p : ι → Prog ClientCommand (fun _ => RetVal) α)

/-- What a thread sees when it is known which calls will be made, and for a client what they will
return. -/
def Sees : Party ι → List Exchange → Network ι → View → Prop
  | .client i, xs, w, v => (∃ q, (p i).Exchanges (xs.map Exchange.received) q) ∧
      (∀ x ∈ xs, x.Possible drivers) ∧
      w.server.trace i <+: served (sessions i).id 0 xs ∧
      v = (w.client i).foreseen (exchangeReplies xs)
  | .session i, xs, w, v => (∀ x ∈ xs, x.1.WellFormed drivers) ∧ xs.length < fuel i ∧
      sentOf (w.client i).trace <+: commandStream xs ∧
      v = (w.server.view i).foreseen (commandStream xs)

/-- How a thread ends. -/
def Post : Party ι → List Exchange → Result Stop View (ℤ ⊕ α) → Prop
  | .client i, xs, r => ∀ q, (p i).Exchanges (xs.map Exchange.received) q →
      Called Sum.inr xs q (View.start [] .waiting) r
  | .session i, xs, r => Attended (sessions i).id (xs.map Sigma.fst) drivers
      (View.start [] .waiting) r.world r.stop?

/-- The two ends of a socket, and what has been done on it. -/
structure Connected (w : Network ι) (i : ι) : Prop where
  arrived : w.server.input i = (sentOf (w.client i).trace).drop (w.server.consumed i)
  consumed : w.server.consumed i ≤ (sentOf (w.client i).trace).length
  serverWaits : w.server.ending i = .waiting
  replied : (w.client i).input = (sentOf (w.server.trace i)).drop (w.client i).consumed
  got : (w.client i).consumed ≤ (sentOf (w.server.trace i)).length
  clientWaits : (w.client i).ending = .waiting
  possible : ∃ xs a, Accounted drivers (sessions i).id (p i) (w.server.trace i) xs a
  made : ∀ xs a, Accounted drivers (sessions i).id (p i) (w.server.trace i) xs a →
    (w.client i).trace <+: callsMade (xs.map Sigma.fst)

/-- No session holds two mutexes, and the sockets are in order. -/
structure Inv (w : Network ι) : Prop where
  single : w.server.Single
  connected : ∀ i, Connected drivers sessions p w i

end Views

variable {drivers : List Driver} {sessions : ι → Session} {fuel : ι → ℕ}
  {opTable : ι → Option OpDetail.OpTable} {p : ι → Prog ClientCommand (fun _ => RetVal) α}
  {w : Network ι} {i j : ι} {e : Action} {v : View} {xs : List Exchange} {a : α}

/-- A connection on which nothing has happened. -/
theorem Connected.congr {w' : Network ι} (h : Connected drivers sessions p w i)
    (hview : w'.server.view i = w.server.view i) (hclient : w'.client i = w.client i) :
    Connected drivers sessions p w' i := by
  have hinput : w'.server.input i = w.server.input i := congrArg View.input hview
  have hconsumed : w'.server.consumed i = w.server.consumed i := congrArg View.consumed hview
  have hending : w'.server.ending i = w.server.ending i := congrArg View.ending hview
  have htrace : w'.server.trace i = w.server.trace i := congrArg View.trace hview
  constructor
  · rw [hinput, hclient, hconsumed, h.arrived]
  · rw [hconsumed, hclient]
    exact h.consumed
  · rw [hending, h.serverWaits]
  · rw [hclient, htrace, h.replied]
  · rw [hclient, htrace]
    exact h.got
  · rw [hclient, h.clientWaits]
  · rw [htrace]
    exact h.possible
  · rw [htrace, hclient]
    exact h.made

/-! ### What is read has been foreseen -/

theorem Connected.client_input (h : Connected drivers sessions p w i)
    (htrace : w.server.trace i <+: served (sessions i).id 0 xs) :
    (w.client i).input <+: (exchangeReplies xs).drop (w.client i).consumed := by
  rw [h.replied, ← sentOf_served]
  obtain ⟨u, hu⟩ := sentOf_prefix htrace
  rw [← hu, List.drop_append]
  exact List.prefix_append _ _

theorem Connected.session_input (h : Connected drivers sessions p w i)
    (hsent : sentOf (w.client i).trace <+: commandStream xs) :
    (w.server.view i).input <+: (commandStream xs).drop (w.server.view i).consumed := by
  change w.server.input i <+: (commandStream xs).drop (w.server.consumed i)
  obtain ⟨u, hu⟩ := hsent
  rw [h.arrived, ← hu, List.drop_append]
  exact List.prefix_append _ _

/-- In the view of its session an action goes on if it does when more has been sent. -/
theorem stop_view (henabled : ServerWorld.Enabled i e w.server) {F : List UInt8}
    (hstop : View.stop drivers e ((w.server.view i).foreseen F) = none) :
    View.stop drivers e (w.server.view i) = none := by
  cases e with
  | read n => exact if_neg henabled
  | _ => exact hstop

/-- A thread knows of itself what a run in its view would come to. -/
def Known (drivers : List Driver) (sessions : ι → Session)
    (p : ι → Prog ClientCommand (fun _ => RetVal) α) (i : Party ι) (xs : List Exchange)
    (v : View) : Prop :=
  ∃ r, Post drivers sessions p i xs r ∧ v.trace <+: r.world.trace

/-- An action goes on in all that its thread sees, which then is known to it. -/
abbrev Informed (drivers : List Driver) (sessions : ι → Session) (fuel : ι → ℕ)
    (p : ι → Prog ClientCommand (fun _ => RetVal) α) (i : Party ι) (e : Action) (w : Network ι)
    (x : Answer e) : Prop :=
  ∀ xs v, Sees drivers sessions fuel p i xs w v →
    (attending drivers).stop e v = none ∧
      Known drivers sessions p i xs ((attending drivers).next e v x)

omit [DecidableEq ι] in
theorem known (hreceivable : Receivable drivers) {i : Party ι} {v : View}
    {q : Program (ℤ ⊕ α)} (h : (attending drivers).wp q (Post drivers sessions p i xs) v) :
    Known drivers sessions p i xs v := by
  have htrace : (attending drivers).wp q (fun r => v.trace <+: r.world.trace) v :=
    Handler.wp_restrict (I := fun _ => True) (fun _ _ _ _ _ => trivial) trivial
      ((session drivers .taking).wp_mono (fun r hr _ => hr) (wp_trace q v))
  exact (attending drivers).exists_of_wp (attending_live hreceivable)
    ((attending drivers).wp_and h htrace)

section Connections

variable (h : Connections drivers sessions fuel opTable p) (hw : Inv drivers sessions p w)

include h hw in
/-- A session sees the calls that its client may be going to make. -/
theorem sees_session {xs : List Exchange} {a : α}
    (hxs : Accounted drivers (sessions i).id (p i) (w.server.trace i) xs a) :
    Sees drivers sessions fuel p (.session i) xs w
      ((w.server.view i).foreseen (commandStream xs)) := by
  refine ⟨fun x hx => (hxs.callable (h.callable i) x hx).1, ?_, ?_, rfl⟩
  · exact h.fuel i xs a hxs.run
  · rw [← sentOf_callsMade]
    exact sentOf_prefix ((hw.connected i).made xs a hxs)

include hw in
theorem goes {i : Party ι} {s : Stop} (henabled : Enabled drivers i e w)
    (hsees : Sees drivers sessions fuel p i xs w v)
    (hstop : (attending drivers).stop e v = some s) :
    ¬ Post drivers sessions p i xs (.halt s v) := by
  cases i with
  | client i =>
    obtain ⟨-, -, htrace, rfl⟩ := hsees
    have hgoes := View.stop_foreseen ((hw.connected i).client_input htrace) henabled
    cases hgoes.symm.trans hstop
  | session i =>
    obtain ⟨-, -, hsent, rfl⟩ := hsees
    rintro ⟨hblocked, -⟩
    obtain rfl : s = .blocked := Option.some.inj hblocked
    obtain ⟨n, rfl, hn, hnil, -⟩ := View.stop_eq_blocked hstop
    have hin := (hw.connected i).session_input hsent
    rw [show (commandStream xs).drop (w.server.view i).consumed = [] from hnil] at hin
    exact henabled ⟨hn, List.prefix_nil.mp hin, (hw.connected i).serverWaits⟩

include hw in
theorem ok_sees {i : Party ι} (hsees : Sees drivers sessions fuel p i xs w v) {x : Answer e}
    (hok : ok drivers i e w x) : (attending drivers).ok e v x := by
  cases i with
  | client i =>
    obtain ⟨-, -, htrace, rfl⟩ := hsees
    exact ⟨⟨View.ok_foreseen ((hw.connected i).client_input htrace) (hw.connected i).clientWaits
      hok.1.1, hok.1.2⟩, hok.2⟩
  | session i =>
    obtain ⟨-, -, hsent, rfl⟩ := hsees
    exact ⟨⟨View.ok_foreseen ((hw.connected i).session_input hsent) (hw.connected i).serverWaits
      (ServerWorld.sees hok.1).1, hok.2.1⟩, hok.2.2⟩

include hw in
theorem moves {i : Party ι} {x : Answer e} {v' : View} (henabled : Enabled drivers i e w)
    (hok : ok drivers i e w x) (hinformed : Informed drivers sessions fuel p i e w x)
    (hsees : Sees drivers sessions fuel p i xs (next (fun i => (sessions i).id) i e w x) v') :
    ∃ v, Sees drivers sessions fuel p i xs w v ∧ (attending drivers).next e v x = v' := by
  cases i with
  | client i =>
    obtain ⟨hq, hxs, htrace, rfl⟩ := hsees
    refine ⟨_, ⟨hq, hxs, htrace, rfl⟩, ?_⟩
    change View.next e ((w.client i).foreseen _) x
      = (Function.update w.client i (View.next e (w.client i) x) i).foreseen _
    rw [Function.update_self, View.foreseen_next]
  | session i =>
    obtain ⟨hwf, hlen, hsent, rfl⟩ := hsees
    refine ⟨_, ⟨hwf, hlen, hsent, rfl⟩, ?_⟩
    have hstop := (hinformed xs _ ⟨hwf, hlen, hsent, rfl⟩).1
    change View.next e ((w.server.view i).foreseen _) x
      = ((ServerWorld.next i e w.server x).view i).foreseen _
    rw [View.foreseen_next, ServerWorld.view_next_self hw.single (stop_view henabled hstop) hok.1]

include h hw in
/-- What is known of a session's step, when its client makes these calls. -/
theorem session_informed {x : Answer e} (henabled : ServerWorld.Enabled i e w.server)
    (hinformed : Informed drivers sessions fuel p (.session i) e w x) {xs : List Exchange} {a : α}
    (hxs : Accounted drivers (sessions i).id (p i) (w.server.trace i) xs a) :
    View.stop drivers e (w.server.view i) = none ∧ ∃ ys : List Exchange,
      ys.map Sigma.fst = xs.map Sigma.fst ∧ (∀ y ∈ ys, y.Possible drivers) ∧
        w.server.trace i ++ e.noted (w.server.view i) x <+: served (sessions i).id 0 ys := by
  obtain ⟨hstop, r, ⟨-, -, ys, hys, hpossible, htrace⟩, hknown⟩ :=
    hinformed xs _ (sees_session h hw hxs)
  refine ⟨stop_view henabled hstop, ys, hys, hpossible, ?_⟩
  have hall : r.world.trace = served (sessions i).id 0 ys := htrace
  rw [← hall]
  change (View.next e ((w.server.view i).foreseen _) x).trace <+: _ at hknown
  rw [View.foreseen_next] at hknown
  change (View.next e (w.server.view i) x).trace <+: _ at hknown
  rwa [View.trace_next_eq] at hknown

include h hw in
/-- What a session's step does to its view, and to that of another one. -/
theorem session_view {x : Answer e} (henabled : ServerWorld.Enabled i e w.server)
    (hok : ServerWorld.ok drivers i e w.server x)
    (hinformed : Informed drivers sessions fuel p (.session i) e w x) :
    (ServerWorld.next i e w.server x).view i = View.next e (w.server.view i) x ∧
      ∀ j, j ≠ i → (ServerWorld.next i e w.server x).view j = w.server.view j := by
  obtain ⟨xs, a, hxs⟩ := (hw.connected i).possible
  have hstop := (session_informed h hw henabled hinformed hxs).1
  exact ⟨ServerWorld.view_next_self hw.single hstop hok,
    fun j hj => ServerWorld.view_next_of_ne hw.single henabled hstop hj⟩

include h hw in
theorem stays {i j : Party ι} {x : Answer e} (henabled : Enabled drivers i e w)
    (hok : ok drivers i e w x) (hinformed : Informed drivers sessions fuel p i e w x)
    (hji : j ≠ i)
    (hsees : Sees drivers sessions fuel p j xs (next (fun i => (sessions i).id) i e w x) v) :
    Sees drivers sessions fuel p j xs w v := by
  cases i with
  | client i =>
    cases j with
    | client j =>
      have hne : j ≠ i := fun heq => hji (congrArg Party.client heq)
      obtain ⟨hq, hxs, htrace, rfl⟩ := hsees
      refine ⟨hq, hxs, htrace, ?_⟩
      change (Function.update w.client i _ j).foreseen _ = _
      rw [Function.update_of_ne hne]
    | session j =>
      obtain ⟨hwf, hlen, hsent, rfl⟩ := hsees
      refine ⟨hwf, hlen, List.IsPrefix.trans ?_ hsent, rfl⟩
      change sentOf (w.client j).trace <+: sentOf (Function.update w.client i _ j).trace
      by_cases hne : j = i
      · subst hne
        rw [Function.update_self, View.trace_next_eq]
        exact sentOf_prefix (List.prefix_append _ _)
      · rw [Function.update_of_ne hne]
  | session i =>
    obtain ⟨hself, hother⟩ := session_view h hw henabled hok.1 hinformed
    cases j with
    | client j =>
      obtain ⟨hq, hxs, htrace, rfl⟩ := hsees
      refine ⟨hq, hxs, List.IsPrefix.trans ?_ htrace, rfl⟩
      change (w.server.view j).trace <+: ((ServerWorld.next i e w.server x).view j).trace
      by_cases hne : j = i
      · subst hne
        rw [hself, View.trace_next_eq]
        exact List.prefix_append _ _
      · rw [hother j hne]
    | session j =>
      have hne : j ≠ i := fun heq => hji (congrArg Party.session heq)
      obtain ⟨hwf, hlen, hsent, rfl⟩ := hsees
      refine ⟨hwf, hlen, hsent, ?_⟩
      change ((ServerWorld.next i e w.server x).view j).foreseen _ = _
      rw [hother j hne]

include hw in
/-- **A step of a client** makes no call but the next one of its program. -/
theorem keeps_client {x : Answer e} (hok : ok drivers (.client i) e w x)
    (hinformed : Informed drivers sessions fuel p (.client i) e w x) :
    Inv drivers sessions p (next (fun i => (sessions i).id) (.client i) e w x) := by
  refine ⟨hw.single, fun j => ?_⟩
  have hj := hw.connected j
  by_cases hne : j = i
  · subst hne
    have hclient : (next (fun i => (sessions i).id) (.client j) e w x).client j
        = View.next e (w.client j) x := Function.update_self _ _ _
    have hinput : (next (fun i => (sessions i).id) (.client j) e w x).server.input j
        = w.server.input j ++ e.taken x := Function.update_self _ _ _
    refine ⟨?_, ?_, hj.serverWaits, ?_, ?_, ?_, hj.possible, fun xs a hxs => ?_⟩
    · rw [hclient, hinput, hj.arrived, View.trace_next_eq, sentOf_append, Action.sentOf_noted]
      exact (List.drop_append_of_le_length hj.consumed).symm
    · rw [hclient, View.trace_next_eq, sentOf_append, List.length_append]
      exact hj.consumed.trans (Nat.le_add_right _ _)
    · rw [hclient, View.input_next, View.consumed_next, hj.replied, List.drop_drop]
      rfl
    · have hgot := View.got_le hok.1.1
      have hle := hj.got
      rw [hj.replied, List.length_drop] at hgot
      rw [hclient, View.consumed_next]
      change (w.client j).consumed + e.got x ≤ (sentOf (w.server.trace j)).length
      omega
    · rw [hclient, View.ending_next, hj.clientWaits]
    · obtain ⟨-, r, hpost, hknown⟩ := hinformed xs _
        ⟨⟨_, hxs.run⟩, hxs.possible, hxs.trace, rfl⟩
      obtain ⟨w', rfl, htrace⟩ := hpost _ hxs.run
      have hall : w'.trace = callsMade (xs.map Sigma.fst) := htrace
      change (View.next e ((w.client j).foreseen _) x).trace <+: w'.trace at hknown
      rw [View.foreseen_next, hall] at hknown
      rw [hclient]
      exact hknown
  · refine hj.congr ?_ (Function.update_of_ne hne _ _)
    change (w.server.receive i _).view j = w.server.view j
    simp only [ServerWorld.view, ServerWorld.receive, Function.update_of_ne hne]
    rfl

omit [DecidableEq ι] in
include h in
/-- A program that is answered otherwise goes on somehow. -/
theorem exists_accounted {t : List Event} {before behind : List Exchange} {x : Exchange}
    (hxs : Accounted drivers (sessions i).id (p i) t (before ++ x :: behind) a) {v : RetVal}
    (hv : Exchange.Possible drivers ⟨x.1, v⟩) {t' : List Event}
    (ht' : t' <+: served (sessions i).id 0 (before ++ [⟨x.1, v⟩])) :
    ∃ ys b, Accounted drivers (sessions i).id (p i) t' ys b := by
  have hrun := hxs.run
  rw [List.map_append, List.map_cons] at hrun
  obtain ⟨zs, b, hzs, hall⟩ := hrun.otherwise (y := v.received)
    (fun c _ => exists_canReceive h.receivable c) (h.callable i)
  obtain ⟨zs, rfl, hpossible⟩ := exists_map_received hall
  refine ⟨before ++ ⟨x.1, v⟩ :: zs, b, ?_, ?_, ?_⟩
  · rw [List.map_append, List.map_cons]
    exact hzs
  · intro y hy
    rcases List.mem_append.mp hy with hy | hy
    · exact hxs.possible y (List.mem_append_left _ hy)
    · rcases List.mem_cons.mp hy with rfl | hy
      · exact hv
      · exact hpossible y hy
  · rw [← List.singleton_append, ← List.append_assoc]
    exact ht'.trans served_prefix

include h hw in
/-- **A step of a session** executes no call but the next one. -/
theorem keeps_session {x : Answer e} (henabled : ServerWorld.Enabled i e w.server)
    (hok : ok drivers (.session i) e w x)
    (hinformed : Informed drivers sessions fuel p (.session i) e w x) :
    Inv drivers sessions p (next (fun i => (sessions i).id) (.session i) e w x) := by
  obtain ⟨xs, a, hxs⟩ := (hw.connected i).possible
  obtain ⟨hstop, ys, hys, hpossible, htrace⟩ := session_informed h hw henabled hinformed hxs
  obtain ⟨hself, hother⟩ := session_view h hw henabled hok.1 hinformed
  have hdest : ∀ dest bytes n, .wrote dest bytes n ∈ e.noted (w.server.view i) x →
      dest = (sessions i).id := fun dest bytes n hmem =>
    dest_of_mem_served (htrace.subset (List.mem_append_right _ hmem))
  refine ⟨hw.single.next hstop x, fun j => ?_⟩
  have hj := hw.connected j
  by_cases hne : j = i
  · subst hne
    have hinput : (ServerWorld.next j e w.server x).input j
        = (w.server.input j).drop (e.got x) :=
      (congrArg View.input hself).trans (View.input_next e (w.server.view j) x)
    have hconsumed : (ServerWorld.next j e w.server x).consumed j
        = w.server.consumed j + e.got x :=
      (congrArg View.consumed hself).trans (View.consumed_next e (w.server.view j) x)
    have hending : (ServerWorld.next j e w.server x).ending j = w.server.ending j :=
      (congrArg View.ending hself).trans (View.ending_next e (w.server.view j) x)
    have hgrown : (ServerWorld.next j e w.server x).trace j
        = w.server.trace j ++ e.noted (w.server.view j) x :=
      (congrArg View.trace hself).trans (View.trace_next_eq e (w.server.view j) x)
    refine ⟨?_, ?_, ?_, ?_, ?_, hj.clientWaits, ?_, fun xs a hxs => ?_⟩
    · change (ServerWorld.next j e w.server x).input j
        = (sentOf (w.client j).trace).drop ((ServerWorld.next j e w.server x).consumed j)
      rw [hinput, hconsumed, hj.arrived, List.drop_drop]
    · have hgot := View.got_le (ServerWorld.sees hok.1).1
      have hle := hj.consumed
      change e.got x ≤ (w.server.input j).length at hgot
      rw [hj.arrived, List.length_drop] at hgot
      change (ServerWorld.next j e w.server x).consumed j ≤ (sentOf (w.client j).trace).length
      rw [hconsumed]
      omega
    · exact hending.trans hj.serverWaits
    · change (w.client j).input ++ e.delivered (sessions j).id x
        = (sentOf ((ServerWorld.next j e w.server x).trace j)).drop (w.client j).consumed
      rw [hgrown, sentOf_append, Action.sentOf_noted, e.delivered_eq (w.server.view j) x hdest,
        hj.replied, List.drop_append_of_le_length hj.got]
    · change (w.client j).consumed ≤ (sentOf ((ServerWorld.next j e w.server x).trace j)).length
      rw [hgrown, sentOf_append, List.length_append]
      exact hj.got.trans (Nat.le_add_right _ _)
    · change ∃ xs a, Accounted drivers (sessions j).id (p j)
        ((ServerWorld.next j e w.server x).trace j) xs a
      rw [hgrown]
      rcases e.noted_cases (w.server.view j) x with hnone | ⟨event, hevent⟩
      · rw [hnone, List.append_nil]
        exact ⟨xs, a, hxs⟩
      · rw [hevent] at htrace ⊢
        rcases served_branch hys.symm hxs.trace htrace with hsame |
          ⟨before, y, behind, v, rfl, hv, hbranch⟩
        · exact ⟨xs, a, hxs.run, hxs.possible, hsame⟩
        · exact exists_accounted h hxs (hpossible _ hv) hbranch
    · refine hj.made xs a (hxs.mono ?_)
      change w.server.trace j <+: (ServerWorld.next j e w.server x).trace j
      rw [hgrown]
      exact List.prefix_append _ _
  · refine hj.congr (hother j hne) ?_
    change (w.client j).receive (e.delivered (sessions j).id x) = w.client j
    rw [e.delivered_eq_nil (w.server.view i) x hdest fun hid => hne (h.distinct hid),
      View.receive, List.append_nil]

end Connections

/-! ## The foresight -/

/-- What holds of the network for every prophecy. -/
def foresight (h : Connections drivers sessions fuel opTable p) :
    Foresight (network drivers fun i => (sessions i).id) View Stop (List Exchange) (ℤ ⊕ α) where
  handler _ := attending drivers
  inv := Inv drivers sessions p
  Sees := Sees drivers sessions fuel p
  post := Post drivers sessions p
  Known := Known drivers sessions p
  known := known h.receivable
  goes hw henabled hsees := goes hw henabled hsees
  ok hw _ hsees _ hok := ok_sees hw hsees hok
  keeps {i _ _ _} hw henabled hok hinformed := by
    cases i with
    | client i => exact keeps_client hw hok hinformed
    | session i => exact keeps_session h hw henabled hok hinformed
  moves hw henabled hok hinformed hsees := moves hw henabled hok hinformed hsees
  stays hw henabled hok hinformed hji hsees := stays h hw henabled hok hinformed hji hsees

omit [DecidableEq ι] in
/-- A session that has come to the end of its commands has nothing more to do. -/
theorem wp_session (h : Connections drivers sessions fuel opTable p) (arch : Arch)
    (hxs : ∀ x ∈ xs, x.1.WellFormed drivers) (hlen : xs.length < fuel i) :
    (attending drivers).wp
      ((sessions i).run arch drivers (fun s => pure (0, s)) (fuel i) >>= fun n => pure (.inl n))
      (Post drivers sessions p (.session i) xs) (View.start (commandStream xs) .waiting) := by
  have hcs : ∀ c ∈ xs.map Sigma.fst, c.WellFormed drivers := by
    intro c hc
    obtain ⟨x, hx, rfl⟩ := List.mem_map.mp hc
    exact hxs x hx
  have hin : (View.start (commandStream xs) .waiting).input
      = streamOf ((xs.map Sigma.fst).map ClientCommand.message) := by
    rw [List.map_map]
    rfl
  refine (attending drivers).wp_bind_intro ((attending drivers).wp_mono ?_
    (wp_run_exchanges (h.stream i) (h.opened i) hcs (by rwa [List.length_map]) ⟨rfl, rfl, rfl⟩
      (fun driver operation v hv => (List.not_mem_nil hv).elim) hin rfl))
  rintro (⟨n, w⟩ | ⟨s, w⟩) hr
  · cases hr.1
  · exact hr

/-- **At the start** everything is still to come. -/
theorem holds_start (h : Connections drivers sessions fuel opTable p) {thread : ι → Program α}
    (hthread : ∀ i, Realizes drivers (thread i) (p i)) (arch : Arch) :
    (foresight h).Holds (networkStart arch drivers sessions fuel thread) := by
  have hinv : Inv drivers sessions p (start : Network ι) := by
    refine ⟨fun i d d' hd => (by cases hd), fun i => ?_⟩
    refine ⟨rfl, Nat.zero_le _, rfl, rfl, Nat.zero_le _, rfl, ?_, fun xs a _ => List.nil_prefix⟩
    obtain ⟨zs, a, hrun, hall⟩ := Prog.exists_exchanges
      (fun c _ => exists_canReceive h.receivable c) (h.callable i)
    obtain ⟨xs, rfl, hxs⟩ := exists_map_received hall
    exact ⟨xs, a, hrun, hxs, List.nil_prefix⟩
  refine ⟨hinv, fun i xs v hsees => ?_⟩
  cases i with
  | client i =>
    obtain ⟨⟨q, hq⟩, hxs, -, rfl⟩ := hsees
    refine Handler.wp_restrict (I := fun _ => True) (fun _ _ _ _ _ => trivial) trivial ?_
    refine (session drivers .taking).wp_mono (fun r hr _ q' hq' => ?_)
      ((hthread i).wp hq hxs rfl Sum.inr)
    obtain rfl := hq.unique hq'
    exact hr
  | session i =>
    obtain ⟨hxs, hlen, -, rfl⟩ := hsees
    change (attending drivers).wp _ _ (((ServerWorld.start (fun _ => []) fun _ => .waiting).view
      i).foreseen (commandStream xs))
    rw [ServerWorld.view_start]
    exact wp_session h arch hxs hlen

/-! ## Where no thread can go on -/

section Terminal

variable {c : Config (Party ι) Action Answer (Network ι) (ℤ ⊕ α)}

omit [DecidableEq ι] in
/-- No enabled action is without an answer. -/
theorem exists_ok (hreceivable : Receivable drivers) {i : Party ι}
    (henabled : Enabled drivers i e w) : ∃ x, ok drivers i e w x := by
  cases i with
  | client i => exact attending_live hreceivable e (w.client i) henabled
  | session i =>
    cases e with
    | read n =>
      have hstop : (attending drivers).stop (.read n)
          (View.start (w.server.input i) (w.server.ending i)) = none := if_neg henabled
      obtain ⟨x, hx⟩ := attending_live hreceivable _ _ hstop
      exact ⟨x, hx.1.1, trivial, trivial⟩
    | write dest bytes =>
      exact ⟨(bytes.length : ℤ), ⟨by omega, le_refl _⟩, rfl, trivial⟩
    | exitSignal => exact ⟨false, trivial, rfl, trivial⟩
    | uninit => exact ⟨fun _ => UInt8.ofNat 0, trivial, trivial, trivial⟩
    | isStarted i => exact ⟨false, trivial, trivial, trivial⟩
    | device i => exact ⟨i + firstDriverId, rfl, trivial, trivial⟩
    | lock d => exact ⟨w.server.args d, rfl, trivial, trivial⟩
    | ret d op =>
      obtain ⟨v, hv, hsmall⟩ := exists_small_returns hreceivable d op
      exact ⟨v, hv, trivial, hsmall⟩
    | _ => exact ⟨(), trivial, trivial, trivial⟩

/-- Where no thread can go on the next action of each of them is disabled. -/
theorem not_enabled (hreceivable : Receivable drivers)
    (hterminal : ∀ c', ¬ (network drivers fun i => (sessions i).id).Step c c') {i : Party ι}
    {k : Answer e → Program (ℤ ⊕ α)} (hprog : c.progs i = .act e k) :
    ¬ Enabled drivers i e c.world := by
  intro henabled
  obtain ⟨x, hx⟩ := exists_ok hreceivable henabled
  exact hterminal _ (.act hprog henabled hx)

variable (h : Connections drivers sessions fuel opTable p) (hc : (foresight h).Holds c)
  (hterminal : ∀ c', ¬ (network drivers fun i => (sessions i).id).Step c c')

include hc in
/-- A client that has come to its end has the value of its run. -/
theorem value_eq {xs : List Exchange} {a : α} {b : ℤ ⊕ α}
    (hxs : Accounted drivers (sessions i).id (p i) (c.world.server.trace i) xs a)
    (hprog : c.progs (.client i) = .pure b) : b = .inr a := by
  obtain ⟨w', hret, -⟩ := hc.post_of_pure hprog (g := xs)
    ⟨⟨_, hxs.run⟩, hxs.possible, hxs.trace, rfl⟩ _ hxs.run
  exact (Result.ret.inj hret).1

include hc in
/-- The calls that a client has made so far. -/
theorem exists_made (i : ι) : ∃ xs a n,
    Accounted drivers (sessions i).id (p i) (c.world.server.trace i) xs a ∧
      (c.world.client i).trace = callsMade ((xs.take n).map Sigma.fst) := by
  have hi := hc.inv.connected i
  obtain ⟨xs, a, hxs⟩ := hi.possible
  refine ⟨xs, a, (c.world.client i).trace.length, hxs, ?_⟩
  have htake := List.prefix_iff_eq_take.mp (hi.made xs a hxs)
  rw [callsMade, ← List.map_take, ← List.map_take] at htake
  exact htake

include hc hterminal in
/-- A session that cannot go on has done all that its client has asked for, or waits for a mutex;
it holds none. -/
theorem session_rests {xs : List Exchange} {a : α} {n : ℕ}
    (hxs : Accounted drivers (sessions i).id (p i) (c.world.server.trace i) xs a)
    (hmade : (c.world.client i).trace = callsMade ((xs.take n).map Sigma.fst)) :
    c.world.server.held i = none ∧ ((∃ ys : List Exchange,
      ys.map Sigma.fst = (xs.take n).map Sigma.fst ∧
        c.world.server.trace i = served (sessions i).id 0 ys) ∨
      ∃ d, c.world.server.owner d ≠ none) := by
  have hi := hc.inv.connected i
  have hsent : sentOf (c.world.client i).trace = commandStream (xs.take n) := by
    rw [hmade, sentOf_callsMade]
  have hview : (c.world.server.view i).foreseen (commandStream (xs.take n))
      = c.world.server.view i := by
    have hinput := hi.arrived
    rw [hsent] at hinput
    have hsame : (c.world.server.view i).foreseen (commandStream (xs.take n))
        = { c.world.server.view i with input := c.world.server.input i } := by
      rw [hinput]
      rfl
    exact hsame
  have hsees : Sees drivers sessions fuel p (.session i) (xs.take n) c.world
      (c.world.server.view i) := by
    obtain ⟨hwf, hlen, -, -⟩ := sees_session h hc.inv hxs
    refine ⟨fun x hx => hwf x (List.mem_of_mem_take hx), ?_, hsent ▸ List.prefix_rfl, hview.symm⟩
    exact lt_of_le_of_lt (List.length_take_le' _ _) hlen
  cases hprog : c.progs (.session i) with
  | pure b =>
    have hpost := hc.post_of_pure hprog hsees
    cases hpost.1
  | act e k =>
    have hnot := not_enabled h.receivable hterminal hprog
    cases hstop : View.stop drivers e (c.world.server.view i) with
    | some s =>
      obtain ⟨-, hheld, ys, hys, -, htrace⟩ := hc.post_of_stop hprog hsees hstop
      exact ⟨hheld, Or.inl ⟨ys, hys, htrace⟩⟩
    | none =>
      -- it is enabled but for a mutex
      cases e with
      | read m =>
        refine absurd (fun hblocked => ?_) hnot
        have hstop' : View.stop drivers (.read m) (c.world.server.view i) = some .blocked :=
          if_pos hblocked
        cases hstop'.symm.trans hstop
      | lock d => exact ⟨ServerWorld.of_ite_eq_none hstop, Or.inr ⟨d, hnot⟩⟩
      | throw => cases hstop
      | outOfFuel => cases hstop
      | _ => exact absurd trivial hnot

include hc hterminal in
/-- **Where no thread can go on every client is done.** -/
theorem finished (i : ι) : ∃ xs a,
    Accounted drivers (sessions i).id (p i) (c.world.server.trace i) xs a ∧
      c.progs (.client i) = .pure (.inr a) ∧
      c.world.server.trace i = served (sessions i).id 0 xs := by
  have hfree : ∀ d, c.world.server.owner d = none := by
    intro d
    cases howner : c.world.server.owner d with
    | none => rfl
    | some j =>
      obtain ⟨xs, a, n, hxs, hmade⟩ := exists_made h hc j
      have hheld := (session_rests h hc hterminal hxs hmade).1
      rw [hc.inv.single.held_eq.mpr howner] at hheld
      cases hheld
  have hi := hc.inv.connected i
  obtain ⟨xs, a, n, hxs, hmade⟩ := exists_made h hc i
  obtain ⟨-, ⟨ys, hys, htrace⟩ | ⟨d, hd⟩⟩ := session_rests h hc hterminal hxs hmade
  swap
  · exact absurd (hfree d) hd
  have hprefix : ys <+: xs := by
    refine prefix_of_served_prefix ?_ (htrace ▸ hxs.trace)
    rw [hys]
    exact (List.take_prefix n xs).map _
  obtain ⟨zs, rfl⟩ := hprefix
  have hrun := hxs.run
  rw [List.map_append] at hrun
  obtain ⟨q, hq, -⟩ := hrun.of_append
  have hpossible : ∀ y ∈ ys, y.Possible drivers := fun y hy =>
    hxs.possible y (List.mem_append_left _ hy)
  have hview : (c.world.client i).foreseen (exchangeReplies ys) = c.world.client i := by
    have hinput := hi.replied
    rw [htrace, sentOf_served] at hinput
    have hsame : (c.world.client i).foreseen (exchangeReplies ys)
        = { c.world.client i with input := (c.world.client i).input } := by
      rw [hinput]
      rfl
    exact hsame
  have hsees : Sees drivers sessions fuel p (.client i) ys c.world (c.world.client i) :=
    ⟨⟨q, hq⟩, hpossible, htrace ▸ List.prefix_rfl, hview.symm⟩
  -- a client that has another call to make would have made it
  have hnext : ∀ {c' : ClientCommand} {r : Result Stop View (ℤ ⊕ α)},
      r.world = c.world.client i →
        ¬ [] ++ callsMade (ys.map Sigma.fst ++ [c']) <+: r.world.trace := by
    intro c' r hr hmore
    rw [hr, hmade, ← hys] at hmore
    have hlen := hmore.length_le
    simp [callsMade] at hlen
  cases hprog : c.progs (.client i) with
  | pure b =>
    have hpost := hc.post_of_pure hprog hsees q hq
    cases q with
    | pure a' =>
      obtain ⟨w', hret, -⟩ := hpost
      obtain rfl := (Result.ret.inj hret).1
      exact ⟨ys, a', ⟨hq, hpossible, htrace ▸ List.prefix_rfl⟩, rfl, htrace⟩
    | act c' k => exact absurd hpost (hnext rfl)
  | act e k =>
    have hnot := not_enabled h.receivable hterminal hprog
    cases hstop : View.stop drivers e (c.world.client i) with
    | none => exact absurd hstop hnot
    | some s =>
      have hpost := hc.post_of_stop hprog hsees hstop q hq
      cases q with
      | pure a' =>
        obtain ⟨w', hret, -⟩ := hpost
        cases hret
      | act c' k' => exact absurd hpost (hnext rfl)

end Terminal

end Network

section Realized

variable {ι α : Type} [DecidableEq ι] (arch : Arch) {drivers : List Driver}
  {sessions : ι → Session} {fuel : ι → ℕ} {opTable : ι → Option OpDetail.OpTable}
  {p : ι → Prog ClientCommand (fun _ => RetVal) α}

/-- What is known of one connection: the calls on it, what they have returned, and the end of the
client's thread. -/
theorem Network.realized (h : Connections drivers sessions fuel opTable p)
    {thread : ι → Program α} (hthread : ∀ i, Realizes drivers (thread i) (p i))
    {c : Config (Party ι) Action Answer (Network ι) (ℤ ⊕ α)}
    (hreach : (network drivers fun i => (sessions i).id).Reachable
      (networkStart arch drivers sessions fuel thread) c) :
    (∀ i, ∃ xs a, Accounted drivers (sessions i).id (p i) (c.world.server.trace i) xs a ∧
      ∀ b, c.progs (.client i) = .pure b → b = .inr a) ∧
    ((∀ c', ¬ (network drivers fun i => (sessions i).id).Step c c') → ∀ i, ∃ xs a,
      Accounted drivers (sessions i).id (p i) (c.world.server.trace i) xs a ∧
        c.progs (.client i) = .pure (.inr a) ∧
        c.world.server.trace i = served (sessions i).id 0 xs) := by
  have hc := Foresight.sound (Network.holds_start h hthread arch) hreach
  refine ⟨fun i => ?_, fun hterminal i => Network.finished h hc hterminal i⟩
  obtain ⟨xs, a, hxs⟩ := (hc.inv.connected i).possible
  exact ⟨xs, a, hxs, fun b hprog => Network.value_eq h hc hxs hprog⟩

/-- **Remote calls are calls.**  Whatever the order in which the threads go on, however the bytes
are cut, and whatever the operations return: a client that has come to its end has the value that
its program gives when each of its calls is answered by what the operation has returned for it, and
its session has called the operations of these calls, in their order and with their arguments.
Where no thread can go on all clients have come to their end, and all their calls have been
executed. -/
theorem remote_calls (h : Connections drivers sessions fuel opTable p)
    {c : Config (Party ι) Action Answer (Network ι) (ℤ ⊕ α)}
    (hreach : (network drivers fun i => (sessions i).id).Reachable
      (networkStart arch drivers sessions fuel fun i =>
        Client.remotely drivers (opTable i) (p i)) c) :
    (∀ i, ∃ xs a, Accounted drivers (sessions i).id (p i) (c.world.server.trace i) xs a ∧
      ∀ b, c.progs (.client i) = .pure b → b = .inr a) ∧
    ((∀ c', ¬ (network drivers fun i => (sessions i).id).Step c c') → ∀ i, ∃ xs a,
      Accounted drivers (sessions i).id (p i) (c.world.server.trace i) xs a ∧
        c.progs (.client i) = .pure (.inr a) ∧
        c.world.server.trace i = served (sessions i).id 0 xs) :=
  Network.realized arch h (fun i => realizes_remotely h.receivable (h.callable i)) hreach

end Realized

/-- Sets, gets, and gets again what was zero. -/
def probeProgram : Prog ClientCommand (fun _ => RetVal) RetVal :=
  .act ⟨2, 0, [.scalar (.uint32 77), .scalar (.bool true), .vector [.uint16 1, .uint16 2],
      .string [79, 75], .array [.int8 1, .int8 (-1)]]⟩ fun _ => .act ⟨2, 1, []⟩ fun v =>
    if v = .scalar (.uint32 0) then .act ⟨2, 1, []⟩ .pure else .pure v

/-- The sessions of two clients. -/
def probeConnections (b : Bool) : Session :=
  ⟨.tcp, if b then 7 else 8, ⟨fun _ => 0, 0, 0, 0, 0, false⟩, false⟩

/-- Both have the same program. -/
theorem connections_probe : Connections probeDrivers probeConnections
    (fun _ => 4) (fun _ => none) fun _ => probeProgram := by
  have hcallable : ∀ c ∈ probeCommands, Callable probeDrivers none c := by
    intro c hc
    refine ⟨wellFormed_probeCommands c hc, rfl, ?_⟩
    revert c
    decide
  have hset := hcallable _ List.mem_cons_self
  have hget := hcallable _ (List.mem_cons_of_mem _ List.mem_cons_self)
  refine ⟨fun _ => SockType.noConfusion, fun _ => rfl, by decide, ?_, ?_, ?_⟩
  · intro driver operation op hop
    match driver, operation with
    | 1, 0 | 1, 1 => cases hop; exact .inr trivial
    | 2, 0 => cases hop; exact .inl rfl
    | 2, 1 => cases hop; exact .inr rfl
    | 0, _ => cases hop
    | 1, _ + 2 | 2, _ + 2 => cases hop
    | _ + 3, _ => cases hop
  · intro _
    refine ⟨hset, fun _ => ⟨hget, fun v => ?_⟩⟩
    dsimp only
    split
    · exact ⟨hget, fun _ => trivial⟩
    · trivial
  · intro _ xs a hxs
    rw [← List.length_map Exchange.received]
    generalize xs.map Exchange.received = ys at hxs ⊢
    cases hxs with
    | cons hxs => cases hxs with
      | @cons _ _ v _ _ hxs =>
        dsimp only at hxs
        split at hxs
        · cases hxs with
          | cons hxs => cases hxs; simp
        · cases hxs; simp

/-- Both clients come to their end. -/
theorem remote_calls_probe : ∃ c,
    (network probeDrivers fun b => (probeConnections b).id).Reachable
      (networkStart .lp64 probeDrivers probeConnections (fun _ => 4) fun _ =>
        Client.remotely probeDrivers none probeProgram) c ∧
    ∀ b, ∃ xs a, Accounted probeDrivers (probeConnections b).id probeProgram
        (c.world.server.trace b) xs a ∧
      c.progs (.client b) = .pure (.inr a) ∧
      c.world.server.trace b = served (probeConnections b).id 0 xs := by
  obtain ⟨c, hreach, hend⟩ :=
    (network probeDrivers fun b => (probeConnections b).id).exists_terminal
    (networkStart .lp64 probeDrivers probeConnections (fun _ => 4) fun _ =>
      Client.remotely probeDrivers none probeProgram)
  exact ⟨c, hreach, (remote_calls .lp64 connections_probe hreach).2 hend⟩

end KoheronSdk
