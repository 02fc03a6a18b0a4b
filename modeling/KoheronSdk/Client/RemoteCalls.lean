import KoheronSdk.Client.ArgTypeCheck
import KoheronSdk.Client.Replies
import KoheronSdk.Lib.Foresight
import KoheronSdk.Server.Conversation

/-!
# Remote calls

A call of the C++ client is a command and, if the operation returns something, the receipt of its
reply.  A program that makes calls knows nothing of this: its next call depends on what the calls
before it have returned.

## Programs of calls

Such a program is a tree over calls (`Lib/Program`), whose answers are returned values.
`Prog.interpret` makes of it a thread that sends and receives, and what is to be shown is that the
thread does what the tree says.  `Exchange` is a call with what it has returned, and a list
of exchanges is a path through the tree.

## Both ends of one connection

Here each end is looked at alone.  The session has the commands of some exchanges in front of it; it
executes them one after the other, writes the replies, and waits (`wp_run_exchanges`).  The client
has the replies of some exchanges in front of it; its thread makes the calls along the path they
determine, and has made one call more than it has replies, or come to its end (`Realizes`).  Both
are about surroundings in which a `write()` takes all that it is offered, no exit signal is raised,
and what is returned is below 2^31 bytes.  How the two fit together is in `Client/Network`.

* `Client.remoteCall`: what `call` and `recv` do together.
* `Exchange`: a call, and what it has returned.
* `wp_run_exchanges`: what a session does for the calls on its socket.
* `Realizes`: what becomes of a thread that makes the calls of a program, for as long as they are
  answered.
* `realizes_remotely`: the thread whose calls are `remoteCall` is one.
-/

namespace KoheronSdk

open Effects

/-! ## The code -/

namespace OpDetail

/-- `OpTable::has_class` -/
def OpTable.hasClass (table : OpTable) (classId : ℕ) : Bool :=
  table.ops.any fun op => op.classId = classId

/-- `OpTable::class_name_of` -/
def OpTable.classNameOf (table : OpTable) (classId : ℕ) : Str :=
  match table.ops.find? fun op => op.classId = classId with
  | some op => op.className
  | none => []

/-- `check_served` -/
def checkServed (opTable : Option OpTable) (classId funcId : UInt16) : Except Str Unit :=
  match opTable with
  | none => .ok ()
  | some table =>
    let id := (classId.toNat <<< 16) ||| funcId.toNat
    if (table.find id).isSome then .ok ()
    else if table.hasClass classId.toNat then
      .error ("call<>: ".toList ++ table.classNameOf classId.toNat ++ " does not serve func ".toList
        ++ decimalText funcId.toNat ++ " (id ".toList ++ decimalText id ++ ")".toList)
    else
      .error ("call<>: class ".toList ++ decimalText classId.toNat
        ++ " is not served by the instrument (id ".toList ++ decimalText id ++ ")".toList)

end OpDetail

namespace Client

/-- `send`, on the one socket that a client has. -/
def sendBuffer (buffer : List UInt8) : Program Unit := do
  let err ← write 0 buffer
  if toInt err < 0 then throw

/-- `build_command` and `send` -/
def sendCommand (c : ClientCommand) : Program Unit :=
  match c.encode with
  | none => overrun
  | some buffer => sendBuffer buffer

/-- `call` -/
def call (opTable : Option OpDetail.OpTable) (c : ClientCommand) : Program Unit :=
  match OpDetail.checkServed opTable c.driver c.operation with
  | .error _ => throw
  | .ok () => sendCommand c

/-- `call`, and `recv` for an operation that returns `type`. -/
def remoteCall (opTable : Option OpDetail.OpTable) (type : RetType) (c : ClientCommand) :
    Program RetVal := do
  call opTable c
  commandDeserializer c.driver c.operation type

end Client

/-! ## Exchanges -/

/-- A call, and what it has returned. -/
abbrev Exchange := (_ : ClientCommand) × RetVal

/-- What an operation of the drivers returns. -/
def ClientCommand.retType (drivers : List Driver) (c : ClientCommand) : RetType :=
  ((findOperation drivers c.driver.toNat c.operation.toNat).map Operation.retType).getD .void

namespace Exchange

/-- The operation can return this. -/
def Typed (drivers : List Driver) (x : Exchange) : Prop :=
  Returns drivers x.1.driver.toNat x.1.operation.toNat x.2

/-- It can, and the content of a container is below 2^31 bytes. -/
def Possible (drivers : List Driver) (x : Exchange) : Prop :=
  x.Typed drivers ∧ ∀ a ∈ x.2.args, a.Small

/-- What a session writes. -/
def reply (x : Exchange) : List UInt8 :=
  if x.2 = .void then []
  else Session.offered (replyCommand x.1.driver.toNat x.1.operation.toNat x.2)

/-- What a session does when it has `base` bytes behind it. -/
def events (id : SessionID) (base : ℕ) (x : Exchange) : List Event :=
  [.header x.1.driver.toNat x.1.operation.toNat (base + headerSize),
    .call x.1.driver.toNat x.1.operation.toNat (x.1.args.map some)
      (base + x.1.message.bytes.length),
    .ret x.1.driver.toNat x.1.operation.toNat x.2] ++
  if x.2 = .void then [] else [.wrote id x.reply x.reply.length]

end Exchange

/-- What a session does for some exchanges. -/
def served (id : SessionID) : ℕ → List Exchange → List Event
  | _, [] => []
  | base, x :: xs => x.events id base ++ served id (base + x.1.message.bytes.length) xs

/-- The commands of some exchanges, as they lie on the stream. -/
def commandStream (xs : List Exchange) : List UInt8 := streamOf (xs.map fun x => x.1.message)

/-- The replies of some exchanges. -/
def exchangeReplies (xs : List Exchange) : List UInt8 := xs.flatMap Exchange.reply

section Exchanges

variable {id : SessionID} {base : ℕ} {x : Exchange} {xs ys : List Exchange} {drivers : List Driver}

theorem commandStream_cons : commandStream (x :: xs) = x.1.message.bytes ++ commandStream xs := by
  rw [commandStream, List.map_cons, streamOf_cons, commandStream]

theorem served_append : served id base (xs ++ ys)
    = served id base xs ++ served id (base + (commandStream xs).length) ys := by
  induction xs generalizing base with
  | nil => rfl
  | cons x xs ih =>
    rw [List.cons_append, served, ih, served, commandStream_cons, List.length_append,
      List.append_assoc, Nat.add_assoc]

theorem Exchange.sentOf_events (x : Exchange) : sentOf (x.events id base) = x.reply := by
  rw [events, reply]
  by_cases hvoid : x.2 = .void
  · simp [sentOf, Event.sent, hvoid]
  · simp [sentOf, Event.sent, hvoid]

theorem sentOf_append (t u : List Event) : sentOf (t ++ u) = sentOf t ++ sentOf u :=
  List.flatMap_append

/-- What is written are the replies. -/
theorem sentOf_served : sentOf (served id base xs) = exchangeReplies xs := by
  induction xs generalizing base with
  | nil => rfl
  | cons x xs ih =>
    rw [served, sentOf_append, ih, x.sentOf_events]
    rfl

/-- Every `write()` is one to the session's own socket. -/
theorem dest_of_mem_served {dest : SessionID} {bytes : List UInt8} {n : ℤ}
    (h : .wrote dest bytes n ∈ served id base xs) : dest = id := by
  induction xs generalizing base with
  | nil => exact (List.not_mem_nil h).elim
  | cons x xs ih =>
    rcases List.mem_append.mp h with h | h
    · rw [Exchange.events] at h
      rcases List.mem_append.mp h with h | h
      · simp at h
      · split at h
        · exact (List.not_mem_nil h).elim
        · exact (Event.wrote.inj (List.mem_singleton.mp h)).1
    · exact ih h

/-- What a session does for some exchanges, and for others with the same calls, is the same up to
the first value that is another one. -/
theorem served_branch {t : List Event} {e : Event} (hcs : xs.map Sigma.fst = ys.map Sigma.fst)
    (ht : t <+: served id base xs) (ht' : t ++ [e] <+: served id base ys) :
    t ++ [e] <+: served id base xs ∨ ∃ before x behind v, xs = before ++ x :: behind ∧
      ⟨x.1, v⟩ ∈ ys ∧ t ++ [e] <+: served id base (before ++ [⟨x.1, v⟩]) := by
  induction xs generalizing ys base t with
  | nil =>
    obtain rfl := List.map_eq_nil_iff.mp hcs.symm
    exact Or.inl ht'
  | cons x xs ih =>
    obtain ⟨c, u⟩ := x
    obtain ⟨y, ys, rfl⟩ : ∃ y ys', ys = y :: ys' := by
      cases ys with
      | nil => cases hcs
      | cons y ys => exact ⟨y, ys, rfl⟩
    obtain ⟨c', v⟩ := y
    rw [List.map_cons, List.map_cons, List.cons.injEq] at hcs
    obtain ⟨rfl, hcs⟩ := hcs
    rw [served] at ht ht'
    by_cases huv : u = v
    · subst huv
      by_cases hshort : t.length < (Exchange.events id base ⟨c, u⟩).length
      · left
        have hle : (t ++ [e]).length ≤ (Exchange.events id base ⟨c, u⟩).length := by
          rw [List.length_append, List.length_singleton]
          omega
        exact (List.prefix_of_prefix_length_le ht' (List.prefix_append _ _) hle).trans
          (List.prefix_append _ _)
      · obtain ⟨t, rfl⟩ := List.prefix_of_prefix_length_le (List.prefix_append _ _) ht
          (not_lt.mp hshort)
        rw [List.append_assoc] at ht' ⊢
        rw [List.prefix_append_right_inj] at ht ht'
        rcases ih hcs ht ht' with hleft | ⟨before, x, behind, v, rfl, hv, hright⟩
        · left
          rwa [served, List.prefix_append_right_inj]
        · refine Or.inr ⟨⟨c, u⟩ :: before, x, behind, v, rfl, List.mem_cons_of_mem _ hv, ?_⟩
          rwa [List.cons_append, served, List.prefix_append_right_inj]
    · -- the values differ, so that this one has not been returned
      have hfirst : ∀ v' : RetVal, [Event.header c.driver.toNat c.operation.toNat
          (base + headerSize), .call c.driver.toNat c.operation.toNat (c.args.map some)
          (base + c.message.bytes.length), .ret c.driver.toNat c.operation.toNat v']
            <+: Exchange.events id base ⟨c, v'⟩ := fun v' => List.prefix_append _ _
      have hshort : t.length < 3 := by
        by_contra hlong
        have hu := List.prefix_of_prefix_length_le ((hfirst u).trans (List.prefix_append _ _)) ht
          (not_lt.mp hlong)
        have hv := List.prefix_of_prefix_length_le ((hfirst v).trans (List.prefix_append _ _))
          ((List.prefix_append t [e]).trans ht') (not_lt.mp hlong)
        have heq := (List.prefix_of_prefix_length_le hu hv (le_refl 3)).eq_of_length rfl
        simp only [List.cons.injEq, Event.ret.injEq, true_and, and_true] at heq
        exact huv heq
      have hlen : (t ++ [e]).length ≤ 3 := by
        rw [List.length_append, List.length_singleton]
        omega
      refine Or.inr ⟨[], ⟨c, u⟩, xs, v, rfl, List.mem_cons_self, ?_⟩
      exact (List.prefix_of_prefix_length_le ht' ((hfirst v).trans (List.prefix_append _ _))
        hlen).trans ((hfirst v).trans (List.prefix_append _ _))

/-- What has been done for the first of some calls is what these have returned. -/
theorem prefix_of_served_prefix (hcs : ys.map Sigma.fst <+: xs.map Sigma.fst)
    (h : served id base ys <+: served id base xs) : ys <+: xs := by
  induction ys generalizing xs base with
  | nil => exact List.nil_prefix
  | cons y ys ih =>
    obtain ⟨c, v⟩ := y
    cases xs with
    | nil => exact absurd hcs.length_le (by simp)
    | cons x xs =>
      obtain ⟨c', u⟩ := x
      rw [List.map_cons, List.map_cons, List.cons_prefix_cons] at hcs
      obtain ⟨rfl, hcs⟩ := hcs
      have hfirst : ∀ v' : RetVal, [Event.header c.driver.toNat c.operation.toNat
          (base + headerSize), .call c.driver.toNat c.operation.toNat (c.args.map some)
          (base + c.message.bytes.length), .ret c.driver.toNat c.operation.toNat v']
            <+: Exchange.events id base ⟨c, v'⟩ := fun v' => List.prefix_append _ _
      rw [served, served] at h
      have hv := ((hfirst v).trans (List.prefix_append _ _)).trans h
      have hu := (hfirst u).trans (List.prefix_append _ (served id (base
        + c.message.bytes.length) xs))
      have heq := (List.prefix_of_prefix_length_le hv hu (le_refl 3)).eq_of_length rfl
      simp only [List.cons.injEq, Event.ret.injEq, true_and, and_true] at heq
      subst heq
      rw [List.prefix_append_right_inj] at h
      exact List.cons_prefix_cons.mpr ⟨rfl, ih hcs h⟩

/-- A longer list of exchanges begins in the same way. -/
theorem served_prefix : served id base xs <+: served id base (xs ++ ys) := by
  rw [served_append]
  exact List.prefix_append _ _

end Exchanges

/-! ## What a session does -/

/-- No exit signal is raised, and a `write()` takes all that it is offered. -/
def Env.taking : Env := ⟨(· = false), fun bytes n => n = bytes.length⟩

/-- What is returned is small. -/
def Action.AnswersSmall : (e : Action) → Answer e → Prop
  | .ret _ _, (v : RetVal) => ∀ a ∈ v.args, a.Small
  | _, _ => True

/-- The actions of a thread when everything that is returned is small. -/
def attending (drivers : List Driver) : Handler Action Answer View Stop :=
  (session drivers .taking).restrict Action.AnswersSmall

/-- Everything that has been returned is small. -/
def SmallReturns (t : List Event) : Prop :=
  ∀ driver operation v, .ret driver operation v ∈ t → ∀ a ∈ v.args, a.Small

/-- Every operation returns nothing, or what the client can receive. -/
def Receivable (drivers : List Driver) : Prop :=
  ∀ driver operation op, findOperation drivers driver operation = some op →
    op.retType = .void ∨ op.retType.Receivable

section Session

variable {drivers : List Driver} {arch : Arch} {s : Session} {w : View}

theorem smallReturns_next {e : Action} {x : Answer e} (hw : SmallReturns w.trace)
    (hx : e.AnswersSmall x) : SmallReturns ((session drivers .taking).next e w x).trace := by
  have hother : ∀ e', (∀ driver operation v, .ret driver operation v ≠ e') →
      SmallReturns (w.trace ++ [e']) := by
    intro e' hne driver operation v hv
    rcases List.mem_append.mp hv with hv | hv
    · exact hw driver operation v hv
    · exact absurd (List.mem_singleton.mp hv) (hne driver operation v)
  cases e with
  | read n => cases x <;> exact hw
  | write dest bytes => exact hother _ fun _ _ _ h => by cases h
  | received d op => exact hother _ fun _ _ _ h => by cases h
  | call d op names => exact hother _ fun _ _ _ h => by cases h
  | ret d op =>
    intro driver operation v hv
    rcases List.mem_append.mp hv with hv | hv
    · exact hw driver operation v hv
    · cases List.mem_singleton.mp hv
      exact hx
  | _ => exact hw

theorem SmallReturns.mono {t u : List Event} (h : SmallReturns u) (htu : t <+: u) :
    SmallReturns t := fun driver operation v hv => h driver operation v (htu.subset hv)

/-- What the client can receive can be small. -/
theorem small_some {t : RetType} (h : t = .void ∨ t.Receivable) :
    ∀ a ∈ t.some.args, a.Small := by
  have hnil : ([] : List UInt8).length < 2 ^ 31 := by decide
  intro a ha
  cases t with
  | void => exact (List.not_mem_nil ha).elim
  | scalar t => exact List.mem_singleton.mp ha ▸ hnil
  | tuple ts =>
    obtain ⟨v, -, rfl⟩ := List.mem_map.mp ha
    exact hnil
  | array t n =>
    have hrec : headerSize + n * t.size < 2 ^ 31 := h.resolve_left RetType.noConfusion
    rw [List.mem_singleton.mp ha]
    change (memOf (ofMemOf t n [])).length < 2 ^ 31
    rw [length_memOf fun v hv => type_of_mem_ofMemOf hv, length_ofMemOf]
    omega
  | vector t => exact List.mem_singleton.mp ha ▸ hnil
  | string => exact List.mem_singleton.mp ha ▸ hnil
  | cString => exact List.mem_singleton.mp ha ▸ hnil

/-- Every operation can return something small. -/
theorem exists_small_returns (h : Receivable drivers) (driver operation : ℕ) :
    ∃ v, Returns drivers driver operation v ∧ ∀ a ∈ v.args, a.Small := by
  cases hop : findOperation drivers driver operation with
  | none => exact ⟨.void, fun op hop' => by (rw [hop] at hop'; cases hop'),
      fun a ha => (List.not_mem_nil ha).elim⟩
  | some op =>
    refine ⟨op.retType.some, fun op' hop' => ?_, small_some (h driver operation op hop)⟩
    obtain rfl : op = op' := Option.some.inj (hop ▸ hop')
    exact op.retType.hasType_some

theorem Env.taking_possible : Env.taking.Possible :=
  ⟨⟨false, rfl⟩, fun bytes => ⟨bytes.length, ⟨by omega, le_refl _⟩, rfl⟩⟩

/-- No action is left without an answer. -/
theorem attending_live (h : Receivable drivers) : (attending drivers).Live := by
  intro e w hs
  obtain ⟨x, hx⟩ := session_live drivers Env.taking_possible e w hs
  cases e with
  | ret driver operation =>
    obtain ⟨v, hv, hsmall⟩ := exists_small_returns h driver operation
    exact ⟨v, ⟨hv, trivial⟩, hsmall⟩
  | _ => exact ⟨x, hx, trivial⟩

/-- The reply to a small value is written as a whole. -/
theorem Exchange.Possible.reply_eq {x : Exchange} (h : x.Possible drivers) {op : Operation}
    (hop : findOperation drivers x.1.driver.toNat x.1.operation.toNat = some op) :
    Session.offered (replyCommand x.1.driver.toNat x.1.operation.toNat x.2)
        = replyCommand x.1.driver.toNat x.1.operation.toNat x.2 ∧
      Server.buildReply (UInt16.ofNat x.1.driver.toNat) (UInt16.ofNat x.1.operation.toNat) x.2
        = some (replyCommand x.1.driver.toNat x.1.operation.toNat x.2) := by
  have hlen : (replyCommand x.1.driver.toNat x.1.operation.toNat x.2).length < 2 ^ 32 := by
    have := x.2.length_wireArgs_lt (h.1 op hop) op.ret_fits h.2
    rw [replyCommand, List.length_append, length_header]
    omega
  refine ⟨?_, buildReply_eq (h.1 op hop) op.ret_fits hlen⟩
  rw [Session.offered, Nat.mod_eq_of_lt hlen, List.take_length]

/-- What may be seen of a session that has been sent some commands: it has executed all of them,
and waits for the next one. -/
def Attended (id : SessionID) (cs : List ClientCommand) (drivers : List Driver) (w w' : View)
    (stop : Option Stop) : Prop :=
  stop = some .blocked ∧ w'.held = none ∧ ∃ xs : List Exchange, xs.map Sigma.fst = cs ∧
    (∀ x ∈ xs, x.Possible drivers) ∧ w'.trace = w.trace ++ served id w.consumed xs

/-- One more command in front. -/
theorem Attended.cons {id : SessionID} {cs : List ClientCommand} {x : Exchange} {w₁ w' : View}
    {stop : Option Stop} (h : Attended id cs drivers w₁ w' stop) (hx : x.Possible drivers)
    (htrace : w₁.trace = w.trace ++ x.events id w.consumed)
    (hconsumed : w₁.consumed = w.consumed + x.1.message.bytes.length) :
    Attended id (x.1 :: cs) drivers w w' stop := by
  obtain ⟨hstop, hheld, xs, hcs, hxs, ht⟩ := h
  refine ⟨hstop, hheld, x :: xs, ?_, List.forall_mem_cons.mpr ⟨hx, hxs⟩, ?_⟩
  · rw [List.map_cons, hcs]
  · rw [ht, htrace, hconsumed, served, List.append_assoc]

/-- **The loop of `run` executes the commands** and then waits. -/
theorem wp_serve_exchanges (htype : s.type ≠ .websock) (hopen : s.closed = false)
    {cs : List ClientCommand} (hcs : ∀ c ∈ cs, c.WellFormed drivers) {fuel : ℕ}
    (hfuel : cs.length < fuel) (hw : w.AtRest)
    (hin : w.input = streamOf (cs.map ClientCommand.message)) (hwaiting : w.ending = .waiting) :
    (session drivers .taking).wp (s.serve arch drivers fuel)
      (fun r => SmallReturns r.world.trace → Attended s.id cs drivers w r.world r.stop?) w := by
  have hexit : ∀ b, Env.taking.exit b ↔ b = false := fun b => Iff.rfl
  induction cs generalizing w fuel with
  | nil =>
    obtain ⟨fuel, rfl⟩ := Nat.exists_eq_succ_of_ne_zero (by omega : fuel ≠ 0)
    have hlen : w.input.length < headerSize := by
      rw [hin]
      decide
    rw [wp_serve_end hexit htype hlen, hwaiting]
    exact fun _ => ⟨rfl, hw.held, [], rfl, fun x hx => (List.not_mem_nil hx).elim,
      (List.append_nil _).symm⟩
  | cons c cs ih =>
    obtain ⟨hc, hcs⟩ := List.forall_mem_cons.mp hcs
    obtain ⟨op, hop, hread, hbytes, hsmall⟩ := hc.reads
    rw [List.length_cons] at hfuel
    obtain ⟨fuel, rfl⟩ := Nat.exists_eq_succ_of_ne_zero (by omega : fuel ≠ 0)
    rw [List.map_cons, streamOf_cons] at hin
    rw [wp_serve_known hexit htype hopen hw hin hop (hread _) hbytes hsmall]
    intro v hv
    have hrest := View.input_executed hin c.args v
    have hconsumed := w.consumed_executed c.message c.args v
    by_cases hvoid : op.retType = .void
    · obtain rfl := (hv op hop).void_iff.mpr hvoid
      rw [if_pos hvoid]
      refine (session drivers .taking).wp_mono (fun r h hret => ?_)
        (ih hcs (by omega) (hw.executed c.message c.args .void) hrest hwaiting)
      refine (h hret).cons (x := ⟨c, .void⟩) ⟨hv, fun a ha => (List.not_mem_nil ha).elim⟩ ?_
        hconsumed
      rw [w.trace_executed]
      exact congrArg (w.trace ++ ·) (List.append_nil _).symm
    · rw [if_neg hvoid]
      have hne : v ≠ .void := fun h => hvoid ((hv op hop).void_iff.mp h)
      intro sendBuffer hbuf n _ _ hn
      have htrace := w.trace_executed_log c.message c.args v
        (.wrote s.id (Session.offered sendBuffer) n)
      -- what has been returned is small, as it is in the trace
      have hpossible : ∀ {t : List Event}, ((w.executed c.message c.args v).log
          (.wrote s.id (Session.offered sendBuffer) n)).trace <+: t → SmallReturns t →
            Exchange.Possible drivers ⟨c, v⟩ := by
        intro t hpre ht
        refine ⟨hv, ht c.driver.toNat c.operation.toNat v (hpre.subset ?_)⟩
        rw [htrace, roundEvents]
        simp [ClientCommand.message]
      have hbuffer : ∀ hx : Exchange.Possible drivers ⟨c, v⟩,
          Session.offered sendBuffer = Exchange.reply ⟨c, v⟩ ∧ n ≠ 0 := by
        intro hx
        obtain ⟨hoffered, hbuild⟩ := hx.reply_eq hop
        obtain rfl := Option.some.inj (hbuf.symm.trans hbuild)
        refine ⟨(if_neg hne).symm, fun hzero => ?_⟩
        have hlen : (0 : ℤ) = (Session.offered (replyCommand c.driver.toNat c.operation.toNat
          v)).length := hzero ▸ hn
        rw [hoffered, replyCommand, List.length_append, length_header] at hlen
        omega
      by_cases hzero : n = 0
      · rw [if_pos hzero]
        exact fun hret => absurd hzero (hbuffer (hpossible List.prefix_rfl hret)).2
      · rw [if_neg hzero]
        refine (session drivers .taking).wp_mono ?_ ((session drivers .taking).wp_and
          (wp_trace _ _) (ih hcs (by omega) ((hw.executed c.message c.args v).log _) hrest
            hwaiting))
        rintro r ⟨hpre, h⟩ hret
        have hx := hpossible hpre hret
        refine (h hret).cons hx ?_ hconsumed
        have hreplied : (⟨c, v⟩ : Exchange).2 ≠ .void := hne
        rw [htrace, (hbuffer hx).1, hn, (hbuffer hx).1, Exchange.events, if_neg hreplied]
        rfl

/-- **What a session does for the calls on its socket**: it executes them one after the other,
replies to each of them, and waits for more. -/
theorem wp_run_exchanges (htype : s.type ≠ .websock) (hopen : s.closed = false)
    {cs : List ClientCommand} (hcs : ∀ c ∈ cs, c.WellFormed drivers) {fuel : ℕ}
    (hfuel : cs.length < fuel) (hw : w.AtRest) (hsmall : SmallReturns w.trace)
    (hin : w.input = streamOf (cs.map ClientCommand.message)) (hwaiting : w.ending = .waiting) :
    (attending drivers).wp (s.run arch drivers (fun s => pure (0, s)) fuel)
      (fun r => Attended s.id cs drivers w r.world r.stop?) w := by
  refine Handler.wp_restrict (I := fun w' => SmallReturns w'.trace)
    (fun e w' x hw' hx => smallReturns_next hw' hx) hsmall ?_
  exact (wp_run_stream htype fun w' stop => SmallReturns w'.trace →
    Attended s.id cs drivers w w' stop).mpr
      (wp_serve_exchanges htype hopen hcs hfuel hw hin hwaiting)

end Session

/-! ## What a client does -/

/-- The command is well-formed and short, and the instrument serves it. -/
def Callable (drivers : List Driver) (opTable : Option OpDetail.OpTable) (c : ClientCommand) :
    Prop :=
  c.WellFormed drivers ∧ OpDetail.checkServed opTable c.driver c.operation = .ok () ∧
    c.message.bytes.length < 2 ^ 31

/-- The exchange as the client sees it. -/
def Exchange.received (x : Exchange) : Exchange := ⟨x.1, x.2.received⟩

/-- What the client has done to make some calls. -/
def callsMade (cs : List ClientCommand) : List Event :=
  cs.map fun c => .wrote 0 c.message.bytes c.message.bytes.length

/-- A program whose calls are remote ones. -/
def Client.remotely {α : Type} (drivers : List Driver) (opTable : Option OpDetail.OpTable)
    (p : Prog ClientCommand (fun _ => RetVal) α) : Program α :=
  p.interpret fun c => Client.remoteCall opTable (c.retType drivers) c

section Client

variable {drivers : List Driver} {opTable : Option OpDetail.OpTable} {w : View} {α : Type}
  {β : Type} {c : ClientCommand} {x : Exchange}

theorem ClientCommand.WellFormed.encode_eq (hc : c.WellFormed drivers) :
    c.encode = some c.message.bytes := by
  obtain ⟨op, -, -, hfit, hsmall, hscalar⟩ := hc
  exact buildCommand_eq c.driver c.operation (Client.appendable hscalar) hfit
    fun a ha => (hsmall a ha).length_lt

/-- A command is one `send()`. -/
theorem wp_sendCommand (hwf : c.WellFormed drivers) (hlen : c.message.bytes.length < 2 ^ 31)
    {post : Result Stop View Unit → Prop} :
    (session drivers .taking).wp (Client.sendCommand c) post w ↔
      post (.ret () (w.log (.wrote 0 c.message.bytes c.message.bytes.length))) := by
  have hpos : ¬ toInt c.message.bytes.length < 0 := by
    rw [toInt_of_lt hlen]
    omega
  rw [Client.sendCommand, hwf.encode_eq]
  dsimp only
  generalize c.message.bytes = bytes at hpos ⊢
  rw [Client.sendBuffer, Handler.wp_bind, wp_write]
  constructor
  · intro h
    obtain ⟨n, hn⟩ : ∃ n : ℤ, n = bytes.length := ⟨_, rfl⟩
    have hall := h n (by omega) (by omega) hn
    rwa [Handler.andThen_ret, hn, if_neg hpos] at hall
  · intro h n _ _ hn
    obtain rfl : n = bytes.length := hn
    rw [Handler.andThen_ret, if_neg hpos]
    exact h

/-- So is a call that is served. -/
theorem wp_call_callable (hc : Callable drivers opTable c) {post : Result Stop View Unit → Prop} :
    (session drivers .taking).wp (Client.call opTable c) post w ↔
      post (.ret () (w.log (.wrote 0 c.message.bytes c.message.bytes.length))) := by
  obtain ⟨hwf, hserved, hlen⟩ := hc
  rw [Client.call, hserved]
  exact wp_sendCommand hwf hlen

/-- What the operation has returned is received, when the reply comes next. -/
theorem wp_receive (hreceivable : Receivable drivers) (hwf : x.1.WellFormed drivers)
    (hx : x.Possible drivers) {more : List UInt8} (hin : w.input = x.reply ++ more)
    {post : Result Stop View RetVal → Prop}
    (hpost : post (.ret x.2.received (w.advance x.reply.length))) :
    (session drivers .taking).wp
      (Client.commandDeserializer x.1.driver x.1.operation (x.1.retType drivers)) post w := by
  obtain ⟨op, hop, -⟩ := hwf.reads
  have htype : x.1.retType drivers = op.retType := by
    rw [ClientCommand.retType, hop]
    rfl
  rw [htype]
  rcases hreceivable _ _ op hop with hvoid | hrec
  · have hnone := (hx.1 op hop).void_iff.mpr hvoid
    rw [Exchange.reply, if_pos hnone, hnone] at hpost
    rw [hvoid]
    exact hpost
  · have hne : x.2 ≠ .void := fun h => by
      rw [(hx.1 op hop).void_iff.mp h] at hrec
      exact hrec
    have hreply : x.reply = header x.1.driver x.1.operation ++ wireArgs x.2.args := by
      rw [Exchange.reply, if_neg hne, (hx.reply_eq hop).1, replyCommand, UInt16.ofNat_toNat,
        UInt16.ofNat_toNat]
    rw [hreply] at hin hpost
    exact wp_commandDeserializer (hx.1 op hop) hrec op.ret_fits hx.2 hin hpost

/-- **A remote call gives what the operation has returned.** -/
theorem wp_remoteCall (hreceivable : Receivable drivers) (hc : Callable drivers opTable x.1)
    (hx : x.Possible drivers) {more : List UInt8} (hin : w.input = x.reply ++ more)
    {post : Result Stop View RetVal → Prop}
    (hpost : post (.ret x.2.received
      ((w.log (.wrote 0 x.1.message.bytes x.1.message.bytes.length)).advance x.reply.length))) :
    (session drivers .taking).wp (Client.remoteCall opTable (x.1.retType drivers) x.1) post w := by
  rw [Client.remoteCall, Handler.wp_bind, wp_call_callable hc, Handler.andThen_ret]
  have hin' : (w.log (.wrote 0 x.1.message.bytes x.1.message.bytes.length)).input
      = x.reply ++ more := hin
  exact wp_receive hreceivable hc.1 hx hin' hpost

/-- What may become of a program when the first of its calls are answered by `xs`, and no more
of them: it ends with its value, or has made the next call. -/
def Called (wrap : α → β) (xs : List Exchange) (q : Prog ClientCommand (fun _ => RetVal) α)
    (w : View) (r : Result Stop View β) : Prop :=
  match q with
  | .pure a => ∃ w', r = .ret (wrap a) w' ∧ w'.trace = w.trace ++ callsMade (xs.map Sigma.fst)
  | .act c _ => w.trace ++ callsMade (xs.map Sigma.fst ++ [c]) <+: r.world.trace

/-- A thread that makes the calls of a program, receives what they return, and ends with the
value of the program. -/
def Realizes (drivers : List Driver) (thread : Program α)
    (p : Prog ClientCommand (fun _ => RetVal) α) : Prop :=
  ∀ xs q (w : View), p.Exchanges (xs.map Exchange.received) q →
    (∀ x ∈ xs, x.Possible drivers) → w.input = exchangeReplies xs →
      (session drivers .taking).wp thread (Called id xs q w) w

/-- One more exchange in front. -/
theorem Called.cons {xs : List Exchange} {q : Prog ClientCommand (fun _ => RetVal) α} {w' : View}
    {r : Result Stop View α} (h : Called id xs q w' r) (htrace : w'.trace
      = w.trace ++ [.wrote 0 x.1.message.bytes x.1.message.bytes.length]) :
    Called id (x :: xs) q w r := by
  cases q with
  | pure a =>
    obtain ⟨w'', rfl, h⟩ := h
    refine ⟨w'', rfl, ?_⟩
    rw [h, htrace, List.append_assoc]
    rfl
  | act c k =>
    change w'.trace ++ _ <+: _ at h
    rw [htrace, List.append_assoc] at h
    exact h

/-- The value of a thread, as one of several kinds. -/
theorem Realizes.wp {thread : Program α} {p q : Prog ClientCommand (fun _ => RetVal) α}
    (h : Realizes drivers thread p) {xs : List Exchange}
    (hp : p.Exchanges (xs.map Exchange.received) q) (hxs : ∀ x ∈ xs, x.Possible drivers)
    (hin : w.input = exchangeReplies xs) (wrap : α → β) :
    (session drivers .taking).wp (thread >>= fun a => pure (wrap a)) (Called wrap xs q w) w := by
  refine (session drivers .taking).wp_bind_intro ((session drivers .taking).wp_mono ?_
    (h xs q w hp hxs hin))
  rintro (⟨a, w'⟩ | ⟨s, w'⟩) hr
  · cases q with
    | pure b =>
      obtain ⟨w'', hret, htrace⟩ := hr
      obtain ⟨rfl, rfl⟩ := Result.ret.inj hret
      exact ⟨_, rfl, htrace⟩
    | act c k => exact hr
  · cases q with
    | pure b =>
      obtain ⟨w'', hret, -⟩ := hr
      cases hret
    | act c k => exact hr

/-- A command that has been sent, and to which no reply has come yet. -/
theorem called_act {k : RetVal → Prog ClientCommand (fun _ => RetVal) α} {rest : Program α} :
    (session drivers .taking).wp rest (Called id [] (.act c k) w)
      (w.log (.wrote 0 c.message.bytes c.message.bytes.length)) := by
  refine (session drivers .taking).wp_mono (fun r hr => ?_) (wp_trace _ _)
  exact (hr : (w.log (.wrote 0 c.message.bytes c.message.bytes.length)).trace <+: _)

/-- **What becomes of a program whose calls are remote ones.** -/
theorem realizes_remotely (hreceivable : Receivable drivers)
    {p : Prog ClientCommand (fun _ => RetVal) α} (hp : p.Only (Callable drivers opTable)) :
    Realizes drivers (Client.remotely drivers opTable p) p := by
  intro xs q w h hxs hin
  induction xs generalizing p w with
  | nil =>
    cases h with
    | nil =>
      cases q with
      | pure a => exact ⟨w, rfl, (List.append_nil _).symm⟩
      | act c k =>
        change (session drivers .taking).wp
          (Client.remoteCall opTable (c.retType drivers) c >>= fun v =>
            Client.remotely drivers opTable (k v)) _ w
        rw [Client.remoteCall, bind_assoc, Handler.wp_bind, wp_call_callable hp.1,
          Handler.andThen_ret]
        exact called_act
  | cons x xs ih =>
    obtain ⟨hx, hxs⟩ := List.forall_mem_cons.mp hxs
    cases h with
    | @cons _ k _ _ _ h =>
      change (session drivers .taking).wp
        (Client.remoteCall opTable (x.1.retType drivers) x.1 >>= fun v =>
          Client.remotely drivers opTable (k v)) _ w
      have hin' : w.input = x.reply ++ exchangeReplies xs := hin
      rw [Handler.wp_bind]
      refine wp_remoteCall hreceivable hp.1 hx hin' ?_
      rw [Handler.andThen_ret]
      refine (session drivers .taking).wp_mono (fun r hr => hr.cons rfl)
        (ih (hp.2 _) _ h hxs ?_)
      change w.input.drop x.reply.length = _
      rw [hin', List.drop_left]

end Client

end KoheronSdk
