import KoheronSdk.Server.Footprint
import KoheronSdk.Server.Framing
import KoheronSdk.Server.SendFrame

/-!
# The stream of replies

What a session ought to put on its socket is fixed by what its operations returned: the
complete replies, one behind the other.  `sentOf` is what it did put there, from what its
`write()` calls were offered and what they returned.

## Where a reply is cut off

`Session<TCP>::write` returns -1 when `::write` took a part of the reply or failed, and
`WebSocket::send` returns -1 for a reply that does not fit its buffer, but `Session::send` closes
the session for a 0 only.  The session goes on after a -1, and the next reply comes directly
behind what went out of the last one: the client takes bytes of it for the rest of the other.
`Event.Unbroken` is about the steps that lead there.  A WebSocket resends what was not
taken, so only a stream can be broken by a short `write()`.

## At any time

The bytes must be right at every moment and not only at the end of a command, since the client
reads along.  `IntactReplies` says of a trace that the bytes on the socket are a first part
of the replies that are due, and that no operation has returned before all earlier replies were
complete.  It is carried through the code as `SoundReplies`: if no step so far was broken, then
the replies are intact.  `Pending` has what is still to be written of the reply under way, `Settled`
says that none is.

* `IntactReplies`: nothing but the replies, in order, each one after all of the others are
  complete.
* `Event.Unbroken`: the steps that do not lead to the two branches in which a reply is cut
  off and the session goes on.
* `run_intactReplies`: the replies are intact as long as all steps are unbroken.
-/

namespace KoheronSdk

open Effects WebSocketFrame
open Effects.Prog (within_pure within_perform within_bind within_act)

/-! ## The replies -/

/-- A reply: the ids of the operation, and its value. -/
def replyCommand (driver operation : ℕ) (v : RetVal) : List UInt8 :=
  header (UInt16.ofNat driver) (UInt16.ofNat operation) ++ wireArgs v.args

/-- The reply as it goes over the socket, on a WebSocket in one binary frame. -/
def completeReply (type : SockType) (driver operation : ℕ) (v : RetVal) : List UInt8 :=
  match type with
  | .tcp | .unix => replyCommand driver operation v
  | .websock => serverFrame (replyCommand driver operation v)

/-- The reply that is due after an event. -/
def Event.replies (type : SockType) : Event → List (List UInt8)
  | .ret driver operation v => if v = .void then [] else [completeReply type driver operation v]
  | _ => []

/-- The replies that are due, in the order in which the operations returned. -/
def repliesOf (type : SockType) (t : List Event) : List (List UInt8) :=
  t.flatMap (Event.replies type)

@[simp] theorem repliesOf_concat (type : SockType) (t : List Event) (e : Event) :
    repliesOf type (t ++ [e]) = repliesOf type t ++ e.replies type := by
  rw [repliesOf, List.flatMap_append, List.flatMap_singleton, repliesOf]

@[simp] theorem sentOf_concat (t : List Event) (e : Event) :
    sentOf (t ++ [e]) = sentOf t ++ e.sent := by
  rw [sentOf, List.flatMap_append, List.flatMap_singleton, sentOf]

/-- The bytes on the socket are the replies, but that the last one may be cut off, and no
operation returns a value before all earlier replies are complete. -/
structure IntactReplies (type : SockType) (t : List Event) : Prop where
  stream : sentOf t <+: (repliesOf type t).flatten
  settled : (repliesOf type t).dropLast.flatten <+: sentOf t
  complete : ∀ before e, before ++ [e] <+: t → e.replies type ≠ [] →
    sentOf before = (repliesOf type before).flatten

/-- The size up to which a reply goes out in one piece. -/
def maxReply : SockType → ℕ
  | .tcp | .unix => 2 ^ 32 - 1
  | .websock => websockSendBufLen - 10

/-- The step does not lead to where a reply is cut off and the session goes on: the reply
to a returned value is not too large, and on a stream socket `write()` takes all of it, or
returns 0. -/
def Event.Unbroken (type : SockType) : Event → Prop
  | .ret driver operation v => (replyCommand driver operation v).length ≤ maxReply type
  | .wrote _ offered n => type = .websock ∨ n = 0 ∨ n = offered.length
  | _ => True

/-- At any time, if no step so far was broken, the replies are intact. -/
def SoundReplies (type : SockType) (t : List Event) : Prop :=
  ∀ t', t' <+: t → (∀ e ∈ t', e.Unbroken type) → IntactReplies type t'

section Trace

variable {type : SockType} {t : List Event} {e : Event}

theorem IntactReplies.nil : IntactReplies type [] := by
  refine ⟨List.prefix_rfl, List.prefix_rfl, ?_⟩
  intro before e hpre
  have h := hpre.length_le
  simp at h

/-- A step after which no other reply is due. -/
theorem IntactReplies.concat (h : IntactReplies type t) (he : e.replies type = [])
    (hsent : sentOf t ++ e.sent <+: (repliesOf type t).flatten) :
    IntactReplies type (t ++ [e]) := by
  constructor
  · rwa [sentOf_concat, repliesOf_concat, he, List.append_nil]
  · rw [sentOf_concat, repliesOf_concat, he, List.append_nil]
    exact h.settled.trans (List.prefix_append _ _)
  · intro before e' hpre he'
    rcases List.prefix_concat_iff.mp hpre with heq | hpre
    · rw [List.singleton_inj.mp (List.append_inj' heq rfl).2] at he'
      exact absurd he he'
    · exact h.complete before e' hpre he'

/-- A step after which one is, when all others are complete. -/
theorem IntactReplies.due (h : IntactReplies type t) {reply : List UInt8}
    (he : e.replies type = [reply]) (hnone : e.sent = [])
    (hall : sentOf t = (repliesOf type t).flatten) : IntactReplies type (t ++ [e]) := by
  constructor
  · rw [sentOf_concat, repliesOf_concat, he, hnone, List.append_nil, hall, List.flatten_append]
    exact List.prefix_append _ _
  · have hlast : (repliesOf type (t ++ [e])).dropLast.flatten = sentOf (t ++ [e]) := by
      rw [sentOf_concat, repliesOf_concat, he, hnone, List.append_nil, hall, List.dropLast_concat]
    exact hlast ▸ List.prefix_rfl
  · intro before e' hpre he'
    rcases List.prefix_concat_iff.mp hpre with heq | hpre
    · obtain ⟨rfl, -⟩ := List.append_inj' heq rfl
      exact hall
    · exact h.complete before e' hpre he'

theorem SoundReplies.nil : SoundReplies type [] := by
  intro t' hpre _
  rw [List.prefix_nil.mp hpre]
  exact IntactReplies.nil

theorem SoundReplies.concat (h : SoundReplies type t)
    (he : (∀ e' ∈ t, e'.Unbroken type) → e.Unbroken type → IntactReplies type (t ++ [e])) :
    SoundReplies type (t ++ [e]) := by
  intro t' hpre hunbroken
  rcases List.prefix_concat_iff.mp hpre with rfl | hpre
  · exact he (fun e' he' => hunbroken e' (List.mem_append_left _ he'))
      (hunbroken e (List.mem_append_right _ (List.mem_singleton_self e)))
  · exact h t' hpre hunbroken

/-- Behind a broken step nothing is said. -/
theorem SoundReplies.of_broken (h : SoundReplies type t) (hbroken : ¬ ∀ e ∈ t, e.Unbroken type)
    {more : List Event} (hmore : t <+: more) : SoundReplies type more := by
  intro t' hpre hunbroken
  rcases List.prefix_or_prefix_of_prefix hpre hmore with hpre | hpre
  · exact h t' hpre hunbroken
  · exact absurd (fun e he => hunbroken e (hpre.subset he)) hbroken

/-- Sound so far, and `rest` is still to be written. -/
structure Pending (type : SockType) (rest : List UInt8) (t : List Event) : Prop where
  sound : SoundReplies type t
  left : (∀ e ∈ t, e.Unbroken type) → sentOf t ++ rest = (repliesOf type t).flatten

theorem Pending.nil : Pending type [] [] := ⟨SoundReplies.nil, fun _ => rfl⟩

/-- All is written. -/
theorem Pending.all (h : Pending type [] t) (hunbroken : ∀ e ∈ t, e.Unbroken type) :
    sentOf t = (repliesOf type t).flatten := by
  rw [← h.left hunbroken, List.append_nil]

theorem Pending.quiet {rest : List UInt8} (h : Pending type rest t) (hsent : e.sent = [])
    (he : e.replies type = []) : Pending type rest (t ++ [e]) := by
  constructor
  · refine h.sound.concat fun hunbroken _ => ?_
    refine (h.sound t List.prefix_rfl hunbroken).concat he ?_
    rw [hsent, List.append_nil, ← h.left hunbroken]
    exact List.prefix_append _ _
  · intro hunbroken
    rw [sentOf_concat, repliesOf_concat, hsent, he, List.append_nil, List.append_nil]
    exact h.left fun e' he' => hunbroken e' (List.mem_append_left _ he')

/-- An operation has returned a value. -/
theorem Pending.returned (h : Pending type [] t) {driver operation : ℕ} {v : RetVal}
    (hv : v ≠ .void) :
    Pending type (completeReply type driver operation v) (t ++ [.ret driver operation v]) := by
  have hdue : (Event.ret driver operation v).replies type
      = [completeReply type driver operation v] := if_neg hv
  constructor
  · exact h.sound.concat fun hunbroken _ =>
      (h.sound t List.prefix_rfl hunbroken).due hdue rfl (h.all hunbroken)
  · intro hunbroken
    have hall := h.all fun e' he' => hunbroken e' (List.mem_append_left _ he')
    rw [sentOf_concat, repliesOf_concat, hdue, hall, List.flatten_append, List.flatten_singleton]
    exact congrArg (· ++ _) (List.append_nil _)

/-- A `write()` was offered what is left. -/
theorem Pending.wrote {rest : List UInt8} (h : Pending type rest t) (dest : SessionID) (n : ℤ) :
    Pending type (rest.drop n.toNat) (t ++ [.wrote dest rest n]) := by
  have hsent : ∀ s : List UInt8, s ++ rest.take n.toNat ++ rest.drop n.toNat = s ++ rest :=
    fun s => by
    rw [List.append_assoc, List.take_append_drop]
  constructor
  · refine h.sound.concat fun hunbroken _ => ?_
    refine (h.sound t List.prefix_rfl hunbroken).concat rfl ?_
    rw [← h.left hunbroken, ← hsent]
    exact List.prefix_append _ _
  · intro hunbroken
    rw [sentOf_concat, repliesOf_concat]
    change sentOf t ++ rest.take n.toNat ++ _ = (_ ++ []).flatten
    rw [hsent, List.append_nil]
    exact h.left fun e' he' => hunbroken e' (List.mem_append_left _ he')

end Trace

/-! ## What the session does -/

/-- What neither writes nor returns from an operation. -/
def Action.Quiet : Action → Prop
  | .write _ _ | .ret _ _ => False
  | _ => True

theorem Action.OfReading.quiet {e : Action} (h : e.OfReading) : e.Quiet := by
  cases e with
  | write dest bytes => exact h
  | ret driver operation => exact h
  | _ => trivial

theorem Action.OfParser.quiet {s : Session} {driver operation : ℕ} {e : Action}
    (h : e.OfParser s driver operation) : e.Quiet := by
  cases e with
  | write dest bytes => exact h
  | ret driver operation => exact h
  | _ => trivial

theorem Action.OfManager.quiet {e : Action} (h : e.OfManager) : e.Quiet := by
  cases e with
  | write dest bytes => exact h
  | ret driver operation => exact h
  | _ => trivial

/-- The replies that are due are complete, or the client is gone. -/
structure Settled (type : SockType) (gone : Prop) (t : List Event) : Prop where
  sound : SoundReplies type t
  settled : (∀ e ∈ t, e.Unbroken type) → sentOf t = (repliesOf type t).flatten ∨ gone

theorem Settled.mono {type : SockType} {gone gone' : Prop} {t : List Event}
    (h : Settled type gone t) (hgone : gone → gone') : Settled type gone' t :=
  ⟨h.sound, fun hunbroken => (h.settled hunbroken).imp_right hgone⟩

theorem Pending.settled {type : SockType} {rest : List UInt8} {t : List Event}
    (h : Pending type rest t) (hrest : ¬ 0 < rest.length) (gone : Prop) : Settled type gone t := by
  rw [List.length_eq_zero_iff.mp (Nat.eq_zero_of_not_pos hrest)] at h
  exact ⟨h.sound, fun hunbroken => Or.inl (h.all hunbroken)⟩

/-- The session knows that its client is gone. -/
def Session.Over (s : Session) : Prop := s.type = .websock ∧ s.websock.connectionClosed = true

/-- A command has been answered, unless the session is about to be left. -/
structure Answered (s : Session) (t : List Event) : Prop where
  sound : SoundReplies s.type t
  settled : s.closed = false → Settled s.type s.Over t

theorem Settled.answered {s : Session} {t : List Event} (h : Settled s.type s.Over t) :
    Answered s t := ⟨h.sound, fun _ => h⟩

/-- Behind a broken step nothing is asked of the session. -/
theorem Answered.of_broken {s s' : Session} {t more : List Event} (hsame : s.Same s')
    (h : SoundReplies s.type t) (hbroken : ¬ ∀ e ∈ t, e.Unbroken s.type) (hmore : t <+: more) :
    Answered s' more := by
  have hsound : SoundReplies s'.type more := hsame.1 ▸ h.of_broken hbroken hmore
  refine ⟨hsound, fun _ => ⟨hsound, fun hunbroken => absurd (fun e he => ?_) hbroken⟩⟩
  exact hsame.1 ▸ hunbroken e (hmore.subset he)

section Run

variable {arch : Arch} {drivers : List Driver} {env : Env} {s : Session} {w : View}

/-- The end of a part of the session that leaves the replies sound wherever it is stopped. -/
def Soundly (type : SockType) {α : Type} (Q : α → View → Prop) : Result Stop View α → Prop :=
  Result.Ends Q fun w => SoundReplies type w.trace

/-- A quiet part of the session changes nothing about the replies. -/
theorem wp_quiet {α : Type} {p : Program α} {P : α → Prop} (hp : p.Within Action.Quiet P)
    {type : SockType} {rest : List UInt8} (h : Pending type rest w.trace) :
    (session drivers env).wp p
      (Soundly type fun a w' => Pending type rest w'.trace ∧ P a) w := by
  have hkeep : ∀ (e : Action) (w' : View) (x : Answer e), e.Quiet →
      Pending type rest w'.trace → (session drivers env).ok e w' x →
      Pending type rest ((session drivers env).next e w' x).trace := by
    intro e w' x he h' _
    cases e with
    | read n => cases x <;> exact h'
    | write dest bytes => exact he.elim
    | ret driver operation => exact he.elim
    | received driver operation => exact h'.quiet rfl rfl
    | call driver operation names => exact h'.quiet rfl rfl
    | _ => exact h'
  refine (session drivers env).wp_mono ?_ ((session drivers env).wp_of_within hkeep hp h)
  rintro (⟨a, w'⟩ | ⟨f, w'⟩) hr
  · exact hr
  · exact hr.sound

/-! ### Sending -/

/-- The loop of `send_request` puts out all of the bytes, or ends with a `write()` that
returned no more than 0. -/
theorem wp_sendLoop_pending {type : SockType} {dest : SessionID} {fuel : ℕ} {bits : List UInt8}
    {bytesSend : ℤ} (h : Pending type bits w.trace) :
    (session drivers env).wp (WebSocket.sendLoop dest fuel bits bytesSend)
      (Soundly type fun n w' => Settled type (n ≤ 0) w'.trace) w := by
  induction fuel generalizing bits bytesSend w with
  | zero =>
    rw [WebSocket.sendLoop]
    by_cases hbits : 0 < bits.length
    · simp only [if_pos hbits]
      rw [Handler.wp_bind, wp_outOfFuel]
      exact h.sound
    · simp only [if_neg hbits]
      exact h.settled hbits _
  | succ fuel ih =>
    rw [WebSocket.sendLoop]
    by_cases hbits : 0 < bits.length
    · simp only [if_pos hbits]
      rw [Handler.wp_bind, wp_write]
      intro n _ _ _
      have hwrote := h.wrote dest n
      rw [Handler.andThen_ret]
      by_cases hn : 0 < n
      · simp only [if_pos hn]
        exact ih hwrote
      · simp only [if_neg hn]
        exact ⟨hwrote.sound, fun _ => Or.inr (Int.not_lt.mp hn)⟩
    · simp only [if_neg hbits]
      exact h.settled hbits _

theorem wp_websocketSend_pending {ws : WebSocket} {dest : SessionID} {data : List UInt8}
    (hlen : data.length ≤ maxReply .websock)
    (h : Pending .websock (serverFrame data) w.trace) :
    (session drivers env).wp (ws.send dest data)
      (Soundly .websock fun p w' =>
        Settled .websock (p.1 = 0 ∨ p.2.connectionClosed = true) w'.trace) w := by
  rw [maxReply, websockSendBufLen] at hlen
  rw [WebSocket.send]
  by_cases hclosed : ws.connectionClosed = true
  · simp only [if_pos hclosed]
    exact ⟨h.sound, fun _ => Or.inr (Or.inl rfl)⟩
  have hfits : ¬ websockSendBufLen < data.length + 10 := by rw [websockSendBufLen]; omega
  simp only [if_neg hclosed, if_neg hfits]
  rw [WebSocket.sendRequest, WebSocket.setSendHeader_append]
  simp only [if_neg hclosed]
  refine (session drivers env).wp_bind_ends (wp_sendLoop_pending h) ?_
  intro n w' hsettled
  by_cases hn : n < 0
  · simp only [if_pos hn]
    exact hsettled.mono fun _ => Or.inr rfl
  · simp only [if_neg hn]
    exact hsettled.mono fun hle => Or.inl (le_antisymm hle (Int.not_lt.mp hn))

/-- What `send` serializes is the reply. -/
theorem buildReply_eq {driver operation : ℕ} {v : RetVal} {t : RetType} (ht : v.HasType t)
    (hfits : t.scalarBytes ≤ scalarPackLen)
    (hlen : (replyCommand driver operation v).length < 2 ^ 32) :
    Server.buildReply (UInt16.ofNat driver) (UInt16.ofNat operation) v
      = some (replyCommand driver operation v) := by
  refine buildCommand_eq _ _ (Server.appendable _) (v.scalarRunsFit ht hfits) fun a ha => ?_
  refine lt_of_le_of_lt ?_ hlen
  rw [replyCommand, List.length_append]
  exact (a.length_data_le_wire.trans (length_wire_le_wireArgs ha)).trans (Nat.le_add_left _ _)

/-- **`send`** writes the reply, or the session is over, or about to be. -/
theorem wp_send_pending {driver operation : ℕ} {v : RetVal} {t : RetType} (ht : v.HasType t)
    (hfits : t.scalarBytes ≤ scalarPackLen)
    (hlen : (∀ e ∈ w.trace, e.Unbroken s.type) →
      (replyCommand driver operation v).length ≤ maxReply s.type)
    (h : Pending s.type (completeReply s.type driver operation v) w.trace) :
    (session drivers env).wp (s.send driver operation v)
      (Soundly s.type fun p w' => s.Same p.2 ∧ Answered p.2 w'.trace) w := by
  by_cases hunbroken : ∀ e ∈ w.trace, e.Unbroken s.type
  · have hmax := hlen hunbroken
    have hlt : (replyCommand driver operation v).length < 2 ^ 32 := by
      refine lt_of_le_of_lt hmax ?_
      cases s.type <;> decide
    have hbuf := buildReply_eq ht hfits hlt
    have hoffered : Session.offered (replyCommand driver operation v)
        = replyCommand driver operation v := by
      rw [Session.offered, Nat.mod_eq_of_lt hlt, List.take_length]
    cases htype : s.type with
    | tcp | unix =>
      rw [htype, completeReply] at h
      rw [wp_send_stream (by rw [htype]; decide) hbuf, hoffered]
      intro n _ hle _
      have hwrote := h.wrote s.id n
      by_cases hzero : n = 0
      · rw [if_pos hzero]
        have hsound : SoundReplies s.type (w.trace ++ [.wrote s.id _ n]) := htype ▸ hwrote.sound
        exact ⟨⟨rfl, rfl⟩, hsound, fun hopen => Bool.noConfusion hopen⟩
      · rw [if_neg hzero]
        refine ⟨s.same_refl, Settled.answered ?_⟩
        rw [htype]
        refine ⟨hwrote.sound, fun hunbroken' => Or.inl ?_⟩
        have hlast := hunbroken' _ (List.mem_append_right _ (List.mem_singleton_self _))
        have hall : n = (replyCommand driver operation v).length :=
          (hlast.resolve_left (by decide)).resolve_left hzero
        rw [hall, Int.toNat_natCast, List.drop_length] at hwrote
        rw [hall] at hunbroken' ⊢
        exact hwrote.all hunbroken'
    | websock =>
      rw [htype, completeReply] at h
      rw [htype] at hmax
      have hprog : s.send driver operation v = s.websock.send s.id (replyCommand driver operation v)
          >>= fun p => if p.1 = 0 then
            pure (p.1, { s with websock := p.2, closed := true })
          else pure (p.1, { s with websock := p.2 }) := by
        rw [Session.send, hbuf]
        simp only [Session.write, htype, hoffered, bind_assoc, pure_bind]
      rw [hprog]
      refine (session drivers env).wp_bind_ends (wp_websocketSend_pending hmax h) ?_
      rintro ⟨n, ws⟩ w' hsettled
      by_cases hzero : n = 0
      · simp only [if_pos hzero]
        have hsound : SoundReplies s.type w'.trace := htype ▸ hsettled.sound
        exact ⟨⟨rfl, rfl⟩, hsound, fun hopen => Bool.noConfusion hopen⟩
      · simp only [if_neg hzero]
        have hover : Settled s.type (Session.Over { s with websock := ws }) w'.trace := by
          rw [htype]
          exact hsettled.mono fun hover => ⟨rfl, hover.resolve_left hzero⟩
        exact ⟨⟨rfl, rfl⟩, hover.answered⟩
  · -- a step before was broken, so nothing is asked of the rest
    have hwithin : (s.send driver operation v).Within
        (Action.OfOperation drivers s driver operation) fun p => s.Same p.2 :=
      within_send driver operation v
    refine (session drivers env).wp_mono ?_ ((session drivers env).wp_and
      (wp_trace (s.send driver operation v) w) ((session drivers env).wp_of_gives hwithin.2))
    rintro (⟨p, w'⟩ | ⟨f, w'⟩) ⟨hmore, hsame⟩
    · exact ⟨hsame, Answered.of_broken hsame h.sound hunbroken hmore⟩
    · exact h.sound.of_broken hunbroken hmore

/-! ### Executing -/

theorem RetVal.HasType.void_iff {v : RetVal} {t : RetType} (h : v.HasType t) :
    v = .void ↔ t = .void := by
  constructor
  · rintro rfl
    cases t with
    | void => rfl
    | _ => exact h.elim
  · rintro rfl
    cases v with
    | void => rfl
    | _ => exact h.elim

/-- What an operation returns is in the trace. -/
theorem wp_ret_trace {type : SockType} {driver operation : ℕ} (hsound : SoundReplies type w.trace) :
    (session drivers env).wp (ret driver operation)
      (Soundly type fun v w' => Returns drivers driver operation v ∧
        w'.trace = w.trace ++ [.ret driver operation v]) w := by
  by_cases hw : w.calling = some (driver, operation)
  · rw [wp_ret hw]
    exact fun v hv => ⟨hv, rfl⟩
  · have hstop : (session drivers env).stop (.ret driver operation) w
        = some (.undefined .unprotected) := if_neg hw
    exact ((session drivers env).wp_act_some hstop).mpr hsound

/-- **The code of `generate_call`** answers the command. -/
theorem wp_generateCall_pending {driver operation : ℕ} {op : Operation}
    (hop : findOperation drivers driver operation = some op) (h : Pending s.type [] w.trace) :
    (session drivers env).wp (s.generateCall driver operation op)
      (Soundly s.type fun p w' => s.Same p.2 ∧ Answered p.2 w'.trace) w := by
  rw [Session.generateCall]
  refine (session drivers env).wp_bind_ends
    (wp_quiet (Prog.within_perform (by trivial)) h) ?_
  rintro ⟨⟩ w₁ ⟨h₁, -⟩
  refine (session drivers env).wp_bind_ends (wp_ret_trace h₁.sound) ?_
  rintro v w₂ ⟨hv, htrace⟩
  have htype := hv op hop
  by_cases hvoid : op.retType = .void
  · rw [if_pos hvoid]
    have hquiet : (Event.ret driver operation v).replies s.type = [] :=
      if_pos (htype.void_iff.mpr hvoid)
    have h₂ : Pending s.type [] w₂.trace := htrace ▸ h₁.quiet rfl hquiet
    exact ⟨s.same_refl, (h₂.settled (Nat.lt_irrefl 0) _).answered⟩
  · rw [if_neg hvoid]
    refine wp_send_pending htype op.ret_fits ?_ ?_
    · intro hunbroken
      rw [htrace] at hunbroken
      exact hunbroken _ (List.mem_append_right _ (List.mem_singleton_self _))
    · rw [htrace]
      exact h₁.returned (mt htype.void_iff.mp hvoid)

/-- Releasing the mutex. -/
theorem wp_unlock_answered {s' : Session} {err : ℤ} {driver : ℕ} (hsame : s.Same s')
    (h : Answered s' w.trace) :
    (session drivers env).wp (unlock driver >>= fun _ => pure (err, s'))
      (Soundly s.type fun p w' => s.Same p.2 ∧ Answered p.2 w'.trace) w := by
  by_cases hw : w.held = some driver
  · rw [Handler.wp_bind, wp_unlock hw]
    exact ⟨hsame, h⟩
  · have hstop : (session drivers env).stop (.unlock driver) w
        = some (.undefined .mutex) := if_neg hw
    rw [Handler.wp_bind]
    refine ((session drivers env).wp_act_some hstop).mpr ?_
    exact (hsame.1 ▸ h.sound : SoundReplies s.type w.trace)

/-- **`Driver<driver>::execute`** answers the command. -/
theorem wp_execute_pending {driver : ℕ} {cmd : Command} (h : Pending s.type [] w.trace) :
    (session drivers env).wp (s.execute arch drivers driver cmd)
      (Soundly s.type fun p w' => s.Same p.2 ∧ Answered p.2 w'.trace) w := by
  rw [Session.execute]
  refine (session drivers env).wp_bind_ends
    (wp_quiet (Prog.within_perform (by trivial)) h) ?_
  rintro _ w₁ ⟨h₁, -⟩
  have hidle : ∀ {w : View}, Pending s.type [] w.trace → Answered s w.trace :=
    fun h => (h.settled (Nat.lt_irrefl 0) _).answered
  cases hop : findOperation drivers driver cmd.operation with
  | none => exact wp_unlock_answered s.same_refl (hidle h₁)
  | some op =>
    have hoperation : (session drivers env).wp
        (s.executeOperation arch driver cmd.operation op cmd)
        (Soundly s.type fun p w' => s.Same p.2 ∧ Answered p.2 w'.trace) w₁ := by
      refine (session drivers env).wp_bind_ends
        (wp_quiet ((within_parse op.packs cmd).mono (fun e he => he.quiet) fun _ hp => hp) h₁) ?_
      rintro ⟨err, cmd'⟩ w₂ ⟨h₂, -⟩
      by_cases herr : err < 0
      · simp only [if_pos herr]
        exact ⟨s.same_refl, hidle h₂⟩
      · simp only [if_neg herr]
        exact wp_generateCall_pending hop h₂
    refine (session drivers env).wp_bind_ends hoperation ?_
    rintro ⟨err, s'⟩ w₂ ⟨hsame, hanswered⟩
    exact wp_unlock_answered hsame hanswered

/-- **`DriverManager::execute`** answers the command. -/
theorem wp_managerExecute_pending {cmd : Command} (h : Pending s.type [] w.trace) :
    (session drivers env).wp (DriverManager.execute arch drivers s cmd)
      (Soundly s.type fun p w' => s.Same p.2 ∧ Answered p.2 w'.trace) w := by
  have himplementation : ∀ (type : ℕ) (devs : List ℕ) {w : View}, Pending s.type [] w.trace →
      (session drivers env).wp
        (DriverManager.executeDriverImplementation arch drivers s type cmd devs)
        (Soundly s.type fun p w' => s.Same p.2 ∧ Answered p.2 w'.trace) w := by
    intro type devs w h
    induction devs with
    | nil => exact ⟨s.same_refl, (h.settled (Nat.lt_irrefl 0) _).answered⟩
    | cons dev₀ devs ih =>
      cases devs with
      | nil => exact wp_execute_pending h
      | cons dev₁ devs =>
        simp only [DriverManager.executeDriverImplementation]
        split
        · exact wp_execute_pending h
        · exact ih
  have hselected : ∀ {w : View}, Pending s.type [] w.trace → (session drivers env).wp
      (device (cmd.driver - firstDriverId) >>= fun type =>
        DriverManager.executeDriverImplementation arch drivers s type cmd
          (DriverManager.driverRange drivers))
      (Soundly s.type fun p w' => s.Same p.2 ∧ Answered p.2 w'.trace) w := by
    intro w h
    refine (session drivers env).wp_bind_ends (wp_quiet (Prog.within_perform (by trivial)) h) ?_
    rintro type w₁ ⟨h₁, -⟩
    exact himplementation type _ h₁
  rw [DriverManager.execute]
  split
  · exact ⟨s.same_refl, (h.settled (Nat.lt_irrefl 0) _).answered⟩
  split
  · exact wp_execute_pending h
  refine (session drivers env).wp_bind_ends (wp_quiet (Prog.within_perform (by trivial)) h) ?_
  rintro started w₁ ⟨h₁, -⟩
  cases started with
  | true => exact hselected h₁
  | false =>
    refine (session drivers env).wp_bind_ends
      (wp_quiet (within_startImpl (fun e he => he.quiet) _) h₁) ?_
    rintro ⟨⟩ w₂ ⟨h₂, -⟩
    exact hselected h₂

/-! ### The session -/

/-- When the client is known to be gone no further command is read. -/
theorem readCommand_of_over (hover : s.Over) (fuel : ℕ) (cmd : Command) :
    s.readCommand fuel cmd = pure (0, s, cmd) := by
  obtain ⟨htype, hclosed⟩ := hover
  have hread : s.websock.readCommand fuel cmd = pure (0, s.websock, cmd) := by
    rw [WebSocket.readCommand, WebSocket.receiveCmd, if_pos hclosed]
    simp only [pure_bind, lt_self_iff_false, if_false, if_pos hclosed]
  rw [Session.readCommand, htype]
  simp only [hread, pure_bind, ← htype]

/-- **The loop of `run`** keeps the replies sound. -/
theorem wp_serve_sound {fuel : ℕ} (h : Settled s.type s.Over w.trace) :
    (session drivers env).wp (s.serve arch drivers fuel)
      (Soundly s.type fun p w' => s.Same p.2 ∧ SoundReplies s.type w'.trace) w := by
  induction fuel generalizing s w with
  | zero => exact h.sound
  | succ fuel ih =>
    rw [Session.serve]
    rw [Handler.wp_bind, wp_exitSignal]
    intro stop _
    rw [Handler.andThen_ret]
    cases stop with
    | true => exact ⟨s.same_refl, h.sound⟩
    | false =>
      simp only [Bool.false_eq_true, if_false]
      rw [Handler.wp_bind, wp_uninit]
      intro mem
      rw [Handler.andThen_ret]
      -- after a reply that is not complete no command is read
      by_cases hover : s.Over
      · rw [readCommand_of_over hover, pure_bind, Handler.wp_bind, wp_exitSignal]
        intro stop _
        rw [Handler.andThen_ret]
        cases stop with
        | true => exact ⟨s.same_refl, h.sound⟩
        | false => exact ⟨s.same_refl, h.sound⟩
      have hpending : Pending s.type [] w.trace :=
        ⟨h.sound, fun hunbroken => by
          rw [List.append_nil]; exact (h.settled hunbroken).resolve_right hover⟩
      refine (session drivers env).wp_bind_ends (wp_quiet
        ((within_readCommand fuel _).mono (fun e he => he.quiet) fun _ hp => hp) hpending) ?_
      rintro ⟨n, s₁, cmd⟩ w₁ ⟨h₁, hsame₁⟩
      have htype₁ : s₁.type = s.type := hsame₁.1
      rw [Handler.wp_bind, wp_exitSignal]
      intro stop _
      rw [Handler.andThen_ret]
      cases stop with
      | true => exact ⟨hsame₁, h₁.sound⟩
      | false =>
        by_cases hn : n ≤ 0
        · simp only [Bool.false_eq_true, if_false, if_pos hn]
          exact ⟨hsame₁, h₁.sound⟩
        simp only [Bool.false_eq_true, if_false, if_neg hn]
        rw [← htype₁] at h₁ ⊢
        refine (session drivers env).wp_bind_ends (wp_managerExecute_pending h₁) ?_
        rintro ⟨m, s₂⟩ w₂ ⟨hsame₂, hanswered⟩
        have htype₂ : s₂.type = s₁.type := hsame₂.1
        have hsame : s.Same s₂ := ⟨htype₂.trans htype₁, hsame₂.2.trans hsame₁.2⟩
        cases hclosed : s₂.closed with
        | true =>
          simp only [if_true]
          exact ⟨hsame, htype₂ ▸ hanswered.sound⟩
        | false =>
          simp only [Bool.false_eq_true, if_false]
          refine (session drivers env).wp_mono ?_ (ih (hanswered.settled hclosed))
          rintro (⟨p, w'⟩ | ⟨f, w'⟩) hr
          · exact ⟨⟨hr.1.1.trans hsame.1, hr.1.2.trans hsame.2⟩, htype₂ ▸ hr.2⟩
          · exact (htype₂ ▸ hr : SoundReplies s₁.type w'.trace)

/-- A `write()` of what is left of a closing frame. -/
def Event.IsClosing : Event → Prop
  | .wrote _ offered _ => offered <:+ WebSocket.setSendHeader 0 136
  | _ => False

instance : (e : Event) → Decidable e.IsClosing
  | .wrote _ offered _ =>
    decidable_of_iff (offered.isSuffixOf (WebSocket.setSendHeader 0 136) = true)
      List.isSuffixOf_iff_suffix
  | .header .. | .call .. | .ret .. => isFalse id

/-- The trace has been continued by nothing but closing. -/
def ClosedAfter (served t : List Event) : Prop :=
  ∃ closing, t = served ++ closing ∧ ∀ e ∈ closing, e.IsClosing

theorem ClosedAfter.rfl {t : List Event} : ClosedAfter t t :=
  ⟨[], (List.append_nil t).symm, fun _ he => (List.not_mem_nil he).elim⟩

/-- Sending what is left of the closing frame. -/
def Action.OfClosing : Action → Prop
  | .write _ bytes => bytes <:+ WebSocket.setSendHeader 0 136
  | .outOfFuel => True
  | _ => False

theorem Action.OfWriting.ofClosing {id : SessionID} (e : Action)
    (h : e.OfWriting id (· <:+ WebSocket.setSendHeader 0 136)) : e.OfClosing := by
  cases e with
  | write dest bytes => exact h.2
  | outOfFuel => trivial
  | _ => exact h.elim

/-- **`exit_socket`** writes a closing frame or nothing. -/
theorem wp_exitSocket_closed {type : SockType} {served : List Event}
    (h : ClosedAfter served w.trace) :
    (session drivers env).wp (Session.exitSocket type s)
      (fun r => ClosedAfter served r.world.trace) w := by
  have hkeep : ∀ (e : Action) (w' : View) (x : Answer e), e.OfClosing →
      ClosedAfter served w'.trace → (session drivers env).ok e w' x →
      ClosedAfter served ((session drivers env).next e w' x).trace := by
    rintro e w' x he ⟨closing, hw', hclosing⟩ -
    cases e with
    | write dest bytes =>
      refine ⟨closing ++ [.wrote dest bytes x], ?_, ?_⟩
      · rw [← List.append_assoc, ← hw']
        rfl
      · intro e' he'
        rcases List.mem_append.mp he' with he' | he'
        · exact hclosing e' he'
        · rw [List.mem_singleton.mp he']
          exact he
    | outOfFuel => exact ⟨closing, hw', hclosing⟩
    | _ => exact he.elim
  exact (session drivers env).wp_of_only hkeep
    ((within_exitSocket type s).1.mono Action.OfWriting.ofClosing) h

end Run

/-- **The stream of replies.**  In every run of a session, but for the closing frame of a
WebSocket at the end, the bytes on the socket are at any time the complete replies of the
executed operations, in the order of execution, of which the last one may be cut off or
missing; and while an operation returns a value all earlier replies have been written in
full, as long as every step so far was unbroken. -/
theorem run_intactReplies (arch : Arch) (drivers : List Driver) (s : Session) (input : List UInt8)
    (ending : Ending) (fuel : ℕ) :
    ∀ pick, (session drivers .any).Allows pick →
      ∃ served, ClosedAfter served
          ((session drivers .any).exec pick 0 (s.run arch drivers (fun s => pure (0, s)) fuel)
            (View.start input ending)).world.trace ∧
        ∀ t, t <+: served → (∀ e ∈ t, e.Unbroken s.type) → IntactReplies s.type t := by
  intro pick hpick
  have hinit : s.initSocket (fun s => pure (0, s)) = pure (0, s) := by
    rw [Session.initSocket]
    cases s.type <;> rfl
  have hstart : Settled s.type s.Over (View.start input ending).trace :=
    Pending.nil.settled (Nat.lt_irrefl 0) _
  suffices hrun : (session drivers .any).wp (s.run arch drivers (fun s => pure (0, s)) fuel)
      (fun r => ∃ served, ClosedAfter served r.world.trace ∧ SoundReplies s.type served)
      (View.start input ending) from (session drivers .any).wp_exec hpick hrun 0
  rw [Session.run, hinit, pure_bind]
  simp only [lt_self_iff_false, if_false]
  refine (session drivers .any).wp_bind_intro ((session drivers .any).wp_mono ?_
    (wp_serve_sound hstart))
  rintro (⟨⟨_ | n, served⟩, w⟩ | ⟨f, w⟩) hr
  · have hserved : ClosedAfter w.trace w.trace := ClosedAfter.rfl
    refine (session drivers .any).wp_bind_intro ((session drivers .any).wp_mono ?_
      (wp_exitSocket_closed hserved))
    rintro (⟨m, w'⟩ | ⟨f, w'⟩) hclosed
    · exact ⟨w.trace, hclosed, hr.2⟩
    · exact ⟨w.trace, hclosed, hr.2⟩
  · exact ⟨w.trace, ClosedAfter.rfl, hr.2⟩
  · exact ⟨w.trace, ClosedAfter.rfl, hr⟩

/-- Two commands for `get`, the second of them behind the answer to the first. -/
theorem run_intactReplies_probe :
    ∃ served, ClosedAfter served
        ((session probeDrivers .any).exec (eager probeDrivers) 0
          (probeSession.run .lp64 probeDrivers (fun s => pure (0, s)) 3)
          (View.start (streamOf [⟨2, 1, []⟩, ⟨2, 1, []⟩]) .eof)).world.trace ∧
      ∀ t, t <+: served → (∀ e ∈ t, e.Unbroken probeSession.type) →
        IntactReplies probeSession.type t :=
  run_intactReplies .lp64 probeDrivers probeSession _ .eof 3 (eager probeDrivers)
    (eager_allows_any probeDrivers)

/-- Surroundings in which a `write()` takes no more than three bytes. -/
def shortWrites (drivers : List Driver) : ℕ → (e : Action) → View → Answer e
  | _, .write _ bytes, _ => (Nat.min 3 bytes.length : ℤ)
  | i, e, w => eager drivers i e w

theorem shortWrites_allows (drivers : List Driver) :
    (session drivers .any).Allows (shortWrites drivers) := by
  intro i e w hs
  cases e with
  | write dest bytes =>
    have hlow : (-1 : ℤ) ≤ (Nat.min 3 bytes.length : ℕ) := by omega
    have hhigh : ((Nat.min 3 bytes.length : ℕ) : ℤ) ≤ bytes.length :=
      Int.ofNat_le.mpr (Nat.min_le_right 3 bytes.length)
    exact ⟨⟨hlow, hhigh⟩, trivial⟩
  | _ => exact eager_allows_any drivers i _ w hs

/-- The socket takes three bytes of the reply to `get`.  The session goes on, and writes the
reply to the next command behind them. -/
theorem not_intactReplies_of_shortWrite :
    ¬ ∀ pick, (session probeDrivers .any).Allows pick →
      ∃ served, ClosedAfter served
          ((session probeDrivers .any).exec pick 0
            (probeSession.run .lp64 probeDrivers (fun s => pure (0, s)) 3)
            (View.start (streamOf [⟨2, 1, []⟩, ⟨2, 1, []⟩]) .eof)).world.trace ∧
        ∀ t, t <+: served → IntactReplies probeSession.type t := by
  intro h
  obtain ⟨served, ⟨closing, htrace, hclosing⟩, hintact⟩ :=
    h (shortWrites probeDrivers) (shortWrites_allows probeDrivers)
  -- a stream socket is left without a closing frame
  have hopen : ∀ e ∈ ((session probeDrivers .any).exec (shortWrites probeDrivers) 0
      (probeSession.run .lp64 probeDrivers (fun s => pure (0, s)) 3)
      (View.start (streamOf [⟨2, 1, []⟩, ⟨2, 1, []⟩]) .eof)).world.trace, ¬ e.IsClosing := by
    decide +kernel
  have hnil : closing = [] := by
    refine List.eq_nil_iff_forall_not_mem.mpr fun e he => hopen e ?_ (hclosing e he)
    rw [htrace]
    exact List.mem_append_right _ he
  rw [hnil, List.append_nil] at htrace
  have hfirst : served.take 6 ++ [.ret 2 1 probeGet.retType.some] <+: served := by
    rw [← htrace]
    decide +kernel
  have hcomplete := (hintact served List.prefix_rfl).complete _ _ hfirst (by decide)
  rw [← htrace] at hcomplete
  revert hcomplete
  decide +kernel

end KoheronSdk
