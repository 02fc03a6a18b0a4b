import KoheronSdk.Server.Serving

/-!
# A session keeps in step with its client

The commands of a client lie on the stream one behind the other, and nothing but
their own lengths separates them.  A session that reads too much or too little of
one of them takes payload for a header from then on.

## When a command is rejected

A command for a driver or an operation that there is not is answered by no operation, and
nobody reads its payload: `Driver::execute` returns -1, and `run` goes on with the next header,
which is then taken from this payload.  So a session stays in step exactly as long as the commands
that it rejects have no payload, but for the last one, whose payload may be too short to be a
header (`Drained`).  That the condition is necessary is shown by runs in which no reply is
written, which go through all commands.

## How it is proved

`InStep` is said of the trace: which headers were decoded, each behind how many bytes, and which
calls were made with which arguments.  The loop of the session is followed by an induction on the
commands that are still on the stream, with what one round adds to the trace (`roundEvents`).  The
rules of `Server/Parsing` give the round; how `read()` cuts the bytes plays no part any more.

* `InStep`: every header that was decoded starts where the client started one, every
  call has the arguments that were sent, and when no reply failed nothing is left out.
* `wp_serve_served`: a session is in step when the commands it rejects carry no
  payload.
* `run_executes_commands`: what the client encoded is executed.
* `run_inStep_iff`: with commands that are rejected among them, a session stays in
  step exactly when none of these leaves bytes behind.
-/

namespace KoheronSdk

open Effects

/-! ## What a trace shows -/

/-- The ids of a header, and the number of bytes read when it was decoded. -/
abbrev HeaderRecord := ℕ × ℕ × ℕ

/-- An operation, its arguments, and the number of bytes read when it was called. -/
abbrev CallRecord := ℕ × ℕ × List (Option ArgVal) × ℕ

/-- The headers in a trace. -/
def headersOf (t : List Event) : List HeaderRecord :=
  t.filterMap fun
    | .header d op consumed => some (d, op, consumed)
    | _ => none

/-- The calls in a trace. -/
def callsOf (t : List Event) : List CallRecord :=
  t.filterMap fun
    | .call d op args consumed => some (d, op, args, consumed)
    | _ => none

/-- A `write()` took all it was offered. -/
def Event.Complete : Event → Prop
  | .wrote _ bytes n => 0 < n ∧ n = bytes.length
  | _ => True

instance : DecidablePred Event.Complete := fun e => by
  cases e <;> unfold Event.Complete <;> infer_instance

/-- Every `write()` took all it was offered. -/
def WritesComplete (t : List Event) : Prop := ∀ e ∈ t, e.Complete

instance (t : List Event) : Decidable (WritesComplete t) :=
  inferInstanceAs (Decidable (∀ e ∈ t, e.Complete))

/-! ## What the client sent -/

/-- The header of a command that starts behind `base` bytes. -/
def Message.headerRecord (base : ℕ) (m : Message) : HeaderRecord :=
  (m.driver.toNat, m.operation.toNat, base + headerSize)

/-- The call that a command asks for, if its operation exists. -/
def Message.callRecord (drivers : List Driver) (base : ℕ) (m : Message) : Option CallRecord :=
  (m.operation? drivers).bind fun op => (readArgs op.types m.payload).map fun p =>
    (m.driver.toNat, m.operation.toNat, p.1.map some, base + m.bytes.length)

/-- The headers of commands that start behind `base` bytes. -/
def expectedHeaders (base : ℕ) : List Message → List HeaderRecord
  | [] => []
  | m :: ms => m.headerRecord base :: expectedHeaders (base + m.bytes.length) ms

/-- The calls that commands behind `base` bytes ask for. -/
def expectedCalls (drivers : List Driver) (base : ℕ) : List Message → List CallRecord
  | [] => []
  | m :: ms => (m.callRecord drivers base).toList
      ++ expectedCalls drivers (base + m.bytes.length) ms

/-- If the operation exists, the payload is what a client makes of arguments of its
signature. -/
def Message.WellFormed (drivers : List Driver) (m : Message) : Prop :=
  ∀ op, m.operation? drivers = some op → ∃ args,
    List.Forall₂ ArgVal.HasType args op.types ∧ ScalarRunsFit 0 args ∧
      (∀ a ∈ args, a.Small) ∧ m.payload = wireArgs args

/-- The bytes of some commands. -/
def streamOf (ms : List Message) : List UInt8 := ms.flatMap Message.bytes

@[simp] theorem streamOf_nil : streamOf [] = [] := rfl

@[simp] theorem streamOf_cons (m : Message) (ms : List Message) :
    streamOf (m :: ms) = m.bytes ++ streamOf ms := List.flatMap_cons

/-! ## In step -/

/-- A run with this trace, which stopped for this reason if it stopped, is in step
with a client that sent `ms`. -/
structure InStep (drivers : List Driver) (ms : List Message) (trace : List Event)
    (stop? : Option Stop) : Prop where
  headers : headersOf trace <+: expectedHeaders 0 ms
  calls : callsOf trace <+: expectedCalls drivers 0 ms
  defined : ∀ f, stop? ≠ some (.undefined f)
  complete : WritesComplete trace →
    headersOf trace = expectedHeaders 0 ms ∧ callsOf trace = expectedCalls drivers 0 ms

/-- From `w` on, the session serves `ms`: `InStep` for the rest of a stream. -/
structure Served {α : Type} (drivers : List Driver) (w : View) (ms : List Message)
    (r : Result Stop View α) (t : List Event) : Prop where
  trace : r.world.trace = w.trace ++ t
  headers : headersOf t <+: expectedHeaders w.consumed ms
  calls : callsOf t <+: expectedCalls drivers w.consumed ms
  defined : ∀ f, r.stop? ≠ some (.undefined f)
  complete : WritesComplete t →
    headersOf t = expectedHeaders w.consumed ms ∧ callsOf t = expectedCalls drivers w.consumed ms

theorem headersOf_append (t u : List Event) : headersOf (t ++ u) = headersOf t ++ headersOf u :=
  List.filterMap_append

theorem callsOf_append (t u : List Event) : callsOf (t ++ u) = callsOf t ++ callsOf u :=
  List.filterMap_append

theorem WritesComplete.of_append {t u : List Event} (h : WritesComplete (t ++ u)) :
    WritesComplete t ∧ WritesComplete u :=
  List.forall_mem_append.mp h

/-- Serving one more command in front.  Where it ends matters to those behind it
only. -/
theorem Served.cons {α : Type} {drivers : List Driver} {w w' : View} {m : Message}
    {ms : List Message} {r : Result Stop View α} {t e : List Event}
    (htrace : w'.trace = w.trace ++ e)
    (hconsumed : ms = [] ∨ w'.consumed = w.consumed + m.bytes.length)
    (hheaders : headersOf e = [m.headerRecord w.consumed])
    (hcalls : callsOf e = (m.callRecord drivers w.consumed).toList)
    (h : Served drivers w' ms r t) : Served drivers w (m :: ms) r (e ++ t) := by
  have hsame : expectedHeaders w'.consumed ms = expectedHeaders (w.consumed + m.bytes.length) ms ∧
      expectedCalls drivers w'.consumed ms
        = expectedCalls drivers (w.consumed + m.bytes.length) ms := by
    rcases hconsumed with rfl | hc
    · exact ⟨rfl, rfl⟩
    · rw [hc]; exact ⟨rfl, rfl⟩
  constructor
  · rw [h.trace, htrace, List.append_assoc]
  · rw [headersOf_append, hheaders, expectedHeaders, ← hsame.1]
    exact (List.prefix_append_right_inj _).mpr h.headers
  · rw [callsOf_append, hcalls, expectedCalls, ← hsame.2]
    exact (List.prefix_append_right_inj _).mpr h.calls
  · exact h.defined
  · intro hw
    obtain ⟨hh, hc⟩ := h.complete hw.of_append.2
    rw [headersOf_append, callsOf_append, hheaders, hcalls, hh, hc, hsame.1, hsame.2]
    exact ⟨rfl, rfl⟩

/-- Nothing is left to serve. -/
theorem Served.nil {α : Type} {drivers : List Driver} {w : View} {r : Result Stop View α}
    (htrace : r.world.trace = w.trace) (hdefined : ∀ f, r.stop? ≠ some (.undefined f)) :
    Served drivers w [] r [] where
  trace := by rw [htrace, List.append_nil]
  headers := List.prefix_rfl
  calls := List.prefix_rfl
  defined := hdefined
  complete _ := ⟨rfl, rfl⟩

/-- A session that closes after a command because its reply was not taken. -/
theorem Served.closed {α : Type} {drivers : List Driver} {w w' : View} {m : Message}
    {ms : List Message} {a : α} {e : List Event} {dest : SessionID} {bytes : List UInt8}
    (htrace : w'.trace = w.trace ++ e) (hheaders : headersOf e = [m.headerRecord w.consumed])
    (hcalls : callsOf e = (m.callRecord drivers w.consumed).toList)
    (hzero : .wrote dest bytes 0 ∈ e) : Served drivers w (m :: ms) (.ret a w') e where
  trace := htrace
  headers := by rw [hheaders, expectedHeaders]; exact ⟨_, rfl⟩
  calls := by rw [hcalls, expectedCalls]; exact List.prefix_append _ _
  defined := fun f h => by cases h
  complete hw := absurd (hw _ hzero).1 (lt_irrefl 0)

/-- What a round adds to the trace, before the reply. -/
def roundEvents (w : View) (m : Message) (vals : List ArgVal) (v : RetVal) : List Event :=
  [.header m.driver.toNat m.operation.toNat (w.consumed + headerSize),
    .call m.driver.toNat m.operation.toNat (vals.map some) (w.consumed + m.bytes.length),
    .ret m.driver.toNat m.operation.toNat v]

section Round

variable (w : View) (m : Message) (vals : List ArgVal) (v : RetVal)

theorem View.consumed_executed :
    (w.executed m vals v).consumed = w.consumed + m.bytes.length := by
  rw [m.length_bytes, ← Nat.add_assoc]
  rfl

theorem View.trace_executed :
    (w.executed m vals v).trace = w.trace ++ roundEvents w m vals v := by
  have h : (w.executed m vals v).trace = w.trace ++
      [.header m.driver.toNat m.operation.toNat (w.consumed + headerSize),
        .call m.driver.toNat m.operation.toNat (vals.map some) (w.executed m vals v).consumed,
        .ret m.driver.toNat m.operation.toNat v] := by
    change ((w.trace ++ [_]) ++ [_]) ++ [_] = _
    rw [List.append_assoc, List.append_assoc]
    rfl
  rwa [w.consumed_executed] at h

theorem View.trace_executed_log (e : Event) :
    ((w.executed m vals v).log e).trace = w.trace ++ (roundEvents w m vals v ++ [e]) := by
  rw [← List.append_assoc, ← w.trace_executed]
  rfl

end Round

/-- A rejected command leaves nothing on the stream that the session could take for
a header: it has no payload, or it is the last one and its payload is too short. -/
def Drained (drivers : List Driver) : List Message → Prop
  | [] => True
  | m :: ms =>
    (m.operation? drivers = none → m.driver.toNat < deviceNum drivers ∧
      (m.payload = [] ∨ (ms = [] ∧ m.payload.length < headerSize))) ∧ Drained drivers ms

instance decidableDrained (drivers : List Driver) :
    (ms : List Message) → Decidable (Drained drivers ms)
  | [] => isTrue trivial
  | _ :: ms =>
    have := decidableDrained drivers ms
    inferInstanceAs (Decidable (_ ∧ _))

section Serve

variable {drivers : List Driver} {env : Env} {arch : Arch} {s : Session}

theorem Message.WellFormed.read {m : Message} (hm : m.WellFormed drivers) {op : Operation}
    (hop : m.operation? drivers = some op) :
    ∃ args, (∀ rest, readArgs op.types (m.payload ++ rest) = some (args, rest)) ∧
      (∀ p ∈ op.packs, p.scalarBytes < 2 ^ 31) ∧ (∀ a ∈ args, a.Small) ∧
      ∀ base, m.callRecord drivers base
        = some (m.driver.toNat, m.operation.toNat, args.map some, base + m.bytes.length) := by
  obtain ⟨args, htypes, hfit, hsmall, hpayload⟩ := hm op hop
  have hread : ∀ rest, readArgs op.types (m.payload ++ rest) = some (args, rest) := fun rest => by
    rw [hpayload]; exact readArgs_wireArgs htypes (fun v hv => (hsmall v hv).counted) rest
  refine ⟨args, hread, fun p hp => ?_, hsmall, fun base => ?_⟩
  · exact lt_of_le_of_lt (op.scalarBytes_packs htypes hfit p hp) (by decide)
  · have h := hread []
    rw [List.append_nil] at h
    rw [Message.callRecord, hop, Option.bind_some, h, Option.map_some]

/-- **The session serves its client.**  The induction is on the commands that are
still on the stream. -/
theorem wp_serve_served (hexit : ∀ b, env.exit b ↔ b = false) (htype : s.type ≠ .websock)
    (hopen : s.closed = false) {ms : List Message} (hms : ∀ m ∈ ms, m.WellFormed drivers)
    (hdrained : Drained drivers ms) {fuel : ℕ} (hfuel : ms.length < fuel) {w : View}
    (hw : w.AtRest) (hin : w.input = streamOf ms) :
    (session drivers env).wp (s.serve arch drivers fuel) (fun r => ∃ t, Served drivers w ms r t)
      w := by
  have hend : ∀ {w' : View} {fuel : ℕ}, 0 < fuel → w'.input.length < headerSize →
      (session drivers env).wp (s.serve arch drivers fuel)
        (fun r => ∃ t, Served drivers w' [] r t) w' := by
    intro w' fuel hpos hlt
    obtain ⟨fuel, rfl⟩ := Nat.exists_eq_succ_of_ne_zero (Nat.pos_iff_ne_zero.mp hpos)
    rw [wp_serve_end hexit htype hlt]
    cases w'.ending <;> exact ⟨[], .nil rfl fun f h => by cases h⟩
  induction ms generalizing w fuel with
  | nil => exact hend (by omega) (by rw [hin]; decide)
  | cons m ms ih =>
    obtain ⟨fuel, rfl⟩ := Nat.exists_eq_succ_of_ne_zero (by omega : fuel ≠ 0)
    rw [List.length_cons] at hfuel
    have hm : m.WellFormed drivers := hms m (List.mem_cons_self ..)
    have hms' : ∀ m' ∈ ms, m'.WellFormed drivers := fun m' h => hms m' (List.mem_cons_of_mem m h)
    rw [streamOf_cons] at hin
    cases hop : m.operation? drivers with
    | none =>
      obtain ⟨hlt, hpayload⟩ := hdrained.1 hop
      have hcall : m.callRecord drivers w.consumed = none := by
        rw [Message.callRecord, hop, Option.bind_none]
      have hcons : ms = [] ∨ (w.decoded m).consumed = w.consumed + m.bytes.length →
          (session drivers env).wp (s.serve arch drivers fuel)
              (fun r => ∃ t, Served drivers (w.decoded m) ms r t) (w.decoded m) →
            (session drivers env).wp (s.serve arch drivers fuel)
              (fun r => ∃ t, Served drivers w (m :: ms) r t) (w.decoded m) :=
        fun hc => (session drivers env).wp_mono fun r ⟨t, h⟩ =>
          ⟨_, h.cons rfl hc rfl (by rw [hcall]; rfl)⟩
      rw [wp_serve_unknown hexit htype hopen hw hin hop hlt]
      have hin' := View.input_decoded hin
      rcases hpayload with hnil | ⟨rfl, hshort⟩
      · refine hcons (Or.inr ?_) (ih hms' hdrained.2 (by omega) (hw.decoded m) ?_)
        · rw [m.length_bytes, hnil]; rfl
        · rw [hin', hnil, List.nil_append]
      · refine hcons (Or.inl rfl) (hend (by omega) ?_)
        rwa [hin', streamOf_nil, List.append_nil]
    | some op =>
      obtain ⟨args, hread, hbytes, hsmall, hcall⟩ := hm.read hop
      rw [wp_serve_known hexit htype hopen hw hin hop (hread (streamOf ms)) hbytes hsmall]
      intro v hv
      have hcalls : callsOf (roundEvents w m args v)
          = (m.callRecord drivers w.consumed).toList := by
        rw [hcall]; rfl
      have hconsumed := w.consumed_executed m args v
      by_cases hvoid : op.retType = .void
      · rw [if_pos hvoid]
        refine (session drivers env).wp_mono (fun r ⟨t, h⟩ => ⟨_, h.cons (w.trace_executed m args v)
          (Or.inr hconsumed) rfl hcalls⟩) (ih hms' hdrained.2 (by omega) (hw.executed m args v)
            (View.input_executed hin args v))
      · rw [if_neg hvoid]
        intro sendBuffer _ n _ _ _
        have htrace := w.trace_executed_log m args v (.wrote s.id (Session.offered sendBuffer) n)
        by_cases h0 : n = 0
        · rw [if_pos h0]
          subst h0
          exact ⟨_, .closed htrace rfl hcalls (List.mem_append_right _ (List.mem_singleton_self _))⟩
        · rw [if_neg h0]
          refine (session drivers env).wp_mono (fun r ⟨t, h⟩ => ⟨_, h.cons htrace
            (Or.inr hconsumed) rfl hcalls⟩) (ih hms' hdrained.2 (by omega)
              ((hw.executed m args v).log _) (View.input_executed hin args v))

/-- Whatever the next 8 bytes are, they are decoded as a header. -/
theorem wp_serve_header (hexit : ∀ b, env.exit b ↔ b = false) (htype : s.type ≠ .websock)
    {fuel : ℕ} {w : View} (hle : headerSize ≤ w.input.length) :
    (session drivers env).wp (s.serve arch drivers (fuel + 1))
      (fun r => ∃ d op, w.trace ++ [.header d op (w.consumed + headerSize)] <+: r.world.trace)
      w := by
  have hmono : ∀ {α : Type} {p : Program α} {w' : View} {d op : ℕ},
      w'.trace = w.trace ++ [.header d op (w.consumed + headerSize)] →
      (session drivers env).wp p (fun r => ∃ d op,
        w.trace ++ [.header d op (w.consumed + headerSize)] <+: r.world.trace) w' :=
    fun h => (session drivers env).wp_mono (fun r hr => ⟨_, _, h ▸ hr⟩) (wp_trace _ _)
  have hpos : ¬ (headerSize : ℤ) ≤ 0 := by decide
  rw [Session.serve, Handler.wp_bind, wp_exitSignal]
  intro b hb
  rw [(hexit b).mp hb, Handler.andThen_ret]
  simp only [Bool.false_eq_true, if_false]
  rw [Handler.wp_bind, wp_uninit]
  intro mem
  rw [Handler.andThen_ret, Handler.wp_bind, wp_readCommand_of_le htype hle, Handler.andThen_ret]
  exact hmono rfl

/-- The headers after `w` are the ones of `ms`, and nothing undefined happens. -/
structure Aligned {α : Type} (w : View) (ms : List Message) (r : Result Stop View α)
    (t : List Event) : Prop where
  trace : r.world.trace = w.trace ++ t
  headers : headersOf t <+: expectedHeaders w.consumed ms
  defined : ∀ f, r.stop? ≠ some (.undefined f)

/-- What is aligned from the first command on is aligned from the second on. -/
theorem Aligned.tail {α : Type} {w w' : View} {m : Message} {ms : List Message}
    {r : Result Stop View α} {t e : List Event} (htrace : w'.trace = w.trace ++ e)
    (hconsumed : w'.consumed = w.consumed + m.bytes.length)
    (hheaders : headersOf e = [m.headerRecord w.consumed])
    (h : Aligned w (m :: ms) r t) (hr : w'.trace <+: r.world.trace) :
    ∃ t', Aligned w' ms r t' := by
  obtain ⟨t', ht'⟩ := hr
  have ht : t = e ++ t' := by
    have h' := h.trace
    rw [← ht', htrace, List.append_assoc] at h'
    exact (List.append_cancel_left h').symm
  refine ⟨t', ht'.symm, ?_, h.defined⟩
  have hh := h.headers
  rw [ht, headersOf_append, hheaders, expectedHeaders, ← hconsumed] at hh
  exact (List.prefix_append_right_inj [m.headerRecord w.consumed]).mp hh

/-- The second header is as far behind the first as the first command is long. -/
theorem Aligned.payload_nil {α : Type} {w : View} {m : Message} {ms : List Message}
    {r : Result Stop View α} {t : List Event} {d op : ℕ} (h : Aligned w (m :: ms) r t)
    (hr : (w.decoded m).trace ++ [.header d op ((w.decoded m).consumed + headerSize)]
      <+: r.world.trace) : m.payload = [] := by
  obtain ⟨t', ht'⟩ := hr
  have ht : t = .header m.driver.toNat m.operation.toNat (w.consumed + headerSize) ::
      .header d op (w.consumed + headerSize + headerSize) :: t' := by
    have h' := h.trace
    rw [← ht'] at h'
    change ((w.trace ++ [_]) ++ [_]) ++ t' = _ at h'
    rw [List.append_assoc, List.append_assoc] at h'
    exact (List.append_cancel_left h').symm
  have hh := h.headers
  rw [ht] at hh
  cases ms with
  | nil => exact absurd hh.length_le (by simp [headersOf, expectedHeaders])
  | cons m' ms =>
    have hsecond := (List.cons_prefix_cons.mp (List.cons_prefix_cons.mp hh).2).1
    simp only [Message.headerRecord, m.length_bytes, Prod.mk.injEq] at hsecond
    exact List.length_eq_zero_iff.mp (by omega)

/-- **A session that stays aligned drains its rejected commands.**  Among its runs
are those in which no reply is written, and these go through all the commands. -/
theorem drained_of_wp (htype : s.type ≠ .websock) (hopen : s.closed = false) {ms : List Message}
    (hms : ∀ m ∈ ms, m.WellFormed drivers) {fuel : ℕ} (hfuel : (streamOf ms).length < fuel)
    {w : View} (hw : w.AtRest) (hin : w.input = streamOf ms)
    (hwp : (session drivers .noExit).wp (s.serve arch drivers fuel)
      (fun r => ∃ t, Aligned w ms r t) w) : Drained drivers ms := by
  have hexit : ∀ b, Env.noExit.exit b ↔ b = false := fun b => Iff.rfl
  induction ms generalizing w fuel with
  | nil => trivial
  | cons m ms ih =>
    obtain ⟨fuel, rfl⟩ := Nat.exists_eq_succ_of_ne_zero (by omega : fuel ≠ 0)
    have hm : m.WellFormed drivers := hms m (List.mem_cons_self ..)
    have hms' : ∀ m' ∈ ms, m'.WellFormed drivers := fun m' h => hms m' (List.mem_cons_of_mem m h)
    rw [streamOf_cons] at hin
    rw [streamOf_cons, List.length_append, m.length_bytes] at hfuel
    have hfuel' : (streamOf ms).length < fuel := by rw [headerSize] at hfuel; omega
    have htail : ∀ {w' : View} {e : List Event}, w'.AtRest → w'.input = streamOf ms →
        w'.trace = w.trace ++ e → w'.consumed = w.consumed + m.bytes.length →
        headersOf e = [m.headerRecord w.consumed] →
        (session drivers .noExit).wp (s.serve arch drivers fuel)
          (fun r => ∃ t, Aligned w (m :: ms) r t) w' → Drained drivers ms :=
      fun hw' hin' htrace hconsumed hheaders h => ih hms' hfuel' hw' hin'
        ((session drivers .noExit).wp_mono
          (fun r hr => hr.1.elim fun t ht => ht.tail htrace hconsumed hheaders hr.2)
          ((session drivers .noExit).wp_and h (wp_trace _ _)))
    cases hop : m.operation? drivers with
    | some op =>
      obtain ⟨args, hread, hbytes, hsmall, -⟩ := hm.read hop
      rw [wp_serve_known hexit htype hopen hw hin hop (hread (streamOf ms)) hbytes hsmall] at hwp
      refine ⟨fun h => absurd (hop.symm.trans h) (Option.some_ne_none op), ?_⟩
      obtain ⟨v, hv⟩ := exists_returns drivers m.driver.toNat m.operation.toNat
      have hconsumed := w.consumed_executed m args v
      have hwp' := hwp v hv
      by_cases hvoid : op.retType = .void
      · rw [if_pos hvoid] at hwp'
        exact htail (hw.executed m args v) (View.input_executed hin args v)
          (w.trace_executed m args v) hconsumed rfl hwp'
      · rw [if_neg hvoid] at hwp'
        obtain ⟨sendBuffer, hbuf⟩ := exists_buildReply hop hv (UInt16.ofNat m.driver.toNat)
          (UInt16.ofNat m.operation.toNat)
        have hfail := hwp' sendBuffer hbuf (-1) le_rfl (by omega) trivial
        rw [if_neg (by decide)] at hfail
        exact htail ((hw.executed m args v).log _) (View.input_executed hin args v)
          (w.trace_executed_log m args v _) hconsumed rfl hfail
    | none =>
      have hlt : m.driver.toNat < deviceNum drivers := by
        by_contra hle
        rw [wp_serve_outOfBounds hexit htype hin (not_lt.mp hle)] at hwp
        obtain ⟨t, ht⟩ := hwp
        exact ht.defined .outOfBounds rfl
      rw [wp_serve_unknown hexit htype hopen hw hin hop hlt] at hwp
      have hin' := View.input_decoded hin
      by_cases hnil : m.payload = []
      · refine ⟨fun _ => ⟨hlt, Or.inl hnil⟩, htail (hw.decoded m) ?_ rfl ?_ rfl hwp⟩
        · rw [hin', hnil, List.nil_append]
        · rw [m.length_bytes, hnil]; rfl
      · by_cases hle : headerSize ≤ (w.decoded m).input.length
        · -- the next header is decoded right behind this one
          exfalso
          obtain ⟨fuel, rfl⟩ := Nat.exists_eq_succ_of_ne_zero (by
            rw [hin', List.length_append] at hle
            omega : fuel ≠ 0)
          obtain ⟨r, ⟨t, ht⟩, d, o, hr⟩ := (session drivers .noExit).exists_of_wp
            (session_live drivers Env.noExit_possible)
            ((session drivers .noExit).wp_and hwp (wp_serve_header hexit htype hle))
          exact hnil (ht.payload_nil hr)
        · rw [hin', List.length_append] at hle
          have hms0 : ms = [] := by
            cases ms with
            | nil => rfl
            | cons m' ms =>
              rw [streamOf_cons, List.length_append, m'.length_bytes] at hle
              omega
          exact ⟨fun _ => ⟨hlt, Or.inr ⟨hms0, by omega⟩⟩, by rw [hms0]; trivial⟩

/-! ## The whole run -/

variable {authenticate : Session → Program (ℤ × Session)}

/-- On a TCP socket there is nothing before the loop of `run` and nothing behind it. -/
theorem wp_run_stream (htype : s.type ≠ .websock) {fuel : ℕ} {w : View}
    (P : View → Option Stop → Prop) :
    (session drivers env).wp (s.run arch drivers authenticate fuel)
        (fun r => P r.world r.stop?) w ↔
      (session drivers env).wp (s.serve arch drivers fuel) (fun r => P r.world r.stop?) w := by
  have hinit : s.initSocket authenticate = pure (0, s) := by
    unfold Session.initSocket
    cases hs : s.type with
    | websock => exact absurd hs htype
    | _ => rfl
  have hexitSocket : ∀ served, Session.exitSocket s.type served = pure 0 := by
    unfold Session.exitSocket
    cases hs : s.type with
    | websock => exact absurd hs htype
    | _ => exact fun _ => rfl
  rw [Session.run, hinit, pure_bind]
  simp only [lt_self_iff_false, if_false, hexitSocket, pure_bind]
  rw [Handler.wp_bind]
  -- what comes after the loop does nothing more
  constructor
  · intro hwp
    refine (session drivers env).wp_mono ?_ hwp
    rintro (⟨_ | n, served⟩ | f) hr
    · exact hr
    · exact hr
    · exact hr
  · intro hwp
    refine (session drivers env).wp_mono ?_ hwp
    rintro (⟨_ | n, served⟩ | f) hr
    · exact hr
    · exact hr
    · exact hr

/-- A session is in step with its client in every run exactly when the rejected
commands are drained. -/
theorem wp_run_inStep_iff (htype : s.type ≠ .websock) (hopen : s.closed = false)
    {ms : List Message} (hms : ∀ m ∈ ms, m.WellFormed drivers) {ending : Ending} {fuel : ℕ}
    (hfuel : (streamOf ms).length < fuel) :
    (session drivers .noExit).wp (s.run arch drivers authenticate fuel)
        (fun r => InStep drivers ms r.world.trace r.stop?) (View.start (streamOf ms) ending) ↔
      Drained drivers ms := by
  have hexit : ∀ b, Env.noExit.exit b ↔ b = false := fun b => Iff.rfl
  have hlen : ms.length ≤ (streamOf ms).length := by
    clear hms hfuel
    induction ms with
    | nil => simp
    | cons m ms ih =>
      rw [streamOf_cons, List.length_append, m.length_bytes, List.length_cons, headerSize]
      omega
  have hw : (View.start (streamOf ms) ending).AtRest := ⟨rfl, rfl, rfl⟩
  refine (wp_run_stream htype fun w' f => InStep drivers ms w'.trace f).trans ?_
  constructor
  · intro hwp
    refine drained_of_wp htype hopen hms hfuel hw rfl
      ((session drivers .noExit).wp_mono (fun r hr => ⟨r.world.trace, ?_⟩) hwp)
    exact ⟨rfl, hr.headers, hr.defined⟩
  · intro hdrained
    refine (session drivers .noExit).wp_mono ?_
      (wp_serve_served hexit htype hopen hms hdrained (by omega) hw rfl)
    rintro r ⟨t, ht⟩
    obtain rfl : r.world.trace = t := ht.trace
    exact ⟨ht.headers, ht.calls, ht.defined, ht.complete⟩

/-- **A session stays in step with its client exactly when the commands it rejects
leave nothing behind.**  `pick` decides how the stream is cut into `read()` results,
what `write()` returns, and what the operations return. -/
theorem run_inStep_iff (arch : Arch) (authenticate : Session → Program (ℤ × Session))
    (htype : s.type ≠ .websock) (hopen : s.closed = false) {ms : List Message}
    (hms : ∀ m ∈ ms, m.WellFormed drivers) (ending : Ending) {fuel : ℕ}
    (hfuel : (streamOf ms).length < fuel) :
    (∀ pick, (session drivers .noExit).Allows pick →
      InStep drivers ms
        ((session drivers .noExit).exec pick 0 (s.run arch drivers authenticate fuel)
          (View.start (streamOf ms) ending)).world.trace
        ((session drivers .noExit).exec pick 0 (s.run arch drivers authenticate fuel)
          (View.start (streamOf ms) ending)).stop?) ↔
      Drained drivers ms :=
  ((session drivers .noExit).forall_exec_iff_wp (session_live drivers Env.noExit_possible)
    (s.run arch drivers authenticate fuel)
    (fun r => InStep drivers ms r.world.trace r.stop?) _).trans
      (wp_run_inStep_iff htype hopen hms hfuel)

end Serve

/-- A TCP session. -/
def probeSession : Session := ⟨.tcp, 7, ⟨fun _ => 0, 0, 0, 0, 0, false⟩, false⟩

/-- A rejected command without a payload, and one that is executed. -/
theorem run_inStep_probe :
    InStep probeDrivers [⟨2, 9, []⟩, ⟨2, 1, []⟩]
      ((session probeDrivers .noExit).exec (eager probeDrivers) 0
        (probeSession.run .lp64 probeDrivers (fun s => pure (0, s)) 17)
        (View.start (streamOf [⟨2, 9, []⟩, ⟨2, 1, []⟩]) .eof)).world.trace
      ((session probeDrivers .noExit).exec (eager probeDrivers) 0
        (probeSession.run .lp64 probeDrivers (fun s => pure (0, s)) 17)
        (View.start (streamOf [⟨2, 9, []⟩, ⟨2, 1, []⟩]) .eof)).stop? := by
  have hms : ∀ m ∈ [(⟨2, 9, []⟩ : Message), ⟨2, 1, []⟩], m.WellFormed probeDrivers := by
    intro m hm op hop
    refine ⟨[], ?_⟩
    rcases List.mem_cons.mp hm with rfl | hm
    · cases hop
    · rw [List.mem_singleton.mp hm] at hop ⊢
      obtain rfl := Option.some.inj hop
      exact ⟨.nil, trivial, fun a ha => (List.not_mem_nil ha).elim, rfl⟩
  have htype : probeSession.type ≠ .websock := by decide
  exact (run_inStep_iff .lp64 (fun s => pure (0, s)) htype rfl hms .eof (by decide)).mpr
    (by decide) (eager probeDrivers) (eager_allows probeDrivers)

/-- The payload of a command for an operation that does not exist is run as a command:
`get` is called, which nobody asked for. -/
theorem not_inStep_of_rejected_payload :
    ¬ ∀ pick, (session probeDrivers .noExit).Allows pick →
      InStep probeDrivers [⟨2, 9, [0, 0, 0, 0, 0, 2, 0, 1]⟩]
        ((session probeDrivers .noExit).exec pick 0
          (probeSession.run .lp64 probeDrivers (fun s => pure (0, s)) 17)
          (View.start (streamOf [⟨2, 9, [0, 0, 0, 0, 0, 2, 0, 1]⟩]) .eof)).world.trace
        ((session probeDrivers .noExit).exec pick 0
          (probeSession.run .lp64 probeDrivers (fun s => pure (0, s)) 17)
          (View.start (streamOf [⟨2, 9, [0, 0, 0, 0, 0, 2, 0, 1]⟩]) .eof)).stop? := by
  intro h
  have hcalls := (h (eager probeDrivers) (eager_allows probeDrivers)).calls
  revert hcalls
  decide +kernel

/-! ## Commands of a client -/

/-- A call of the client's `build_command`. -/
structure ClientCommand where
  driver : UInt16
  operation : UInt16
  args : List ArgVal

namespace ClientCommand

/-- `build_command` -/
def encode (c : ClientCommand) : Option (List UInt8) :=
  Client.buildCommand c.driver c.operation c.args

/-- The operation exists, and the arguments are of its signature and within the
limits of the client's serializer. -/
def WellFormed (drivers : List Driver) (c : ClientCommand) : Prop :=
  ∃ op, findOperation drivers c.driver.toNat c.operation.toNat = some op ∧
    List.Forall₂ ArgVal.HasType c.args op.types ∧ ScalarRunsFit 0 c.args ∧
    (∀ a ∈ c.args, a.Small) ∧ ∀ v, .scalar v ∈ c.args → v.type.isScalar = true

/-- The command as it lies on the stream. -/
def message (c : ClientCommand) : Message := ⟨c.driver, c.operation, wireArgs c.args⟩

end ClientCommand

/-- The concatenation of what `build_command` makes of some commands. -/
def encodeAll : List ClientCommand → Option (List UInt8)
  | [] => some []
  | c :: cmds => do
    let bytes ← c.encode
    let rest ← encodeAll cmds
    return bytes ++ rest

/-- The calls that the commands ask for, when `base` bytes come before them: the
operation, the arguments, and where the command ends. -/
def clientCalls (base : ℕ) : List ClientCommand → List CallRecord
  | [] => []
  | c :: cmds =>
    (c.driver.toNat, c.operation.toNat, c.args.map some, base + c.message.bytes.length)
      :: clientCalls (base + c.message.bytes.length) cmds

section Client

variable {drivers : List Driver} {s : Session}

theorem ClientCommand.WellFormed.message {c : ClientCommand} (hc : c.WellFormed drivers) :
    c.message.WellFormed drivers := by
  obtain ⟨op, hop, htypes, hfit, hsmall, -⟩ := hc
  intro op' hop'
  obtain rfl : op = op' := Option.some.inj (hop.symm.trans hop')
  exact ⟨c.args, htypes, hfit, hsmall, rfl⟩

theorem encodeAll_eq {cmds : List ClientCommand} (hcmds : ∀ c ∈ cmds, c.WellFormed drivers) :
    encodeAll cmds = some (streamOf (cmds.map ClientCommand.message)) := by
  induction cmds with
  | nil => rfl
  | cons c cmds ih =>
    obtain ⟨op, -, -, hfit, hsmall, hscalar⟩ := hcmds c (List.mem_cons_self ..)
    have hc : c.encode = some c.message.bytes :=
      buildCommand_eq c.driver c.operation (Client.appendable hscalar) hfit
        fun a ha => (hsmall a ha).length_lt
    have hcs := ih fun c' h => hcmds c' (List.mem_cons_of_mem c h)
    rw [encodeAll, hc, hcs]
    rfl

theorem expectedCalls_eq {cmds : List ClientCommand} (hcmds : ∀ c ∈ cmds, c.WellFormed drivers)
    (base : ℕ) :
    expectedCalls drivers base (cmds.map ClientCommand.message) = clientCalls base cmds := by
  induction cmds generalizing base with
  | nil => rfl
  | cons c cmds ih =>
    have hmessage := (hcmds c (List.mem_cons_self ..)).message
    obtain ⟨op, hop, htypes, -, hsmall, -⟩ := hcmds c (List.mem_cons_self ..)
    obtain ⟨args, hread, -, -, hcall⟩ := hmessage.read hop
    have hargs : args = c.args := by
      have h := (hread []).symm.trans
        (readArgs_wireArgs htypes (fun v hv => (hsmall v hv).counted) [])
      simpa using h
    rw [List.map_cons, expectedCalls, hcall, clientCalls, hargs,
      ih fun c' h => hcmds c' (List.mem_cons_of_mem c h)]
    rfl

theorem drained_message {cmds : List ClientCommand} (hcmds : ∀ c ∈ cmds, c.WellFormed drivers) :
    Drained drivers (cmds.map ClientCommand.message) := by
  induction cmds with
  | nil => trivial
  | cons c cmds ih =>
    obtain ⟨op, hop, -⟩ := hcmds c (List.mem_cons_self ..)
    exact ⟨fun h => absurd (hop.symm.trans h) (Option.some_ne_none op),
      ih fun c' h => hcmds c' (List.mem_cons_of_mem c h)⟩

/-- **What the client encoded is executed.**  However the bytes are cut into
`read()` results, a session whose replies are taken calls exactly the operations of
the commands, in their order and with their arguments, and each when exactly the
bytes up to the end of its command have been read. -/
theorem run_executes_commands (arch : Arch) (authenticate : Session → Program (ℤ × Session))
    (htype : s.type ≠ .websock) (hopen : s.closed = false) {cmds : List ClientCommand}
    (hcmds : ∀ c ∈ cmds, c.WellFormed drivers) (ending : Ending) {fuel : ℕ}
    (hfuel : cmds.length < fuel) :
    ∃ stream, encodeAll cmds = some stream ∧
      ∀ pick, (session drivers .noExit).Allows pick →
        WritesComplete ((session drivers .noExit).exec pick 0
          (s.run arch drivers authenticate fuel) (View.start stream ending)).world.trace →
        callsOf ((session drivers .noExit).exec pick 0
          (s.run arch drivers authenticate fuel) (View.start stream ending)).world.trace
            = clientCalls 0 cmds := by
  have hexit : ∀ b, Env.noExit.exit b ↔ b = false := fun b => Iff.rfl
  refine ⟨_, encodeAll_eq hcmds, fun pick hpick hwrites => ?_⟩
  have hms : ∀ m ∈ cmds.map ClientCommand.message, m.WellFormed drivers := by
    intro m hm
    obtain ⟨c, hc, rfl⟩ := List.mem_map.mp hm
    exact (hcmds c hc).message
  have hserve : (session drivers .noExit).wp (s.serve arch drivers fuel) _
      (View.start (streamOf (cmds.map ClientCommand.message)) ending) :=
    wp_serve_served hexit htype hopen hms (drained_message hcmds)
      (by rw [List.length_map]; exact hfuel) ⟨rfl, rfl, rfl⟩ rfl
  have hrun : (session drivers .noExit).wp (s.run arch drivers authenticate fuel)
      (fun r => WritesComplete r.world.trace → callsOf r.world.trace = clientCalls 0 cmds)
      (View.start (streamOf (cmds.map ClientCommand.message)) ending) := by
    refine (wp_run_stream htype fun w' _ => WritesComplete w'.trace →
      callsOf w'.trace = clientCalls 0 cmds).mpr ?_
    refine (session drivers .noExit).wp_mono (fun r ⟨t, ht⟩ hw => ?_) hserve
    obtain rfl : r.world.trace = t := ht.trace
    rw [(ht.complete hw).2, ← expectedCalls_eq hcmds 0]
    rfl
  exact (session drivers .noExit).wp_exec hpick hrun 0 hwrites

end Client

/-- Two commands, one with an argument of every kind. -/
def probeCommands : List ClientCommand :=
  [⟨2, 0, [.scalar (.uint32 77), .scalar (.bool true), .vector [.uint16 1, .uint16 2],
      .string [79, 75], .array [.int8 1, .int8 (-1)]]⟩,
    ⟨2, 1, []⟩]

theorem wellFormed_probeCommands : ∀ c ∈ probeCommands, c.WellFormed probeDrivers := by
  intro c hc
  rcases List.mem_cons.mp hc with rfl | hc
  · refine ⟨_, rfl, ?_, by decide, by decide, ?_⟩
    · exact .cons rfl (.cons rfl (.cons (by decide) (.cons trivial (.cons (by decide) .nil))))
    · intro v hv
      simp only [List.mem_cons, ArgVal.scalar.injEq, List.not_mem_nil, or_false, reduceCtorEq]
        at hv
      rcases hv with rfl | rfl <;> rfl
  · rw [List.mem_singleton.mp hc]
    exact ⟨_, rfl, .nil, trivial, fun a ha => (List.not_mem_nil ha).elim,
      fun v hv => (List.not_mem_nil hv).elim⟩

theorem run_executes_probeCommands :
    callsOf ((session probeDrivers .noExit).exec (eager probeDrivers) 0
      (probeSession.run .lp64 probeDrivers (fun s => pure (0, s)) 3)
      (View.start ((encodeAll probeCommands).getD []) .waiting)).world.trace
        = clientCalls 0 probeCommands := by
  have hfuel : probeCommands.length < 3 := by decide
  have htype : probeSession.type ≠ .websock := by decide
  obtain ⟨stream, hstream, hrun⟩ := run_executes_commands .lp64 (fun s => pure (0, s)) htype rfl
    wellFormed_probeCommands .waiting hfuel
  have h := hrun (eager probeDrivers) (eager_allows probeDrivers)
  have hstream' : (encodeAll probeCommands).getD [] = stream := by rw [hstream]; rfl
  rw [← hstream'] at h
  exact h (by decide +kernel)

end KoheronSdk
