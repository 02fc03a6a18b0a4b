import KoheronSdk.Server.Framing

/-!
# Streams that end inside a command

`read()` says in two ways that no more bytes will come, with 0 or with a negative
value, and `rcv_n_bytes` hands on the one as 0 and the other as -1.  The code above
it takes negative values for errors, so the end of a stream goes unnoticed.

## Where an error is lost as well

A read error is not noticed everywhere either.  When it comes inside the length of a vector,
`get_pack_length` returns -1, and `recv` does not look at it before it has divided it by the size of
an element.  On a 64-bit host the quotient is huge, and `resize()` throws.  On a 32-bit host it is
-1 for bytes, which is noticed, and 0 for anything else: the vector comes out empty and the
parser goes on, to the next pack, which finds the stream at its end and may notice it.

## An exact condition

`Noticed` goes through the packs as the parser does, and has what each of them makes of an end at
every place.  The proof is an induction on the packs, with a rule for each pack that
does not arrive as a whole; for the direction from the code to the condition, the run in which
the parser goes on is followed to the call of the operation.

* `Noticed`: the parser makes an error of the end.
* `executeOperation_refused_iff`: this is exactly when the operation is not executed.
-/

namespace KoheronSdk

open Effects

section Missing

variable {drivers : List Driver} {env : Env} {w : View} {arch : Arch} {type : SockType}
  {driver operation : ℕ} {cmd : Command} {p : Pack}
  {post : Result Stop View (ℤ × Command) → Prop}

/-! ## A pack that is not all there -/

/-- What is left of the input has been taken, and some fields may have been spoiled. -/
structure View.Exhausted (w w' : View) : Prop where
  input : w'.input = []
  ending : w'.ending = w.ending
  held : w'.held = w.held
  trace : w'.trace = w.trace

theorem View.exhausted_advance (w : View) : w.Exhausted (w.advance w.input.length) :=
  ⟨List.drop_length, rfl, rfl, rfl⟩

theorem View.exhausted_setArg {w w' : View} (h : w.Exhausted w') (operation : ℕ) (name : String)
    (v : Option ArgVal) : w.Exhausted (w'.setArg operation name v) :=
  ⟨h.input, h.ending, h.held, h.trace⟩

theorem View.exhausted_setArgs {w w' : View} (h : w.Exhausted w') (operation : ℕ)
    (vals : List (String × ArgVal)) : w.Exhausted (w'.setArgs operation vals) :=
  ⟨by rw [View.input_setArgs, h.input], by rw [View.ending_setArgs, h.ending],
    by rw [View.held_setArgs, h.held], by rw [View.trace_setArgs, h.trace]⟩

theorem View.Exhausted.of_advance {w w' : View} {n : ℕ} (h : (w.advance n).Exhausted w') :
    w.Exhausted w' := ⟨h.input, h.ending, h.held, h.trace⟩

theorem wp_fillPack_of_lt (hw : w.held = some driver) {name : String} {nBytes : ℕ}
    {value : List UInt8 → ArgVal} (h : w.input.length < nBytes) :
    (session drivers env).wp (fillPack driver operation cmd name nBytes value) post w ↔
      match w.ending with
      | .eof => post (.ret (0, cmd) ((w.setArg operation name none).advance w.input.length))
      | .error => post (.ret (-1, cmd) ((w.setArg operation name none).advance w.input.length))
      | .waiting =>
        post (.halt .blocked ((w.setArg operation name none).advance w.input.length)) := by
  rw [fillPack, Handler.wp_bind, wp_fill_of_lt hw h]
  cases w.ending <;> rfl

theorem wp_parsePack_scalar_of_lt (htype : type ≠ .websock) (hw : w.held = some driver)
    {args : List (String × ScalarType)}
    (h : w.input.length < requiredBufferSize (args.map Prod.snd)) :
    (session drivers env).wp (parsePack arch type driver operation cmd (.scalar args)) post w ↔
      ∀ mem, match w.ending with
      | .eof => post (.ret (0, cmd) ((w.setArgs operation ((args.map Prod.fst).zip
          ((Buffer.deserialize ⟨Buffer.overlay w.input mem, 0⟩ (args.map Prod.snd)).1.map
            .scalar))).advance w.input.length))
      | .error => post (.ret (-1, cmd) (w.advance w.input.length))
      | .waiting => post (.halt .blocked (w.advance w.input.length)) := by
  cases args with
  | nil => exact absurd h (Nat.not_lt_zero _)
  | cons arg args =>
    have hlen : ∀ mem, (Buffer.deserialize ⟨Buffer.overlay w.input mem, 0⟩
        ((arg :: args).map Prod.snd)).1.length = (arg :: args).length := by
      intro mem
      rw [Buffer.deserialize, length_extractAll, List.length_map]
    rw [parsePack, Handler.wp_bind, List.map_cons, deserialize_stream htype, Handler.wp_bind,
      ← List.map_cons, wp_deserialize_of_lt h]
    refine forall_congr' fun mem => ?_
    cases w.ending with
    | eof =>
      simp only [Handler.andThen_ret, Handler.wp_pure, lt_self_iff_false, if_false]
      rw [Handler.wp_bind, wp_storeScalars (w := w.advance _) hw (hlen mem)]
      simp only [Handler.andThen_ret, Handler.wp_pure, View.advance_setArgs]
    | error => rfl
    | waiting => rfl

/-- How the end of the stream shows. -/
def Ending.result (ending : Ending) (cmd : Command) (w : View) : Result Stop View (ℤ × Command) :=
  match ending with
  | .eof => .ret (0, cmd) w
  | .error => .ret (-1, cmd) w
  | .waiting => .halt .blocked w

/-- **A pack whose data do not all arrive**: what is there is taken, and how the
stream ends is all that the parser learns. -/
theorem wp_parsePack_of_lt (drivers : List Driver) (env : Env) (arch : Arch) (operation : ℕ)
    (cmd : Command) (htype : type ≠ .websock) (hw : w.held = some driver)
    (hpre : p.prefixBytes ≤ w.input.length) (hmax : p.Allocatable arch w.input)
    (hlt : w.input.length < p.bytes w.input) :
    ∃ left : (ℕ → UInt8) → View, (∀ mem, w.Exhausted (left mem)) ∧
      ∀ post : Result Stop View (ℤ × Command) → Prop,
        (session drivers env).wp (parsePack arch type driver operation cmd p) post w ↔
          ∀ mem, post (w.ending.result cmd (left mem)) := by
  cases hp : p.container w.input with
  | none =>
    cases p with
    | scalar args =>
      have hlt' : w.input.length < requiredBufferSize (args.map Prod.snd) :=
        lt_of_lt_of_eq hlt (Nat.zero_add _)
      -- only at the end of the file values are stored
      refine ⟨fun mem => if w.ending = .eof then (w.setArgs operation ((args.map Prod.fst).zip
        ((Buffer.deserialize ⟨Buffer.overlay w.input mem, 0⟩ (args.map Prod.snd)).1.map
          .scalar))).advance w.input.length else w.advance w.input.length, ?_, ?_⟩
      · intro mem
        dsimp only
        split
        · rw [← View.advance_setArgs]
          exact View.exhausted_setArgs w.exhausted_advance _ _
        · exact w.exhausted_advance
      · intro post
        rw [wp_parsePack_scalar_of_lt htype hw hlt']
        cases w.ending <;> rfl
    | _ => cases hp
  | some c =>
    have hdata : (w.advance p.prefixBytes).input.length < p.dataBytes w.input := by
      rw [View.input_advance, List.length_drop]
      rw [Pack.bytes] at hlt
      omega
    refine ⟨fun _ => ((w.advance p.prefixBytes).setArg operation c.1 none).advance
      (w.advance p.prefixBytes).input.length, fun _ => ?_, fun post => ?_⟩
    · exact View.exhausted_setArg (View.exhausted_advance _).of_advance operation c.1 none
    · rw [wp_parsePack_container htype hp hpre hmax,
        wp_fillPack_of_lt (w := w.advance p.prefixBytes) hw hdata, View.ending_advance]
      cases w.ending <;> exact (forall_const _).symm

/-! ## A length that is not all there -/

/-- Data that are fetched at the end of the file seem to have arrived. -/
theorem of_wp_fillPack_of_eof (hw : w.held = some driver) (hin : w.input = [])
    (hend : w.ending = .eof) {name : String} {nBytes : ℕ} {value : List UInt8 → ArgVal}
    (h : (session drivers env).wp (fillPack driver operation cmd name nBytes value) post w) :
    ∃ w', w.Exhausted w' ∧ post (.ret (0, cmd) w') := by
  by_cases hn : nBytes = 0
  · subst hn
    have hneg : ¬ toInt (0 : ℕ) < 0 := Int.lt_irrefl 0
    rw [wp_fillPack_of_le hw (Nat.zero_le _), if_neg hneg] at h
    exact ⟨(w.setArg operation name (some (value (w.input.take 0)))).advance 0,
      ⟨hin, rfl, rfl, rfl⟩, h⟩
  · have hlt : w.input.length < nBytes := by rw [hin]; exact Nat.pos_of_ne_zero hn
    rw [wp_fillPack_of_lt hw hlt, hend] at h
    exact ⟨_, View.exhausted_setArg w.exhausted_advance operation name none, h⟩

/-- At the end of the file the length is some number. -/
theorem of_wp_getPackLength_of_eof (hend : w.ending = .eof) (hlt : w.input.length < 4)
    {post : Result Stop View ℤ → Prop} (h : (session drivers env).wp Tcp.getPackLength post w) :
    ∃ n : ℕ, n < 2 ^ 64 ∧ post (.ret n (w.advance w.input.length)) := by
  rw [wp_getPackLength_of_lt hlt, hend] at h
  exact ⟨_, lt_trans (UInt32.toNat_lt _) (by decide), h fun _ => 0⟩

/-- The container is then taken for complete, unless the process ends for want of
memory. -/
theorem of_wp_parsePack_prefix_eof (htype : type ≠ .websock) (hw : w.held = some driver)
    (hend : w.ending = .eof) (hlt : w.input.length < p.prefixBytes)
    (h : (session drivers env).wp (parsePack arch type driver operation cmd p) post w) :
    (∃ w', w.Exhausted w' ∧ post (.ret (0, cmd) w')) ∨ ∃ w', post (.halt .terminated w') := by
  have hin : (w.advance w.input.length).input = [] := List.drop_length
  cases p with
  | vector name t =>
    rw [parsePack, recvVector_stream htype, Handler.wp_bind, Handler.wp_bind, Tcp.recvVector,
      Handler.wp_bind] at h
    obtain ⟨n, hn, h0⟩ := of_wp_getPackLength_of_eof hend hlt h
    rw [Handler.andThen_ret, wp_recvVectorData hn] at h0
    split at h0
    · exact Or.inr ⟨_, h0⟩
    · have hfill : (session drivers env).wp (fillPack driver operation cmd name
          (n / t.size * t.size) fun got => .vector (ofMemOf t (n / t.size) got)) post
          (w.advance w.input.length) := by
        rw [fillPack, Handler.wp_bind]
        exact h0
      obtain ⟨w', hw', hpost⟩ := of_wp_fillPack_of_eof (w := w.advance _) hw hin hend hfill
      exact Or.inl ⟨w', hw'.of_advance, hpost⟩
  | string name =>
    rw [parsePack, recvString_stream htype, Handler.wp_bind, Handler.wp_bind, Tcp.recvString,
      Handler.wp_bind] at h
    obtain ⟨n, -, h0⟩ := of_wp_getPackLength_of_eof hend hlt h
    rw [Handler.andThen_ret, wp_recvStringData] at h0
    split at h0
    · exact Or.inr ⟨_, h0⟩
    · have hfill : (session drivers env).wp (fillPack driver operation cmd name n .string) post
          (w.advance w.input.length) := by
        rw [fillPack, Handler.wp_bind]
        exact h0
      obtain ⟨w', hw', hpost⟩ := of_wp_fillPack_of_eof (w := w.advance _) hw hin hend hfill
      exact Or.inl ⟨w', hw'.of_advance, hpost⟩
  | _ => exact absurd hlt (Nat.not_lt_zero _)

/-- A length that has not arrived yet is waited for. -/
theorem wp_parsePack_prefix_waiting (htype : type ≠ .websock) (hend : w.ending = .waiting)
    (hlt : w.input.length < p.prefixBytes) :
    (session drivers env).wp (parsePack arch type driver operation cmd p) post w ↔
      post (.halt .blocked (w.advance w.input.length)) := by
  cases p with
  | vector name t =>
    rw [parsePack, recvVector_stream htype, Handler.wp_bind, Handler.wp_bind, Tcp.recvVector,
      Handler.wp_bind, wp_getPackLength_of_lt hlt, hend]
    rfl
  | string name =>
    rw [parsePack, recvString_stream htype, Handler.wp_bind, Handler.wp_bind, Tcp.recvString,
      Handler.wp_bind, wp_getPackLength_of_lt hlt, hend]
    rfl
  | _ => exact absurd hlt (Nat.not_lt_zero _)

theorem wp_parsePack_string_of_error (htype : type ≠ .websock) (hend : w.ending = .error)
    {name : String} (hlt : w.input.length < 4) :
    (session drivers env).wp (parsePack arch type driver operation cmd (.string name)) post w ↔
      post (.ret (-1, cmd) (w.advance w.input.length)) := by
  rw [parsePack, recvString_stream htype, Handler.wp_bind, Handler.wp_bind, Tcp.recvString,
    Handler.wp_bind, wp_getPackLength_of_lt hlt, hend]
  rfl

/-- On a 64-bit host the error is divided like a length. -/
theorem wp_parsePack_vector_of_error_lp64 (htype : type ≠ .websock) (hend : w.ending = .error)
    {name : String} {t : ScalarType} (hlt : w.input.length < 4) :
    (session drivers env).wp (parsePack .lp64 type driver operation cmd (.vector name t)) post w ↔
      post (.halt .terminated (w.advance w.input.length)) := by
  rw [parsePack, recvVector_stream htype, Handler.wp_bind, Handler.wp_bind, Tcp.recvVector,
    Handler.wp_bind, wp_getPackLength_of_lt hlt, hend]
  exact wp_recvVectorData_error_lp64

/-- On a 32-bit host it is an empty vector, or an error where the elements are bytes. -/
theorem wp_parsePack_vector_of_error_ilp32 (htype : type ≠ .websock) (hw : w.held = some driver)
    (hend : w.ending = .error) {name : String} {t : ScalarType} (hlt : w.input.length < 4) :
    (session drivers env).wp (parsePack .ilp32 type driver operation cmd (.vector name t)) post w ↔
      if t.size = 1 then post (.ret (-1, cmd) (w.advance w.input.length))
      else post (.ret (0, cmd)
        ((w.setArg operation name (some (.vector []))).advance w.input.length)) := by
  rw [parsePack, recvVector_stream htype, Handler.wp_bind, Handler.wp_bind, Tcp.recvVector,
    Handler.wp_bind, wp_getPackLength_of_lt hlt, hend]
  refine wp_recvVectorData_error_ilp32.trans ?_
  split
  · rfl
  · rw [wp_fill_of_le (w := w.advance _) hw (Nat.zero_le _)]
    rfl

end Missing

/-! ## Which ends are noticed -/

/-- The error is noticed when it comes inside the length of the pack. -/
def Pack.LengthNoticed (arch : Arch) : Pack → Prop
  | .string _ => True
  | .vector _ t => arch = .ilp32 ∧ t.size = 1
  | _ => False

/-- The pack is an empty vector when the error comes inside its length. -/
def Pack.LengthDropped (arch : Arch) : Pack → Prop
  | .vector _ t => arch = .ilp32 ∧ t.size ≠ 1
  | _ => False

/-- The parser turns down what the stream holds.  Pack after pack:

* the length of a container is cut off: an error is noticed for a string, and for a
  vector of bytes on a 32-bit host, where a vector of anything else comes out empty;
* the container is too large for memory: this is no error that the parser returns;
* the data are cut off: an error is noticed, the end of the file is not;
* the size is negative as an `int`: this counts as an error. -/
def Noticed (arch : Arch) (ending : Ending) : List Pack → List UInt8 → Prop
  | [], _ => False
  | p :: packs, bs =>
    if bs.length < p.prefixBytes then
      ending = .error ∧
        (p.LengthNoticed arch ∨ p.LengthDropped arch ∧ Noticed arch ending packs [])
    else if ¬ p.Allocatable arch bs then False
    else if bs.length < p.bytes bs then ending = .error
    else if toInt (p.dataBytes bs) < 0 then True
    else Noticed arch ending packs (bs.drop (p.bytes bs))

instance (arch : Arch) (p : Pack) : Decidable (p.LengthNoticed arch) := by
  cases p <;> unfold Pack.LengthNoticed <;> infer_instance

instance (arch : Arch) (p : Pack) : Decidable (p.LengthDropped arch) := by
  cases p <;> unfold Pack.LengthDropped <;> infer_instance

instance decidableNoticed (arch : Arch) (ending : Ending) :
    ∀ (packs : List Pack) (bs : List UInt8), Decidable (Noticed arch ending packs bs)
  | [], _ => inferInstanceAs (Decidable False)
  | p :: packs, bs =>
    have := decidableNoticed arch ending packs []
    have := decidableNoticed arch ending packs (bs.drop (p.bytes bs))
    inferInstanceAs (Decidable (
      if bs.length < p.prefixBytes then
        ending = .error ∧
          (p.LengthNoticed arch ∨ p.LengthDropped arch ∧ Noticed arch ending packs [])
      else if ¬ p.Allocatable arch bs then False
      else if bs.length < p.bytes bs then ending = .error
      else if toInt (p.dataBytes bs) < 0 then True
      else Noticed arch ending packs (bs.drop (p.bytes bs))))

/-- An error was returned, and the trace is still `trace`. -/
def Refused {α : Type} (trace : List Event) : Result Stop View (ℤ × α) → Prop
  | .ret (err, _) w => err < 0 ∧ w.trace = trace
  | .halt _ _ => False

/-- Without bytes nothing is noticed at the end of the file. -/
theorem not_noticed_eof_nil (arch : Arch) (packs : List Pack) : ¬ Noticed arch .eof packs [] := by
  induction packs with
  | nil => exact id
  | cons p packs ih =>
    rw [Noticed]
    intro h
    split at h
    · exact Ending.noConfusion h.1
    · split at h
      · exact h
      · split at h
        · cases h
        · rename_i hlt
          have hdata : p.dataBytes [] = 0 := by
            rw [List.length_nil, Pack.bytes] at hlt
            omega
          rw [hdata, List.drop_nil] at h
          split at h
          · rename_i hneg
            exact absurd hneg (Int.lt_irrefl 0)
          · exact ih h

section Refuse

variable {drivers : List Driver} {env : Env} {w : View} {arch : Arch} {type : SockType}
  {driver operation : ℕ} {cmd : Command} {packs : List Pack} {p : Pack} {trace : List Event}
  {post : Result Stop View (ℤ × Command) → Prop}

/-- The first pack, when a run that stops is no success and `Q` says what of the bytes
behind the pack is turned down. -/
theorem wp_parsePack_refused_iff (htype : type ≠ .websock) (hw : w.held = some driver)
    (hend : w.ending ≠ .waiting) {Q : List UInt8 → Prop}
    (herror : ∀ w', w'.trace = w.trace → post (.ret (-1, cmd) w'))
    (hhalt : ∀ s w', ¬ post (.halt s w'))
    (hgo : ∀ w', w'.held = some driver → w'.ending = w.ending → w'.trace = w.trace →
      (post (.ret (0, cmd) w') ↔ Q w'.input))
    (heof : w.ending = .eof → ¬ Q []) :
    (session drivers env).wp (parsePack arch type driver operation cmd p) post w ↔
      if w.input.length < p.prefixBytes then
        w.ending = .error ∧ (p.LengthNoticed arch ∨ p.LengthDropped arch ∧ Q [])
      else if ¬ p.Allocatable arch w.input then False
      else if w.input.length < p.bytes w.input then w.ending = .error
      else if toInt (p.dataBytes w.input) < 0 then True
      else Q (w.input.drop (p.bytes w.input)) := by
  have hexhausted : ∀ w', w.Exhausted w' → (post (.ret (0, cmd) w') ↔ Q []) := by
    intro w' h
    rw [hgo w' (h.held.trans hw) h.ending h.trace, h.input]
  split
  · rename_i hpre
    cases hending : w.ending with
    | waiting => exact absurd hending hend
    | eof =>
      refine iff_of_false (fun h => ?_) fun h => Ending.noConfusion h.1
      rcases of_wp_parsePack_prefix_eof htype hw hending hpre h with ⟨w', hw', h'⟩ | ⟨w', h'⟩
      · exact heof hending ((hexhausted w' hw').mp h')
      · exact hhalt _ _ h'
    | error =>
      rw [eq_self, true_and]
      cases p with
      | string name =>
        rw [wp_parsePack_string_of_error htype hending hpre]
        exact iff_of_true (herror _ rfl) (Or.inl trivial)
      | vector name t =>
        cases arch with
        | lp64 =>
          rw [wp_parsePack_vector_of_error_lp64 htype hending hpre]
          refine iff_of_false (hhalt _ _) ?_
          rintro (⟨h, -⟩ | ⟨⟨h, -⟩, -⟩) <;> cases h
        | ilp32 =>
          rw [wp_parsePack_vector_of_error_ilp32 htype hw hending hpre]
          by_cases ht : t.size = 1
          · rw [if_pos ht]
            exact iff_of_true (herror _ rfl) (Or.inl ⟨rfl, ht⟩)
          · have hempty := hexhausted _ (View.exhausted_setArg w.exhausted_advance operation name
              (some (.vector [])))
            rw [View.advance_setArg] at hempty
            rw [if_neg ht, hempty]
            exact ⟨fun h => Or.inr ⟨⟨rfl, ht⟩, h⟩, fun h => h.elim (absurd ·.2 ht) And.right⟩
      | _ => exact absurd hpre (Nat.not_lt_zero _)
  · rename_i hpre
    rw [Nat.not_lt] at hpre
    split
    · rename_i hmax
      rw [wp_parsePack_of_not_allocatable htype hpre hmax]
      exact iff_of_false (hhalt _ _) id
    · rename_i hmax
      rw [not_not] at hmax
      split
      · rename_i hlt
        obtain ⟨left, hleft, hwp⟩ :=
          wp_parsePack_of_lt drivers env arch operation cmd htype hw hpre hmax hlt
        rw [hwp post]
        cases hending : w.ending with
        | waiting => exact absurd hending hend
        | eof =>
          refine iff_of_false (fun h => heof hending ?_) Ending.noConfusion
          exact (hexhausted _ (hleft fun _ => 0)).mp (h fun _ => 0)
        | error => exact iff_of_true (fun mem => herror _ (hleft mem).trace) rfl
      · rename_i hle
        rw [Nat.not_lt] at hle
        split
        · rename_i hneg
          exact iff_of_true (wp_parsePack_of_negative htype hw hle hmax hneg herror) trivial
        · rename_i hneg
          rw [wp_parsePack_of_le htype hw hle hmax hneg]
          refine (hgo _ ?_ ?_ ?_).trans ?_
          · rw [View.held_advance, View.held_setArgs, hw]
          · rw [View.ending_advance, View.ending_setArgs]
          · rw [View.trace_advance, View.trace_setArgs]
          · rw [View.input_advance, View.input_setArgs]

/-- **What the parser refuses.** -/
theorem wp_parser_refused_iff (htype : type ≠ .websock) (hw : w.held = some driver)
    (hend : w.ending ≠ .waiting) (htrace : w.trace = trace) :
    (session drivers env).wp (parser arch type driver operation packs cmd) (Refused trace) w ↔
      Noticed arch w.ending packs w.input := by
  induction packs generalizing w with
  | nil => simp [parser, Refused, Noticed]
  | cons p packs ih =>
    rw [parser, Handler.wp_bind, Noticed]
    refine wp_parsePack_refused_iff htype hw hend ?_ ?_ ?_ ?_
    · exact fun w' h => ⟨by decide, h.trans htrace⟩
    · exact fun _ _ => id
    · intro w' hheld hending ht
      rw [← hending]
      exact ih hheld (by rwa [hending]) (ht.trans htrace)
    · intro he
      rw [he]
      exact not_noticed_eof_nil arch packs

/-! ## Which operations are not executed -/

/-- An operation that is called leaves its call in the trace. -/
theorem not_wp_generateCall_refused (henv : env.Possible) {s : Session} {op : Operation}
    (hpre : trace <+: w.trace) :
    ¬ (session drivers env).wp (s.generateCall driver operation op) (Refused trace) w := by
  intro h
  by_cases hw : w.held = some driver
  · rw [wp_generateCall hw] at h
    obtain ⟨v, hv⟩ := exists_returns drivers driver operation
    obtain ⟨r, hr, hgrown⟩ := (session drivers env).exists_of_wp (session_live drivers henv)
      ((session drivers env).wp_and (h v hv) (wp_trace _ _))
    cases r with
    | halt s' w' => exact hr
    | ret x w' =>
      have hlen := hgrown.length_le
      rw [Result.world_ret, hr.2] at hlen
      have hgrow : (w.called driver operation
          ((op.arguments.map Arg.name).map (w.args operation)) v).trace.length
            = w.trace.length + 2 := by
        simp [View.called, View.log, View.inside]
      have := hpre.length_le
      omega
  · rw [Session.generateCall, Handler.wp_bind] at h
    have hs : (session drivers env).stop
        (.call driver operation (op.arguments.map Arg.name)) w
          = some (.undefined .unprotected) := if_neg hw
    exact ((session drivers env).wp_act_some hs).mp h

theorem wp_executeOperation_refused_iff (henv : env.Possible) {s : Session} {op : Operation} :
    (session drivers env).wp (s.executeOperation arch driver operation op cmd)
        (Refused w.trace) w ↔
      (session drivers env).wp (parser arch s.type driver operation op.packs cmd)
        (Refused w.trace) w := by
  rw [Session.executeOperation, Handler.wp_bind]
  constructor
  · intro h
    refine (session drivers env).wp_mono ?_ ((session drivers env).wp_and h (wp_trace _ w))
    rintro r ⟨hr, hpre⟩
    cases r with
    | halt s' w' => exact hr
    | ret x w' =>
      obtain ⟨err, cmd'⟩ := x
      rw [Handler.andThen_ret] at hr
      by_cases herr : err < 0
      · simp only [if_pos herr] at hr
        exact ⟨herr, hr.2⟩
      · simp only [if_neg herr] at hr
        exact absurd hr (not_wp_generateCall_refused henv hpre)
  · refine (session drivers env).wp_mono ?_
    intro r hr
    cases r with
    | halt s' w' => exact hr
    | ret x w' =>
      simp only [Handler.andThen_ret, if_pos hr.1]
      exact ⟨by decide, hr.2⟩

/-- **Which truncated commands are not executed.**  For a stream that ends, by an end
of file or by an error, an operation is left uncalled and an error returned in every
run if and only if the parser notices. -/
theorem executeOperation_refused_iff (arch : Arch) (drivers : List Driver) {s : Session}
    (htype : s.type ≠ .websock) (driver operation : ℕ) (op : Operation) (cmd : Command)
    (hw : w.held = some driver) (hend : w.ending ≠ .waiting) :
    (∀ pick, (session drivers .any).Allows pick →
      Refused w.trace ((session drivers .any).exec pick 0
        (s.executeOperation arch driver operation op cmd) w)) ↔
      Noticed arch w.ending op.packs w.input :=
  ((session drivers .any).forall_exec_iff_wp (session_live drivers Env.any_possible)
    (s.executeOperation arch driver operation op cmd) (Refused w.trace) w).trans
      ((wp_executeOperation_refused_iff Env.any_possible).trans
        (wp_parser_refused_iff htype hw hend rfl))

end Refuse

/-- A read error inside the first scalars. -/
theorem executeOperation_refused_probeSet :
    Refused [] ((session probeDrivers .any).exec (eager probeDrivers) 0
      (probeSession.executeOperation .lp64 2 0 probeSet (Command.uninitialized fun _ => 0))
      ((View.start [0, 0] .error).locked 2 fun _ _ => none)) := by
  have htype : probeSession.type ≠ .websock := by decide
  have hend : ((View.start [0, 0] .error).locked 2 fun _ _ => none).ending ≠ .waiting := by decide
  exact (executeOperation_refused_iff .lp64 probeDrivers htype 2 0 probeSet _ rfl hend).mpr
    (by decide) (eager probeDrivers) (eager_allows_any probeDrivers)

/-- The client closes its connection behind the header: the operation is called, with
values that nobody sent. -/
theorem not_refused_of_eof :
    readArgs probeSet.types [] = none ∧
      ¬ ∀ pick, (session probeDrivers .any).Allows pick →
        Refused [] ((session probeDrivers .any).exec pick 0
          (probeSession.executeOperation .lp64 2 0 probeSet (Command.uninitialized fun _ => 0))
          ((View.start [] .eof).locked 2 fun _ _ => none)) := by
  refine ⟨by decide, fun h => ?_⟩
  have hrun := (wp_executeOperation_refused_iff Env.any_possible).mp
    (((session probeDrivers .any).forall_exec_iff_wp
      (session_live probeDrivers Env.any_possible) _ _ _).mp h)
  have htype : probeSession.type ≠ .websock := by decide
  have hend : ((View.start [] .eof).locked 2 fun _ _ => none).ending ≠ .waiting := by decide
  exact not_noticed_eof_nil .lp64 _ ((wp_parser_refused_iff htype rfl hend rfl).mp hrun)

end KoheronSdk
