import KoheronSdk.Server.PayloadDecoding

/-!
# What a payload decodes to

The generated parser, on a stream that begins with a payload and on a message that is
one.  Both come down to `readArgs`; a stream is received in parts whose sizes have to
fit in an `int`, and only there the sizes matter.

The results are equivalences, so they also say what the parser does not do.  One direction is the
rule of `Server/Parsing`: values that the payload spells are stored.  For the other one the run is
compared with what `readArgs` makes of the bytes that are there.  A stream may go on behind the
payload, and the payload alone has to decide what becomes of it: if the parser stores the values
whatever bytes come behind, then these bytes have not been looked at, and the payload spells the
values by itself.  A message has memory behind it, which is arbitrary in the same way.

* `StreamDecodes`, `MessageDecodes`: the parser has stored values and taken a number of bytes.
* `parser_stream_iff`: the payload of a command on a stream.
* `parser_message_iff`: the payload of a command in a frame.
-/

namespace KoheronSdk

open Effects

/-! ## More bytes behind -/

/-- More bytes behind an argument do not change it. -/
theorem ArgType.read_append {t : ArgType} {bs rest : List UInt8} {v : ArgVal}
    (h : t.read bs = some (v, rest)) (more : List UInt8) :
    t.read (bs ++ more) = some (v, rest ++ more) := by
  have hcount : 4 ≤ bs.length → extractU32 (bs ++ more) = extractU32 bs := by
    intro h4
    rw [← extractU32_take (Nat.le_refl 4), List.take_append_of_le_length h4,
      extractU32_take (Nat.le_refl 4)]
  cases t with
  | scalar t =>
    simp only [ArgType.read, Option.ite_none_right_eq_some, Option.some.injEq, Prod.mk.injEq] at h ⊢
    obtain ⟨hle, rfl, rfl⟩ := h
    refine ⟨by rw [List.length_append]; omega, ?_, List.drop_append_of_le_length hle⟩
    rw [← Server.extract_take (Nat.le_refl _), List.take_append_of_le_length hle,
      Server.extract_take (Nat.le_refl _)]
  | array t n =>
    simp only [ArgType.read, Option.ite_none_right_eq_some, Option.some.injEq, Prod.mk.injEq] at h ⊢
    obtain ⟨hle, rfl, rfl⟩ := h
    refine ⟨by rw [List.length_append]; omega, ?_, List.drop_append_of_le_length hle⟩
    rw [List.take_append_of_le_length hle]
  | vector t =>
    simp only [ArgType.read, Option.ite_none_right_eq_some, Option.some.injEq, Prod.mk.injEq] at h ⊢
    obtain ⟨hle, rfl, rfl⟩ := h
    have hcount' : elemCount t (bs ++ more) = elemCount t bs := by
      rw [elemCount, hcount (by omega), elemCount]
    rw [hcount']
    refine ⟨by rw [List.length_append]; omega, ?_, List.drop_append_of_le_length hle⟩
    rw [List.drop_append_of_le_length (by omega),
      List.take_append_of_le_length (by rw [List.length_drop]; omega)]
  | string =>
    simp only [ArgType.read, Option.ite_none_right_eq_some, Option.some.injEq, Prod.mk.injEq] at h ⊢
    obtain ⟨hle, rfl, rfl⟩ := h
    rw [hcount (by omega)]
    refine ⟨by rw [List.length_append]; omega, ?_, List.drop_append_of_le_length hle⟩
    rw [List.drop_append_of_le_length (by omega),
      List.take_append_of_le_length (by rw [List.length_drop]; omega)]

theorem readArgs_append_right {ts : List ArgType} {bs rest : List UInt8} {vals : List ArgVal}
    (h : readArgs ts bs = some (vals, rest)) (more : List UInt8) :
    readArgs ts (bs ++ more) = some (vals, rest ++ more) := by
  induction ts generalizing bs vals with
  | nil =>
    simp only [readArgs, Option.some.injEq, Prod.mk.injEq] at h ⊢
    exact ⟨h.1, by rw [h.2]⟩
  | cons t ts ih =>
    obtain ⟨v, mid, vs, hv, hvs, rfl⟩ := readArgs_cons.mp h
    exact readArgs_cons.mpr ⟨v, _, vs, t.read_append hv more, ih hvs, rfl⟩

/-! ## The parser, exactly -/

/-- The parser has stored `vals` and taken `n` bytes of the stream. -/
def StreamDecodes (op : Operation) (operation : ℕ) (vals : List ArgVal) (n : ℕ) (w : View)
    (r : Result Stop View (ℤ × Command)) : Prop :=
  ∃ cmd w', r = .ret (0, cmd) w' ∧ w'.consumed = w.consumed + n ∧
    (op.arguments.map Arg.name).map (w'.args operation) = vals.map some

/-- The parser has stored `vals`, and its cursor is behind `n` bytes of the message. -/
def MessageDecodes (op : Operation) (operation : ℕ) (vals : List ArgVal) (n : ℕ)
    (r : Result Stop View (ℤ × Command)) : Prop :=
  ∃ cmd w', r = .ret (0, cmd) w' ∧ cmd.payload.position = n ∧
    (op.arguments.map Arg.name).map (w'.args operation) = vals.map some

section Exact

variable {drivers : List Driver} {env : Env} {arch : Arch} {type : SockType}
  {driver operation : ℕ} {op : Operation} {payload : List UInt8} {vals : List ArgVal}

theorem wp_parser_streamDecodes (htype : type ≠ .websock)
    (hread : readArgs op.types payload = some (vals, []))
    (hfixed : ∀ p ∈ op.packs, ¬ toInt p.fixedBytes < 0) (hcounted : ∀ v ∈ vals, v.Counted)
    {cmd : Command} {w : View} {rest : List UInt8} (hw : w.held = some driver)
    (hin : w.input = payload ++ rest) :
    (session drivers env).wp (parser arch type driver operation op.packs cmd)
      (StreamDecodes op operation vals payload.length w) w := by
  have hread' : readArgs (packTypes op.packs) w.input = some (vals, rest) := by
    rw [op.packTypes_packs, hin, readArgs_append_right hread rest, List.nil_append]
  have hlen : op.arguments.length = vals.length := by
    have h := (forall₂_of_readArgs hread).length_eq
    rw [h, Operation.types, List.length_map]
  rw [wp_parser_of_sizes htype hw hread' fun p hp bs hle hvs => (p.counted_iff arch hle).mpr
    ⟨hfixed p hp, fun v hv => hcounted v (hvs v hv)⟩]
  refine ⟨_, _, rfl, ?_, ?_⟩
  · rw [View.consumed_advance, View.consumed_setArgs, hin, List.length_append,
      Nat.add_sub_cancel]
  · rw [View.args_advance, op.packNames_packs]
    exact Operation.map_args_setArgs w operation op (by rw [List.length_map, hlen])

/-- **What a stream decodes to.**  On every stream that begins with the payload, in every
run, the parser stores these values and takes exactly the payload, if and only if they
are what the payload spells and no size is in the way. -/
theorem parser_stream_iff (drivers : List Driver) (arch : Arch) (driver operation : ℕ)
    (htype : type ≠ .websock) :
    (∀ (cmd : Command) (w : View) (rest : List UInt8), w.held = some driver →
      w.input = payload ++ rest → ∀ pick, (session drivers .any).Allows pick →
        StreamDecodes op operation vals payload.length w ((session drivers .any).exec pick 0
          (parser arch type driver operation op.packs cmd) w)) ↔
      readArgs op.types payload = some (vals, []) ∧
        (∀ p ∈ op.packs, ¬ toInt p.fixedBytes < 0) ∧ ∀ v ∈ vals, v.Counted := by
  constructor
  · intro h
    -- a stream with nothing behind the payload, which stays open
    obtain ⟨w, hheld, hin, hend⟩ : ∃ w : View, w.held = some driver ∧ w.input = payload ++ [] ∧
        w.ending = .waiting :=
      ⟨{ View.start (payload ++ []) .waiting with held := some driver }, rfl, rfl, rfl⟩
    have hrun := h (Command.uninitialized fun _ => 0) w [] hheld hin
    rw [(session drivers .any).forall_exec_iff_wp (session_live drivers Env.any_possible)] at hrun
    rw [List.append_nil] at hin
    have hsound : (session drivers .any).wp
        (parser arch type driver operation op.packs (Command.uninitialized fun _ => 0))
        (fun r => StreamDecodes op operation vals payload.length w r →
          readArgs op.types payload = some (vals, []) ∧
            (∀ p ∈ op.packs, ¬ toInt p.fixedBytes < 0) ∧ ∀ v ∈ vals, v.Counted) w := by
      refine wp_parser_waiting htype hheld hend ?_ ?_ ?_
      · rintro s w' ⟨_, _, hret, -⟩
        cases hret
      · rintro w' ⟨_, _, hret, -⟩
        cases hret
      · rintro vals' k hk hread hfixed hcounted ⟨cmd, w', hret, hconsumed, hargs⟩
        cases hret
        rw [op.packTypes_packs, hin] at hread
        rw [hin] at hk
        have hlen : op.arguments.length = vals'.length := by
          have hlen := (forall₂_of_readArgs hread).length_eq
          rw [hlen, Operation.types, List.length_map]
        rw [View.args_advance, op.packNames_packs, Operation.map_args_setArgs w operation op
          (by rw [List.length_map, hlen])] at hargs
        obtain rfl : vals' = vals := List.map_injective_iff.mpr (Option.some_injective _) hargs
        rw [View.consumed_advance, View.consumed_setArgs] at hconsumed
        obtain rfl : k = payload.length := by omega
        rw [List.drop_length] at hread
        exact ⟨hread, hfixed, hcounted⟩
    obtain ⟨r, hr, himp⟩ := (session drivers .any).exists_of_wp
      (session_live drivers Env.any_possible) ((session drivers .any).wp_and hrun hsound)
    exact himp hr
  · rintro ⟨hread, hfixed, hcounted⟩ cmd w rest hw hin pick hpick
    exact (session drivers .any).wp_exec hpick
      (wp_parser_streamDecodes htype hread hfixed hcounted hw hin) 0

/-- What the values are that the parser stores in every run. -/
theorem exists_readArgs_of_messageDecodes {cmd : Command} {w : View} (hheld : w.held = some driver)
    (hpos : cmd.payload.position = 0) {P : ℕ → Prop}
    (h : ∀ pick, (session drivers .any).Allows pick → ∃ k, P k ∧
      MessageDecodes op operation vals k ((session drivers .any).exec pick 0
        (parser arch .websock driver operation op.packs cmd) w)) :
    ∃ k, P k ∧ ∀ bs, cmd.payload.Holds bs → k ≤ bs.length →
      readArgs op.types bs = some (vals, bs.drop k) := by
  have hrun := ((session drivers .any).forall_exec_iff_wp
    (session_live drivers Env.any_possible) _
    (fun r => ∃ k, P k ∧ MessageDecodes op operation vals k r) w).mp h
  cases hwalk : Buffer.walk op.packs cmd.payload with
  | none =>
    have hfails : (session drivers .any).wp (parser arch .websock driver operation op.packs cmd)
        (fun r => ¬ ∃ k, P k ∧ MessageDecodes op operation vals k r) w := by
      refine wp_parser_payload_of_none hheld hwalk ?_
      rintro c w' ⟨_, _, _, _, hret, -⟩
      cases hret
    obtain ⟨r, hr, hnot⟩ := (session drivers .any).exists_of_wp
      (session_live drivers Env.any_possible) ((session drivers .any).wp_and hrun hfails)
    exact absurd hr hnot
  | some k =>
    obtain ⟨vals', hlen', hread, hwp⟩ :=
      exists_wp_parser_payload drivers .any arch operation hheld hwalk
    rw [hwp] at hrun
    obtain ⟨k', hk, cmd', w', hret, hposition, hargs⟩ := hrun
    cases hret
    rw [Command.payload_skipPayload, Buffer.position_skip, hpos, Nat.zero_add] at hposition
    rw [op.packNames_packs] at hlen' hargs
    rw [Operation.map_args_setArgs w operation op hlen'] at hargs
    obtain rfl : vals' = vals := List.map_injective_iff.mpr (Option.some_injective _) hargs
    obtain rfl : k = k' := hposition
    rw [op.packTypes_packs] at hread
    exact ⟨k, hk, hread⟩

/-- A command and a view with a given payload. -/
theorem exists_holds (driver : ℕ) (payload : List UInt8) :
    ∃ (cmd : Command) (w : View), w.held = some driver ∧ cmd.payload.position = 0 ∧
      cmd.payload.Holds payload :=
  ⟨⟨0, 0, ⟨fun _ => 0, 0⟩, ⟨Buffer.overlay payload fun _ => 0, 0⟩⟩,
    { View.start [] .waiting with held := some driver }, rfl, rfl, Buffer.holds_overlay payload _⟩

/-- **What a message decodes to.**  With any command that has the payload, in every run,
the parser stores these values and its cursor ends behind the payload, if and only if
they are what the payload spells. -/
theorem parser_message_iff (drivers : List Driver) (arch : Arch) (driver operation : ℕ)
    (hlen : payload.length ≤ 262080) :
    (∀ (cmd : Command) (w : View), w.held = some driver → cmd.payload.position = 0 →
      cmd.payload.Holds payload → ∀ pick, (session drivers .any).Allows pick →
        MessageDecodes op operation vals payload.length ((session drivers .any).exec pick 0
          (parser arch .websock driver operation op.packs cmd) w)) ↔
      readArgs op.types payload = some (vals, []) := by
  constructor
  · intro h
    obtain ⟨cmd, w, hheld, hpos, hholds⟩ := exists_holds driver payload
    obtain ⟨k, rfl, hread⟩ := exists_readArgs_of_messageDecodes hheld hpos
      (P := (· = payload.length)) fun pick hpick => ⟨_, rfl, h cmd w hheld hpos hholds pick hpick⟩
    rw [hread payload hholds (Nat.le_refl _), List.drop_length]
  · intro hread cmd w hheld hpos hholds pick hpick
    have hwalk : Buffer.walk op.packs cmd.payload = some payload.length := by
      have hspell : readArgs (packTypes op.packs) payload
          = some (vals, payload.drop payload.length) := by
        rw [op.packTypes_packs, List.drop_length]
        exact hread
      exact walk_of_readArgs hholds hlen (Nat.le_refl _) hspell
    obtain ⟨vals', hlen', hread', hwp⟩ :=
      exists_wp_parser_payload drivers .any arch operation hheld hwalk
    obtain rfl : vals' = vals := by
      have h := hread' payload hholds (Nat.le_refl _)
      rw [op.packTypes_packs, hread] at h
      exact (Prod.mk.inj (Option.some.inj h)).1.symm
    rw [op.packNames_packs] at hlen' hwp
    refine (session drivers .any).wp_exec hpick ((hwp _).mpr ⟨_, _, rfl, ?_, ?_⟩) 0
    · rw [Command.payload_skipPayload, Buffer.position_skip, hpos, Nat.zero_add]
    · exact Operation.map_args_setArgs w operation op hlen'

/-- What is stored from a message is what the payload spells, or would spell with more
bytes behind. -/
theorem exists_readArgs_of_message (drivers : List Driver) (arch : Arch) (driver operation : ℕ)
    (h : ∀ (cmd : Command) (w : View), w.held = some driver → cmd.payload.position = 0 →
      cmd.payload.Holds payload → ∀ pick, (session drivers .any).Allows pick →
        ∃ k, MessageDecodes op operation vals k ((session drivers .any).exec pick 0
          (parser arch .websock driver operation op.packs cmd) w)) :
    ∃ more rest, readArgs op.types (payload ++ more) = some (vals, rest) := by
  obtain ⟨cmd, w, hheld, hpos, hholds⟩ := exists_holds driver payload
  obtain ⟨k, -, hread⟩ := exists_readArgs_of_messageDecodes hheld hpos
    (P := fun _ => True) fun pick hpick => by
      obtain ⟨k, hk⟩ := h cmd w hheld hpos hholds pick hpick
      exact ⟨k, trivial, hk⟩
  -- the payload, and enough of what is behind it in the buffer
  have hmore := cmd.payload.bytes_add payload.length k
  have hholds' : cmd.payload.Holds (payload ++ (cmd.payload.skip payload.length).bytes k) := by
    rw [Buffer.Holds, List.length_append, Buffer.length_bytes, hmore]
    exact congrArg (· ++ _) hholds
  refine ⟨_, _, hread _ hholds' ?_⟩
  rw [List.length_append, Buffer.length_bytes]
  omega

end Exact

end KoheronSdk
