import KoheronSdk.Client.Http
import KoheronSdk.Client.Network

/-!
# Reading the context

Before a client can call anything by name it reads the context, on a connection of its own: two
commands for the device that every server has, and a string in reply to each.  It does not do this
with `call` and `recv`, but with functions of its own.

These functions loop over short sends and short receives, and set a time limit of two seconds on
the socket; within it, and as long as the socket takes something, they do what `call` and `recv` do.
So a client that reads the context is one that makes two calls, `get_version` and `get_cmds`, and
all that is known of clients that make calls holds of it: `realizes_readServerContext` is the one
thing to prove.  It needs that the operations return C strings or strings, which is how the two are
received, and it is about a socket on which no time limit is reached.

* `Client.readServerContext`: the two commands and their replies.
* `contextCalls`: the two calls, as a program.
* `realizes_readServerContext`: it is a client that calls `get_version` and `get_cmds`.
-/

namespace KoheronSdk

open Effects

/-! ## The code -/

/-- `ServerContext` -/
structure ServerContext where
  version : List UInt8
  context : List UInt8
  deriving DecidableEq

namespace Client

/-- `recv_exact`, with the loop of `recv_all` -/
def recvExact (n : ℕ) : Program (List UInt8) := recvLoop n n []

/-- `context_detail::send_command`, on the socket that has been connected -/
def sendContextCommand (classId funcId : UInt16) : Program Unit := do
  let cmd := appendU32 0 ++ appendU16 classId ++ appendU16 funcId
  match ← Http.sendAll 0 cmd.length cmd with
  | .error _ => throw
  | .ok () => return ()

/-- `recv_string` -/
def recvString (funcId : UInt16) : Program (List UInt8) := do
  let hdr ← recvExact 12
  let reserved := extractU32 hdr
  let classId := extractU16 (hdr.drop 4)
  let func := extractU16 (hdr.drop 6)
  let length := (extractU32 (hdr.drop 8)).toNat
  if reserved ≠ 0 ∨ classId ≠ 1 ∨ func ≠ funcId then throw
  if length > 0 then recvExact length else return []

/-- `read_server_context`, when the socket has been connected -/
def readServerContext : Program ServerContext := do
  sendContextCommand 1 0
  let version ← recvString 0
  sendContextCommand 1 1
  let context ← recvString 1
  return ⟨version, context⟩

end Client

/-! ## The two calls -/

/-- The bytes of a string. -/
def RetVal.bytes : RetVal → List UInt8
  | .string bytes | .cString bytes => bytes
  | _ => []

/-- The calls that read the context. -/
def contextCalls : Prog ClientCommand (fun _ => RetVal) ServerContext :=
  .act ⟨1, 0, []⟩ fun version => .act ⟨1, 1, []⟩ fun context =>
    .pure ⟨version.bytes, context.bytes⟩

section Rules

variable {drivers : List Driver} {w : View} {x : Exchange}

theorem wp_recvExact {bs more : List UInt8} (hin : w.input = bs ++ more)
    {post : Result Stop View (List UInt8) → Prop} (hpost : post (.ret bs (w.advance bs.length))) :
    (session drivers .taking).wp (Client.recvExact bs.length) post w := by
  refine wp_recvLoop (Nat.zero_le _) (Nat.sub_le _ _) ?_ ?_
  · rw [hin, List.length_append]
    exact Nat.le_add_right _ _
  · rw [List.length_nil, Nat.sub_zero, hin, List.take_left]
    exact hpost

/-- A socket that takes what it is given is given it once. -/
theorem wp_sendAll_taking {fd : SessionID} {fuel : ℕ} {data : List UInt8} (hne : data ≠ [])
    {post : Result Stop View (Http.Outcome Unit) → Prop}
    (hpost : post (.ret (.ok ()) (w.log (.wrote fd data data.length)))) :
    (session drivers .taking).wp (Http.sendAll fd (fuel + 1) data) post w := by
  have hlen := List.length_pos_of_ne_nil hne
  rw [Http.sendAll, if_pos hlen, Handler.wp_bind, wp_write]
  intro n _ _ hn
  obtain rfl : n = data.length := hn
  rw [Handler.andThen_ret, if_neg (by omega), Int.toNat_natCast, List.drop_length]
  cases fuel with
  | zero => exact hpost
  | succ fuel => exact hpost

theorem wp_sendContextCommand {c : ClientCommand} (hargs : c.args = [])
    {post : Result Stop View Unit → Prop}
    (hpost : post (.ret () (w.log (.wrote 0 c.message.bytes c.message.bytes.length)))) :
    (session drivers .taking).wp (Client.sendContextCommand c.driver c.operation) post w := by
  have hbytes : c.message.bytes = header c.driver c.operation := by
    rw [ClientCommand.message, hargs]
    exact List.append_nil _
  rw [hbytes] at hpost
  rw [Client.sendContextCommand, Handler.wp_bind]
  exact wp_sendAll_taking (List.cons_ne_nil _ _) hpost

/-- A reply with a string. -/
theorem reply_string {c : ClientCommand} {v : RetVal} {data : List UInt8}
    (hdriver : c.driver = 1) (hx : Exchange.Possible drivers ⟨c, v⟩) {op : Operation}
    (hop : findOperation drivers c.driver.toNat c.operation.toNat = some op)
    (hne : v ≠ .void) (hargs : v.args = [.string data]) : Exchange.reply ⟨c, v⟩
      = (header 1 c.operation ++ appendU32 (UInt32.ofNat data.length)) ++ data := by
  have hwire : wireArgs [.string data] = appendU32 (UInt32.ofNat data.length) ++ data := by
    rw [wireArgs_cons, wireArgs_nil, List.append_nil, ArgVal.wire]
  rw [Exchange.reply, if_neg hne, (hx.reply_eq hop).1, replyCommand, UInt16.ofNat_toNat,
    UInt16.ofNat_toNat]
  dsimp only
  rw [hdriver, hargs, hwire, List.append_assoc]

/-- The string of a reply, when it comes next. -/
theorem wp_recvString {funcId : UInt16} {data more : List UInt8} (hlen : data.length < 2 ^ 31)
    (hin : w.input = header 1 funcId ++ appendU32 (UInt32.ofNat data.length) ++ data ++ more)
    {post : Result Stop View (List UInt8) → Prop}
    (hpost : post (.ret data (w.advance
      (header 1 funcId ++ appendU32 (UInt32.ofNat data.length) ++ data).length))) :
    (session drivers .taking).wp (Client.recvString funcId) post w := by
  obtain ⟨hdr, hhdr⟩ : ∃ hdr, hdr = header 1 funcId ++ appendU32 (UInt32.ofNat data.length) :=
    ⟨_, rfl⟩
  have hsize : hdr.length = 12 := hhdr ▸ rfl
  have hreserved : extractU32 hdr = 0 := by
    rw [hhdr, header, List.append_assoc, List.append_assoc, extractU32_appendU32]
  have hclass : extractU16 (hdr.drop 4) = 1 := by
    have hdrop : hdr.drop 4
        = appendU16 1 ++ (appendU16 funcId ++ appendU32 (UInt32.ofNat data.length)) := hhdr ▸ rfl
    rw [hdrop, extractU16_appendU16]
  have hfunc : extractU16 (hdr.drop 6) = funcId := by
    have hdrop : hdr.drop 6 = appendU16 funcId ++ appendU32 (UInt32.ofNat data.length) :=
      hhdr ▸ rfl
    rw [hdrop, extractU16_appendU16]
  have hcount : (extractU32 (hdr.drop 8)).toNat = data.length := by
    have hdrop : hdr.drop 8 = appendU32 (UInt32.ofNat data.length) ++ [] := by
      rw [hhdr, List.append_nil]
      exact List.drop_left' rfl
    rw [hdrop, toNat_extractU32_count hlen]
  rw [← hhdr] at hin hpost
  rw [List.append_assoc] at hin
  rw [Client.recvString, Handler.wp_bind, ← hsize]
  refine wp_recvExact hin ?_
  rw [Handler.andThen_ret]
  dsimp only
  have hchecked : ¬ (extractU32 hdr ≠ 0 ∨ extractU16 (hdr.drop 4) ≠ 1 ∨
      extractU16 (hdr.drop 6) ≠ funcId) := by
    rw [hreserved, hclass, hfunc]
    simp
  rw [if_neg hchecked, hcount]
  have hrest : (w.advance hdr.length).input = data ++ more := by
    rw [View.input_advance, hin, List.drop_left]
  have hall : (w.advance hdr.length).advance data.length
      = w.advance (hdr ++ data).length := by
    rw [View.advance_advance, List.length_append]
  rw [← hall] at hpost
  split
  · exact wp_recvExact hrest hpost
  · next hnone =>
    obtain rfl := List.length_eq_zero_iff.mp (Nat.eq_zero_of_not_pos hnone)
    exact hpost

/-- One command for the server's own device, and its string. -/
theorem wp_contextCall {funcId : UInt16} {v : RetVal} {data more : List UInt8}
    (hx : Exchange.Possible drivers ⟨⟨1, funcId, []⟩, v⟩) {op : Operation}
    (hop : findOperation drivers 1 funcId.toNat = some op) (hne : v ≠ .void)
    (hargs : v.args = [.string data])
    (hin : w.input = Exchange.reply ⟨⟨1, funcId, []⟩, v⟩ ++ more) {α : Type}
    {rest : List UInt8 → Program α} {post : Result Stop View α → Prop}
    (hpost : (session drivers .taking).wp (rest data) post
      ((w.log (.wrote 0 (ClientCommand.message ⟨1, funcId, []⟩).bytes
        (ClientCommand.message ⟨1, funcId, []⟩).bytes.length)).advance
          (Exchange.reply ⟨⟨1, funcId, []⟩, v⟩).length)) :
    (session drivers .taking).wp (Client.sendContextCommand 1 funcId >>= fun _ =>
      Client.recvString funcId >>= rest) post w := by
  have hlen : data.length < 2 ^ 31 := hx.2 (.string data) (hargs ▸ List.mem_singleton_self _)
  obtain ⟨w', hw'⟩ : ∃ w', w' = w.log (.wrote 0 (ClientCommand.message ⟨1, funcId, []⟩).bytes
    (ClientCommand.message ⟨1, funcId, []⟩).bytes.length) := ⟨_, rfl⟩
  have hin' : w'.input = Exchange.reply ⟨⟨1, funcId, []⟩, v⟩ ++ more := by
    rw [hw']
    exact hin
  rw [← hw', reply_string rfl hx hop hne hargs] at hpost
  rw [reply_string rfl hx hop hne hargs] at hin'
  rw [Handler.wp_bind]
  refine wp_sendContextCommand (c := ⟨1, funcId, []⟩) rfl ?_
  rw [Handler.andThen_ret, Handler.wp_bind, ← hw']
  exact wp_recvString hlen hin' hpost

/-- The version is a C string. -/
theorem exists_cString {v : RetVal} (hx : Exchange.Possible drivers ⟨⟨1, 0, []⟩, v⟩) :
    ∃ data, v = .cString data := by
  have hv : v.HasType .cString := hx.1 _ rfl
  cases v with
  | cString data => exact ⟨data, rfl⟩
  | _ => exact hv.elim

/-- The context is a string. -/
theorem exists_string {v : RetVal} (hx : Exchange.Possible drivers ⟨⟨1, 1, []⟩, v⟩) :
    ∃ data, v = .string data := by
  have hv : v.HasType .string := hx.1 _ rfl
  cases v with
  | string data => exact ⟨data, rfl⟩
  | _ => exact hv.elim

/-- The exchanges of a client that has read the context. -/
theorem context_exchanges {xs : List Exchange} {r : ServerContext}
    (h : contextCalls.Exchanges (xs.map Exchange.received) (.pure r))
    (hxs : ∀ x ∈ xs, x.Possible drivers) :
    xs = [⟨⟨1, 0, []⟩, .cString r.version⟩, ⟨⟨1, 1, []⟩, .string r.context⟩] := by
  unfold contextCalls at h
  cases xs with
  | nil => cases h
  | cons x xs =>
    obtain ⟨c, v⟩ := x
    obtain ⟨hx, hmore⟩ := List.forall_mem_cons.mp hxs
    obtain ⟨y, heq, h⟩ := h.of_act
    change (⟨c, v.received⟩ : Exchange) = _ at heq
    cases heq
    obtain ⟨version, rfl⟩ := exists_cString hx
    cases xs with
    | nil => cases h
    | cons x xs =>
      obtain ⟨c, u⟩ := x
      obtain ⟨hu, -⟩ := List.forall_mem_cons.mp hmore
      obtain ⟨y, heq, h⟩ := h.of_act
      change (⟨c, u.received⟩ : Exchange) = _ at heq
      cases heq
      obtain ⟨context, rfl⟩ := exists_string hu
      obtain ⟨hnil, heq⟩ := h.eq_of_pure
      obtain rfl := List.map_eq_nil_iff.mp hnil
      obtain rfl := Prog.pure.inj heq
      rfl

/-- **A client that reads the context makes the two calls**, and receives the two strings. -/
theorem realizes_readServerContext (drivers : List Driver) :
    Realizes drivers Client.readServerContext contextCalls := by
  intro xs q w h hxs hin
  unfold contextCalls at h
  cases xs with
  | nil =>
    cases h
    rw [Client.readServerContext, Handler.wp_bind]
    refine wp_sendContextCommand (c := ⟨1, 0, []⟩) rfl ?_
    rw [Handler.andThen_ret]
    exact called_act
  | cons x xs =>
    obtain ⟨c, v⟩ := x
    obtain ⟨hx, hmore⟩ := List.forall_mem_cons.mp hxs
    obtain ⟨y, heq, h⟩ := h.of_act
    change (⟨c, v.received⟩ : Exchange) = _ at heq
    cases heq
    obtain ⟨version, rfl⟩ := exists_cString hx
    have hin' : w.input = Exchange.reply ⟨⟨1, 0, []⟩, .cString version⟩ ++ exchangeReplies xs := hin
    refine wp_contextCall hx rfl RetVal.noConfusion rfl hin' ?_
    obtain ⟨w', hw'⟩ : ∃ w', w' = (w.log (.wrote 0 (ClientCommand.message ⟨1, 0, []⟩).bytes
        (ClientCommand.message ⟨1, 0, []⟩).bytes.length)).advance
          (Exchange.reply ⟨⟨1, 0, []⟩, .cString version⟩).length := ⟨_, rfl⟩
    have htrace : w'.trace = w.trace ++ [.wrote 0 (ClientCommand.message ⟨1, 0, []⟩).bytes
        (ClientCommand.message ⟨1, 0, []⟩).bytes.length] := by
      rw [hw']
      rfl
    have hrest : w'.input = exchangeReplies xs := by
      rw [hw']
      change w.input.drop _ = _
      rw [hin', List.drop_left]
    rw [← hw']
    refine (session drivers .taking).wp_mono
      (fun r hr => Called.cons (x := ⟨⟨1, 0, []⟩, .cString version⟩) hr htrace) ?_
    cases xs with
    | nil =>
      cases h
      rw [Handler.wp_bind]
      refine wp_sendContextCommand (c := ⟨1, 1, []⟩) rfl ?_
      rw [Handler.andThen_ret]
      exact called_act
    | cons x xs =>
      obtain ⟨c, u⟩ := x
      obtain ⟨hu, -⟩ := List.forall_mem_cons.mp hmore
      obtain ⟨y, heq, h⟩ := h.of_act
      change (⟨c, u.received⟩ : Exchange) = _ at heq
      cases heq
      obtain ⟨context, rfl⟩ := exists_string hu
      refine wp_contextCall hu rfl RetVal.noConfusion rfl hrest ?_
      obtain ⟨hnil, rfl⟩ := h.eq_of_pure
      obtain rfl := List.map_eq_nil_iff.mp hnil
      exact ⟨_, rfl, rfl⟩

end Rules

end KoheronSdk
