import Mathlib.Data.List.TakeDrop
import KoheronSdk.Client.Python
import KoheronSdk.Client.Replies

/-!
# Sending a command

`KoheronClient::send` of the C++ client and `send_command` of the Python client, on a socket
whose `send()` takes what it takes.

## Short counts

A stream socket promises nothing about how much of a buffer one `send()` takes: the result is the
number of bytes, and it is for the caller to go on with the rest.  The same header does so in
`koheron_http::send_all`, and both clients do so for what they receive.  Here both call `send()`
once: the C++ client looks for a negative result, the Python client for 0, and neither for a count
that is short.

## The model

The results of the calls are a function from the number of the call, with nothing assumed of it, so
that every schedule of short counts is among them.  The result is an `ssize_t` that the C++ client
narrows to an `int` before it looks at the sign; in Python a negative one is an exception of the
socket.  `send_command` builds its command first, and where `make_command` raises nothing is sent.
What has been handed over is what the socket has taken, whatever was taken before.

## Results

* `HandsOver`: the command is handed over as a whole, or there is an exception.
* `Client.handsOver_send_iff`, `Python.handsOver_sendCommand_iff`: when one client does so.
* `handsOver_iff`: when the two clients do so.
* `not_forall_handsOver`: a count of 8 for a command of 12 bytes.
-/

namespace KoheronSdk

/-- What has become of a connection: how often something was sent, and the bytes that the socket
has taken. -/
structure Outgoing where
  sends : ℕ
  taken : List UInt8
  deriving DecidableEq

/-- `send()` on a socket that answers by `results`, one after the other. -/
def Outgoing.send (results : ℕ → ℤ) (bytes : List UInt8) (out : Outgoing) : ℤ × Outgoing :=
  (results out.sends, ⟨out.sends + 1, out.taken ++ bytes.take (results out.sends).toNat⟩)

/-- `KoheronClient::send`, with the message of its `socket_error` -/
def Client.send (results : ℕ → ℤ) (sendBuffer : List UInt8) (out : Outgoing) :
    Except String Outgoing :=
  let sent := out.send results sendBuffer
  let err := toInt sent.1
  if err < 0 then .error "Cannot send command to koheron-server\n" else .ok sent.2

/-- `KoheronClient.send_command`, with the text of its exception.  A negative result is one that
the socket raises. -/
def Python.sendCommand (results : ℕ → ℤ) (deviceId cmdId : ℤ)
    (cmdArgs : List Str) (args : List PyVal) (out : Outgoing) : Except String Outgoing :=
  match makeCommand deviceId cmdId (some (cmdArgs, args)) with
  | none => .error "make_command"
  | some cmd =>
    let sent := out.send results cmd
    if sent.1 < 0 then .error "OSError"
    else if sent.1 = 0 then .error "send_command: Socket connection broken"
    else .ok sent.2

/-- The bytes have been taken as a whole, in their order and behind what was taken before, or there
is an exception. -/
def HandsOver (bytes : List UInt8) (before : Outgoing) : Except String Outgoing → Prop
  | .ok after => after.taken = before.taken ++ bytes
  | .error _ => True

section HandsOver

variable {results : ℕ → ℤ} {out : Outgoing}

theorem taken_send_iff (bytes : List UInt8) : (out.send results bytes).2.taken = out.taken ++ bytes
    ↔ bytes.length ≤ (results out.sends).toNat := by
  show out.taken ++ bytes.take (results out.sends).toNat = _ ↔ _
  rw [List.append_cancel_left_eq, List.take_eq_self_iff bytes]

theorem Client.handsOver_send_iff (sendBuffer : List UInt8) :
    HandsOver sendBuffer out (Client.send results sendBuffer out) ↔
      toInt (results out.sends) < 0 ∨ sendBuffer.length ≤ (results out.sends).toNat := by
  show HandsOver sendBuffer out (if toInt (results out.sends) < 0 then _ else _) ↔ _
  by_cases herr : toInt (results out.sends) < 0
  · rw [if_pos herr]
    exact iff_of_true trivial (Or.inl herr)
  · rw [if_neg herr]
    exact (taken_send_iff sendBuffer).trans (or_iff_right herr).symm

theorem Python.handsOver_sendCommand_iff {deviceId cmdId : ℤ}
    {cmdArgs : List Str} {args : List PyVal} {cmd : List UInt8}
    (hcmd : makeCommand deviceId cmdId (some (cmdArgs, args)) = some cmd) :
    HandsOver cmd out (sendCommand results deviceId cmdId cmdArgs args out) ↔
      results out.sends ≤ 0 ∨ cmd.length ≤ (results out.sends).toNat := by
  rw [sendCommand, hcmd]
  show HandsOver cmd out
    (if results out.sends < 0 then _ else if results out.sends = 0 then _ else _) ↔ _
  by_cases hneg : results out.sends < 0
  · rw [if_pos hneg]
    exact iff_of_true trivial (Or.inl hneg.le)
  · by_cases hzero : results out.sends = 0
    · rw [if_neg hneg, if_pos hzero]
      exact iff_of_true trivial (Or.inl hzero.le)
    · rw [if_neg hneg, if_neg hzero]
      exact (taken_send_iff cmd).trans (or_iff_right (by omega)).symm

/-- **A command is handed over as a whole** if the one `send()` takes it as a whole or fails: with
a negative result in C++, with an exception or 0 in Python. -/
theorem handsOver_iff (results : ℕ → ℤ) (out : Outgoing) :
    (∀ sendBuffer, HandsOver sendBuffer out (Client.send results sendBuffer out) ↔
      toInt (results out.sends) < 0 ∨ sendBuffer.length ≤ (results out.sends).toNat) ∧
    ∀ deviceId cmdId cmdArgs args,
      (∀ cmd, Python.makeCommand deviceId cmdId (some (cmdArgs, args)) = some cmd →
        HandsOver cmd out (Python.sendCommand results deviceId cmdId cmdArgs args out)) ↔
      ∀ cmd, Python.makeCommand deviceId cmdId (some (cmdArgs, args)) = some cmd →
        results out.sends ≤ 0 ∨ cmd.length ≤ (results out.sends).toNat :=
  ⟨Client.handsOver_send_iff, fun _ _ _ _ => forall_congr' fun _ => forall_congr' fun hcmd =>
    Python.handsOver_sendCommand_iff hcmd⟩

/-- The command for an operation with one number. -/
theorem makeCommand_probe :
    Python.makeCommand 2 1 (some (["uint32_t".toList], [.int 5]))
      = some [0, 0, 0, 0, 0, 2, 0, 1, 0, 0, 0, 5] := by
  rfl

/-- With a socket that takes 8 bytes, either client leaves the argument of its command out. -/
theorem not_forall_handsOver :
    (¬ ∀ results out sendBuffer, HandsOver sendBuffer out (Client.send results sendBuffer out)) ∧
    ¬ ∀ results out deviceId cmdId cmdArgs args cmd,
      Python.makeCommand deviceId cmdId (some (cmdArgs, args)) = some cmd →
        HandsOver cmd out (Python.sendCommand results deviceId cmdId cmdArgs args out) := by
  constructor
  · intro hall
    have hwhole := hall (fun _ => 8) ⟨0, []⟩ [0, 0, 0, 0, 0, 2, 0, 1, 0, 0, 0, 5]
    rw [Client.handsOver_send_iff] at hwhole
    exact absurd hwhole (by decide)
  · intro hall
    have hwhole := hall (fun _ => 8) ⟨0, []⟩ 2 1 _ _ _ makeCommand_probe
    rw [Python.handsOver_sendCommand_iff makeCommand_probe] at hwhole
    exact absurd hwhole (by decide)

end HandsOver

end KoheronSdk
