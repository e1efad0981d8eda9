import OSCourse.PccServer
import OSCourse.Runs

/-!
# The printable characters client

The client is a machine like the server. It tests most calls for failure
only: the `send` of the length and the `recv` of the count are not repeated
when they transfer less than four bytes. The `send` of the content is. No
`send` suppresses `SIGPIPE`, which ends the client like the server.
-/

namespace OSCourse.PccClient

open Runs NetworkBytes PccServer

/-- Where the client waits. -/
inductive Client where
  /-- In `open`, `socket`, `inet_pton` and `connect`. -/
  | opening
  | creating
  | converting
  | connecting
  /-- In the `lseek` to the end of the file. -/
  | seeking
  /-- In the `send` of the length. -/
  | sendingSize (fileSize : BitVec 32)
  /-- At the head of the outer loop. -/
  | reading
  /-- At the head of the inner loop. -/
  | sending (buffer : List Byte) (bytesSent : ℕ)
  /-- In the `recv` of the count. -/
  | receivingCount
  /-- After `exit` or `return`, with the count that was printed. -/
  | exited (status : ℕ) (printed : Option (BitVec 32))
  /-- Ended by a signal that was not handled. -/
  | killed

/-- A step of the client with what its call returned. -/
inductive ClientEvent where
  /-- A call that is tested for failure only. -/
  | checked (ok : Bool)
  | seeked (result : Option ℕ)
  | sentSize (result : SendResult)
  | read (result : Option (List Byte))
  | sent (result : SendResult)
  /-- The variable held `stale` before. -/
  | receivedCount (result : Option (List Byte)) (stale : List Byte)

/-- `EXIT_FAILURE`. -/
def exitFailure : ℕ := 1

/-- `print_error_and_exit`. -/
def Client.failed : Client := .exited exitFailure none

/-- What follows a `send`, if it does not end the client. -/
def afterSent (result : SendResult) (next : ℕ → Client) : Client :=
  match result with
  | .sent n => next n
  | .failed => .failed
  | .brokenPipe => .killed

/-- The head of the inner loop. -/
def sendingLoop (buffer : List Byte) (bytesSent : ℕ) : Client :=
  if bytesSent < buffer.length then .sending buffer bytesSent else .reading

/-- What follows a `read`. -/
def afterRead : Option (List Byte) → Client
  | none => .failed
  | some [] => .receivingCount
  | some buffer => sendingLoop buffer 0

/-- What follows the `recv` of the count. -/
def afterReceivedCount (result : Option (List Byte)) (stale : List Byte) : Client :=
  match result with
  | none => .failed
  | some bytes => .exited 0 (some (ntohl (bytes ++ stale.drop bytes.length)))

/-- The next state, if the client waits for this event. -/
def Client.step (c : Client) (e : ClientEvent) : Option Client :=
  match c, e with
  | .opening, .checked ok => some (if ok then .creating else .failed)
  | .creating, .checked ok => some (if ok then .converting else .failed)
  | .converting, .checked ok => some (if ok then .connecting else .failed)
  | .connecting, .checked ok => some (if ok then .seeking else .failed)
  | .seeking, .seeked none => some .failed
  | .seeking, .seeked (some fileSize) => some (.sendingSize (BitVec.ofNat 32 fileSize))
  | .sendingSize _, .sentSize result => some (afterSent result fun _ => .reading)
  | .reading, .read result => some (afterRead result)
  | .sending buffer bytesSent, .sent result =>
    some (afterSent result fun n => sendingLoop buffer (bytesSent + n))
  | .receivingCount, .receivedCount result stale => some (afterReceivedCount result stale)
  | _, _ => none

/-- What the kernel can answer: no call transfers more than it was asked for. -/
def ClientEvent.Possible (c : Client) : ClientEvent → Prop
  | .sentSize (.sent n) => n ≤ 4
  | .read result => ∀ bytes ∈ result, bytes.length ≤ bufferSize
  | .sent (.sent n) =>
    match c with
    | .sending buffer bytesSent => n ≤ buffer.length - bytesSent
    | _ => True
  | .receivedCount result stale => (∀ bytes ∈ result, bytes.length ≤ 4) ∧ stale.length = 4
  | _ => True

/-- One step of the client. -/
def ClientStep (c : Client) (e : ClientEvent) (c' : Client) : Prop :=
  e.Possible c ∧ c.step e = some c'

/-- The transitions of the client. -/
inductive ClientTransition : Client → ClientEvent → Client → Prop
  | opened (ok : Bool) : ClientTransition .opening (.checked ok) (if ok then .creating else .failed)
  | created (ok : Bool) :
      ClientTransition .creating (.checked ok) (if ok then .converting else .failed)
  | converted (ok : Bool) :
      ClientTransition .converting (.checked ok) (if ok then .connecting else .failed)
  | connected (ok : Bool) :
      ClientTransition .connecting (.checked ok) (if ok then .seeking else .failed)
  | notSeeked : ClientTransition .seeking (.seeked none) .failed
  | seeked (fileSize : ℕ) :
      ClientTransition .seeking (.seeked (some fileSize)) (.sendingSize (BitVec.ofNat 32 fileSize))
  | sentSize (fileSize : BitVec 32) (result : SendResult) :
      ClientTransition (.sendingSize fileSize) (.sentSize result)
        (afterSent result fun _ => .reading)
  | read (result : Option (List Byte)) : ClientTransition .reading (.read result) (afterRead result)
  | sent (buffer : List Byte) (bytesSent : ℕ) (result : SendResult) :
      ClientTransition (.sending buffer bytesSent) (.sent result)
        (afterSent result fun n => sendingLoop buffer (bytesSent + n))
  | receivedCount (result : Option (List Byte)) (stale : List Byte) :
      ClientTransition .receivingCount (.receivedCount result stale)
        (afterReceivedCount result stale)

variable {c c' : Client} {e : ClientEvent} {events : List ClientEvent}

/-- The inversion lemma of the client. -/
theorem clientTransition_of_step (h : c.step e = some c') : ClientTransition c e c' := by
  unfold Client.step at h
  split at h <;> cases h <;> constructor

/-- The client has ended. -/
def Client.ended : Client → Bool
  | .exited _ _ => true
  | .killed => true
  | _ => false

/-- No `recv` of the count has returned without an error. -/
def NoCount (events : List ClientEvent) : Prop :=
  ∀ bytes stale, .receivedCount (some bytes) stale ∉ events

/-- One more event that is no reply. -/
theorem NoCount.concat (h : NoCount events)
    (he : ∀ bytes stale, e ≠ .receivedCount (some bytes) stale) : NoCount (events ++ [e]) := by
  intro bytes stale hmem
  rcases List.mem_append.mp hmem with hmem | hmem
  · exact h bytes stale hmem
  · exact he bytes stale (List.mem_singleton.mp hmem).symm

end OSCourse.PccClient
