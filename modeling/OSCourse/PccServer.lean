import Mathlib.Data.Int.Notation
import Mathlib.Logic.Function.Basic
import OSCourse.NetworkBytes

/-!
# The printable characters server

The server is a machine that waits at its system calls. What a call returns
is part of an event, and the next state is computed as the code does it,
with 32-bit counters, a buffer of chars whose signedness the platform
chooses, and a length variable that a short `recv` fills only in part. A
signal may arrive between any two steps.
-/

namespace OSCourse.PccServer

open NetworkBytes

/-- One byte of a stream. -/
abbrev Byte := BitVec 8

/-- `BUFFER_SIZE`. -/
def bufferSize : ℕ := 1024

/-- `PRINTABLE_CHAR_MIN` and `PRINTABLE_CHAR_MAX`. -/
def printableCharMin : ℤ := 32

def printableCharMax : ℤ := 126

/-- `NUM_PRINTABLE_CHARS`. -/
abbrev numPrintableChars : ℕ := 95

/-- One 32-bit counter for each printable character. -/
abbrev Counters := Fin numPrintableChars → BitVec 32

/-- The four bytes of a number after `htonl`. -/
def netBytes (n : BitVec 32) : List Byte := bigEndian 4 n.toNat

/-- `ntohl` of four bytes. -/
def ntohl (bytes : List Byte) : BitVec 32 := BitVec.ofNat 32 (value bytes)

/-- A `char` of the buffer as an `int`, on a platform where it is signed or not. -/
def charValue (signed : Bool) (c : Byte) : ℤ := if signed then c.toInt else c.toNat

/-- The local variables of `count_printable_characters`. -/
structure Session where
  /-- Bytes still to be received. -/
  fileSize : BitVec 32
  printableCount : BitVec 32
  printableCharsLocal : Counters

/-- `printable_chars_local[i]++`, unless `i` is outside the array. -/
def increment (counters : Counters) (i : ℤ) : Option Counters :=
  if h : 0 ≤ i ∧ i < numPrintableChars then
    let index : Fin numPrintableChars := ⟨i.toNat, by omega⟩
    some (Function.update counters index (counters index + 1))
  else none

/-- The body of the loop over the buffer. -/
def Session.countChar (signed : Bool) (session : Session) (c : Byte) : Option Session :=
  if printableCharMin ≤ charValue signed c ∧ charValue signed c ≤ printableCharMax then
    (increment session.printableCharsLocal (charValue signed c - printableCharMin)).map
      fun counters => { session with
        printableCharsLocal := counters, printableCount := session.printableCount + 1 }
  else some session

/-- The loop over the buffer. -/
def Session.countChars (signed : Bool) : Session → List Byte → Option Session
  | session, [] => some session
  | session, c :: bytes => (session.countChar signed c).bind fun next => next.countChars signed bytes

/-- The body of the receiving loop. -/
def Session.receive (signed : Bool) (session : Session) (bytes : List Byte) : Option Session :=
  (session.countChars signed bytes).map fun next =>
    { next with fileSize := next.fileSize - BitVec.ofNat 32 bytes.length }

/-- `to_read`. -/
def toRead (fileSize : BitVec 32) : ℕ :=
  if fileSize.toNat < bufferSize then fileSize.toNat else bufferSize

/-- Where the server waits. -/
inductive ServerPc where
  /-- In `accept`. -/
  | accepting
  /-- In the `recv` of the length. -/
  | receivingSize
  /-- At the head of the receiving loop. -/
  | counting (session : Session)
  /-- At the head of the loop that adds to `pcc_total`. -/
  | merging (session : Session) (i : ℕ)
  /-- Before `close(client_fd)`. -/
  | closing
  /-- After `exit` or `return`, with the lines that were printed. -/
  | exited (status : ℕ) (printed : List (ℕ × BitVec 32))
  /-- Ended by a signal that was not handled. -/
  | killed
  /-- Outside an array. -/
  | overrun

/-- The state of the server. -/
structure Server where
  /-- `pcc_total`. -/
  pccTotal : Counters
  /-- Where it waits. -/
  pc : ServerPc

/-- How `accept` returns: with a client, with `EINTR`, or with another error. -/
inductive AcceptResult where
  | client
  | interrupted
  | failed

/-- How `send` returns: with a number of bytes, or with an error. On a
connection that the peer has closed or reset it raises `SIGPIPE` instead. -/
inductive SendResult where
  | sent (n : ℕ)
  | failed
  | brokenPipe

/-- A step of the server with what its call returned; no bytes is the end of
the stream, and `none` is an error. -/
inductive ServerEvent where
  | accept (result : AcceptResult)
  /-- The variable held `stale` before. -/
  | recvSize (result : Option (List Byte)) (stale : List Byte)
  | recvBody (result : Option (List Byte))
  | send (result : SendResult)
  | merge
  | close
  | sigint

/-- The lines of `handle_sigint`: each character with its count. -/
def totalsReport (pccTotal : Counters) : List (ℕ × BitVec 32) :=
  (List.finRange numPrintableChars).map fun i => (i.val + printableCharMin.toNat, pccTotal i)

/-- The server still runs. -/
def ServerPc.running : ServerPc → Bool
  | .exited _ _ => false
  | .killed => false
  | .overrun => false
  | _ => true

/-- What follows a `recv` of the length. -/
def afterRecvSize (result : Option (List Byte)) (stale : List Byte) : ServerPc :=
  match result with
  | none => .closing
  | some [] => .closing
  | some bytes =>
    .counting ⟨ntohl (bytes ++ stale.drop bytes.length), 0, fun _ => 0⟩

/-- What follows a `recv` of the body. -/
def afterRecvBody (signed : Bool) (session : Session) (result : Option (List Byte)) : ServerPc :=
  match result with
  | none => .closing
  | some [] => .closing
  | some bytes =>
    match session.receive signed bytes with
    | some next => .counting next
    | none => .overrun

/-- What follows the `send` of the count. -/
def afterSend (session : Session) : SendResult → ServerPc
  | .sent _ => .merging session 0
  | .failed => .closing
  | .brokenPipe => .killed

/-- One iteration of the loop that adds to `pcc_total`, or its end. -/
def Server.merge (s : Server) (session : Session) (i : ℕ) : Server :=
  if h : i < numPrintableChars then
    ⟨Function.update s.pccTotal ⟨i, h⟩ (s.pccTotal ⟨i, h⟩ + session.printableCharsLocal ⟨i, h⟩),
      .merging session (i + 1)⟩
  else { s with pc := .closing }

/-- The next state, if the server waits for this event. -/
def Server.step (signed : Bool) (s : Server) (e : ServerEvent) : Option Server :=
  match s.pc, e with
  | .accepting, .accept .client => some { s with pc := .receivingSize }
  | .accepting, .accept .interrupted => some { s with pc := .exited 0 [] }
  | .accepting, .accept .failed => some s
  | .receivingSize, .recvSize result stale => some { s with pc := afterRecvSize result stale }
  | .counting session, .recvBody result =>
    if 0 < session.fileSize.toNat then some { s with pc := afterRecvBody signed session result }
    else none
  | .counting session, .send result =>
    if 0 < session.fileSize.toNat then none else some { s with pc := afterSend session result }
  | .merging session i, .merge => some (s.merge session i)
  | .closing, .close => some { s with pc := .accepting }
  | pc, .sigint => if pc.running then some { s with pc := .exited 0 (totalsReport s.pccTotal) } else none
  | _, _ => none

/-- What the kernel can answer: no call transfers more than it was asked for. -/
def ServerEvent.Possible (s : Server) : ServerEvent → Prop
  | .recvSize result stale => (∀ bytes ∈ result, bytes.length ≤ 4) ∧ stale.length = 4
  | .recvBody result =>
    match s.pc with
    | .counting session => ∀ bytes ∈ result, bytes.length ≤ toRead session.fileSize
    | _ => True
  | .send (.sent n) => n ≤ 4
  | _ => True

/-- One step of the server. -/
def Step (signed : Bool) (s : Server) (e : ServerEvent) (s' : Server) : Prop :=
  e.Possible s ∧ s.step signed e = some s'

/-- The server in its accept loop, before any client. -/
def start : Server := ⟨fun _ => 0, .accepting⟩

end OSCourse.PccServer
