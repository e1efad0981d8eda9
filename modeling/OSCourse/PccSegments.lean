import OSCourse.PccFraming
import OSCourse.PccSessions

/-!
# Segmentation of the stream of a client

The transport may cut the stream of a client anywhere. The receiving loop
does not depend on the cuts, the `recv` of the length does: it is not
repeated, so a first piece of less than four bytes leaves the rest of the
length variable as it was and the rest of the length in the body.
-/

namespace OSCourse.PccSegments

open Runs NetworkBytes PccServer PccCounting PccSessions PccFraming

/-- The results of the `recv` calls of one session, cut from a stream. -/
structure Segmentation (stream : List Byte) where
  /-- What the `recv` of the length returns. -/
  head : List Byte
  /-- What the `recv` calls of the body return. -/
  pieces : List (List Byte)
  head_ne : head ≠ []
  head_le : head.length ≤ 4
  pieces_ne : ∀ piece ∈ pieces, piece ≠ []
  isPrefix : head ++ pieces.flatten <+: stream

/-- The events of the `recv` calls. -/
def receives {stream : List Byte} (cut : Segmentation stream) (stale : List Byte) :
    List ServerEvent :=
  .recvSize (some cut.head) stale :: cut.pieces.map fun piece => .recvBody (some piece)

/-- A session that sends a reply and takes the totals from `t` to `t'`. -/
def Served (signed : Bool) {stream : List Byte} (cut : Segmentation stream) (stale : List Byte)
    (t : Counters) (reply : List Byte) (t' : Counters) : Prop :=
  ∃ session k, Run (Step signed) ⟨t, .receivingSize⟩ (receives cut stale ++ [.send (.sent k)])
      ⟨t, .merging session 0⟩ ∧ reply = netBytes session.printableCount ∧
    Run (Step signed) ⟨t, .merging session 0⟩ (List.replicate (numPrintableChars + 1) .merge)
      ⟨t', .closing⟩

variable {signed : Bool} {stream stale reply : List Byte} {cut cut' : Segmentation stream}
  {t u : Counters} {s : Server} {n : BitVec 32} {session : Session}

/-- A first piece of four bytes is the announced length. -/
theorem head_eq (hlength : cut.head.length = 4) : cut.head = stream.take 4 := by
  have hpart : cut.head <+: stream := (List.prefix_append ..).trans cut.isPrefix
  rw [List.prefix_iff_eq_take.mp hpart, hlength]

end OSCourse.PccSegments
