import OSCourse.PccCounting
import OSCourse.PccFraming
import OSCourse.Runs

/-!
# The arithmetic of the receiving loop

The loop of `count_printable_characters` is run on its own, from an
announced length and on any results of `recv`. Each result that keeps it
going takes at least one byte off the length, so it ends; and at every place
of it the 32-bit variables are the natural numbers they stand for.
-/

namespace OSCourse.PccArithmetic

open Runs NetworkBytes PccServer PccCounting PccFraming

/-- The server at the head of the receiving loop for an announced length. -/
def loopStart (totals : Counters) (n : BitVec 32) : Server := ⟨totals, .counting ⟨n, 0, fun _ => 0⟩⟩

/-- The bytes that the results of the `recv` calls brought. -/
def consumed (results : List (Option (List Byte))) : List Byte :=
  results.flatMap fun result => result.getD []

variable {signed : Bool} {totals : Counters} {n : BitVec 32} {body bytes : List Byte}
  {results : List (Option (List Byte))} {s s' : Server}

@[simp] theorem consumed_nil : consumed [] = [] := rfl

theorem consumed_snoc (results : List (Option (List Byte))) (result : Option (List Byte)) :
    consumed (results ++ [result]) = consumed results ++ result.getD [] := by
  simp [consumed]

/-- Every length can be announced: the loop starts after its four bytes. -/
theorem recvSize_loopStart (signed : Bool) (totals : Counters) (n : BitVec 32) {stale : List Byte}
    (hstale : stale.length = 4) :
    Step signed ⟨totals, .receivingSize⟩ (.recvSize (some (netBytes n)) stale)
      (loopStart totals n) := by
  have hlength : (netBytes n).length = 4 := length_bigEndian 4 n.toNat
  refine ⟨⟨fun bytes hbytes => ?_, hstale⟩, ?_⟩
  · cases hbytes
    omega
  · have hdrop : stale.drop (netBytes n).length = [] := List.drop_eq_nil_of_le (by omega)
    have hafter : afterRecvSize (some (netBytes n)) stale = (loopStart totals n).pc := by
      cases hbytes : netBytes n with
      | nil => simp [hbytes] at hlength
      | cons b rest =>
        rw [hbytes] at hdrop
        simp only [afterRecvSize, hdrop, List.append_nil, loopStart]
        rw [← hbytes, ntohl_netBytes]
    simp only [Server.step, hafter]
    rfl

/-- Where the loop is after these results: at its head with the session of
the bytes that came, or past a result that ended it. -/
structure LoopAt (n : BitVec 32) (results : List (Option (List Byte))) (s : Server) : Prop where
  within : (consumed results).length ≤ n.toNat
  place : (s.pc = .counting (tally n (consumed results)) ∧
      results.length ≤ (consumed results).length) ∨
    (s.pc = .closing ∧ results.length ≤ (consumed results).length + 1)

/-- One iteration of the loop. -/
theorem LoopAt.step {result : Option (List Byte)} (h : LoopAt n results s)
    (hstep : Step signed s (.recvBody result) s') : LoopAt n (results ++ [result]) s' := by
  obtain ⟨hpossible, hnext⟩ := hstep
  obtain ⟨totals, pc⟩ := s
  rcases h.place with ⟨hpc, hlength⟩ | ⟨hpc, hlength⟩
  · dsimp only at hpc
    subst hpc
    simp only [Server.step] at hnext
    split at hnext
    · rename_i hleft
      obtain rfl : _ = s' := Option.some.inj hnext
      have hwithin := h.within
      have hsize := fileSize_tally hwithin
      have hread := toRead_bounds hleft
      rcases result with _ | _ | ⟨b, bytes⟩
      · refine ⟨by simpa [consumed_snoc] using hwithin, .inr ⟨rfl, ?_⟩⟩
        simpa [consumed_snoc] using hlength
      · refine ⟨by simpa [consumed_snoc] using hwithin, .inr ⟨rfl, ?_⟩⟩
        simpa [consumed_snoc] using hlength
      · have hbytes : (b :: bytes).length ≤ toRead (tally n (consumed results)).fileSize :=
          hpossible (b :: bytes) rfl
        have hmore : (consumed (results ++ [some (b :: bytes)])).length =
            (consumed results).length + (b :: bytes).length := by
          rw [consumed_snoc, List.length_append, Option.getD_some]
        rw [List.length_cons] at hbytes hmore
        refine ⟨by omega, .inl ⟨?_, ?_⟩⟩
        · simp only [afterRecvBody, receive_tally, consumed_snoc, Option.getD_some]
        · rw [List.length_append, List.length_singleton]
          omega
    · cases hnext
  · dsimp only at hpc
    subst hpc
    simp [Server.step] at hnext

/-- Any number of iterations of the loop. -/
theorem loopAt_of_run (run : Run (Step signed) (loopStart totals n) (results.map .recvBody) s) :
    LoopAt n results s := by
  induction results using List.reverseRec generalizing s with
  | nil =>
    rw [List.map_nil] at run
    rw [run.of_nil]
    exact ⟨by simp, .inl ⟨by rw [consumed_nil, tally_nil]; rfl, by simp⟩⟩
  | append_singleton results result ih =>
    rw [List.map_append, List.map_singleton] at run
    obtain ⟨middle, hrun, hlast⟩ := run.last
    exact (ih hrun).step hlast

/-- The 32-bit variables of a session are the numbers they stand for. -/
structure Exact (session : Session) (left : ℕ) (counted : List Byte) : Prop where
  fileSize_eq : session.fileSize.toNat = left
  local_eq : ∀ i, (session.printableCharsLocal i).toNat = counted.count (charAt i)
  count_eq : session.printableCount.toNat = counted.countP printable
  sum_eq : session.printableCount.toNat = ∑ i, (session.printableCharsLocal i).toNat
  count_le : session.printableCount.toNat ≤ counted.length

/-- Counted bytes fit their counters as long as there are fewer than `2 ^ 32`. -/
theorem exact_counted (fileSize : BitVec 32) (hbody : body.length < 2 ^ 32) :
    Exact (counted fileSize body) fileSize.toNat body := by
  have hcountP : body.countP printable ≤ body.length := List.countP_le_length
  have hcount : ∀ i, (BitVec.ofNat 32 (body.count (charAt i))).toNat = body.count (charAt i) := by
    intro i
    have hle : body.count (charAt i) ≤ body.length := List.count_le_length
    rw [BitVec.toNat_ofNat, Nat.mod_eq_of_lt (by omega)]
  have htotal : (counted fileSize body).printableCount.toNat = body.countP printable := by
    rw [counted, BitVec.toNat_ofNat, Nat.mod_eq_of_lt (by omega)]
  refine ⟨rfl, hcount, htotal, ?_, by omega⟩
  rw [htotal, ← sum_counts]
  exact Finset.sum_congr rfl fun i _ => (hcount i).symm

/-- The head of the loop: the bounds on what is asked for, the exact values,
and what happens in the loop over the buffer whatever the call returns. -/
structure AtHead (signed : Bool) (n : BitVec 32) (received : List Byte) (session : Session) :
    Prop where
  received_le : received.length ≤ n.toNat
  exact : Exact session (n.toNat - received.length) received
  toRead_bounds : 0 < session.fileSize.toNat → 1 ≤ toRead session.fileSize ∧
    toRead session.fileSize ≤ 1024 ∧ toRead session.fileSize ≤ session.fileSize.toNat
  inner : 0 < session.fileSize.toNat → ∀ bytes : List Byte,
    bytes.length ≤ toRead session.fileSize → ∀ k ≤ bytes.length,
      ∃ next, session.countChars signed (bytes.take k) = some next ∧
        Exact next session.fileSize.toNat (received ++ bytes.take k) ∧
        (received ++ bytes.take k).length ≤ n.toNat
  index_bounds : ∀ c : Byte, printableCharMin ≤ charValue signed c →
    charValue signed c ≤ printableCharMax →
      0 ≤ charValue signed c - printableCharMin ∧ charValue signed c - printableCharMin ≤ 94

/-- The session of the bytes received so far is as it should be. -/
theorem atHead_tally (signed : Bool) (hbody : body.length ≤ n.toNat) :
    AtHead signed n body (tally n body) := by
  have hn := n.isLt
  have hsize := fileSize_tally hbody
  have hread : 0 < (tally n body).fileSize.toNat → 1 ≤ toRead (tally n body).fileSize ∧
      toRead (tally n body).fileSize ≤ 1024 ∧
        toRead (tally n body).fileSize ≤ (tally n body).fileSize.toNat := PccCounting.toRead_bounds
  refine ⟨hbody, ?_, hread, fun hleft bytes hbytes k hk => ?_, fun c hmin hmax => ?_⟩
  · rw [← hsize]
    exact exact_counted _ (by omega)
  · have hlength : (body ++ bytes.take k).length = body.length + k := by
      rw [List.length_append, List.length_take, Nat.min_eq_left hk]
    have htaken := (hread hleft).2.2
    refine ⟨_, countChars_counted signed _ body (bytes.take k), ?_, by omega⟩
    exact exact_counted _ (by omega)
  · simp only [printableCharMin, printableCharMax] at hmin hmax ⊢
    omega

/-- For every announced length, whatever the `recv` calls return, the loop
makes at most one more call than bytes were announced, never leaves an array,
and at its head every variable is exact; there every possible result leads on. -/
theorem receive_loop (signed : Bool) (totals : Counters) (n : BitVec 32)
    (results : List (Option (List Byte))) (s : Server)
    (run : Run (Step signed) (loopStart totals n) (results.map .recvBody) s) :
    results.length ≤ n.toNat + 1 ∧
    (s.pc = .closing ∨ ∃ session, s.pc = .counting session ∧
      AtHead signed n (consumed results) session ∧
      (0 < session.fileSize.toNat → ∀ result : Option (List Byte),
        (∀ bytes ∈ result, bytes.length ≤ toRead session.fileSize) →
          ∃ s', Step signed s (.recvBody result) s' ∧
            (s'.pc = .closing ∨ ∃ next, s'.pc = .counting next))) := by
  have hat := loopAt_of_run run
  have hwithin := hat.within
  rcases hat.place with ⟨hpc, hlength⟩ | ⟨hpc, hlength⟩
  · refine ⟨by omega, .inr ⟨_, hpc, atHead_tally signed hwithin, fun hleft result hresult => ?_⟩⟩
    have hstep : Step signed s (.recvBody result)
        { s with pc := afterRecvBody signed (tally n (consumed results)) result } := by
      constructor
      · simp only [ServerEvent.Possible, hpc]
        exact hresult
      · simp only [Server.step, hpc, if_pos hleft]
    refine ⟨_, hstep, ?_⟩
    rcases (hat.step hstep).place with ⟨hnext, _⟩ | ⟨hnext, _⟩
    · exact .inr ⟨_, hnext⟩
    · exact .inl hnext
  · exact ⟨by omega, .inl hpc⟩

/-- Two bytes announced, one byte received, then an error. -/
theorem receive_loop_failed : ∃ s : Server,
    Run (Step true) (loopStart (fun _ => 0) 2) ([some [65], none].map .recvBody) s ∧
      [some [(65 : Byte)], none].length ≤ (2 : BitVec 32).toNat + 1 ∧ s.pc = .closing := by
  have run : Run (Step true) (loopStart (fun _ => 0) 2)
      ([some [(65 : Byte)], none].map .recvBody) ⟨fun _ => 0, .closing⟩ := by
    have hfirst : Step true (loopStart (fun _ => 0) 2) (.recvBody (some [65]))
        ⟨fun _ => 0, .counting (tally 2 [65])⟩ := by
      refine ⟨by simp [ServerEvent.Possible, loopStart, toRead, bufferSize], ?_⟩
      have hafter : afterRecvBody true ⟨2, 0, fun _ => 0⟩ (some [65]) =
          .counting (tally 2 [65]) := by
        rw [← tally_nil]
        simp only [afterRecvBody, receive_tally, List.nil_append]
      simp only [Server.step, loopStart, hafter]
      rfl
    exact .snoc (.snoc .nil hfirst) ⟨by simp [ServerEvent.Possible], rfl⟩
  exact ⟨_, run, (receive_loop true (fun _ => 0) 2 [some [65], none] _ run).1, rfl⟩

end OSCourse.PccArithmetic
