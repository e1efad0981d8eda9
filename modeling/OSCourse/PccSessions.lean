import OSCourse.PccCounting
import OSCourse.Runs

/-!
# Sessions of the server

The history of the server knows the body of every session and which sessions
were replied to. In every reachable state the totals are those of the
replied sessions, up to the places that the merging loop has not visited
yet, and a session that was not replied to leaves them alone. The steps of
a session are bounded.
-/

namespace OSCourse.PccSessions

open Runs NetworkBytes PccServer PccCounting

/-- What the history of the server says about its sessions. -/
structure Ledger where
  /-- The body received so far in the newest session. -/
  body : List Byte
  /-- The bodies of the sessions whose reply was sent. -/
  replied : List (List Byte)

/-- What an event adds. -/
def Ledger.record (l : Ledger) : ServerEvent → Ledger
  | .recvSize _ _ => { l with body := [] }
  | .recvBody (some bytes) => { l with body := l.body ++ bytes }
  | .send (.sent _) => { l with replied := l.replied ++ [l.body] }
  | _ => l

/-- The ledger of a history. -/
def ledger (events : List ServerEvent) : Ledger := events.foldl Ledger.record ⟨[], []⟩

/-- How often a character occurs in some bodies. -/
def occurrences (bodies : List (List Byte)) (i : Fin numPrintableChars) : ℕ :=
  (bodies.map fun body => body.count (charAt i)).sum

/-- The totals of some bodies. -/
def totals (bodies : List (List Byte)) : Counters := fun i => BitVec.ofNat 32 (occurrences bodies i)

/-- The transitions of the server. -/
inductive Transition (signed : Bool) (t : Counters) : ServerPc → ServerEvent → Server → Prop
  | acceptClient : Transition signed t .accepting (.accept .client) ⟨t, .receivingSize⟩
  | acceptInterrupted : Transition signed t .accepting (.accept .interrupted) ⟨t, .exited 0 []⟩
  | acceptFailed : Transition signed t .accepting (.accept .failed) ⟨t, .accepting⟩
  | recvSize (result : Option (List Byte)) (stale : List Byte) :
      Transition signed t .receivingSize (.recvSize result stale) ⟨t, afterRecvSize result stale⟩
  | recvBody (session : Session) (result : Option (List Byte)) (hleft : 0 < session.fileSize.toNat) :
      Transition signed t (.counting session) (.recvBody result)
        ⟨t, afterRecvBody signed session result⟩
  | send (session : Session) (result : SendResult) (hleft : session.fileSize.toNat = 0) :
      Transition signed t (.counting session) (.send result) ⟨t, afterSend session result⟩
  | merge (session : Session) (i : Fin numPrintableChars) :
      Transition signed t (.merging session i) .merge
        ⟨Function.update t i (t i + session.printableCharsLocal i), .merging session (i + 1)⟩
  | merged (session : Session) (i : ℕ) (hi : numPrintableChars ≤ i) :
      Transition signed t (.merging session i) .merge ⟨t, .closing⟩
  | close : Transition signed t .closing .close ⟨t, .accepting⟩
  | sigint (pc : ServerPc) (hrunning : pc.running = true) :
      Transition signed t pc .sigint ⟨t, .exited 0 (totalsReport t)⟩

variable {signed : Bool} {s s' : Server} {e : ServerEvent} {l : Ledger}
  {events : List ServerEvent}

/-- The inversion lemma of the server. -/
theorem transition_of_step (h : s.step signed e = some s') :
    Transition signed s.pccTotal s.pc e s' := by
  obtain ⟨t, pc⟩ := s
  unfold Server.step at h
  dsimp only at h
  split at h
  · cases h
    exact .acceptClient
  · cases h
    exact .acceptInterrupted
  · cases h
    exact .acceptFailed
  · cases h
    exact .recvSize ..
  · rename_i session result
    by_cases hleft : 0 < session.fileSize.toNat
    · rw [if_pos hleft] at h
      cases h
      exact .recvBody session result hleft
    · rw [if_neg hleft] at h
      cases h
  · rename_i session result
    by_cases hleft : 0 < session.fileSize.toNat
    · rw [if_pos hleft] at h
      cases h
    · rw [if_neg hleft] at h
      cases h
      exact .send session result (by omega)
  · rename_i session i
    cases h
    unfold Server.merge
    by_cases hi : i < numPrintableChars
    · rw [dif_pos hi]
      exact .merge session ⟨i, hi⟩
    · rw [dif_neg hi]
      exact .merged session i (by omega)
  · cases h
    exact .close
  · by_cases hrunning : pc.running = true
    · rw [if_pos hrunning] at h
      cases h
      exact .sigint pc hrunning
    · rw [if_neg hrunning] at h
      cases h
  · cases h

/-- The invariant of the server, given its history. -/
def Holds (s : Server) (l : Ledger) : Prop :=
  match s.pc with
  | .counting session =>
    (∃ n : BitVec 32, session = tally n l.body ∧ l.body.length ≤ n.toNat) ∧
      s.pccTotal = totals l.replied
  | .merging session i =>
    ∃ (n : BitVec 32) (earlier : List (List Byte)), session = tally n l.body ∧
      l.body.length ≤ n.toNat ∧ l.replied = earlier ++ [l.body] ∧
        s.pccTotal = fun j => if j.val < i then totals l.replied j else totals earlier j
  | .exited _ _ => True
  | .overrun => False
  | _ => s.pccTotal = totals l.replied

/-- The totals of one more body. -/
theorem totals_concat (bodies : List (List Byte)) (n : BitVec 32) (body : List Byte)
    (i : Fin numPrintableChars) :
    totals (bodies ++ [body]) i = totals bodies i + (tally n body).printableCharsLocal i := by
  simp only [totals, occurrences, List.map_append, List.sum_append, BitVec.ofNat_add, List.map_cons,
    List.map_nil, List.sum_singleton]
  rfl

@[simp] theorem record_merge (l : Ledger) : l.record .merge = l := rfl

/-- One iteration of the merging loop. -/
theorem update_merging {t before after : Counters} {i : Fin numPrintableChars} {x : BitVec 32}
    (ht : t = fun j => if j.val < i.val then after j else before j) (hi : after i = before i + x) :
    Function.update t i (t i + x) = fun j => if j.val < i.val + 1 then after j else before j := by
  have htotals : ∀ j, t j = if j.val < i.val then after j else before j := congrFun ht
  funext j
  by_cases hj : j = i
  · subst hj
    rw [Function.update_self, htotals, if_neg (Nat.lt_irrefl _), if_pos (Nat.lt_succ_self _), hi]
  · have hval : j.val ≠ i.val := fun heq => hj (Fin.ext heq)
    have hiff : j.val < i.val + 1 ↔ j.val < i.val := by omega
    rw [Function.update_of_ne hj, htotals]
    simp only [hiff]

/-- The end of the merging loop. -/
theorem merging_done {t before after : Counters} {i : ℕ}
    (ht : t = fun j => if j.val < i then after j else before j) (hi : numPrintableChars ≤ i) :
    t = after := by
  rw [ht]
  funext j
  have hj := j.isLt
  rw [if_pos (by omega)]

/-- The step lemma. -/
theorem Holds.step (h : Holds s l) (hstep : Step signed s e s') : Holds s' (l.record e) := by
  obtain ⟨t, pc⟩ := s
  obtain ⟨hpossible, hstep⟩ := hstep
  cases transition_of_step hstep with
  | acceptClient => exact h
  | acceptInterrupted => trivial
  | acceptFailed => exact h
  | recvSize result stale =>
    cases result with
    | none => exact h
    | some bytes =>
      cases bytes with
      | nil => exact h
      | cons c bytes => exact ⟨⟨_, (tally_nil _).symm, Nat.zero_le _⟩, h⟩
  | recvBody session result hleft =>
    obtain ⟨⟨n, rfl, hbody⟩, htotal⟩ := h
    cases result with
    | none => exact htotal
    | some bytes =>
      cases bytes with
      | nil => simpa [Holds, Ledger.record, afterRecvBody] using htotal
      | cons c bytes =>
        have hread := hpossible _ rfl
        have hbounds := toRead_bounds hleft
        rw [fileSize_tally hbody] at hleft hbounds
        simp only [Holds, afterRecvBody, receive_tally]
        refine ⟨⟨n, rfl, ?_⟩, htotal⟩
        rw [Ledger.record, List.length_append]
        omega
  | send session result hleft =>
    obtain ⟨⟨n, rfl, hbody⟩, htotal⟩ := h
    cases result with
    | sent k =>
      refine ⟨n, l.replied, rfl, hbody, rfl, ?_⟩
      funext j
      rw [if_neg (Nat.not_lt_zero _)]
      exact congrFun htotal j
    | failed => exact htotal
    | brokenPipe => exact htotal
  | merge session i =>
    obtain ⟨n, earlier, rfl, hbody, hreplied, htotal⟩ := h
    exact ⟨n, earlier, rfl, hbody, hreplied, update_merging htotal (by
      rw [record_merge, hreplied]
      exact totals_concat earlier n l.body i)⟩
  | merged session i hi =>
    obtain ⟨n, earlier, rfl, hbody, hreplied, htotal⟩ := h
    exact merging_done htotal hi
  | close => exact h
  | sigint pc hrunning => trivial

/-- The invariant holds in every reachable state. -/
theorem run_holds (run : Run (Step signed) start events s) : Holds s (ledger events) := by
  induction run with
  | nil => rfl
  | snoc run hlast ih =>
    rw [ledger, List.foldl_append]
    exact ih.step hlast

/-- The event is a return of `accept`. -/
def isAccept : ServerEvent → Bool
  | .accept _ => true
  | _ => false

/-- `accept` returns in `accept`. -/
theorem accepting_of_isAccept (hstep : Step signed s e s') (haccept : isAccept e = true) :
    s.pc = .accepting := by
  have hcases := transition_of_step hstep.2
  generalize hpc : s.pc = pc at hcases
  cases hcases with
  | acceptClient => rfl
  | acceptInterrupted => rfl
  | acceptFailed => rfl
  | _ => cases haccept

/-- How many steps a session has left at most, its `close` among them. -/
def sessionRank : ServerPc → ℕ
  | .receivingSize => 2 ^ 32 + 98
  | .counting session => session.fileSize.toNat + 98
  | .merging _ i => numPrintableChars - i + 2
  | .closing => 1
  | _ => 0

/-- A session only goes on. -/
theorem sessionRank_lt (h : Holds s l) (hstep : Step signed s e s') (haccept : isAccept e = false)
    (hsigint : e ≠ .sigint) : sessionRank s'.pc < sessionRank s.pc := by
  obtain ⟨t, pc⟩ := s
  obtain ⟨hpossible, hstep⟩ := hstep
  cases transition_of_step hstep with
  | acceptClient => cases haccept
  | acceptInterrupted => cases haccept
  | acceptFailed => cases haccept
  | recvSize result stale =>
    cases result with
    | none => simp [sessionRank, afterRecvSize]
    | some bytes =>
      cases bytes with
      | nil => simp [sessionRank, afterRecvSize]
      | cons b bytes =>
        simp only [sessionRank, afterRecvSize]
        omega
  | recvBody session result hleft =>
    obtain ⟨⟨n, rfl, hbody⟩, -⟩ := h
    cases result with
    | none => simp [sessionRank, afterRecvBody]
    | some bytes =>
      cases bytes with
      | nil => simp [sessionRank, afterRecvBody]
      | cons b bytes =>
        have hread := hpossible _ rfl
        have hbounds := toRead_bounds hleft
        rw [fileSize_tally hbody] at hleft hbounds
        have hnext : (l.body ++ b :: bytes).length ≤ n.toNat := by
          rw [List.length_append]
          omega
        simp only [sessionRank, afterRecvBody, receive_tally]
        rw [fileSize_tally hbody, fileSize_tally hnext, List.length_append, List.length_cons]
        omega
  | send session result hleft =>
    cases result with
    | sent n => simp only [sessionRank, afterSend, hleft]; decide
    | failed => simp [sessionRank, afterSend]
    | brokenPipe => simp [sessionRank, afterSend]
  | merge session i =>
    have hi := i.isLt
    simp only [sessionRank]
    omega
  | merged session i hi => simp [sessionRank]
  | close => simp [sessionRank]
  | sigint pc hrunning => exact absurd rfl hsigint

/-- Without a successful reply the ledger keeps its replied sessions. -/
theorem replied_silent (events more : List ServerEvent) (hsilent : ∀ n, .send (.sent n) ∉ more) :
    (ledger (events ++ more)).replied = (ledger events).replied := by
  induction more using List.reverseRec with
  | nil => rw [List.append_nil]
  | append_singleton more e ih =>
    rw [← ih fun n hn => hsilent n (List.mem_append_left _ hn), ← List.append_assoc, ledger,
      List.foldl_append, ledger]
    cases e with
    | send result =>
      cases result with
      | sent n => exact absurd (List.mem_append_right _ List.mem_cons_self) (hsilent n)
      | failed => rfl
      | brokenPipe => rfl
    | recvBody result => cases result <;> rfl
    | _ => rfl

/-- The atomicity of sessions. Whenever the server is back at `accept`, the
totals are the sums over the sessions that were replied to; the count of a
reply is the sum of the local counters, which have not wrapped; and a stretch
of sessions without a successful reply leaves the totals as they were. -/
theorem sessions_atomic (run : Run (Step signed) start events s) :
    (s.pc = .accepting → ∀ i, s.pccTotal i = BitVec.ofNat 32
      ((ledger events).replied.map fun body => body.count (charAt i)).sum) ∧
    (∀ session result s', s.pc = .counting session → Step signed s (.send result) s' →
      session.printableCount.toNat = ∑ i, (session.printableCharsLocal i).toNat ∧
        ∀ i, (session.printableCharsLocal i).toNat = (ledger events).body.count (charAt i)) ∧
    (∀ more s', Run (Step signed) s more s' → (∀ n, .send (.sent n) ∉ more) →
      s.pc = .accepting → s'.pc = .accepting → s'.pccTotal = s.pccTotal) := by
  have hholds := run_holds run
  refine ⟨fun hpc i => ?_, fun session result s' hpc _ => ?_, fun more s' hmore hsilent hpc hpc' => ?_⟩
  · simp only [Holds, hpc] at hholds
    rw [hholds]
    rfl
  · simp only [Holds, hpc] at hholds
    obtain ⟨⟨n, rfl, hbody⟩, _⟩ := hholds
    have hlocal := printableCharsLocal_tally hbody
    refine ⟨?_, hlocal⟩
    rw [printableCount_tally hbody, ← sum_counts]
    exact Finset.sum_congr rfl fun i _ => (hlocal i).symm
  · have hholds' := run_holds (run.trans hmore)
    simp only [Holds, hpc] at hholds
    simp only [Holds, hpc'] at hholds'
    rw [hholds', hholds, replied_silent events more hsilent]

/-- The merging loop runs to its end and adds every local counter that is left. -/
theorem merge_run (signed : Bool) (session : Session) (t : Counters) (left : ℕ)
    (hleft : left ≤ numPrintableChars) :
    ∃ t', Run (Step signed) ⟨t, .merging session (numPrintableChars - left)⟩
        (List.replicate (left + 1) .merge) ⟨t', .closing⟩ ∧
      ∀ i, t' i = if numPrintableChars - left ≤ i.val then t i + session.printableCharsLocal i
        else t i := by
  induction left generalizing t with
  | zero =>
    refine ⟨t, Run.snoc .nil ⟨trivial, ?_⟩, fun i => ?_⟩
    · simp only [Server.step, Server.merge, Nat.sub_zero, Nat.lt_irrefl, dif_neg, not_false_eq_true]
    · have hi := i.isLt
      rw [if_neg (by omega)]
  | succ left ih =>
    have hplace : numPrintableChars - (left + 1) < numPrintableChars := by omega
    have hnext : numPrintableChars - (left + 1) + 1 = numPrintableChars - left := by omega
    obtain ⟨t', hrun, htotals⟩ := ih (Function.update t ⟨_, hplace⟩
      (t ⟨_, hplace⟩ + session.printableCharsLocal ⟨_, hplace⟩)) (by omega)
    have hfirst : Step signed ⟨t, .merging session (numPrintableChars - (left + 1))⟩ .merge
        ⟨Function.update t ⟨_, hplace⟩ (t ⟨_, hplace⟩ + session.printableCharsLocal ⟨_, hplace⟩),
          .merging session (numPrintableChars - left)⟩ := by
      refine ⟨trivial, ?_⟩
      simp only [Server.step, Server.merge, dif_pos hplace, hnext]
    refine ⟨t', (Run.snoc .nil hfirst).trans hrun, fun i => ?_⟩
    rw [htotals i]
    by_cases hi : i = ⟨_, hplace⟩
    · subst hi
      rw [Function.update_self, if_neg (by dsimp only; omega), if_pos (Nat.le_refl _)]
    · have hval : i.val ≠ numPrintableChars - (left + 1) := fun heq => hi (Fin.ext heq)
      have hiff : numPrintableChars - left ≤ i.val ↔ numPrintableChars - (left + 1) ≤ i.val := by
        omega
      rw [Function.update_of_ne hi]
      simp only [hiff]

/-- The `recv` of the length returns some bytes. -/
theorem recvSize_step (signed : Bool) (t : Counters) {head stale : List Byte} (hne : head ≠ [])
    (hhead : head.length ≤ 4) (hstale : stale.length = 4) :
    Step signed ⟨t, .receivingSize⟩ (.recvSize (some head) stale)
      ⟨t, .counting (tally (ntohl (head ++ stale.drop head.length)) [])⟩ := by
  refine ⟨⟨by simpa using hhead, hstale⟩, ?_⟩
  cases head with
  | nil => exact absurd rfl hne
  | cons b head =>
    rw [tally_nil]
    rfl

/-- A `recv` of the body returns some bytes. -/
theorem recvBody_step (signed : Bool) (t : Counters) {n : BitVec 32} {body bytes : List Byte}
    (hne : bytes ≠ []) (hleft : 0 < (tally n body).fileSize.toNat)
    (hbytes : bytes.length ≤ toRead (tally n body).fileSize) :
    Step signed ⟨t, .counting (tally n body)⟩ (.recvBody (some bytes))
      ⟨t, .counting (tally n (body ++ bytes))⟩ := by
  refine ⟨by simpa [ServerEvent.Possible] using hbytes, ?_⟩
  cases bytes with
  | nil => exact absurd rfl hne
  | cons b bytes => simp only [Server.step, if_pos hleft, afterRecvBody, receive_tally]

/-- The reply is sent once nothing is left to receive. -/
theorem send_step (signed : Bool) (t : Counters) {session : Session} {result : SendResult}
    (hpossible : ∀ k, result = .sent k → k ≤ 4) (hleft : session.fileSize.toNat = 0) :
    Step signed ⟨t, .counting session⟩ (.send result) ⟨t, afterSend session result⟩ := by
  refine ⟨?_, by simp only [Server.step, hleft, Nat.lt_irrefl, if_false]⟩
  cases result with
  | sent k => exact hpossible k rfl
  | failed => trivial
  | brokenPipe => trivial

section OneLetter

/-- The length of one letter is received, whatever the variable held. -/
theorem oneLetter_sized {stale : List Byte} (hstale : stale.length = 4) :
    Step true ⟨fun _ => 0, .receivingSize⟩ (.recvSize (some [0, 0, 0, 1]) stale)
      ⟨fun _ => 0, .counting (tally 1 [])⟩ := by
  have hsize : Step true ⟨fun _ => 0, .receivingSize⟩ (.recvSize (some [0, 0, 0, 1]) stale)
      ⟨fun _ => 0, .counting (tally (ntohl ([0, 0, 0, 1] ++ stale.drop 4)) [])⟩ :=
    recvSize_step true _ (by simp) (by simp) hstale
  rw [List.drop_eq_nil_of_le (le_of_eq hstale), List.append_nil] at hsize
  exact hsize

/-- The letter itself. -/
theorem oneLetter_counted :
    Step true ⟨fun _ => 0, .counting (tally 1 [])⟩ (.recvBody (some [65]))
      ⟨fun _ => 0, .counting (tally 1 [65])⟩ :=
  recvBody_step true _ (by simp) (by decide) (by decide)

/-- And the reply to it is sent. -/
theorem oneLetter_replied :
    Step true ⟨fun _ => 0, .counting (tally 1 [65])⟩ (.send (.sent 4))
      ⟨fun _ => 0, .merging (tally 1 [65]) 0⟩ :=
  send_step true _ (by simp) (by decide)

/-- A client that sends one letter and is replied to. -/
def oneLetter : List ServerEvent :=
  [] ++ [.accept .client] ++ [.recvSize (some [0, 0, 0, 1]) [9, 9, 9, 9]] ++
    [.recvBody (some [65])] ++ [.send (.sent 4)]

/-- The reply has been sent and the merging loop begins. -/
theorem oneLetter_run :
    Run (Step true) start oneLetter ⟨fun _ => 0, .merging (tally 1 [65]) 0⟩ :=
  (((Run.snoc .nil ⟨trivial, rfl⟩).snoc (oneLetter_sized rfl)).snoc oneLetter_counted).snoc
    oneLetter_replied

end OneLetter

/-- The totals after the one letter. -/
theorem sessions_atomic_oneLetter : ∃ s, Run (Step true) start
    (oneLetter ++ List.replicate 96 .merge ++ [.close]) s ∧ s.pccTotal 33 = 1 := by
  obtain ⟨t, hmerge, -⟩ := merge_run true (tally 1 [65]) (fun _ => 0) 95 (Nat.le_refl _)
  have run : Run (Step true) start (oneLetter ++ List.replicate 96 .merge ++ [.close])
      ⟨t, .accepting⟩ := (oneLetter_run.trans hmerge).snoc ⟨trivial, rfl⟩
  obtain ⟨htotals, -⟩ := sessions_atomic run
  refine ⟨_, run, ?_⟩
  rw [htotals rfl 33]
  decide

end OSCourse.PccSessions
