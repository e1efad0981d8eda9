import OSCourse.PccSessions

/-!
# Signals and the server

An interrupt may arrive between any two steps and prints the totals as they
are, which misses what the merging loop has not added yet. A reply to a
client that is gone raises a signal that nothing handles, so the server
survives its clients exactly as long as each of them waits for its reply.
-/

namespace OSCourse.PccSignals

open Runs NetworkBytes PccServer PccCounting PccSessions

variable {signed : Bool} {s s' : Server} {events more : List ServerEvent}

/-- The merging loop still has to add a counter that is not zero. -/
def MergePending (pc : ServerPc) : Prop :=
  ∃ session k, pc = .merging session k ∧
    ∃ i : Fin numPrintableChars, k ≤ i.val ∧ session.printableCharsLocal i ≠ 0

/-- Nothing is pending outside the merging loop. -/
theorem not_pending {pc : ServerPc} (h : ∀ session k, pc ≠ .merging session k) :
    ¬MergePending pc := fun ⟨session, k, hpc, _⟩ => h session k hpc

/-- Different totals are printed differently. -/
theorem totalsReport_inj {t t' : Counters} (h : totalsReport t = totalsReport t') : t = t' := by
  funext i
  have hmap := List.map_inj_left.mp h i (List.mem_finRange i)
  exact congrArg Prod.snd hmap

/-- The totals are those of the replied sessions unless a merge is pending. -/
theorem totals_iff (run : Run (Step signed) start events s) (hrunning : s.pc.running = true) :
    s.pccTotal = totals (ledger events).replied ↔ ¬MergePending s.pc := by
  have hholds := run_holds run
  cases hpc : s.pc with
  | merging session k =>
    simp only [Holds, hpc] at hholds
    obtain ⟨n, earlier, rfl, -, hreplied, htotal⟩ := hholds
    have hlast : ∀ i, totals (ledger events).replied i =
        totals earlier i + (tally n (ledger events).body).printableCharsLocal i := fun i => by
      rw [← totals_concat, ← hreplied]
    constructor
    · rintro heq ⟨session, k', hmerging, i, hi, hne⟩
      cases hmerging
      have hat := congrFun (htotal.symm.trans heq) i
      simp only [if_neg (Nat.not_lt.mpr hi)] at hat
      rw [hlast, BitVec.self_eq_add_right] at hat
      exact hne hat
    · intro hpending
      rw [htotal]
      funext i
      by_cases hi : i.val < k
      · rw [if_pos hi]
      · have hzero : (tally n (ledger events).body).printableCharsLocal i = 0 := by
          by_contra hne
          exact hpending ⟨_, k, rfl, i, Nat.not_lt.mp hi, hne⟩
        rw [if_neg hi, hlast, hzero]
        exact (BitVec.add_zero _).symm
  | accepting =>
    simp only [Holds, hpc] at hholds
    exact iff_of_true hholds (not_pending (by simp))
  | receivingSize =>
    simp only [Holds, hpc] at hholds
    exact iff_of_true hholds (not_pending (by simp))
  | counting session =>
    simp only [Holds, hpc] at hholds
    exact iff_of_true hholds.2 (not_pending (by simp))
  | closing =>
    simp only [Holds, hpc] at hholds
    exact iff_of_true hholds (not_pending (by simp))
  | exited status printed => simp [hpc, ServerPc.running] at hrunning
  | killed => simp [hpc, ServerPc.running] at hrunning
  | overrun => simp [hpc, ServerPc.running] at hrunning

/-- An interrupt prints, for every character, its total over the sessions whose
reply was sent, if and only if no merge is pending when it arrives. -/
theorem sigint_report_iff (run : Run (Step signed) start events s)
    (hstep : Step signed s .sigint s') :
    s'.pc = .exited 0 (totalsReport fun i => BitVec.ofNat 32
      ((ledger events).replied.map fun body => body.count (charAt i)).sum) ↔ ¬MergePending s.pc := by
  obtain ⟨t, pc⟩ := s
  cases transition_of_step hstep.2 with
  | sigint pc hrunning =>
    rw [← totals_iff run hrunning]
    constructor
    · intro heq
      simp only [ServerPc.exited.injEq, true_and] at heq
      exact totalsReport_inj heq
    · intro heq
      rw [heq]
      rfl

/-- The reply of the one letter has been sent, and the interrupt prints zeros. -/
theorem sigint_report_fails : ∃ s s' : Server, Run (Step true) start oneLetter s ∧
    Step true s .sigint s' ∧ s'.pc ≠ .exited 0 (totalsReport fun i => BitVec.ofNat 32
      ((ledger oneLetter).replied.map fun body => body.count (charAt i)).sum) := by
  refine ⟨_, _, oneLetter_run, ⟨trivial, rfl⟩, fun heq => ?_⟩
  simp only [ServerPc.exited.injEq, true_and] at heq
  have hat := congrFun (totalsReport_inj heq) 33
  revert hat
  decide

/-- Interrupts before the first client and behind the first reply. -/
theorem sigint_report_iff_both :
    (∃ s', Step true start .sigint s' ∧ s'.pc = .exited 0 (totalsReport fun _ => 0)) ∧
      ∃ s s', Run (Step true) start oneLetter s ∧ Step true s .sigint s' ∧
        s'.pc ≠ .exited 0 (totalsReport fun i => BitVec.ofNat 32
          ((ledger oneLetter).replied.map fun body => body.count (charAt i)).sum) := by
  constructor
  · refine ⟨_, ⟨trivial, rfl⟩, (sigint_report_iff (.nil : Run (Step true) start [] start)
      ⟨trivial, rfl⟩).mpr ?_⟩
    rintro ⟨session, k, hpc, -⟩
    cases hpc
  · refine ⟨_, _, oneLetter_run, ⟨trivial, rfl⟩, fun heq => ?_⟩
    refine (sigint_report_iff oneLetter_run ⟨trivial, rfl⟩).mp heq ⟨_, 0, rfl, 33, Nat.zero_le _, ?_⟩
    decide

/-- The server and whether the peer of its newest connection is still there. -/
structure Hosting where
  server : Server
  peerOpen : Bool

/-- A step of the server, or the client closing or resetting its connection. -/
inductive HostEvent where
  | server (e : ServerEvent)
  | disconnect

/-- What the system calls can do to the server while no signal comes from
outside: a `send` to a client that is gone raises `SIGPIPE`, and only that. -/
def Hosting.Allows (h : Hosting) : ServerEvent → Prop
  | .accept .interrupted => False
  | .sigint => False
  | .send result => result = .brokenPipe ↔ h.peerOpen = false
  | _ => True

/-- A new connection has a peer. -/
def peerAfter (peerOpen : Bool) : HostEvent → Bool
  | .server (.accept .client) => true
  | .disconnect => false
  | _ => peerOpen

/-- One step of the server or its client. -/
inductive HostStep (signed : Bool) (h : Hosting) : HostEvent → Hosting → Prop
  | server (e : ServerEvent) (server : Server) (hallows : h.Allows e)
      (hstep : Step signed h.server e server) :
      HostStep signed h (.server e) ⟨server, peerAfter h.peerOpen (.server e)⟩
  | disconnect : HostStep signed h .disconnect { h with peerOpen := false }

/-- Before any client. -/
def hostStart : Hosting := ⟨start, false⟩

/-- The steps of the server. -/
def serverEvents (events : List HostEvent) : List ServerEvent :=
  events.filterMap fun e => match e with
    | .server e => some e
    | .disconnect => none

/-- The peer is there after these events. -/
def peerOpenAfter (events : List HostEvent) : Bool := events.foldl peerAfter false

/-- Every reply was sent while its client was there. -/
def RepliesReachPeers (events : List HostEvent) : Prop :=
  ∀ before result after, events = before ++ .server (.send result) :: after →
    peerOpenAfter before = true

/-- The server has survived its clients so far. It runs; in a session it can go
on, and its steps are bounded until it has closed the connection; with that it
is back at `accept`, and has changed the totals by nothing or by the whole
histogram of the session. -/
structure Survives (signed : Bool) (events : List HostEvent) (h : Hosting) : Prop where
  running : h.server.pc.running = true
  onwards : h.server.pc ≠ .accepting → ∃ e h', HostStep signed h (.server e) h'
  bounded : ∀ first session, events = first ++ .server (.accept .client) :: session →
    .server (.accept .client) ∉ session → .server .close ∉ session →
      (serverEvents session).length ≤ 2 ^ 32 + 98
  back : ∀ first session, events = first ++ .server (.accept .client) :: session →
    .server (.accept .client) ∉ session → .server .close ∈ session → h.server.pc = .accepting
  sessions : ∀ first session earlier, events = first ++ .server (.accept .client) :: session →
    .server (.accept .client) ∉ session → Run (HostStep signed) hostStart first earlier →
      Run (HostStep signed) earlier (.server (.accept .client) :: session) h →
        h.server.pc = .accepting →
        h.server.pccTotal = earlier.server.pccTotal ∨ h.server.pccTotal = fun i =>
          earlier.server.pccTotal i +
            BitVec.ofNat 32 ((ledger (serverEvents events)).body.count (charAt i))

/-- The send is behind the server, until it accepts again. -/
def ServerPc.late : ServerPc → Bool
  | .receivingSize => false
  | .counting _ => false
  | _ => true

/-- One session is replied to at most once, with everything it received. -/
theorem session_replies (run : Run (Step signed) s more s') (hno : .accept .client ∉ more)
    (l : Ledger) :
    (more.foldl Ledger.record l).replied = l.replied ∨
      ((more.foldl Ledger.record l).replied =
        l.replied ++ [(more.foldl Ledger.record l).body] ∧ ServerPc.late s'.pc = true) := by
  induction run with
  | nil => exact .inl rfl
  | @snoc more middle e s' run hlast ih =>
    have hbefore := ih fun hmem => hno (List.mem_append_left _ hmem)
    have hnew : ServerEvent.accept .client ≠ e := fun heq => hno (by simp [heq])
    rw [List.foldl_append, List.foldl_cons, List.foldl_nil]
    obtain ⟨t, pc⟩ := middle
    cases transition_of_step hlast.2 with
    | acceptClient => exact absurd rfl hnew
    | recvSize result stale =>
      rcases hbefore with hsame | ⟨_, hlate⟩
      · exact .inl hsame
      · cases hlate
    | recvBody session result hleft =>
      rcases hbefore with hsame | ⟨_, hlate⟩
      · refine .inl ?_
        rw [← hsame]
        cases result <;> rfl
      · cases hlate
    | send session result hleft =>
      rcases hbefore with hsame | ⟨_, hlate⟩
      · cases result with
        | sent k => exact .inr ⟨by rw [← hsame]; rfl, rfl⟩
        | failed => exact .inl hsame
        | brokenPipe => exact .inl hsame
      · cases hlate
    | _ => exact hbefore.imp_right fun hreplied => ⟨hreplied.1, rfl⟩

variable {h h' : Hosting} {events : List HostEvent}

theorem serverEvents_append (first second : List HostEvent) :
    serverEvents (first ++ second) = serverEvents first ++ serverEvents second :=
  List.filterMap_append

/-- The server's part of a run. -/
theorem host_run (run : Run (HostStep signed) h events h') :
    Run (Step signed) h.server (serverEvents events) h'.server := by
  induction run with
  | nil => exact .nil
  | snoc run hlast ih =>
    rw [serverEvents_append]
    cases hlast with
    | server e server hallows hstep => exact ih.snoc hstep
    | disconnect => exact (List.append_nil _).symm ▸ ih

/-- The peer's part of a run. -/
theorem peerOpen_run (run : Run (HostStep signed) hostStart events h) :
    h.peerOpen = peerOpenAfter events := by
  induction run with
  | nil => rfl
  | snoc run hlast ih =>
    rw [peerOpenAfter, List.foldl_append, List.foldl_cons, List.foldl_nil, ← peerOpenAfter, ← ih]
    cases hlast with
    | server e server hallows hstep => rfl
    | disconnect => rfl

/-- A `recv` of the body ends the server only outside an array. -/
theorem afterRecvBody_running (signed : Bool) (session : Session) (result : Option (List Byte)) :
    afterRecvBody signed session result = .overrun ∨
      (afterRecvBody signed session result).running = true := by
  unfold afterRecvBody
  split
  · exact .inr rfl
  · exact .inr rfl
  · split
    · exact .inr rfl
    · exact .inl rfl

/-- The server runs as long as every reply was sent while its client was there. -/
theorem running_of_replies (run : Run (HostStep signed) hostStart events h)
    (hreplies : RepliesReachPeers events) : h.server.pc.running = true := by
  induction run with
  | nil => rfl
  | @snoc events middle e h run hlast ih =>
    have hbefore : middle.server.pc.running = true :=
      ih fun before result after heq => hreplies before result (after ++ [e]) (by simp [heq])
    cases hlast with
    | disconnect => exact hbefore
    | server e server hallows hstep =>
      have hholds := run_holds ((host_run run).snoc hstep)
      obtain ⟨⟨t, pc⟩, peerOpen⟩ := middle
      cases transition_of_step hstep.2 with
      | acceptInterrupted => exact hallows.elim
      | sigint pc hrunning => exact hallows.elim
      | send session result hleft =>
        have hpeer : peerOpen = true :=
          (peerOpen_run run).trans (hreplies events result [] rfl)
        cases result with
        | sent k => rfl
        | failed => rfl
        | brokenPipe =>
          have hgone : peerOpen = false := hallows.mp rfl
          rw [hpeer] at hgone
          cases hgone
      | recvSize result stale =>
        cases result with
        | none => rfl
        | some bytes => cases bytes <;> rfl
      | recvBody session result hleft =>
        rcases afterRecvBody_running signed session result with hover | hrunning
        · simp [Holds, hover] at hholds
        · exact hrunning
      | _ => rfl

/-- A server that runs and is not at `accept` can go on. -/
theorem goes_on (hrunning : h.server.pc.running = true) (hbusy : h.server.pc ≠ .accepting) :
    ∃ e h', HostStep signed h (.server e) h' := by
  obtain ⟨⟨t, pc⟩, peerOpen⟩ := h
  cases pc with
  | accepting => exact absurd rfl hbusy
  | receivingSize =>
    exact ⟨.recvSize none [0, 0, 0, 0], _, .server _ _ trivial ⟨⟨nofun, rfl⟩, rfl⟩⟩
  | counting session =>
    by_cases hleft : 0 < session.fileSize.toNat
    · exact ⟨.recvBody none, _, .server _ ⟨t, .closing⟩ trivial ⟨nofun, if_pos hleft⟩⟩
    · cases peerOpen with
      | true =>
        exact ⟨.send .failed, _, .server _ ⟨t, .closing⟩ (iff_of_false nofun nofun)
          ⟨trivial, if_neg hleft⟩⟩
      | false =>
        exact ⟨.send .brokenPipe, _, .server _ ⟨t, .killed⟩ (iff_of_true rfl rfl)
          ⟨trivial, if_neg hleft⟩⟩
  | merging session i => exact ⟨.merge, _, .server _ _ trivial ⟨trivial, rfl⟩⟩
  | closing => exact ⟨.close, _, .server _ _ trivial ⟨trivial, rfl⟩⟩
  | exited status printed => cases hrunning
  | killed => cases hrunning
  | overrun => cases hrunning

/-- Only `close` brings the server back to `accept`. -/
theorem accepting_of_transition {t : Counters} {pc : ServerPc} {e : ServerEvent}
    (htransition : Transition signed t pc e s') (hclient : e ≠ .accept .client)
    (hinterrupted : e ≠ .accept .interrupted) (hsigint : e ≠ .sigint) :
    s'.pc = .accepting ↔ pc = .accepting ∨ e = .close := by
  cases htransition with
  | acceptClient => exact absurd rfl hclient
  | acceptInterrupted => exact absurd rfl hinterrupted
  | acceptFailed => exact iff_of_true rfl (.inl rfl)
  | recvSize result stale =>
    refine iff_of_false (fun heq => ?_) (by simp)
    cases result with
    | none => cases heq
    | some bytes => cases bytes <;> cases heq
  | recvBody session result hleft =>
    refine iff_of_false (fun heq => ?_) (by simp)
    unfold afterRecvBody at heq
    split at heq
    · cases heq
    · cases heq
    · split at heq <;> cases heq
  | send session result hleft =>
    refine iff_of_false (fun heq => ?_) (by simp)
    cases result <;> cases heq
  | close => exact iff_of_true rfl (.inr rfl)
  | sigint pc hrunning => exact absurd rfl hsigint
  | _ => exact iff_of_false nofun (by simp)

/-- A session is over when the server is back at `accept`, and until then its
steps are bounded. -/
theorem session_over {first session : List HostEvent} {earlier : Hosting}
    (hearlier : Run (HostStep signed) hostStart first earlier)
    (run : Run (HostStep signed) earlier session h) (hpc : earlier.server.pc = .receivingSize)
    (hno : .server (.accept .client) ∉ session) :
    (h.server.pc = .accepting ↔ .server .close ∈ session) ∧ (.server .close ∉ session →
      (serverEvents session).length + sessionRank h.server.pc ≤ 2 ^ 32 + 98) := by
  induction run with
  | nil =>
    rw [hpc]
    exact ⟨iff_of_false nofun List.not_mem_nil, fun _ => by simp [serverEvents, sessionRank]⟩
  | @snoc session middle e h run hlast ih =>
    obtain ⟨hover, hbound⟩ := ih fun hmem => hno (List.mem_append_left _ hmem)
    have hholds := run_holds (host_run (hearlier.trans run))
    rw [serverEvents_append, List.length_append, List.mem_append, List.mem_singleton, ← hover]
    cases hlast with
    | disconnect => exact ⟨by simp, fun hopen => hbound fun hmem => hopen (.inl (hover.mpr hmem))⟩
    | server e server hallows hstep =>
      have hclient : e ≠ .accept .client := fun heq => hno (by simp [heq])
      have hinterrupted : e ≠ .accept .interrupted := fun heq => by
        subst heq
        exact hallows
      have hsigint : e ≠ .sigint := fun heq => by
        subst heq
        exact hallows
      have haccepting := accepting_of_transition (transition_of_step hstep.2) hclient hinterrupted
        hsigint
      refine ⟨by simpa [eq_comm] using haccepting, fun hopen => ?_⟩
      have hbusy : middle.server.pc ≠ .accepting := fun heq => hopen (.inl heq)
      have haccept : isAccept e = false := by
        cases hcase : isAccept e with
        | false => rfl
        | true => exact absurd (accepting_of_isAccept hstep hcase) hbusy
      have hlower := sessionRank_lt hholds hstep haccept hsigint
      have hbefore := hbound fun hmem => hbusy (hover.mpr hmem)
      change (serverEvents session).length + 1 + sessionRank server.pc ≤ 2 ^ 32 + 98
      omega

/-- Behind `accept` the server receives the length. -/
theorem session_begins {first session : List HostEvent}
    (run : Run (HostStep signed) hostStart (first ++ .server (.accept .client) :: session) h) :
    ∃ earlier, Run (HostStep signed) hostStart (first ++ [.server (.accept .client)]) earlier ∧
      Run (HostStep signed) earlier session h ∧ earlier.server.pc = .receivingSize := by
  rw [← List.singleton_append, ← List.append_assoc] at run
  obtain ⟨earlier, hearlier, hrun⟩ := run.split
  refine ⟨earlier, hearlier, hrun, ?_⟩
  obtain ⟨waiting, -, hlast⟩ := hearlier.last
  cases hlast with
  | server e server hallows hstep =>
    obtain ⟨⟨t, pc⟩, peerOpen⟩ := waiting
    cases transition_of_step hstep.2 with
    | acceptClient => rfl

/-- In a session the totals grow by its whole histogram or not at all. -/
theorem session_totals {first session : List HostEvent} {earlier : Hosting}
    (hearlier : Run (HostStep signed) hostStart first earlier)
    (run : Run (HostStep signed) earlier (.server (.accept .client) :: session) h)
    (hno : .server (.accept .client) ∉ session) (hpc : h.server.pc = .accepting) :
    h.server.pccTotal = earlier.server.pccTotal ∨ h.server.pccTotal = fun i =>
      earlier.server.pccTotal i + BitVec.ofNat 32
        ((ledger (serverEvents (first ++ .server (.accept .client) :: session))).body.count
          (charAt i)) := by
  have hevents : serverEvents (first ++ .server (.accept .client) :: session) =
      serverEvents first ++ .accept .client :: serverEvents session := by
    simp [serverEvents]
  have hledger : ledger (serverEvents (first ++ .server (.accept .client) :: session)) =
      (serverEvents session).foldl Ledger.record (ledger (serverEvents first)) := by
    rw [hevents, ledger, List.foldl_append, List.foldl_cons]
    rfl
  have hafter := run_holds (host_run (hearlier.trans run))
  simp only [Holds, hpc] at hafter
  obtain ⟨middle, hfirst, hrest⟩ := run.first
  have hbefore : earlier.server.pccTotal = totals (ledger (serverEvents first)).replied := by
    have hholds := run_holds (host_run hearlier)
    cases hfirst with
    | server e server hallows hstep =>
      obtain ⟨⟨t, pc⟩, peerOpen⟩ := earlier
      cases transition_of_step hstep.2 with
      | acceptClient => exact hholds
  have hserver : .accept .client ∉ serverEvents session := by
    intro hmem
    obtain ⟨e, he, heq⟩ := List.mem_filterMap.mp hmem
    cases e with
    | server e =>
      cases heq
      exact hno he
    | disconnect => cases heq
  rw [hafter, hbefore, hledger]
  rcases session_replies (host_run hrest) hserver (ledger (serverEvents first)) with
    hsame | ⟨hreplied, _⟩
  · exact .inl (by rw [hsame])
  · refine .inr ?_
    rw [hreplied]
    funext i
    exact totals_concat _ 0 _ i

/-- After every session the server runs, is back at `accept` and has added
nothing or the whole histogram, throughout a history, if and only if every
reply was sent while its client was there. -/
theorem server_survives_iff (run : Run (HostStep signed) hostStart events h) :
    (∀ before middle, before <+: events → Run (HostStep signed) hostStart before middle →
      Survives signed before middle) ↔ RepliesReachPeers events := by
  constructor
  · intro hsurvives before result after heq
    have hsplit : events = (before ++ [.server (.send result)]) ++ after := by simp [heq]
    rw [hsplit] at run
    obtain ⟨middle, hbefore, _⟩ := run.split
    have hrunning := (hsurvives _ middle ⟨after, hsplit.symm⟩ hbefore).running
    obtain ⟨start', hstart', hlast⟩ := hbefore.last
    by_contra hgone
    rw [Bool.not_eq_true, ← peerOpen_run hstart'] at hgone
    cases hlast with
    | server e server hallows hstep =>
      have hpipe : result = .brokenPipe := hallows.mpr hgone
      subst hpipe
      obtain ⟨⟨t, pc⟩, peerOpen⟩ := start'
      cases transition_of_step hstep.2 with
      | send session result hleft => cases hrunning
  · rintro hreplies before middle ⟨after, rfl⟩ hbefore
    have hreplies' : RepliesReachPeers before := fun first result second heq =>
      hreplies first result (second ++ after) (by simp [heq])
    have hrunning := running_of_replies hbefore hreplies'
    refine ⟨hrunning, goes_on hrunning, ?_, ?_, ?_⟩
    · rintro first session rfl hno hopen
      obtain ⟨earlier, hearlier, hrun, hpc⟩ := session_begins hbefore
      exact Nat.le_of_add_right_le ((session_over hearlier hrun hpc hno).2 hopen)
    · rintro first session rfl hno hclosed
      obtain ⟨earlier, hearlier, hrun, hpc⟩ := session_begins hbefore
      exact (session_over hearlier hrun hpc hno).1.mpr hclosed
    · rintro first session earlier rfl hno hearlier hrun hpc
      exact session_totals hearlier hrun hno hpc

/-- A client that sends one letter and is gone before the reply. -/
def goneLetter : List HostEvent :=
  [] ++ [.server (.accept .client)] ++ [.server (.recvSize (some [0, 0, 0, 1]) [9, 9, 9, 9])] ++
    [.server (.recvBody (some [65]))] ++ [.disconnect] ++ [.server (.send .brokenPipe)]

/-- The reply to it ends the server. -/
theorem goneLetter_run :
    Run (HostStep true) hostStart goneLetter ⟨⟨fun _ => 0, .killed⟩, false⟩ := by
  have hsend : Step true ⟨fun _ => 0, .counting (tally 1 [65])⟩ (.send .brokenPipe)
      ⟨fun _ => 0, .killed⟩ := send_step true _ nofun (by decide)
  have hgone : Hosting.Allows ⟨⟨fun _ => 0, .counting (tally 1 [65])⟩, false⟩
      (.send .brokenPipe) := iff_of_true rfl rfl
  exact ((((Run.snoc .nil (.server _ _ trivial ⟨trivial, rfl⟩)).snoc
    (.server _ _ trivial (oneLetter_sized rfl))).snoc
      (.server _ _ trivial oneLetter_counted)).snoc .disconnect).snoc (.server _ _ hgone hsend)

/-- The server does not survive the client that is gone. -/
theorem server_does_not_survive : ∃ h, Run (HostStep true) hostStart goneLetter h ∧
    ¬Survives true goneLetter h := by
  refine ⟨_, goneLetter_run, fun hsurvives => ?_⟩
  cases hsurvives.running

/-- A client that is gone before it has sent anything. -/
def goneEarly : List HostEvent :=
  [] ++ [.server (.accept .client)] ++ [.disconnect] ++ [.server (.recvSize none [9, 9, 9, 9])] ++
    [.server .close]

theorem goneEarly_run :
    Run (HostStep true) hostStart goneEarly ⟨⟨fun _ => 0, .accepting⟩, false⟩ := by
  have hsize : Step true ⟨fun _ => 0, .receivingSize⟩ (.recvSize none [9, 9, 9, 9])
      ⟨fun _ => 0, .closing⟩ := ⟨⟨nofun, rfl⟩, rfl⟩
  exact (((Run.snoc .nil (.server _ _ trivial ⟨trivial, rfl⟩)).snoc .disconnect).snoc
    (.server _ _ trivial hsize)).snoc (.server .close _ trivial ⟨trivial, rfl⟩)

/-- The server survives a client that is gone before its length, and not one that
is gone before its reply. -/
theorem server_survives_iff_each :
    (∀ before middle, before <+: goneEarly → Run (HostStep true) hostStart before middle →
      Survives true before middle) ∧
    ¬∀ before middle, before <+: goneLetter → Run (HostStep true) hostStart before middle →
      Survives true before middle := by
  constructor
  · refine (server_survives_iff goneEarly_run).mpr fun before result after heq => ?_
    have hmem : HostEvent.server (.send result) ∈ goneEarly := by simp [heq]
    simp [goneEarly] at hmem
  · rw [server_survives_iff goneLetter_run]
    intro hreplies
    cases hreplies (goneLetter.take 4) .brokenPipe [] rfl

end OSCourse.PccSignals
