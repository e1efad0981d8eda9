import OSCourse.PccCrowd

/-!
# Clients among strangers

Beside the clients of the crowd others may connect and do as they like: send
anything, send less than they announced, or leave in the middle. The server
talks to one connection after the other, so a stranger can keep it waiting,
but changes neither the number that a client prints nor what the totals owe
to the files. What the server does with the strangers is a run of its own.
-/

namespace OSCourse.PccStrangers

open Runs PccServer PccCounting PccSessions PccClient PccTransfer PccDelivery PccCrowd

/-- A step that is about a client of the crowd, or one of the server about a
stranger. -/
inductive Label (Cid : Type) where
  | ours (c : Cid) (e : Event)
  | stranger (e : ServerEvent)

/-- What the calls of the server can return because of a stranger: anything but
the interrupt, and the signal for a reply to a connection that is gone. -/
def StrangerAnswers : ServerEvent → Prop
  | .accept result => result ≠ .interrupted
  | .send result => result ≠ .brokenPipe
  | .sigint => False
  | _ => True

variable {Cid : Type}

/-- The step is about a client of the crowd. -/
def Label.isOurs : Label Cid → Bool
  | .ours _ _ => true
  | .stranger _ => false

/-- What the server does about a stranger. -/
def Label.visit : Label Cid → Option ServerEvent
  | .ours _ _ => none
  | .stranger e => some e

/-- The history of the strangers. -/
def visits (events : List (Label Cid)) : List ServerEvent := events.filterMap Label.visit

/-- Every step but the `accept` of a stranger. -/
def Label.onwards : Label Cid → Bool
  | .ours _ _ => true
  | .stranger e => !isAccept e

section Steps

variable [DecidableEq Cid]

/-- A step of the crowd, or of the server with a stranger that it accepts or
has accepted. -/
inductive MixedStep (signed : Bool) (files : Cid → List Byte) (w : Crowd Cid) :
    Label Cid → Crowd Cid → Prop
  | ours {c : Cid} {e : Event} {w' : Crowd Cid} (hstep : CrowdStep signed files w (c, e) w') :
      MixedStep signed files w (.ours c e) w'
  | stranger {e : ServerEvent} {server' : Server}
      (hfd : isAccept e = true ∨ w.clientFd = none) (hstep : Step signed w.server e server')
      (hanswers : StrangerAnswers e) :
      MixedStep signed files w (.stranger e) ⟨w.peers, server', none⟩

/-- The server has left its visitors and waits in `accept`. -/
def idle (base : Counters) (files : Cid → List Byte) (served : Finset Cid) (w : Crowd Cid) :
    Crowd Cid :=
  ⟨w.peers, ⟨totalsWith base files served, .accepting⟩, none⟩

/-- What holds in every reachable state, by the clients that were served and a
server that has seen the strangers only. -/
inductive Hosts (files : Cid → List Byte) (w : Crowd Cid) (served : Finset Cid) (guest : Server) :
    Prop
  /-- The server is with the crowd, or with nobody. -/
  | ours (hguest : guest.pc = .accepting) (h : Serves guest.pccTotal files w served)
  /-- It is with a stranger, and to the crowd as if it waited. -/
  | stranger (hguest : guest.pc ≠ .accepting) (hfd : w.clientFd = none)
      (hserver : w.server = ⟨totalsWith guest.pccTotal files served, guest.pc⟩)
      (h : Serves guest.pccTotal files (idle guest.pccTotal files served w) served)

variable {signed : Bool} {base base' : Counters} {files : Cid → List Byte} {w w' : Crowd Cid}
  {served : Finset Cid} {c : Cid} {s s' guest guest' : Server} {e : ServerEvent}
  {events : List (Label Cid)}

omit [DecidableEq Cid] in
/-- While no client is accepted, anything may be counted beside the files. -/
theorem serves_idle (h : Serves base files w served)
    (hnone : ∀ c, (w.peers c).connection ≠ .accepted) (base' : Counters) :
    Serves base' files (idle base' files served w) served where
  peers := fun c => by
    obtain ⟨t, server, htransfers, -⟩ := h.peers c
    exact ⟨t, server, htransfers, fun haccepted => absurd haccepted (hnone c)⟩
  closed_iff := h.closed_iff
  accepted := fun c haccepted => absurd haccepted (hnone c)
  accepting := fun _ => ⟨rfl, rfl⟩

/-- The server does not look at its totals before an interrupt. -/
theorem step_beside {u : Counters} (hstep : Step signed ⟨fun i => guest.pccTotal i + u i, guest.pc⟩ e s')
    (hsigint : e ≠ .sigint) :
    ∃ guest', Step signed guest e guest' ∧ s' = ⟨fun i => guest'.pccTotal i + u i, guest'.pc⟩ := by
  obtain ⟨t, pc⟩ := guest
  obtain ⟨hpossible, hstep⟩ := hstep
  have hcases := transition_of_step hstep
  dsimp only at hpossible hcases
  cases hcases with
  | acceptClient => exact ⟨_, ⟨hpossible, rfl⟩, rfl⟩
  | acceptInterrupted => exact ⟨_, ⟨hpossible, rfl⟩, rfl⟩
  | acceptFailed => exact ⟨_, ⟨hpossible, rfl⟩, rfl⟩
  | recvSize result stale => exact ⟨_, ⟨hpossible, rfl⟩, rfl⟩
  | recvBody session result hleft =>
    exact ⟨⟨t, afterRecvBody signed session result⟩, ⟨hpossible, if_pos hleft⟩, rfl⟩
  | send session result hleft =>
    exact ⟨⟨t, afterSend session result⟩, ⟨hpossible, if_neg (by omega)⟩, rfl⟩
  | merge session i =>
    refine ⟨⟨Function.update t i (t i + session.printableCharsLocal i), .merging session (i + 1)⟩,
      ⟨hpossible, ?_⟩, ?_⟩
    · simp only [Server.step, Server.merge, i.isLt, dif_pos]
    · congr 1
      funext j
      dsimp only
      by_cases hj : j = i
      · subst hj
        rw [Function.update_self, Function.update_self, BitVec.add_assoc, BitVec.add_assoc,
          BitVec.add_comm (u j)]
      · rw [Function.update_of_ne hj, Function.update_of_ne hj]
  | merged session i hi =>
    refine ⟨⟨t, .closing⟩, ⟨hpossible, ?_⟩, rfl⟩
    simp only [Server.step, Server.merge, Nat.not_lt.mpr hi, dif_neg, not_false_eq_true]
  | close => exact ⟨_, ⟨hpossible, rfl⟩, rfl⟩
  | sigint pc hrunning => exact absurd rfl hsigint

omit [DecidableEq Cid] in
/-- While the server is with a stranger or accepts one, no client is accepted,
and the server is where the strangers have left it. -/
theorem Hosts.visited (h : Hosts files w served guest)
    (hfd : w.server.pc = .accepting ∨ w.clientFd = none) :
    (∀ c, (w.peers c).connection ≠ .accepted) ∧
      w.server = ⟨totalsWith guest.pccTotal files served, guest.pc⟩ := by
  cases h with
  | ours hguest h =>
    have hnone : ∀ c, (w.peers c).connection ≠ .accepted := by
      rcases hfd with hpc | hfd
      · exact h.none_accepted hpc
      · intro c haccepted
        have hboth := (h.accepted c haccepted).symm.trans hfd
        cases hboth
    obtain ⟨hpc, htotal⟩ := h.accepting hnone
    refine ⟨hnone, ?_⟩
    rw [← htotal, hguest, ← hpc]
  | stranger hguest hfd hserver h => exact ⟨h.none_accepted rfl, hserver⟩

omit [DecidableEq Cid] in
/-- A step with a stranger. -/
theorem Hosts.stranger_step (h : Hosts files w served guest)
    (hfd : isAccept e = true ∨ w.clientFd = none) (hstep : Step signed w.server e s')
    (hanswers : StrangerAnswers e) :
    ∃ guest', Step signed guest e guest' ∧ Hosts files ⟨w.peers, s', none⟩ served guest' := by
  obtain ⟨hnone, hserver⟩ := h.visited (hfd.imp_left (accepting_of_isAccept hstep))
  have hserves : ∀ base', Serves base' files (idle base' files served w) served := by
    cases h with
    | ours hguest h => exact serves_idle h hnone
    | stranger hguest hfd hserver h =>
      have hidle := serves_idle h hnone
      exact hidle
  rw [hserver] at hstep
  obtain ⟨guest', hguest', rfl⟩ := step_beside hstep fun heq => by
    subst heq
    exact hanswers
  refine ⟨guest', hguest', ?_⟩
  by_cases hpc : guest'.pc = .accepting
  · refine .ours hpc ?_
    rw [hpc]
    exact hserves guest'.pccTotal
  · exact .stranger hpc rfl rfl (hserves guest'.pccTotal)

/-- While the server is with a stranger, only clients of the crowd move, and as
if the server were another one. -/
theorem client_of_busy {label : Cid × Event} (hfd : w.clientFd = none)
    (hbusy : w.server.pc ≠ .accepting) (hstep : CrowdStep signed files w label w') (server : Server) :
    ∃ c e sys', label = (c, .client e) ∧
      TransferStep signed (files c) ((w.peers c).with server) (.client e) sys' ∧
        w' = { w with peers := Function.update w.peers c (peerOf sys') } := by
  cases hstep with
  | @client c e sys' hstep =>
    cases hstep with
    | client hsend hanswers =>
      exact ⟨c, e, _, rfl, .client hsend ((clientAnswers_with _ _ _ e).mp hanswers), rfl⟩
  | server hfd' hstep =>
    rcases hfd' with rfl | hfd'
    · cases hstep with
      | server hstep hanswers => exact absurd (accepting_of_accepts hstep) hbusy
    · have hboth := hfd'.symm.trans hfd
      cases hboth

/-- A step of the crowd. -/
theorem Hosts.ours_step (hsize : ∀ c, (files c).length < 2 ^ 32) (h : Hosts files w served guest)
    {label : Cid × Event} (hstep : CrowdStep signed files w label w') :
    ∃ served', Hosts files w' served' guest := by
  cases h with
  | ours hguest h =>
    obtain ⟨served', h'⟩ := h.step hsize hstep
    exact ⟨served', .ours hguest h'⟩
  | stranger hguest hfd hserver h =>
    have hbusy : w.server.pc ≠ .accepting := by
      rw [hserver]
      exact hguest
    obtain ⟨c, e, sys', rfl, hclient, rfl⟩ := client_of_busy hfd hbusy hstep
      ⟨totalsWith guest.pccTotal files served, .accepting⟩
    exact ⟨served, .stranger hguest hfd hserver (h.client_step hclient)⟩

/-- A server that has seen the strangers only still runs. -/
theorem running_of_answers (hstep : Step signed s e s') (hanswers : StrangerAnswers e)
    (hlate : s'.pc ≠ .overrun) : s'.pc.running = true := by
  have hcases := transition_of_step hstep.2
  generalize s.pc = pc at hcases
  cases hcases with
  | acceptClient => rfl
  | acceptInterrupted => exact absurd rfl hanswers
  | acceptFailed => rfl
  | recvSize result stale =>
    cases result with
    | none => rfl
    | some bytes => cases bytes <;> rfl
  | recvBody session result hleft =>
    cases result with
    | none => rfl
    | some bytes =>
      cases bytes with
      | nil => rfl
      | cons b bytes =>
        cases hreceive : session.receive signed (b :: bytes) with
        | none => exact absurd (by simp only [afterRecvBody, hreceive]) hlate
        | some next => simp only [afterRecvBody, hreceive, ServerPc.running]
  | send session result hleft =>
    cases result with
    | sent n => rfl
    | failed => rfl
    | brokenPipe => exact absurd rfl hanswers
  | merge session i => rfl
  | merged session i hi => rfl
  | close => rfl
  | sigint pc hrunning => exact hanswers.elim

/-- The run lemma. The strangers have made a run of their own. -/
theorem run_hosts (hsize : ∀ c, (files c).length < 2 ^ 32)
    (run : Run (MixedStep signed files) startCrowd events w) :
    ∃ served guest, Hosts files w served guest ∧
      Run (Step signed) PccServer.start (visits events) guest ∧ guest.pc.running = true := by
  induction run with
  | nil =>
    have hstart : Run (CrowdStep signed files) startCrowd [] startCrowd := .nil
    obtain ⟨served, h⟩ := run_serves hsize hstart
    exact ⟨served, PccServer.start, .ours rfl h, .nil, rfl⟩
  | @snoc events w label w' _ hlast ih =>
    obtain ⟨served, guest, h, hguest, hrunning⟩ := ih
    rw [visits, List.filterMap_append]
    cases hlast with
    | ours hstep =>
      obtain ⟨served', h'⟩ := h.ours_step hsize hstep
      refine ⟨served', guest, h', ?_, hrunning⟩
      rw [List.filterMap_cons_none rfl, List.filterMap_nil, List.append_nil]
      exact hguest
    | stranger hfd hstep hanswers =>
      obtain ⟨guest', hvisit, h'⟩ := h.stranger_step hfd hstep hanswers
      have hguest' := hguest.snoc hvisit
      refine ⟨served, guest', h', hguest', running_of_answers hvisit hanswers fun hpc => ?_⟩
      have hholds := run_holds hguest'
      simp only [Holds, hpc] at hholds

/-- A stranger that leaves lets the server go on. -/
theorem visit_goes_on (hrunning : s.pc.running = true) (hbusy : s.pc ≠ .accepting) :
    ∃ e s', Step signed s e s' ∧ StrangerAnswers e ∧ isAccept e = false := by
  obtain ⟨t, pc⟩ := s
  cases pc with
  | accepting => exact absurd rfl hbusy
  | receivingSize =>
    exact ⟨.recvSize none [0, 0, 0, 0], _, ⟨⟨nofun, rfl⟩, rfl⟩, trivial, rfl⟩
  | counting session =>
    by_cases hleft : 0 < session.fileSize.toNat
    · exact ⟨.recvBody none, ⟨t, .closing⟩, ⟨nofun, if_pos hleft⟩, trivial, rfl⟩
    · exact ⟨.send .failed, ⟨t, .closing⟩, ⟨trivial, if_neg hleft⟩, nofun, rfl⟩
  | merging session i => exact ⟨.merge, _, ⟨trivial, rfl⟩, trivial, rfl⟩
  | closing => exact ⟨.close, _, ⟨trivial, rfl⟩, trivial, rfl⟩
  | exited status printed => cases hrunning
  | killed => cases hrunning
  | overrun => cases hrunning

omit [DecidableEq Cid] in
/-- While no client is accepted, the rank of the crowd does not depend on the
server. -/
theorem crowdRank_with [Fintype Cid] (hnone : ∀ c, (w.peers c).connection ≠ .accepted)
    (server : Server) (fd : Option Cid) :
    crowdRank files ⟨w.peers, server, fd⟩ = crowdRank files w :=
  Finset.sum_congr rfl fun c _ => rank_with _ fun haccepted => absurd haccepted (hnone c)

/-- Every step of the crowd lowers its rank. -/
theorem Hosts.crowdRank_lt [Fintype Cid] (hsize : ∀ c, (files c).length < 2 ^ 32)
    (h : Hosts files w served guest) {label : Cid × Event}
    (hstep : CrowdStep signed files w label w') : crowdRank files w' < crowdRank files w := by
  cases h with
  | ours hguest h => exact PccCrowd.crowdRank_lt hsize h hstep
  | stranger hguest hfd hserver h =>
    have hbusy : w.server.pc ≠ .accepting := by
      rw [hserver]
      exact hguest
    obtain ⟨c, e, sys', rfl, hclient, rfl⟩ := client_of_busy hfd hbusy hstep
      ⟨totalsWith guest.pccTotal files served, .accepting⟩
    have hnone : ∀ c, (w.peers c).connection ≠ .accepted := h.none_accepted rfl
    have hnone' := (h.client_step hclient).none_accepted rfl
    calc crowdRank files { w with peers := Function.update w.peers c (peerOf sys') }
        = crowdRank files { idle guest.pccTotal files served w with
            peers := Function.update w.peers c (peerOf sys') } :=
          crowdRank_with hnone' w.server w.clientFd
      _ < crowdRank files (idle guest.pccTotal files served w) :=
          PccCrowd.crowdRank_lt hsize h (.client hclient)
      _ = crowdRank files w := crowdRank_with hnone _ _

/-- What is left of the transfers, and of the session of a stranger. -/
def mixedRank [Fintype Cid] (files : Cid → List Byte) (w : Crowd Cid) : ℕ :=
  crowdRank files w + match w.clientFd with
    | none => sessionRank w.server.pc
    | some _ => 0

/-- Every step but the `accept` of a stranger lowers it. -/
theorem mixedRank_lt [Fintype Cid] (hsize : ∀ c, (files c).length < 2 ^ 32)
    (run : Run (MixedStep signed files) startCrowd events w) {label : Label Cid}
    (hstep : MixedStep signed files w label w') (honwards : label.onwards = true) :
    mixedRank files w' < mixedRank files w := by
  obtain ⟨served, guest, h, hguest, -⟩ := run_hosts hsize run
  cases hstep with
  | ours hstep =>
    have hlt := h.crowdRank_lt hsize hstep
    unfold mixedRank
    cases hstep with
    | client hstep => exact Nat.add_lt_add_right hlt _
    | server hfd hstep => exact Nat.lt_of_lt_of_le hlt (Nat.le_add_right _ _)
  | @stranger e server' hfd hstep hanswers =>
    have haccept : isAccept e = false := by simpa [Label.onwards] using honwards
    have hfd' : w.clientFd = none := by
      rcases hfd with hfd | hfd
      · exact absurd (hfd.symm.trans haccept) nofun
      · exact hfd
    have hsigint : e ≠ .sigint := fun heq => by
      subst heq
      exact hanswers
    obtain ⟨hnone, hserver⟩ := h.visited (.inr hfd')
    obtain ⟨guest', hvisit, h'⟩ := h.stranger_step hfd hstep hanswers
    have hlt := sessionRank_lt (run_holds hguest) hvisit haccept hsigint
    have hserver' : server' = ⟨totalsWith guest'.pccTotal files served, guest'.pc⟩ :=
      (h'.visited (.inr rfl)).2
    subst hserver'
    rw [mixedRank, mixedRank, crowdRank_with hnone, hfd', hserver]
    exact Nat.add_lt_add_left hlt _

/-- The steps of the crowd are bounded, whatever the strangers do. -/
theorem ours_length_le [Fintype Cid] (hsize : ∀ c, (files c).length < 2 ^ 32)
    (run : Run (MixedStep signed files) startCrowd events w) :
    events.countP Label.isOurs + crowdRank files w ≤ ∑ c, (3 * (files c).length + 108) := by
  induction run with
  | nil =>
    have hstart : Run (CrowdStep signed files) startCrowd [] startCrowd := .nil
    exact crowd_length_le hsize hstart
  | @snoc events w label w' run hlast ih =>
    obtain ⟨served, guest, h, -, -⟩ := run_hosts hsize run
    rw [List.countP_append]
    cases hlast with
    | ours hstep =>
      have hlt := h.crowdRank_lt hsize hstep
      rw [List.countP_cons_of_pos rfl, List.countP_nil]
      omega
    | stranger hfd hstep hanswers =>
      obtain ⟨hnone, -⟩ := h.visited (hfd.imp_left (accepting_of_isAccept hstep))
      rw [crowdRank_with hnone, List.countP_cons_of_neg Bool.false_ne_true, List.countP_nil]
      exact ih

/-- Every client has printed the number of its file. -/
def AllPrinted (files : Cid → List Byte) (w : Crowd Cid) : Prop :=
  ∀ c, ∃ count, (w.peers c).sending.client = .exited 0 (some count) ∧
    count.toNat = (files c).countP printable

/-- Where the crowd cannot move, it is done, or a stranger keeps the server. -/
theorem Hosts.done_or_kept [Fintype Cid] (hsize : ∀ c, (files c).length < 2 ^ 32)
    (h : Hosts files w served guest)
    (hstuck : ∀ c e w', ¬MixedStep signed files w (.ours c e) w') :
    AllPrinted files w ∧ w.server.pc = .accepting ∨
      w.clientFd = none ∧ w.server.pc ≠ .accepting := by
  cases h with
  | ours hguest h =>
    obtain ⟨hprinted, hpc, -⟩ := h.finished hsize fun label w' hstep =>
      hstuck label.1 label.2 w' (.ours hstep)
    exact .inl ⟨hprinted, hpc⟩
  | stranger hguest hfd hserver h =>
    refine .inr ⟨hfd, ?_⟩
    rw [hserver]
    exact hguest

/-- Strangers do no harm. Beside any number of clients, each with a file whose
length fits into 32 bits, any others may connect and do anything that does not
end the server: the clients take a bounded number of steps with the server, one
that has ended has printed the number of printable characters of its own file,
the totals at every `accept` are those of the files of the served clients and of the
bodies of the strangers that were replied to, the crowd stands still only when
it is done or while a stranger keeps the server, and every run can be
continued until all clients are done. -/
theorem strangers_harmless [Fintype Cid] (hsize : ∀ c, (files c).length < 2 ^ 32)
    (run : Run (MixedStep signed files) startCrowd events w) :
    events.countP Label.isOurs ≤ ∑ c, (3 * (files c).length + 108) ∧
      (∀ c status printed, (w.peers c).sending.client = .exited status printed → status = 0 ∧
        ∃ count, printed = some count ∧ count.toNat = (files c).countP printable) ∧
      (w.server.pc = .accepting → ∃ served : Finset Cid,
        (∀ c, c ∈ served ↔ (w.peers c).connection = .closed) ∧
          ∀ i, w.server.pccTotal i = BitVec.ofNat 32 (∑ c ∈ served, (files c).count (charAt i) +
            ((ledger (visits events)).replied.map fun body => body.count (charAt i)).sum)) ∧
      ((∀ c e w', ¬MixedStep signed files w (.ours c e) w') →
        AllPrinted files w ∧ w.server.pc = .accepting ∨
          w.clientFd = none ∧ w.server.pc ≠ .accepting) ∧
      ∃ more final, Run (MixedStep signed files) startCrowd (events ++ more) final ∧
        AllPrinted files final ∧ final.server.pc = .accepting := by
  have hlength := ours_length_le hsize run
  obtain ⟨served, guest, h, hguest, -⟩ := run_hosts hsize run
  refine ⟨by omega, fun c status printed hclient => ?_, fun hpc => ?_, h.done_or_kept hsize, ?_⟩
  · cases h with
    | ours _ h => exact h.printed hsize hclient
    | stranger _ _ _ h => exact h.printed hsize hclient
  · cases h with
    | ours hidle h =>
      obtain ⟨-, htotal⟩ := h.accepting (h.none_accepted hpc)
      have hholds := run_holds hguest
      simp only [Holds, hidle] at hholds
      refine ⟨served, h.closed_iff, fun i => ?_⟩
      rw [htotal, totalsWith, hholds, totals, totalsOf, occurrences, BitVec.ofNat_add,
        BitVec.add_comm]
    | stranger hbusy hfd hserver h =>
      rw [hserver] at hpc
      exact absurd hpc hbusy
  · have hlower : ∀ w : Crowd Cid,
        (∃ events, Run (MixedStep signed files) startCrowd events w) →
          (∃ label w', MixedStep signed files w label w' ∧ label.onwards = true) →
            ∃ label w', MixedStep signed files w label w' ∧
              (∃ events, Run (MixedStep signed files) startCrowd events w') ∧
                mixedRank files w' < mixedRank files w := by
      rintro w ⟨events, run⟩ ⟨label, w', hstep, honwards⟩
      exact ⟨label, w', hstep, ⟨_, run.snoc hstep⟩, mixedRank_lt hsize run hstep honwards⟩
    obtain ⟨more, final, hmore, ⟨events', run'⟩, hstill⟩ :=
      Run.exists_still hlower w ⟨events, run⟩
    obtain ⟨served', guest', h', -, hrunning'⟩ := run_hosts hsize run'
    refine ⟨more, final, run.trans hmore, ?_⟩
    rcases h'.done_or_kept hsize fun c e w' hstep => hstill ⟨_, _, hstep, rfl⟩ with hdone | ⟨hfd, hbusy⟩
    · exact hdone
    · have hserver := (h'.visited (.inr hfd)).2
      have hrunning : final.server.pc.running = true := by
        rw [hserver]
        exact hrunning'
      obtain ⟨e, s', hstep, hanswers, haccept⟩ := visit_goes_on hrunning hbusy
      exact absurd ⟨.stranger e, _, .stranger (.inr hfd) hstep hanswers, by simp [Label.onwards, haccept]⟩
        hstill

end Steps

/-- A stranger announces nine bytes and leaves, and the two clients print their
numbers. -/
theorem strangers_harmless_gone : ∃ (events : List (Label Bool)) (w : Crowd Bool),
    Run (MixedStep true fun c : Bool => if c then [65] else [65, 66]) startCrowd
      ([.stranger (.accept .client), .stranger (.recvSize (some [0, 0, 0, 9]) [0, 0, 0, 0])] ++
        events) w ∧ ∃ count, (w.peers false).sending.client = .exited 0 (some count) ∧
          count.toNat = 2 := by
  have hsize : ∀ c : Bool, (if c then [65] else [65, 66] : List Byte).length < 2 ^ 32 := by decide
  have hrecv : Step true ⟨fun _ => 0, .receivingSize⟩ (.recvSize (some [0, 0, 0, 9]) [0, 0, 0, 0])
      ⟨fun _ => 0, .counting (tally 9 [])⟩ := recvSize_step true _ (by simp) (by simp) rfl
  have run : Run (MixedStep true fun c : Bool => if c then [65] else [65, 66]) startCrowd
      ([] ++ [.stranger (.accept .client)] ++
        [.stranger (.recvSize (some [0, 0, 0, 9]) [0, 0, 0, 0])]) _ :=
    (Run.nil.snoc (.stranger (.inl rfl) ⟨trivial, rfl⟩ nofun)).snoc (.stranger (.inr rfl) hrecv trivial)
  obtain ⟨-, -, -, -, events, w, run', hprinted, -⟩ := strangers_harmless hsize run
  exact ⟨events, w, run', hprinted false⟩

end OSCourse.PccStrangers
