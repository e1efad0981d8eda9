import Mathlib.Algebra.Order.BigOperators.Group.Finset
import OSCourse.PccDelivery

/-!
# Many clients of one server

Any number of clients run beside the server, each with a file of its own.
They connect and send when they like; the server accepts one of them after
the other and reads from the one that it has accepted last. What a single
transfer guarantees holds for each of them, and the totals are those of the
files of all clients that were served, in whatever order.
-/

namespace OSCourse.PccCrowd

open Runs NetworkBytes PccServer PccCounting PccSessions PccClient PccFraming PccTransfer
  PccDelivery

variable {Cid : Type}

/-- A client with its connection. -/
structure Peer where
  sending : Sending
  connection : Connection
  toClient : Stream Byte

/-- A client and a server that may be talking to it. -/
def Peer.with (p : Peer) (server : Server) : System :=
  ⟨p.sending, server, p.connection, p.toClient⟩

/-- The client of a transfer. -/
def peerOf (sys : System) : Peer := ⟨sys.sending, sys.connection, sys.toClient⟩

/-- The clients and the server. -/
structure Crowd (Cid : Type) where
  peers : Cid → Peer
  server : Server
  /-- `client_fd`: whose connection was accepted last. -/
  clientFd : Option Cid

/-- New clients and a new server. -/
def startCrowd : Crowd Cid := ⟨fun _ => ⟨startSending, .unconnected, .empty⟩, PccServer.start, none⟩

section Steps

variable [DecidableEq Cid]

/-- A step of one client, or of the server on the connection of one client:
the one that it accepts, or the one that it has accepted. -/
inductive CrowdStep (signed : Bool) (files : Cid → List Byte) (w : Crowd Cid) :
    Cid × Event → Crowd Cid → Prop
  | client {c : Cid} {e : ClientEvent} {sys' : System}
      (hstep : TransferStep signed (files c) ((w.peers c).with w.server) (.client e) sys') :
      CrowdStep signed files w (c, .client e)
        { w with peers := Function.update w.peers c (peerOf sys') }
  | server {c : Cid} {e : ServerEvent} {sys' : System}
      (hfd : e = .accept .client ∨ w.clientFd = some c)
      (hstep : TransferStep signed (files c) ((w.peers c).with w.server) (.server e) sys') :
      CrowdStep signed files w (c, .server e)
        ⟨Function.update w.peers c (peerOf sys'), sys'.server, some c⟩

/-- The totals of the files of some clients. -/
def totalsOf (files : Cid → List Byte) (served : Finset Cid) : Counters :=
  fun i => BitVec.ofNat 32 (∑ c ∈ served, (files c).count (charAt i))

/-- These totals behind what others had counted. -/
def totalsWith (base : Counters) (files : Cid → List Byte) (served : Finset Cid) : Counters :=
  fun i => base i + totalsOf files served i

/-- What holds in every reachable state, by the clients that were served and
what was counted beside their files. -/
structure Serves (base : Counters) (files : Cid → List Byte) (w : Crowd Cid)
    (served : Finset Cid) : Prop where
  /-- Each client is in a transfer of its own; the server takes part in the
  transfer of an accepted client. -/
  peers : ∀ c, ∃ t server, Transfers (files c) t ((w.peers c).with server) ∧
    ((w.peers c).connection = .accepted → server = w.server ∧ t = totalsWith base files served)
  closed_iff : ∀ c, c ∈ served ↔ (w.peers c).connection = .closed
  /-- One client is accepted at most. -/
  accepted : ∀ c, (w.peers c).connection = .accepted → w.clientFd = some c
  /-- None while the server waits in `accept`, and then the totals are whole. -/
  accepting : (∀ c, (w.peers c).connection ≠ .accepted) →
    w.server.pc = .accepting ∧ w.server.pccTotal = totalsWith base files served

variable {signed : Bool} {base : Counters} {files : Cid → List Byte} {w w' : Crowd Cid}
  {served : Finset Cid} {c c' : Cid} {file : List Byte} {t : Counters} {p : Peer} {server : Server}

omit [DecidableEq Cid] in
/-- The totals of one more file. -/
theorem totalsWith_insert [DecidableEq Cid] (hc : c ∉ served) :
    added (files c) (totalsWith base files served) = totalsWith base files (insert c served) := by
  funext i
  rw [added, totalsWith, totalsWith, totalsOf, totalsOf, Finset.sum_insert hc, BitVec.ofNat_add,
    BitVec.add_assoc, BitVec.add_comm (BitVec.ofNat 32 _)]

omit [DecidableEq Cid] in
/-- Beside nothing else they are the totals of the files. -/
theorem totalsWith_zero (files : Cid → List Byte) (served : Finset Cid) :
    totalsWith (fun _ => 0) files served = totalsOf files served :=
  funext fun _ => BitVec.zero_add _

/-- What the calls of a client return does not depend on the server. -/
theorem clientAnswers_with (p : Peer) (server server' : Server) (e : ClientEvent) :
    ClientAnswers (p.with server) e ↔ ClientAnswers (p.with server') e := by
  cases e <;> exact Iff.rfl

/-- A client changes its connection only from none to a queued one. -/
theorem clientConnection_cases {s : Sending} {connection : Connection} {received : ℕ}
    (h : ClientHolds file s connection received) (e : ClientEvent) :
    clientConnection connection s.client e = connection ∨
      connection = .unconnected ∧ clientConnection connection s.client e = .queued := by
  unfold clientConnection
  split
  · rename_i hclient
    exact .inr ⟨h.connects.mpr (by rw [hclient]; rfl), rfl⟩
  · exact .inl rfl

/-- Before its `accept` a transfer does not care for the totals. -/
theorem transfers_retarget (h : Transfers file t (p.with server)) (hqueued : p.connection = .queued)
    (t' : Counters) : Transfers file t' (p.with ⟨t', .accepting⟩) := by
  obtain ⟨sending, connection, toClient⟩ := p
  obtain rfl : connection = .queued := hqueued
  obtain ⟨total, pc⟩ := server
  obtain ⟨hclient, hserver, hle⟩ := h
  refine ⟨hclient, ?_, hle⟩
  cases pc with
  | accepting => exact ⟨rfl, hserver.2⟩
  | _ => exact hserver.elim

/-- The server of an accepted client is busy. -/
theorem busy_of_accepted (h : Transfers file t (p.with server)) (haccepted : p.connection = .accepted) :
    server.pc ≠ .accepting := by
  obtain ⟨sending, connection, toClient⟩ := p
  obtain rfl : connection = .accepted := haccepted
  obtain ⟨total, pc⟩ := server
  intro hpc
  obtain rfl : pc = .accepting := hpc
  exact h.server.elim

/-- In `accept` the server only accepts, as long as nothing fails. -/
theorem accepts_of_accepting (sys : System) {e : ServerEvent} {server' : Server}
    (hpc : sys.server.pc = .accepting) (hstep : Step signed sys.server e server')
    (hanswers : ServerAnswers sys e) :
    e = .accept .client ∧ sys.connection = .queued := by
  have hcases := transition_of_step hstep.2
  rw [hpc] at hcases
  cases hcases with
  | acceptClient => exact ⟨rfl, hanswers.2⟩
  | acceptInterrupted => cases hanswers.1
  | acceptFailed => cases hanswers.1
  | sigint pc hrunning => exact hanswers.elim

/-- And it accepts nowhere else. -/
theorem accepting_of_accepts {s s' : Server} (hstep : Step signed s (.accept .client) s') :
    s.pc = .accepting := by
  have hcases := transition_of_step hstep.2
  generalize hpc : s.pc = pc at hcases
  cases hcases
  rfl

/-- Who is at some place of its connection, after a client has changed. -/
theorem connection_update (peers : Cid → Peer) {p' : Peer} {connection : Connection}
    (h : p'.connection = connection ↔ (peers c).connection = connection) (c' : Cid) :
    (Function.update peers c p' c').connection = connection ↔
      (peers c').connection = connection := by
  by_cases hc : c' = c
  · subst hc
    rw [Function.update_self]
    exact h
  · rw [Function.update_of_ne hc]

/-- A step of a client. -/
theorem Serves.client_step (h : Serves base files w served) {e : ClientEvent} {sys' : System}
    (hstep : TransferStep signed (files c) ((w.peers c).with w.server) (.client e) sys') :
    Serves base files { w with peers := Function.update w.peers c (peerOf sys') } served := by
  obtain ⟨t, server, htransfers, hserver⟩ := h.peers c
  cases hstep with
  | @client _ s' hsend hanswers =>
    have hnext := htransfers.client_step hsend ((clientAnswers_with _ _ _ e).mp hanswers)
    have hcases := clientConnection_cases htransfers.client e
    have hkept : ∀ connection, connection ≠ .unconnected → connection ≠ .queued →
        (clientConnection (w.peers c).connection (w.peers c).sending.client e = connection ↔
          (w.peers c).connection = connection) := by
      intro connection hun hqueued
      rcases hcases with heq | ⟨hold, hnew⟩
      · exact iff_of_eq (congrArg (· = connection) heq)
      · exact iff_of_false (fun heq => hqueued (heq.symm.trans hnew))
          fun heq => hun (heq.symm.trans hold)
    have haccepted := hkept .accepted nofun nofun
    refine ⟨fun c' => ?_, fun c' => ?_, fun c' hc' => ?_, fun hnone => ?_⟩
    · by_cases hc : c' = c
      · subst hc
        dsimp only
        rw [Function.update_self]
        exact ⟨t, server, hnext, fun hconnection => hserver (haccepted.mp hconnection)⟩
      · dsimp only
        rw [Function.update_of_ne hc]
        exact h.peers c'
    · exact (h.closed_iff c').trans (connection_update w.peers (hkept .closed nofun nofun) c').symm
    · exact h.accepted c' ((connection_update w.peers haccepted c').mp hc')
    · exact h.accepting fun c' hc' => hnone c' ((connection_update w.peers haccepted c').mpr hc')

omit [DecidableEq Cid] in
/-- While the server waits in `accept`, no client is accepted. -/
theorem Serves.none_accepted (h : Serves base files w served) (hpc : w.server.pc = .accepting)
    (c : Cid) : (w.peers c).connection ≠ .accepted := by
  intro haccepted
  obtain ⟨t, server, htransfers, hserver⟩ := h.peers c
  refine busy_of_accepted htransfers haccepted ?_
  rw [(hserver haccepted).1]
  exact hpc

/-- The server changes its client, and no other client is accepted. -/
theorem Serves.change (h : Serves base files w served) {p' : Peer} {server' : Server}
    {served' : Finset Cid}
    (hpeer : ∃ t server, Transfers (files c) t (p'.with server) ∧
      (p'.connection = .accepted → server = server' ∧ t = totalsWith base files served'))
    (hothers : ∀ c', c' ≠ c → (w.peers c').connection ≠ .accepted)
    (hclosed : c ∈ served' ↔ p'.connection = .closed)
    (hserved : ∀ c', c' ≠ c → (c' ∈ served' ↔ c' ∈ served))
    (haccepting : p'.connection ≠ .accepted →
      server'.pc = .accepting ∧ server'.pccTotal = totalsWith base files served') :
    Serves base files ⟨Function.update w.peers c p', server', some c⟩ served' := by
  refine ⟨fun c' => ?_, fun c' => ?_, fun c' hc' => ?_, fun hnone => ?_⟩
  · by_cases hc : c' = c
    · subst hc
      dsimp only
      rw [Function.update_self]
      exact hpeer
    · obtain ⟨t, server, htransfers, -⟩ := h.peers c'
      dsimp only
      rw [Function.update_of_ne hc]
      exact ⟨t, server, htransfers, fun hc' => absurd hc' (hothers c' hc)⟩
  · by_cases hc : c' = c
    · subst hc
      dsimp only
      rw [Function.update_self]
      exact hclosed
    · dsimp only
      rw [Function.update_of_ne hc, hserved c' hc]
      exact h.closed_iff c'
  · by_cases hc : c' = c
    · rw [hc]
    · dsimp only at hc'
      rw [Function.update_of_ne hc] at hc'
      exact absurd hc' (hothers c' hc)
  · have hnot := hnone c
    dsimp only at hnot
    rw [Function.update_self] at hnot
    exact haccepting hnot

/-- The client that a step of the server is about is in a transfer with it,
and no other one is accepted. -/
theorem Serves.talking (h : Serves base files w served) {e : ServerEvent} {server' : Server}
    (hfd : e = .accept .client ∨ w.clientFd = some c) (hstep : Step signed w.server e server')
    (hanswers : ServerAnswers ((w.peers c).with w.server) e) :
    Transfers (files c) (totalsWith base files served) ((w.peers c).with w.server) ∧
      (w.peers c).connection ≠ .closed ∧
      (e ≠ .close → serverConnection (w.peers c).connection e = .accepted) ∧
      ∀ c', c' ≠ c → (w.peers c').connection ≠ .accepted := by
  obtain ⟨t, server, htransfers, hserver⟩ := h.peers c
  by_cases hpc : w.server.pc = .accepting
  · obtain ⟨rfl, hqueued⟩ :=
      accepts_of_accepting ((w.peers c).with w.server) hpc hstep hanswers
    have hnone := h.none_accepted hpc
    obtain ⟨-, htotal⟩ := h.accepting hnone
    have hstart : w.server = ⟨totalsWith base files served, .accepting⟩ := by rw [← htotal, ← hpc]
    refine ⟨?_, fun hclosed => ?_, fun _ => rfl, fun c' _ => hnone c'⟩
    · rw [hstart]
      exact transfers_retarget htransfers hqueued (totalsWith base files served)
    · have hboth := hclosed.symm.trans hqueued
      cases hboth
  · have hfd' : w.clientFd = some c := by
      rcases hfd with rfl | hfd
      · exact absurd (accepting_of_accepts hstep) hpc
      · exact hfd
    have hothers : ∀ c', c' ≠ c → (w.peers c').connection ≠ .accepted := fun c' hc hc' =>
      hc (Option.some.inj ((h.accepted c' hc').symm.trans hfd'))
    have haccepted : (w.peers c).connection = .accepted := by
      by_contra hnot
      refine hpc (h.accepting fun c' => ?_).1
      by_cases hc : c' = c
      · rw [hc]
        exact hnot
      · exact hothers c' hc
    obtain ⟨rfl, rfl⟩ := hserver haccepted
    refine ⟨htransfers, by rw [haccepted]; exact nofun, fun hclose => ?_, hothers⟩
    rw [haccepted]
    cases e with
    | accept result => cases result <;> rfl
    | close => exact absurd rfl hclose
    | _ => rfl

/-- A step of the server. -/
theorem Serves.server_step (hsize : ∀ c, (files c).length < 2 ^ 32)
    (h : Serves base files w served)
    {e : ServerEvent} {sys' : System} (hfd : e = .accept .client ∨ w.clientFd = some c)
    (hstep : TransferStep signed (files c) ((w.peers c).with w.server) (.server e) sys') :
    ∃ served', Serves base files
      ⟨Function.update w.peers c (peerOf sys'), sys'.server, some c⟩ served' := by
  cases hstep with
  | @server _ server' hstep hanswers =>
    obtain ⟨htransfers, hopen, hconnection, hothers⟩ := h.talking hfd hstep hanswers
    have hnext := htransfers.server_step (hsize c) hstep hanswers
    rw [ne_eq, ← h.closed_iff] at hopen
    by_cases hclose : e = .close
    · subst hclose
      have hend := hnext.server.closed
      refine ⟨insert c served, h.change ⟨_, _, hnext, nofun⟩ hothers ?_ (fun c' hc => ?_)
        fun _ => ?_⟩
      · exact iff_of_true (Finset.mem_insert_self ..) rfl
      · rw [Finset.mem_insert, or_iff_right hc]
      · exact ⟨hend.1, hend.2.2.2.trans (totalsWith_insert hopen)⟩
    · have haccepted := hconnection hclose
      refine ⟨served, h.change ⟨_, _, hnext, fun _ => ⟨rfl, rfl⟩⟩ hothers ?_ (fun c' _ => Iff.rfl)
        fun hnot => absurd haccepted hnot⟩
      refine iff_of_false hopen fun hclosed => ?_
      have hboth := haccepted.symm.trans hclosed
      cases hboth

/-- The step lemma. -/
theorem Serves.step (hsize : ∀ c, (files c).length < 2 ^ 32)
    (h : Serves base files w served)
    {label : Cid × Event} (hstep : CrowdStep signed files w label w') :
    ∃ served', Serves base files w' served' := by
  cases hstep with
  | client hstep => exact ⟨served, h.client_step hstep⟩
  | server hfd hstep => exact h.server_step hsize hfd hstep

/-- The run lemma. -/
theorem run_serves (hsize : ∀ c, (files c).length < 2 ^ 32) {events : List (Cid × Event)}
    (run : Run (CrowdStep signed files) startCrowd events w) :
    ∃ served, Serves (fun _ => 0) files w served := by
  induction run with
  | nil =>
    refine ⟨∅, fun c => ⟨PccServer.start.pccTotal, PccServer.start, ?_, nofun⟩, fun c => ?_, nofun,
      fun _ => ⟨rfl, ?_⟩⟩
    · have hrun : Run (TransferStep signed (files c)) (startTransfer PccServer.start.pccTotal) []
          (startTransfer PccServer.start.pccTotal) := .nil
      exact run_transfers (hsize c) hrun
    · exact iff_of_false (Finset.notMem_empty c) nofun
    · rw [totalsWith_zero]
      rfl
  | snoc _ hlast ih =>
    obtain ⟨served, hserves⟩ := ih
    exact hserves.step hsize hlast

/-- How much the clients and the server have left to do. -/
def crowdRank [Fintype Cid] (files : Cid → List Byte) (w : Crowd Cid) : ℕ :=
  ∑ c, rank (files c).length ((w.peers c).with w.server)

/-- What is left of a transfer depends on the server only if it takes part. -/
theorem rank_with (length : ℕ) {p : Peer} {server server' : Server}
    (h : p.connection = .accepted → server = server') :
    rank length (p.with server) = rank length (p.with server') := by
  obtain ⟨sending, connection, toClient⟩ := p
  cases connection with
  | accepted => rw [h rfl]
  | _ => rfl

/-- Every step lowers the rank. -/
theorem crowdRank_lt [Fintype Cid] (hsize : ∀ c, (files c).length < 2 ^ 32)
    (h : Serves base files w served) {label : Cid × Event}
    (hstep : CrowdStep signed files w label w') : crowdRank files w' < crowdRank files w := by
  have hlt : ∀ (c : Cid) (p' : Peer) (server' : Server) (fd : Option Cid),
      rank (files c).length (p'.with server') < rank (files c).length ((w.peers c).with w.server) →
      (∀ c', c' ≠ c → (w.peers c').connection = .accepted → server' = w.server) →
      crowdRank files ⟨Function.update w.peers c p', server', fd⟩ < crowdRank files w := by
    intro c p' server' fd hless hothers
    refine Finset.sum_lt_sum (fun c' _ => ?_) ⟨c, Finset.mem_univ c, ?_⟩
    · by_cases hc : c' = c
      · subst hc
        dsimp only
        rw [Function.update_self]
        exact hless.le
      · dsimp only
        rw [Function.update_of_ne hc]
        exact (rank_with _ (hothers c' hc)).le
    · dsimp only
      rw [Function.update_self]
      exact hless
  cases hstep with
  | @client c e sys' hstep =>
    cases hstep with
    | @client _ s' hsend hanswers =>
      obtain ⟨t, server, htransfers, -⟩ := h.peers c
      refine hlt c _ _ _ ?_ fun _ _ _ => rfl
      have hclient := clientRank_lt htransfers.client hsend hanswers
      have hserver := serverRank_client htransfers.client e (files c).length w.server.pc
      exact Nat.add_lt_add_of_lt_of_le hclient hserver.le
  | @server c e sys' hfd hstep =>
    cases hstep with
    | @server _ server' hstep hanswers =>
      obtain ⟨htransfers, -, -, hothers⟩ := h.talking hfd hstep hanswers
      refine hlt c _ _ _ ?_ fun c' hc haccepted => absurd haccepted (hothers c' hc)
      exact rank_lt (hsize c) htransfers (.server hstep hanswers)

/-- A run is no longer than what the transfers have to do. -/
theorem crowd_length_le [Fintype Cid] (hsize : ∀ c, (files c).length < 2 ^ 32)
    {events : List (Cid × Event)} (run : Run (CrowdStep signed files) startCrowd events w) :
    events.length + crowdRank files w ≤ ∑ c, (3 * (files c).length + 108) := by
  induction run with
  | nil =>
    rw [List.length_nil, Nat.zero_add]
    refine Finset.sum_le_sum fun c _ => ?_
    have hrun : Run (TransferStep signed (files c)) (startTransfer PccServer.start.pccTotal) []
        (startTransfer PccServer.start.pccTotal) := .nil
    have hle := length_le (hsize c) hrun
    rw [List.length_nil, Nat.zero_add] at hle
    exact hle
  | snoc run hlast ih =>
    obtain ⟨served, hserves⟩ := run_serves hsize run
    have hlt := crowdRank_lt hsize hserves hlast
    rw [List.length_append, List.length_singleton]
    omega

/-- Where no step is left, every client has ended and was served. -/
theorem ended_of_crowd_stuck (hsize : ∀ c, (files c).length < 2 ^ 32)
    (h : Serves base files w served)
    (hstuck : ∀ label w', ¬CrowdStep signed files w label w') (c : Cid) :
    (w.peers c).sending.client.ended = true ∧ (w.peers c).connection = .closed := by
  have hnone : ∀ c, (w.peers c).connection ≠ .accepted := by
    intro c haccepted
    obtain ⟨t, server, htransfers, hserver⟩ := h.peers c
    obtain ⟨rfl, rfl⟩ := hserver haccepted
    have hno : ∀ e sys', ¬TransferStep signed (files c) ((w.peers c).with w.server) e sys' := by
      intro e sys' hstep
      cases e with
      | client e => exact hstuck _ _ (.client hstep)
      | server e => exact hstuck _ _ (.server (.inr (h.accepted c haccepted)) hstep)
    have hboth := haccepted.symm.trans (ended_of_stuck (hsize c) htransfers hno).2
    cases hboth
  obtain ⟨hpc, -⟩ := h.accepting hnone
  obtain ⟨t, server, htransfers, -⟩ := h.peers c
  have hserver : server.pc = .accepting := by
    by_contra hbusy
    exact hnone c (htransfers.server.accepted hbusy)
  have hno : ∀ e sys', ¬TransferStep signed (files c) ((w.peers c).with server) e sys' := by
    intro e sys' hstep
    cases hstep with
    | client hsend hanswers =>
      exact hstuck _ _ (.client (.client hsend ((clientAnswers_with _ _ _ _).mp hanswers)))
    | server hstep hanswers =>
      obtain ⟨rfl, hqueued⟩ := accepts_of_accepting ((w.peers c).with server) hserver hstep hanswers
      have haccept : Step signed w.server (.accept .client) ⟨w.server.pccTotal, .receivingSize⟩ := by
        refine ⟨trivial, ?_⟩
        simp only [Server.step, hpc]
      exact hstuck _ _ (.server (.inl rfl) (.server haccept ⟨rfl, hqueued⟩))
  exact ended_of_stuck (hsize c) htransfers hno

/-- All clients have got their answers, and all files are counted. -/
structure AllServed [Fintype Cid] (files : Cid → List Byte) (w : Crowd Cid) : Prop where
  printed : ∀ c, ∃ count, (w.peers c).sending.client = .exited 0 (some count) ∧
    count.toNat = (files c).countP printable
  accepting : w.server.pc = .accepting
  totals : ∀ i, w.server.pccTotal i = BitVec.ofNat 32 (∑ c, (files c).count (charAt i))

omit [DecidableEq Cid] in
/-- A client that has ended with a status has printed its number. -/
theorem Serves.printed (hsize : ∀ c, (files c).length < 2 ^ 32)
    (h : Serves base files w served)
    {status : ℕ} {printed : Option (BitVec 32)}
    (hclient : (w.peers c).sending.client = .exited status printed) :
    status = 0 ∧ ∃ count, printed = some count ∧ count.toNat = (files c).countP printable := by
  obtain ⟨t, server, htransfers, -⟩ := h.peers c
  obtain ⟨rfl, rfl, -⟩ := htransfers.client.exits status printed hclient
  exact ⟨rfl, _, rfl, toNat_printableCount (hsize c)⟩

/-- Where no step is left, everything is done. -/
theorem Serves.finished [Fintype Cid] (hsize : ∀ c, (files c).length < 2 ^ 32)
    (h : Serves base files w served) (hstuck : ∀ label w', ¬CrowdStep signed files w label w') :
    (∀ c, ∃ count, (w.peers c).sending.client = .exited 0 (some count) ∧
      count.toNat = (files c).countP printable) ∧
    w.server.pc = .accepting ∧ w.server.pccTotal = totalsWith base files Finset.univ := by
  have hended := ended_of_crowd_stuck hsize h hstuck
  have hall : served = Finset.univ :=
    Finset.eq_univ_iff_forall.mpr fun c => (h.closed_iff c).mpr (hended c).2
  obtain ⟨hpc, htotal⟩ := h.accepting fun c haccepted => by
    have hboth := haccepted.symm.trans (hended c).2
    cases hboth
  refine ⟨fun c => ?_, hpc, hall ▸ htotal⟩
  obtain ⟨t, server, htransfers, -⟩ := h.peers c
  cases hclient : (w.peers c).sending.client with
  | exited status printed =>
    obtain ⟨rfl, count, rfl, hcount⟩ := h.printed hsize hclient
    exact ⟨count, rfl, hcount⟩
  | killed => exact absurd hclient htransfers.client.survives
  | _ =>
    have hnot := (hended c).1
    rw [hclient] at hnot
    cases hnot

/-- Beside nothing else. -/
theorem allServed_of_stuck [Fintype Cid] (hsize : ∀ c, (files c).length < 2 ^ 32)
    (h : Serves (fun _ => 0) files w served)
    (hstuck : ∀ label w', ¬CrowdStep signed files w label w') : AllServed files w := by
  obtain ⟨hprinted, hpc, htotal⟩ := h.finished hsize hstuck
  rw [totalsWith_zero] at htotal
  exact ⟨hprinted, hpc, fun i => congrFun htotal i⟩

/-- Any number of clients beside each other, each with a file whose length fits
into 32 bits, are served correctly, whatever the order of all steps and
however the calls split the files: a run takes a bounded number of steps, a
client that has ended has printed the number of printable characters of its
own file, the totals at every `accept` are those of the clients that were
served, and every run can be continued until all clients have ended and all
files are counted. -/
theorem clients_served [Fintype Cid] (hsize : ∀ c, (files c).length < 2 ^ 32)
    {events : List (Cid × Event)} (run : Run (CrowdStep signed files) startCrowd events w) :
    events.length ≤ ∑ c, (3 * (files c).length + 108) ∧
      (∀ c status printed, (w.peers c).sending.client = .exited status printed → status = 0 ∧
        ∃ count, printed = some count ∧ count.toNat = (files c).countP printable) ∧
      (w.server.pc = .accepting → ∃ served : Finset Cid,
        (∀ c, c ∈ served ↔ (w.peers c).connection = .closed) ∧
          ∀ i, w.server.pccTotal i =
            BitVec.ofNat 32 (∑ c ∈ served, (files c).count (charAt i))) ∧
      ((∀ label w', ¬CrowdStep signed files w label w') → AllServed files w) ∧
      ∃ more final, Run (CrowdStep signed files) startCrowd (events ++ more) final ∧
        AllServed files final := by
  have hlength := crowd_length_le hsize run
  obtain ⟨served, h⟩ := run_serves hsize run
  refine ⟨by omega, fun c status printed hclient => h.printed hsize hclient, fun hpc => ?_,
    allServed_of_stuck hsize h, ?_⟩
  · obtain ⟨-, htotal⟩ := h.accepting (h.none_accepted hpc)
    rw [totalsWith_zero] at htotal
    exact ⟨served, h.closed_iff, fun i => congrFun htotal i⟩
  · have hlower : ∀ w : Crowd Cid, (∃ served, Serves (fun _ => 0) files w served) →
        (∃ label w', CrowdStep signed files w label w') →
          ∃ label w', CrowdStep signed files w label w' ∧
            (∃ served, Serves (fun _ => 0) files w' served) ∧
              crowdRank files w' < crowdRank files w := by
      rintro w ⟨served, h⟩ ⟨label, w', hstep⟩
      exact ⟨label, w', hstep, h.step hsize hstep, crowdRank_lt hsize h hstep⟩
    obtain ⟨more, final, hmore, ⟨served', h'⟩, hstill⟩ := Run.exists_still hlower w ⟨served, h⟩
    exact ⟨more, final, run.trans hmore, allServed_of_stuck hsize h' fun label w' hstep =>
      hstill ⟨label, w', hstep⟩⟩

end Steps

/-- Two clients with a letter each. -/
theorem clients_served_two : ∃ (events : List (Bool × Event)) (w : Crowd Bool),
    Run (CrowdStep true fun c : Bool => if c then [65] else [65, 66]) startCrowd events w ∧
      w.server.pccTotal 33 = 2 := by
  have hsize : ∀ c : Bool, (if c then [65] else [65, 66] : List Byte).length < 2 ^ 32 := by decide
  have hstart : Run (CrowdStep true fun c : Bool => if c then [65] else [65, 66]) startCrowd []
      startCrowd := .nil
  obtain ⟨-, -, -, -, events, w, run, hserved⟩ := clients_served hsize hstart
  refine ⟨events, w, run, ?_⟩
  rw [hserved.totals 33]
  decide

end OSCourse.PccCrowd
