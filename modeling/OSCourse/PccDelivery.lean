import OSCourse.PccTransfer

/-!
# The end of a transfer

Every step of the two programs lowers a rank, and as long as the client has
not printed its number and the server is not back at `accept` one of them can
take a step. So a transfer ends, and the invariant says how.
-/

namespace OSCourse.PccDelivery

open Runs NetworkBytes PccServer PccCounting PccSessions PccClient PccFraming PccTransfer

/-- How much the client has left to do. -/
def clientRank (length : ℕ) (s : Sending) : ℕ :=
  match s.client with
  | .opening => 2 * length + 8
  | .creating => 2 * length + 7
  | .converting => 2 * length + 6
  | .connecting => 2 * length + 5
  | .seeking => 2 * length + 4
  | .sendingSize _ => 2 * length + 3
  | .reading => 2 * (length - s.offset) + 2
  | .sending buffer bytesSent => 2 * (length - s.offset) + (buffer.length - bytesSent) + 2
  | .receivingCount => 1
  | _ => 0

/-- How much the server has left to do. -/
def serverRank (length : ℕ) (connection : Connection) (pc : ServerPc) : ℕ :=
  match connection, pc with
  | .closed, _ => 0
  | .accepted, .receivingSize => length + 99
  | .accepted, .counting session => session.fileSize.toNat + 98
  | .accepted, .merging _ i => numPrintableChars - i + 2
  | .accepted, _ => 1
  | _, _ => length + 100

/-- The rank of the two programs. -/
def rank (length : ℕ) (sys : System) : ℕ :=
  clientRank length sys.sending + serverRank length sys.connection sys.server.pc

variable {signed : Bool} {file : List Byte} {t : Counters} {sys sys' : System} {s s' : Sending}
  {connection : Connection} {received : ℕ} {e : ClientEvent}

/-- Where the inner loop stands in the file. -/
theorem sendingLoop_rank (length offset : ℕ) (buffer : List Byte) (bytesSent : ℕ)
    (toServer : Stream Byte) : clientRank length ⟨sendingLoop buffer bytesSent, offset, toServer⟩ =
      2 * (length - offset) + (buffer.length - bytesSent) + 2 := by
  unfold sendingLoop
  by_cases hmore : bytesSent < buffer.length
  · rw [if_pos hmore, clientRank]
  · rw [if_neg hmore, clientRank]
    dsimp only
    omega

/-- Every step of the client lowers its rank. -/
theorem clientRank_lt (h : ClientHolds file s connection received) (hstep : SendStep file s e s')
    {sys : System} (hanswers : ClientAnswers sys e) :
    clientRank file.length s' < clientRank file.length s := by
  obtain ⟨events, hsends, -⟩ := h.sends
  obtain ⟨client, offset, toServer⟩ := s
  obtain ⟨client', offset', toServer'⟩ := s'
  obtain ⟨⟨hpossible, hclient⟩, hfile, hoffset, -⟩ := hstep
  dsimp only at hoffset hfile hpossible hclient hsends
  cases clientTransition_of_step hclient with
  | opened ok =>
    subst hanswers
    exact Nat.lt_succ_self _
  | created ok =>
    subst hanswers
    exact Nat.lt_succ_self _
  | converted ok =>
    subst hanswers
    exact Nat.lt_succ_self _
  | connected ok =>
    subst hanswers
    exact Nat.lt_succ_self _
  | notSeeked => cases hanswers
  | seeked fileSize => exact Nat.lt_succ_self _
  | sentSize fileSize result =>
    subst hanswers
    simp only [afterSent, clientRank]
    omega
  | read result =>
    obtain ⟨bytes, rfl⟩ := Option.isSome_iff_exists.mp hanswers
    cases bytes with
    | nil =>
      simp only [afterRead, clientRank]
      omega
    | cons b bytes =>
      have hlength := hfile.1.length_le
      rw [List.length_drop, List.length_cons] at hlength
      simp only [readLength, List.length_cons] at hoffset
      refine (sendingLoop_rank ..).trans_lt ?_
      simp only [clientRank, List.length_cons]
      omega
  | sent buffer bytesSent result =>
    obtain ⟨n, hn, rfl⟩ := hanswers
    have hmore : bytesSent < buffer.length := hsends.1
    simp only [readLength] at hoffset
    refine (sendingLoop_rank ..).trans_lt ?_
    simp only [clientRank]
    omega
  | receivedCount result stale =>
    obtain ⟨bytes, rfl, -⟩ := hanswers
    exact Nat.zero_lt_one

/-- A `connect` leaves the server where it was. -/
theorem serverRank_client (h : ClientHolds file s connection received) (e : ClientEvent)
    (length : ℕ) (pc : ServerPc) :
    serverRank length (clientConnection connection s.client e) pc = serverRank length connection pc := by
  unfold clientConnection
  split
  · rename_i hclient
    rw [h.connects.mpr (by rw [hclient]; rfl)]
    rfl
  · rfl

/-- What the server still expects in the middle of the body. -/
theorem fileSize_counting (hsize : file.length < 2 ^ 32) {server : Server} {session : Session}
    {reply : List Byte} (h : ServerHolds file t .accepted server received reply)
    (hpc : server.pc = .counting session) :
    session.fileSize.toNat + received = 4 + file.length := by
  obtain ⟨total, pc⟩ := server
  obtain rfl : pc = .counting session := hpc
  obtain ⟨-, -, body, rfl, rfl, hbody⟩ := h
  have hle := hbody.length_le
  rw [fileSize_tally (by rw [toNat_announced hsize]; exact hle), toNat_announced hsize]
  omega

/-- Every step of the server lowers its rank. -/
theorem serverRank_lt (hsize : file.length < 2 ^ 32) (h : Transfers file t sys) {e : ServerEvent}
    {server' : Server} (hstep : Step signed sys.server e server') (hanswers : ServerAnswers sys e) :
    serverRank file.length (serverConnection sys.connection e) server'.pc <
      serverRank file.length sys.connection sys.server.pc := by
  have hnext := (h.server_step hsize hstep hanswers).server
  have hserver := h.server
  have hended := h.replied_of_ended
  obtain ⟨sending, ⟨total, pc⟩, connection, toClient⟩ := sys
  have hcases := transition_of_step hstep.2
  dsimp only at hserver hstep hcases hanswers hnext hended ⊢
  cases hcases with
  | acceptClient =>
    obtain ⟨-, rfl⟩ := hanswers
    exact Nat.lt_succ_self _
  | acceptInterrupted => cases hanswers.1
  | acceptFailed => cases hanswers.1
  | recvSize result stale =>
    obtain rfl := hserver.accepted (by simp)
    obtain ⟨bytes, rfl, hbytes⟩ := hanswers
    rcases hbytes with ⟨hlength, hbytes⟩ | ⟨-, -, hclosed⟩
    · cases bytes with
      | nil => cases hlength
      | cons b bytes =>
        have hleft := fileSize_counting hsize hnext rfl
        simp only [serverConnection, serverRank, afterRecvSize]
        simp only [Stream.consumed_take, serverTaken] at hleft
        omega
    · exact absurd hserver.2.2 (hended hclosed)
  | recvBody session result hmore =>
    obtain rfl := hserver.accepted (by simp)
    obtain ⟨bytes, rfl, hbytes⟩ := hanswers
    have hleft := fileSize_counting hsize hserver rfl
    obtain ⟨-, hreply, body, rfl, -⟩ := hserver
    rcases hbytes with ⟨hne, hbytes⟩ | ⟨-, -, hclosed⟩
    · rw [afterRecvBody_tally signed (announced file) body hne] at hnext ⊢
      have hleft' := fileSize_counting hsize hnext rfl
      have hpos := List.length_pos_of_ne_nil hne
      simp only [Stream.consumed_take, serverTaken] at hleft'
      simp only [serverConnection, serverRank]
      omega
    · exact absurd hreply (hended hclosed)
  | send session result hleft =>
    obtain rfl : result = .sent 4 := hanswers
    obtain rfl := hserver.accepted (by simp)
    simp only [serverConnection, afterSend, serverRank, numPrintableChars]
    omega
  | merge session i =>
    have hi := i.isLt
    obtain rfl := hserver.accepted (by simp)
    simp only [serverConnection, serverRank]
    omega
  | merged session i hi =>
    obtain rfl := hserver.accepted (by simp)
    simp only [serverConnection, serverRank]
    omega
  | close =>
    obtain rfl := hserver.accepted (by simp)
    exact Nat.zero_lt_one
  | sigint pc hrunning => exact hanswers.elim

/-- Every step lowers the rank. -/
theorem rank_lt (hsize : file.length < 2 ^ 32) (h : Transfers file t sys) {e : Event}
    (hstep : TransferStep signed file sys e sys') : rank file.length sys' < rank file.length sys := by
  cases hstep with
  | @client e s' hstep hanswers =>
    have hlt := clientRank_lt h.client hstep hanswers
    have heq := serverRank_client h.client e file.length sys.server.pc
    rw [rank, rank, heq]
    exact Nat.add_lt_add_right hlt _
  | server hstep hanswers =>
    exact Nat.add_lt_add_left (serverRank_lt hsize h hstep hanswers) _

/-- A run is no longer than what there is to do at its start. -/
theorem length_le (hsize : file.length < 2 ^ 32) {events : List Event}
    (run : Run (TransferStep signed file) (startTransfer t) events sys) :
    events.length + rank file.length sys ≤ 3 * file.length + 108 := by
  induction run with
  | nil =>
    simp only [rank, startTransfer, startSending, clientRank, serverRank, List.length_nil]
    omega
  | snoc run hlast ih =>
    have hlt := rank_lt hsize (run_transfers hsize run) hlast
    rw [List.length_append, List.length_singleton]
    omega

/-- The next step of the client, when nothing has failed yet. -/
theorem client_progress (h : ClientHolds file sys.sending sys.connection received)
    (hclient : sys.sending.client.ended = false) (hwait : sys.sending.client ≠ .receivingCount) :
    ∃ e sys', TransferStep signed file sys e sys' := by
  obtain ⟨⟨client, offset, toServer⟩, server, connection, toClient⟩ := sys
  obtain ⟨events, hsends, -⟩ := h.sends
  dsimp only at hsends hclient hwait
  have hchecked : ∀ c', client.step (.checked true) = some c' →
      ∃ e sys', TransferStep signed file ⟨⟨client, offset, toServer⟩, server, connection, toClient⟩
        e sys' := fun c' hstep => ⟨_, _, .client (checked_step offset toServer hstep) rfl⟩
  cases client with
  | opening => exact hchecked _ rfl
  | creating => exact hchecked _ rfl
  | converting => exact hchecked _ rfl
  | connecting => exact hchecked _ rfl
  | seeking =>
    have hseek : ClientStep .seeking (.seeked (some file.length)) (.sendingSize (announced file)) :=
      ⟨trivial, rfl⟩
    exact ⟨_, _, .client (sendStep_of hseek rfl) rfl⟩
  | sendingSize fileSize =>
    have hsend : ClientStep (.sendingSize fileSize) (.sentSize (.sent 4)) .reading :=
      ⟨Nat.le_refl 4, rfl⟩
    exact ⟨_, _, .client (sendStep_of hsend trivial) rfl⟩
  | reading =>
    have hread : ClientStep .reading (.read (some ((file.drop offset).take bufferSize)))
        (afterRead (some ((file.drop offset).take bufferSize))) := by
      refine ⟨?_, rfl⟩
      simp only [ClientEvent.Possible, Option.mem_some_iff, forall_eq']
      exact List.length_take_le ..
    have hpart : (file.drop offset).take bufferSize <+: file.drop offset := List.take_prefix ..
    refine ⟨_, _, .client (sendStep_of hread ⟨hpart, fun hempty => ?_⟩) rfl⟩
    have hlength := congrArg List.length hempty
    rw [List.length_take, List.length_drop, List.length_nil, bufferSize] at hlength
    omega
  | sending buffer bytesSent =>
    have hmore : bytesSent < buffer.length := hsends.1
    have hsend : ClientStep (.sending buffer bytesSent) (.sent (.sent 1))
        (sendingLoop buffer (bytesSent + 1)) := by
      refine ⟨?_, rfl⟩
      simp only [ClientEvent.Possible]
      omega
    exact ⟨_, _, .client (sendStep_of hsend trivial) ⟨1, Nat.one_pos, rfl⟩⟩
  | receivingCount => exact absurd rfl hwait
  | exited status printed => cases hclient
  | killed => cases hclient

/-- The next step of the server, once the client has sent everything. -/
theorem server_progress (hsize : file.length < 2 ^ 32) (h : Transfers file t sys)
    (hsent : sys.sending.toServer.sent = content file) (hconnected : sys.connection ≠ .unconnected)
    (hopen : sys.connection ≠ .closed) : ∃ e sys', TransferStep signed file sys e sys' := by
  obtain ⟨sending, ⟨total, pc⟩, connection, toClient⟩ := sys
  obtain ⟨-, hserver, -⟩ := h
  dsimp only at hserver hsent hconnected hopen
  cases connection with
  | unconnected => exact absurd rfl hconnected
  | closed => exact absurd rfl hopen
  | queued =>
    cases pc with
    | accepting => exact ⟨.server (.accept .client), _, .server ⟨trivial, rfl⟩ ⟨rfl, rfl⟩⟩
    | _ => exact hserver.elim
  | accepted =>
    cases pc with
    | receivingSize =>
      obtain ⟨-, hreceived, -⟩ := hserver
      have hlength := length_netBytes (announced file)
      have hne : netBytes (announced file) ≠ [] := fun hnil => by
        rw [hnil] at hlength
        cases hlength
      have hstale : (List.replicate 4 (0 : Byte)).length = 4 := List.length_replicate
      refine ⟨_, _, .server (recvSize_step signed total hne (Nat.le_of_eq hlength) hstale)
        ⟨_, rfl, .inl ⟨hlength, ?_⟩⟩⟩
      dsimp only
      rw [Stream.pending, hreceived, hsent, List.drop_zero]
      exact List.prefix_append ..
    | counting session =>
      have hcounting := fileSize_counting hsize hserver rfl
      obtain ⟨-, -, body, rfl, hreceived, rest, hrest⟩ := hserver
      by_cases hleft : 0 < (tally (announced file) body).fileSize.toNat
      · cases rest with
        | nil =>
          have hlength := congrArg List.length hrest
          rw [List.append_nil] at hlength
          omega
        | cons b rest =>
          refine ⟨_, _, .server (recvBody_step signed total (List.cons_ne_nil b []) hleft
            (toRead_bounds hleft).1) ⟨_, rfl, .inl ⟨List.cons_ne_nil b [], ?_⟩⟩⟩
          have hpending : sending.toServer.pending = b :: rest := by
            rw [Stream.pending, hreceived, hsent, content, ← hrest]
            exact drop_header (length_netBytes _)
          dsimp only
          rw [hpending]
          exact List.prefix_append [b] rest
      · have hwhole : ∀ k, SendResult.sent 4 = .sent k → k ≤ 4 := by simp
        exact ⟨_, _, .server (send_step signed total hwhole (by omega)) rfl⟩
    | merging session i => exact ⟨.server .merge, _, .server ⟨trivial, rfl⟩ trivial⟩
    | closing => exact ⟨.server .close, _, .server ⟨trivial, rfl⟩ trivial⟩
    | _ => exact hserver.elim

/-- The server after the `close` of the connection. -/
theorem closed_holds (h : Transfers file t sys) (hclosed : sys.connection = .closed) :
    sys.server.pc = .accepting ∧ sys.sending.toServer.consumed = 4 + file.length ∧
      sys.toClient.sent = netBytes (printableCount file) ∧ sys.server.pccTotal = added file t := by
  have hserver := h.server
  rw [hclosed] at hserver
  exact hserver.closed

/-- The last step of the client, once it was replied to. -/
theorem reply_progress (h : Transfers file t sys) (hclient : sys.sending.client = .receivingCount)
    (hclosed : sys.connection = .closed) : ∃ e sys', TransferStep signed file sys e sys' := by
  obtain ⟨-, -, hreply, -⟩ := closed_holds h hclosed
  have hwaits := h.client.waits (by rw [hclient]; rfl)
  obtain ⟨⟨client, offset, toServer⟩, server, connection, toClient⟩ := sys
  obtain rfl : client = .receivingCount := hclient
  have hlength := length_netBytes (printableCount file)
  have hreceive : ClientStep .receivingCount
      (.receivedCount (some (netBytes (printableCount file))) (List.replicate 4 0))
      (afterReceivedCount (some (netBytes (printableCount file))) (List.replicate 4 0)) := by
    refine ⟨⟨?_, List.length_replicate⟩, rfl⟩
    simp only [Option.mem_some_iff, forall_eq']
    exact Nat.le_of_eq hlength
  refine ⟨_, _, .client (sendStep_of hreceive trivial) ⟨_, rfl, .inl ⟨hlength, ?_⟩⟩⟩
  dsimp only at hreply hwaits ⊢
  rw [Stream.pending, hwaits, List.drop_zero, hreply]

/-- A system in which no step is left. -/
theorem ended_of_stuck (hsize : file.length < 2 ^ 32) (h : Transfers file t sys)
    (hstuck : ∀ e sys', ¬TransferStep signed file sys e sys') :
    sys.sending.client.ended = true ∧ sys.connection = .closed := by
  have hcontra : (∃ e sys', TransferStep signed file sys e sys') → False :=
    fun ⟨e, sys', hstep⟩ => hstuck e sys' hstep
  by_cases hended : sys.sending.client.ended = true
  · refine ⟨hended, by_contra fun hopen => ?_⟩
    cases hclient : sys.sending.client with
    | exited status printed =>
      have hconnected : sys.connection ≠ .unconnected := fun hun => by
        have h' := h.client.connects.mp hun
        rw [hclient] at h'
        cases h'
      exact hcontra (server_progress hsize h (h.client.exits _ _ hclient).2.2.1 hconnected hopen)
    | killed => exact h.client.survives hclient
    | _ =>
      rw [hclient] at hended
      cases hended
  · have hrunning : sys.sending.client.ended = false := Bool.eq_false_iff.mpr hended
    by_cases hclient : sys.sending.client = .receivingCount
    · have hconnected : sys.connection ≠ .unconnected := fun hun => by
        have h' := h.client.connects.mp hun
        rw [hclient] at h'
        cases h'
      by_cases hclosed : sys.connection = .closed
      · exact (hcontra (reply_progress h hclient hclosed)).elim
      · exact (hcontra (server_progress hsize h (h.client.sent_eq hclient) hconnected hclosed)).elim
    · exact (hcontra (client_progress h.client hrunning hclient)).elim

/-- Every transfer can be brought to its end. -/
theorem run_to_end (hsize : file.length < 2 ^ 32) (left : ℕ) {events : List Event}
    (run : Run (TransferStep signed file) (startTransfer t) events sys)
    (hleft : rank file.length sys ≤ left) :
    ∃ events' sys', Run (TransferStep signed file) (startTransfer t) events' sys' ∧
      ∀ e sys'', ¬TransferStep signed file sys' e sys'' := by
  induction left generalizing sys events with
  | zero =>
    refine ⟨events, sys, run, fun e sys' hstep => ?_⟩
    have hlt := rank_lt hsize (run_transfers hsize run) hstep
    omega
  | succ left ih =>
    by_cases hstuck : ∃ e sys', TransferStep signed file sys e sys'
    · obtain ⟨e, sys', hstep⟩ := hstuck
      have hlt := rank_lt hsize (run_transfers hsize run) hstep
      exact ih (run.snoc hstep) (by omega)
    · exact ⟨events, sys, run, fun e sys' hstep => hstuck ⟨e, sys', hstep⟩⟩

/-- The programs have done what they are for. -/
structure Delivered (file : List Byte) (t : Counters) (sys : System) : Prop where
  /-- The client has printed the number of printable characters. -/
  printed : ∃ count, sys.sending.client = .exited 0 (some count) ∧
    count.toNat = file.countP printable
  /-- The client has sent the length and the file. -/
  sent : sys.sending.toServer.sent = netBytes (announced file) ++ file
  /-- The server has taken everything that the client has sent. -/
  consumed : sys.sending.toServer.consumed = sys.sending.toServer.sent.length
  accepting : sys.server.pc = .accepting
  /-- The totals have grown by the occurrences of each character. -/
  totals : ∀ i, sys.server.pccTotal i = t i + BitVec.ofNat 32 (file.count (charAt i))

/-- The number of printable characters does not wrap around. -/
theorem toNat_printableCount (hsize : file.length < 2 ^ 32) :
    (printableCount file).toNat = file.countP printable := by
  have hle : file.countP printable ≤ file.length := List.countP_le_length
  rw [printableCount, BitVec.toNat_ofNat, Nat.mod_eq_of_lt (by omega)]

/-- A transfer of a file whose length fits into 32 bits is correct, however
its calls split the file: it ends, a client that has ended has printed the
number of printable characters, and at the end the server has taken exactly
what the client has sent and has counted each character as often as it occurs. -/
theorem transfer_delivers (hsize : file.length < 2 ^ 32) {events : List Event}
    (run : Run (TransferStep signed file) (startTransfer t) events sys) :
    events.length ≤ 3 * file.length + 108 ∧
      (∀ status printed, sys.sending.client = .exited status printed → status = 0 ∧
        ∃ count, printed = some count ∧ count.toNat = file.countP printable) ∧
      ((∀ e sys', ¬TransferStep signed file sys e sys') → Delivered file t sys) := by
  have h := run_transfers hsize run
  have hexits : ∀ status printed, sys.sending.client = .exited status printed → status = 0 ∧
      ∃ count, printed = some count ∧ count.toNat = file.countP printable := by
    intro status printed hclient
    obtain ⟨rfl, rfl, -⟩ := h.client.exits status printed hclient
    exact ⟨rfl, _, rfl, toNat_printableCount hsize⟩
  have hlength := length_le hsize run
  refine ⟨by omega, hexits, fun hstuck => ?_⟩
  obtain ⟨hended, hclosed⟩ := ended_of_stuck hsize h hstuck
  obtain ⟨haccepting, hconsumed, -, htotal⟩ := closed_holds h hclosed
  cases hclient : sys.sending.client with
  | exited status printed =>
    obtain ⟨rfl, rfl, hsent, -⟩ := h.client.exits status printed hclient
    refine ⟨⟨_, hclient, toNat_printableCount hsize⟩, hsent, ?_, haccepting, congrFun htotal⟩
    rw [hconsumed, hsent, content, List.length_append, length_netBytes]
  | killed => exact absurd hclient h.client.survives
  | _ =>
    rw [hclient] at hended
    cases hended

/-- Two letters and a byte that is no character. -/
theorem transfer_delivers_letters : ∃ events sys,
    Run (TransferStep true [65, 200, 66]) (startTransfer fun _ => 7) events sys ∧
      (∃ count, sys.sending.client = .exited 0 (some count) ∧ count.toNat = 2) ∧
        sys.server.pccTotal 33 = 8 := by
  have hsize : ([65, 200, 66] : List Byte).length < 2 ^ 32 := by decide
  have start : Run (TransferStep true [65, 200, 66]) (startTransfer fun _ => 7) [] _ := .nil
  obtain ⟨events, sys, run, hstuck⟩ := run_to_end hsize _ start (Nat.le_refl _)
  obtain ⟨-, -, hdelivered⟩ := transfer_delivers hsize run
  obtain ⟨⟨count, hclient, hcount⟩, -, -, -, htotals⟩ := hdelivered hstuck
  refine ⟨events, sys, run, ⟨count, hclient, hcount⟩, ?_⟩
  rw [htotals 33]
  decide

end OSCourse.PccDelivery
