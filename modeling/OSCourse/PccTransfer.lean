import OSCourse.PccFraming
import OSCourse.PccSessions

/-!
# A client and the server

The two programs run side by side, joined by one connection. No call fails,
the length and the reply are transferred whole, and everything else is cut as
the calls happen to return. The invariant says for each place of each program
what it has sent, received and counted.
-/

namespace OSCourse.PccTransfer

open Runs NetworkBytes PccServer PccCounting PccSessions PccClient PccFraming

/-- The connection of the client. -/
inductive Connection where
  /-- Before `connect`. -/
  | unconnected
  /-- Before `accept`. -/
  | queued
  | accepted
  /-- After the `close` of the server. -/
  | closed

/-- The client, the server, and the two directions of the connection. -/
structure System where
  /-- The client with what it sends. -/
  sending : Sending
  server : Server
  connection : Connection
  toClient : Stream Byte

/-- A step of one of the two programs. -/
inductive Event where
  | client (e : ClientEvent)
  | server (e : ServerEvent)

/-- The stream has ended for a reader. -/
def AtEnd (stream : Stream Byte) (ended : Bool) : Prop := stream.pending = [] ∧ ended = true

/-- What the calls of the client return when none of them fails. -/
def ClientAnswers (sys : System) : ClientEvent → Prop
  | .checked ok => ok = true
  | .seeked result => result.isSome
  | .sentSize result => result = .sent 4
  | .read result => result.isSome
  | .sent result => ∃ n, 0 < n ∧ result = .sent n
  | .receivedCount result _ => ∃ bytes, result = some bytes ∧
      (bytes.length = 4 ∧ bytes <+: sys.toClient.pending ∨
        bytes = [] ∧ AtEnd sys.toClient (match sys.connection with | .closed => true | _ => false))

/-- What the calls of the server return when none of them fails. -/
def ServerAnswers (sys : System) : ServerEvent → Prop
  | .accept result => result = .client ∧ sys.connection = .queued
  | .recvSize result _ => ∃ bytes, result = some bytes ∧
      (bytes.length = 4 ∧ bytes <+: sys.sending.toServer.pending ∨
        bytes = [] ∧ AtEnd sys.sending.toServer sys.sending.client.ended)
  | .recvBody result => ∃ bytes, result = some bytes ∧
      (bytes ≠ [] ∧ bytes <+: sys.sending.toServer.pending ∨
        bytes = [] ∧ AtEnd sys.sending.toServer sys.sending.client.ended)
  | .send result => result = .sent 4
  | .sigint => False
  | _ => True

/-- The bytes that the client takes from the connection. -/
def clientTaken : ClientEvent → ℕ
  | .receivedCount (some bytes) _ => bytes.length
  | _ => 0

/-- The bytes that the server takes from the connection. -/
def serverTaken : ServerEvent → ℕ
  | .recvSize (some bytes) _ => bytes.length
  | .recvBody (some bytes) => bytes.length
  | _ => 0

/-- The bytes that the server puts on the connection. -/
def replied (s : Server) (e : ServerEvent) : List Byte :=
  match s.pc, e with
  | .counting session, .send (.sent n) => (netBytes session.printableCount).take n
  | _, _ => []

/-- A successful `connect` queues the connection. -/
def clientConnection (connection : Connection) (c : Client) (e : ClientEvent) : Connection :=
  match c, e with
  | .connecting, .checked true => .queued
  | _, _ => connection

/-- `accept` and `close`. -/
def serverConnection (connection : Connection) : ServerEvent → Connection
  | .accept .client => .accepted
  | .close => .closed
  | _ => connection

/-- One step of the two programs. -/
inductive TransferStep (signed : Bool) (file : List Byte) : System → Event → System → Prop
  | client {sys : System} {e : ClientEvent} {s' : Sending} (hstep : SendStep file sys.sending e s')
      (hanswers : ClientAnswers sys e) :
      TransferStep signed file sys (.client e) ⟨s', sys.server,
        clientConnection sys.connection sys.sending.client e, sys.toClient.take (clientTaken e)⟩
  | server {sys : System} {e : ServerEvent} {s' : Server} (hstep : Step signed sys.server e s')
      (hanswers : ServerAnswers sys e) :
      TransferStep signed file sys (.server e)
        ⟨{ sys.sending with toServer := sys.sending.toServer.take (serverTaken e) }, s',
          serverConnection sys.connection e, sys.toClient.put (replied sys.server e)⟩

/-- A new client and a server in its accept loop, with any totals. -/
def startTransfer (t : Counters) : System := ⟨startSending, ⟨t, .accepting⟩, .unconnected, .empty⟩

/-- Everything that the client has to send. -/
def content (file : List Byte) : List Byte := netBytes (announced file) ++ file

/-- The number that the client has to print. -/
def printableCount (file : List Byte) : BitVec 32 := BitVec.ofNat 32 (file.countP printable)

/-- The totals after one more file. -/
def added (file : List Byte) (t : Counters) : Counters :=
  fun i => t i + BitVec.ofNat 32 (file.count (charAt i))

/-- The client has not connected yet. -/
def unconnected : Client → Bool
  | .opening => true
  | .creating => true
  | .converting => true
  | .connecting => true
  | _ => false

/-- The invariant of the client, given how much it has received. -/
structure ClientHolds (file : List Byte) (s : Sending) (connection : Connection) (received : ℕ) :
    Prop where
  sends : ∃ events, Sends file events s ∧ ∀ k, .sentSize (.sent k) ∈ events → k = 4
  connects : connection = .unconnected ↔ unconnected s.client = true
  survives : s.client ≠ .killed
  waits : s.client.ended = false → received = 0
  exits : ∀ status printed, s.client = .exited status printed → status = 0 ∧
    printed = some (printableCount file) ∧ s.toServer.sent = content file ∧ received = 4

/-- The invariant of the server, given how much it has received and its reply. -/
def ServerHolds (file : List Byte) (t : Counters) (connection : Connection) (s : Server)
    (received : ℕ) (reply : List Byte) : Prop :=
  match connection, s.pc with
  | .unconnected, .accepting => s.pccTotal = t ∧ received = 0 ∧ reply = []
  | .queued, .accepting => s.pccTotal = t ∧ received = 0 ∧ reply = []
  | .accepted, .receivingSize => s.pccTotal = t ∧ received = 0 ∧ reply = []
  | .accepted, .counting session => s.pccTotal = t ∧ reply = [] ∧ ∃ body,
      session = tally (announced file) body ∧ received = 4 + body.length ∧ body <+: file
  | .accepted, .merging session i => session = tally (announced file) file ∧
      received = 4 + file.length ∧ reply = netBytes (printableCount file) ∧
        s.pccTotal = fun j => if j.val < i then added file t j else t j
  | .accepted, .closing => received = 4 + file.length ∧ reply = netBytes (printableCount file) ∧
      s.pccTotal = added file t
  | .closed, .accepting => received = 4 + file.length ∧ reply = netBytes (printableCount file) ∧
      s.pccTotal = added file t
  | _, _ => False

/-- The invariant of the transfer. -/
structure Transfers (file : List Byte) (t : Counters) (sys : System) : Prop where
  client : ClientHolds file sys.sending sys.connection sys.toClient.consumed
  server : ServerHolds file t sys.connection sys.server sys.sending.toServer.consumed
    sys.toClient.sent
  received_le : sys.toClient.consumed ≤ sys.toClient.sent.length

variable {signed : Bool} {file : List Byte} {t : Counters} {sys sys' : System} {s s' : Sending}
  {connection : Connection} {received : ℕ}

/-- Taking from the connection does not change what was sent. -/
theorem sends_take {events : List ClientEvent} (h : Sends file events s) (n : ℕ) :
    Sends file events { s with toServer := s.toServer.take n } := by
  obtain ⟨client, offset, toServer⟩ := s
  cases client <;> exact h

/-- What the client has sent is a part of what it has to send. -/
theorem ClientHolds.sent_part (h : ClientHolds file s connection received) :
    s.toServer.sent <+: content file := by
  obtain ⟨events, hsends, hwhole⟩ := h.sends
  have hstream : ∀ count, Streams file events s.toServer.sent count →
      s.toServer.sent <+: content file := by
    rintro count ⟨k, hk, hsent⟩
    rw [hsent, hwhole k hk, take_netBytes, content]
    exact (List.prefix_append_right_inj _).mpr ( List.take_prefix ..)
  have hnone : s.toServer.sent = [] → s.toServer.sent <+: content file := by
    intro hsent
    rw [hsent]
    exact List.nil_prefix
  cases hclient : s.client with
  | exited status printed => exact (h.exits status printed hclient).2.2.1 ▸ List.prefix_refl _
  | killed => exact absurd hclient h.survives
  | sendingSize fileSize =>
    rw [Sends, hclient] at hsends
    exact hnone hsends.2.2
  | reading =>
    rw [Sends, hclient] at hsends
    exact hstream _ hsends.2
  | sending buffer bytesSent =>
    rw [Sends, hclient] at hsends
    obtain ⟨_, first, _, _, hsent⟩ := hsends
    exact hstream _ hsent
  | receivingCount =>
    rw [Sends, hclient] at hsends
    exact hstream _ hsends
  | _ =>
    rw [Sends, hclient] at hsends
    exact hnone hsends.2

/-- A client that waits for its reply has sent everything. -/
theorem ClientHolds.sent_eq (h : ClientHolds file s connection received)
    (hclient : s.client = .receivingCount) : s.toServer.sent = content file := by
  obtain ⟨events, hsends, hwhole⟩ := h.sends
  exact hsends.sent_eq hclient hwhole

/-- The whole reply has been put on the connection, or nothing of it. -/
theorem ServerHolds.reply_eq {server : Server} {reply : List Byte}
    (h : ServerHolds file t connection server received reply) :
    reply = [] ∨ reply = netBytes (printableCount file) := by
  unfold ServerHolds at h
  split at h
  · exact .inl h.2.2
  · exact .inl h.2.2
  · exact .inl h.2.2
  · exact .inl h.2.1
  · exact .inr h.2.2.1
  · exact .inr h.2.1
  · exact .inr h.2.1
  · exact h.elim

/-- A server that is not waiting for a client has accepted this one. -/
theorem ServerHolds.accepted {server : Server} {reply : List Byte}
    (h : ServerHolds file t connection server received reply) (hbusy : server.pc ≠ .accepting) :
    connection = .accepted := by
  obtain ⟨total, pc⟩ := server
  cases connection with
  | accepted => rfl
  | _ =>
    cases pc with
    | accepting => exact absurd rfl hbusy
    | _ => exact h.elim

/-- The server closes the connection when it has served the client. -/
theorem ServerHolds.closed {server : Server} {reply : List Byte}
    (h : ServerHolds file t .closed server received reply) :
    server.pc = .accepting ∧ received = 4 + file.length ∧
      reply = netBytes (printableCount file) ∧ server.pccTotal = added file t := by
  obtain ⟨total, pc⟩ := server
  cases pc with
  | accepting => exact ⟨rfl, h⟩
  | _ => exact h.elim

/-- One more step of the client keeps the stream and the length whole. -/
theorem ClientHolds.sends_step (h : ClientHolds file s connection received) {e : ClientEvent}
    (hstep : SendStep file s e s') (hwhole : ∀ k, e = .sentSize (.sent k) → k = 4) :
    ∃ events, Sends file events s' ∧ ∀ k, .sentSize (.sent k) ∈ events → k = 4 := by
  obtain ⟨events, hsends, hevents⟩ := h.sends
  refine ⟨events ++ [e], hsends.step hstep, fun k hk => ?_⟩
  rcases List.mem_append.mp hk with hk | hk
  · exact hevents k hk
  · exact hwhole k (List.mem_singleton.mp hk).symm

/-- The inner loop neither ends the client nor waits for a connection. -/
theorem sendingLoop_waits (buffer : List Byte) (bytesSent : ℕ) :
    unconnected (sendingLoop buffer bytesSent) = false ∧
      (sendingLoop buffer bytesSent).ended = false := by
  unfold sendingLoop
  split <;> exact ⟨rfl, rfl⟩

/-- A client that has not ended yet, after a step. -/
theorem ClientHolds.continue (h : ClientHolds file s connection received) {e : ClientEvent}
    (hstep : SendStep file s e s') (hwhole : ∀ k, e = .sentSize (.sent k) → k = 4)
    {connection' : Connection} (hended : s.client.ended = false) (hended' : s'.client.ended = false)
    (hconnects : connection' = .unconnected ↔ unconnected s'.client = true) :
    ClientHolds file s' connection' received where
  sends := h.sends_step hstep hwhole
  connects := hconnects
  survives := fun hclient => by
    rw [hclient] at hended'
    cases hended'
  waits := fun _ => h.waits hended
  exits := fun _ _ hclient => by
    rw [hclient] at hended'
    cases hended'

/-- Four bytes from the front of the reply are the whole reply. -/
theorem whole_reply {reply bytes : List Byte} {n : BitVec 32}
    (hreply : reply = [] ∨ reply = netBytes n) (hlength : bytes.length = 4)
    (hbytes : bytes <+: reply) : reply = netBytes n ∧ bytes = netBytes n := by
  rcases hreply with rfl | rfl
  · rw [List.prefix_nil] at hbytes
    rw [hbytes] at hlength
    cases hlength
  · exact ⟨rfl, hbytes.eq_of_length (hlength.trans (length_netBytes n).symm)⟩

/-- The step lemma of the client. -/
theorem Transfers.client_step (h : Transfers file t sys) {e : ClientEvent}
    (hstep : SendStep file sys.sending e s') (hanswers : ClientAnswers sys e) :
    Transfers file t ⟨s', sys.server, clientConnection sys.connection sys.sending.client e,
      sys.toClient.take (clientTaken e)⟩ := by
  obtain ⟨⟨client, offset, toServer⟩, server, connection, toClient⟩ := sys
  obtain ⟨client', offset', toServer'⟩ := s'
  obtain ⟨hclient, hserver, hle⟩ := h
  have hcases := clientTransition_of_step hstep.1.2
  have hput : toServer' = toServer.put (transmitted client e) := hstep.2.2.2
  have hconsumed : toServer'.consumed = toServer.consumed := by rw [hput, Stream.consumed_put]
  dsimp only at hclient hserver hle hstep hcases hanswers ⊢
  rw [← hconsumed] at hserver
  cases hcases with
  | opened ok =>
    subst hanswers
    exact ⟨hclient.continue hstep nofun rfl rfl hclient.connects, hserver, hle⟩
  | created ok =>
    subst hanswers
    exact ⟨hclient.continue hstep nofun rfl rfl hclient.connects, hserver, hle⟩
  | converted ok =>
    subst hanswers
    exact ⟨hclient.continue hstep nofun rfl rfl hclient.connects, hserver, hle⟩
  | connected ok =>
    subst hanswers
    obtain rfl : connection = .unconnected := hclient.connects.mpr rfl
    refine ⟨hclient.continue hstep nofun rfl rfl ⟨nofun, nofun⟩, ?_, hle⟩
    obtain ⟨total, pc⟩ := server
    cases pc <;> exact hserver
  | notSeeked => cases hanswers
  | seeked fileSize =>
    exact ⟨hclient.continue hstep nofun rfl rfl hclient.connects, hserver, hle⟩
  | sentSize fileSize result =>
    subst hanswers
    refine ⟨hclient.continue hstep (fun k hk => ?_) rfl rfl hclient.connects, hserver, hle⟩
    cases hk
    rfl
  | read result =>
    obtain ⟨bytes, rfl⟩ := Option.isSome_iff_exists.mp hanswers
    cases bytes with
    | nil => exact ⟨hclient.continue hstep nofun rfl rfl hclient.connects, hserver, hle⟩
    | cons b bytes =>
      obtain ⟨hconnected, hended⟩ := sendingLoop_waits (b :: bytes) 0
      refine ⟨hclient.continue hstep nofun rfl hended ?_, hserver, hle⟩
      exact hclient.connects.trans (iff_of_eq (congrArg (· = true) hconnected.symm))
  | sent buffer bytesSent result =>
    obtain ⟨n, -, rfl⟩ := hanswers
    obtain ⟨hconnected, hended⟩ := sendingLoop_waits buffer (bytesSent + n)
    refine ⟨hclient.continue hstep nofun rfl hended ?_, hserver, hle⟩
    exact hclient.connects.trans (iff_of_eq (congrArg (· = true) hconnected.symm))
  | receivedCount result stale =>
    obtain ⟨bytes, rfl, hbytes⟩ := hanswers
    have hstale : stale.length = 4 := hstep.1.1.2
    have hpending : toClient.pending = toClient.sent := by
      rw [Stream.pending, hclient.waits rfl, List.drop_zero]
    have hreply := hserver.reply_eq
    rcases hbytes with ⟨hlength, hbytes⟩ | ⟨-, hend, hclosed⟩
    · rw [hpending] at hbytes
      obtain ⟨hreply, rfl⟩ := whole_reply hreply hlength hbytes
      have hdrop : stale.drop (netBytes (printableCount file)).length = [] :=
        List.drop_of_length_le (by rw [hstale, hlength])
      have hreceived : (toClient.take (netBytes (printableCount file)).length).consumed = 4 := by
        rw [Stream.consumed_take, hclient.waits rfl, hlength]
      refine ⟨⟨hclient.sends_step hstep nofun, hclient.connects, nofun, nofun, ?_⟩, hserver, ?_⟩
      · intro status printed hexited
        cases hexited
        refine ⟨rfl, ?_, ?_, hreceived⟩
        · rw [hdrop, List.append_nil, ntohl_netBytes]
        · rw [hput, ← hclient.sent_eq rfl]
          exact List.append_nil _
      · dsimp only [clientTaken]
        rw [hreceived, Stream.sent_take, hreply, length_netBytes]
    · cases connection with
      | closed =>
        rw [hpending, hserver.closed.2.2.1] at hend
        have hlength := length_netBytes (printableCount file)
        rw [hend] at hlength
        cases hlength
      | _ => cases hclosed

/-- The server takes from the connection. -/
theorem ClientHolds.taken (h : ClientHolds file s connection received) (n : ℕ)
    {connection' : Connection}
    (hconnection : connection' = .unconnected ↔ connection = .unconnected) :
    ClientHolds file { s with toServer := s.toServer.take n } connection' received where
  sends := by
    obtain ⟨events, hsends, hwhole⟩ := h.sends
    exact ⟨events, sends_take hsends n, hwhole⟩
  connects := hconnection.trans h.connects
  survives := h.survives
  waits := h.waits
  exits := h.exits

/-- A client that has ended was replied to. -/
theorem Transfers.replied_of_ended (h : Transfers file t sys)
    (hended : sys.sending.client.ended = true) : sys.toClient.sent ≠ [] := by
  intro hnone
  have hle := h.received_le
  rw [hnone] at hle
  cases hclient : sys.sending.client with
  | exited status printed =>
    rw [(h.client.exits status printed hclient).2.2.2] at hle
    cases hle
  | killed => exact h.client.survives hclient
  | _ =>
    rw [hclient] at hended
    cases hended

/-- What follows a header and a part of a file. -/
theorem drop_header {header body rest : List Byte} (hheader : header.length = 4) :
    (header ++ (body ++ rest)).drop (4 + body.length) = rest := by
  rw [← List.append_assoc]
  exact List.drop_left' (by rw [List.length_append, hheader])

/-- The next bytes after a part of the file. -/
theorem next_piece {header body bytes sent : List Byte} (hheader : header.length = 4)
    (hsent : sent <+: header ++ file) (hbody : body <+: file)
    (hbytes : bytes <+: sent.drop (4 + body.length)) : body ++ bytes <+: file := by
  obtain ⟨rest, rfl⟩ := hbody
  have hrest := hbytes.trans (hsent.drop (4 + body.length))
  rw [drop_header hheader] at hrest
  exact (List.prefix_append_right_inj body).mpr hrest

/-- The session after the whole length. -/
theorem afterRecvSize_netBytes (n : BitVec 32) {stale : List Byte} (hstale : stale.length = 4) :
    afterRecvSize (some (netBytes n)) stale = .counting (tally n []) := by
  have hdrop : stale.drop 4 = [] := List.drop_of_length_le (Nat.le_of_eq hstale)
  have hafter : afterRecvSize (some (netBytes n)) stale =
      .counting ⟨ntohl (netBytes n ++ stale.drop 4), 0, fun _ => 0⟩ := rfl
  rw [hafter, hdrop, List.append_nil, ntohl_netBytes, tally_nil]

/-- Four bytes from the front of what is sent are the whole length. -/
theorem whole_length {sent bytes : List Byte} (hsent : sent <+: content file)
    (hlength : bytes.length = 4) (hbytes : bytes <+: sent) : bytes = netBytes (announced file) := by
  have hheader : (netBytes (announced file)).length = 4 := length_netBytes _
  have hprefix : bytes <+: netBytes (announced file) :=
    List.prefix_of_prefix_length_le (hbytes.trans hsent) (List.prefix_append ..) (by omega)
  exact hprefix.eq_of_length (by omega)

/-- A piece of the file is counted. -/
theorem afterRecvBody_tally (signed : Bool) (n : BitVec 32) (body : List Byte) {bytes : List Byte}
    (hne : bytes ≠ []) :
    afterRecvBody signed (tally n body) (some bytes) = .counting (tally n (body ++ bytes)) := by
  cases bytes with
  | nil => exact absurd rfl hne
  | cons b bytes => simp only [afterRecvBody, receive_tally]

/-- The step lemma of the server. -/
theorem Transfers.server_step (hsize : file.length < 2 ^ 32) (h : Transfers file t sys)
    {e : ServerEvent} {server' : Server} (hstep : Step signed sys.server e server')
    (hanswers : ServerAnswers sys e) :
    Transfers file t
      ⟨{ sys.sending with toServer := sys.sending.toServer.take (serverTaken e) }, server',
        serverConnection sys.connection e, sys.toClient.put (replied sys.server e)⟩ := by
  have hended := h.replied_of_ended
  have hsent := h.client.sent_part
  obtain ⟨sending, ⟨total, pc⟩, connection, toClient⟩ := sys
  obtain ⟨hclient, hserver, hle⟩ := h
  have hcases := transition_of_step hstep.2
  dsimp only at hclient hserver hle hstep hcases hanswers hended hsent ⊢
  have hle' : ∀ reply, (toClient.put reply).consumed ≤ (toClient.put reply).sent.length := by
    intro reply
    rw [Stream.sent_put, List.length_append]
    exact Nat.le_trans hle (Nat.le_add_right _ _)
  cases hcases with
  | acceptClient =>
    obtain ⟨-, rfl⟩ := hanswers
    refine ⟨hclient.taken _ (by simp [serverConnection]), ?_, hle' _⟩
    obtain ⟨rfl, hreceived, hreply⟩ := hserver
    exact ⟨rfl, hreceived, by simp [replied, hreply]⟩
  | acceptInterrupted => cases hanswers.1
  | acceptFailed => cases hanswers.1
  | recvSize result stale =>
    obtain ⟨bytes, rfl, hbytes⟩ := hanswers
    obtain rfl := hserver.accepted (by simp)
    obtain ⟨rfl, hreceived, hreply⟩ := hserver
    rcases hbytes with ⟨hlength, hbytes⟩ | ⟨-, -, hclosed⟩
    · rw [Stream.pending, hreceived, List.drop_zero] at hbytes
      obtain rfl := whole_length hsent hlength hbytes
      refine ⟨hclient.taken _ Iff.rfl, ?_, hle' _⟩
      rw [afterRecvSize_netBytes (announced file) hstep.1.2]
      refine ⟨rfl, by simp [replied, hreply], [], rfl, ?_, List.nil_prefix⟩
      simp [serverTaken, hreceived]
    · exact absurd hreply (hended hclosed)
  | recvBody session result hleft =>
    obtain ⟨bytes, rfl, hbytes⟩ := hanswers
    obtain rfl := hserver.accepted (by simp)
    obtain ⟨rfl, hreply, body, rfl, hreceived, hbody⟩ := hserver
    rcases hbytes with ⟨hne, hbytes⟩ | ⟨-, -, hclosed⟩
    · rw [Stream.pending, hreceived] at hbytes
      have hnext := next_piece (length_netBytes _) hsent hbody hbytes
      refine ⟨hclient.taken _ Iff.rfl, ?_, hle' _⟩
      rw [afterRecvBody_tally signed (announced file) body hne]
      refine ⟨rfl, by simp [replied, hreply], body ++ bytes, rfl, ?_, hnext⟩
      simp [serverTaken, hreceived, Nat.add_assoc]
    · exact absurd hreply (hended hclosed)
  | send session result hleft =>
    obtain rfl : result = .sent 4 := hanswers
    obtain rfl := hserver.accepted (by simp)
    obtain ⟨rfl, hreply, body, rfl, hreceived, hbody⟩ := hserver
    have hle := hbody.length_le
    rw [fileSize_tally (by rw [toNat_announced hsize]; exact hle), toNat_announced hsize] at hleft
    obtain rfl : body = file := hbody.eq_of_length (by omega)
    refine ⟨hclient.taken _ Iff.rfl, ⟨rfl, hreceived, ?_, ?_⟩, hle' _⟩
    · rw [Stream.sent_put, hreply]
      exact take_netBytes _
    · funext j
      rw [if_neg (Nat.not_lt_zero _)]
  | merge session i =>
    obtain rfl := hserver.accepted (by simp)
    obtain ⟨rfl, hreceived, hreply, htotal⟩ := hserver
    refine ⟨hclient.taken _ Iff.rfl, ⟨rfl, hreceived, ?_, ?_⟩, hle' _⟩
    · rw [Stream.sent_put]
      simpa [replied] using hreply
    · exact update_merging htotal rfl
  | merged session i hi =>
    obtain rfl := hserver.accepted (by simp)
    obtain ⟨rfl, hreceived, hreply, htotal⟩ := hserver
    refine ⟨hclient.taken _ Iff.rfl, ⟨hreceived, ?_, ?_⟩, hle' _⟩
    · rw [Stream.sent_put]
      simpa [replied] using hreply
    · exact merging_done htotal hi
  | close =>
    obtain rfl := hserver.accepted (by simp)
    obtain ⟨hreceived, hreply, htotal⟩ := hserver
    refine ⟨hclient.taken _ (by simp [serverConnection]), ⟨hreceived, ?_, htotal⟩, hle' _⟩
    rw [Stream.sent_put]
    simpa [replied] using hreply
  | sigint pc hrunning => exact hanswers.elim

/-- The step lemma. -/
theorem Transfers.step (hsize : file.length < 2 ^ 32) (h : Transfers file t sys) {e : Event}
    (hstep : TransferStep signed file sys e sys') : Transfers file t sys' := by
  cases hstep with
  | client hstep hanswers => exact h.client_step hstep hanswers
  | server hstep hanswers => exact h.server_step hsize hstep hanswers

/-- The invariant holds in every reachable state. -/
theorem run_transfers (hsize : file.length < 2 ^ 32) {events : List Event}
    (run : Run (TransferStep signed file) (startTransfer t) events sys) :
    Transfers file t sys := by
  induction run with
  | nil =>
    have hsends : Sends file [] startSending := ⟨rfl, rfl⟩
    exact ⟨⟨⟨[], hsends, nofun⟩, ⟨fun _ => rfl, fun _ => rfl⟩, nofun, fun _ => rfl, nofun⟩,
      ⟨rfl, rfl, rfl⟩, Nat.le_refl 0⟩
  | snoc _ hlast ih => exact ih.step hsize hlast

end OSCourse.PccTransfer
