import OSCourse.PccClient

/-!
# What the client sends

However the calls of the client split the file, its stream is the bytes of
the length that the first `send` took, followed by the file. The stream is
framed when all four bytes of the length were taken and the length of the
file fits into them.
-/

namespace OSCourse.PccFraming

open Runs NetworkBytes PccServer PccClient

/-- The client with its file and its connection. -/
structure Sending where
  client : Client
  /-- The position in the open file. -/
  offset : ℕ
  toServer : Stream Byte

/-- What the file answers: its length, and bytes from the position, none only
at its end. -/
def FileAnswers (file : List Byte) (offset : ℕ) : ClientEvent → Prop
  | .seeked (some fileSize) => fileSize = file.length
  | .read (some bytes) => bytes <+: file.drop offset ∧ (bytes = [] → file.length ≤ offset)
  | _ => True

/-- The bytes that an event takes out of the file. -/
def readLength : ClientEvent → ℕ
  | .read (some bytes) => bytes.length
  | _ => 0

/-- The bytes that an event puts on the connection. -/
def transmitted (c : Client) (e : ClientEvent) : List Byte :=
  match c, e with
  | .sendingSize fileSize, .sentSize (.sent n) => (netBytes fileSize).take n
  | .sending buffer bytesSent, .sent (.sent n) => (buffer.drop bytesSent).take n
  | _, _ => []

/-- One step of the client with its file. -/
def SendStep (file : List Byte) (s : Sending) (e : ClientEvent) (s' : Sending) : Prop :=
  ClientStep s.client e s'.client ∧ FileAnswers file s.offset e ∧
    s'.offset = s.offset + readLength e ∧ s'.toServer = s.toServer.put (transmitted s.client e)

/-- Before the first call. -/
def startSending : Sending := ⟨.opening, 0, .empty⟩

/-- The stream splits into a length and exactly as many bytes. -/
def Framed (stream : List Byte) : Prop :=
  4 ≤ stream.length ∧ (ntohl (stream.take 4)).toNat = (stream.drop 4).length

/-- The length that the client announces. -/
def announced (file : List Byte) : BitVec 32 := BitVec.ofNat 32 file.length

/-- The stream after the `send` of the length. -/
def Streams (file : List Byte) (events : List ClientEvent) (sent : List Byte) (count : ℕ) : Prop :=
  ∃ k, .sentSize (.sent k) ∈ events ∧ sent = (netBytes (announced file)).take k ++ file.take count

/-- The invariant of the client. -/
def Sends (file : List Byte) (events : List ClientEvent) (s : Sending) : Prop :=
  match s.client with
  | .sendingSize fileSize => fileSize = announced file ∧ s.offset = 0 ∧ s.toServer.sent = []
  | .reading => s.offset ≤ file.length ∧ Streams file events s.toServer.sent s.offset
  | .sending buffer bytesSent =>
    bytesSent < buffer.length ∧ ∃ first, s.offset = first + buffer.length ∧
      buffer <+: file.drop first ∧ Streams file events s.toServer.sent (first + bytesSent)
  | .receivingCount => Streams file events s.toServer.sent file.length
  | .exited _ _ => True
  | .killed => True
  | _ => s.offset = 0 ∧ s.toServer.sent = []

variable {file : List Byte} {events : List ClientEvent} {s s' : Sending} {e : ClientEvent}

theorem Streams.concat {sent : List Byte} {count : ℕ} (h : Streams file events sent count)
    (e : ClientEvent) : Streams file (events ++ [e]) sent count := by
  obtain ⟨k, hk, hsent⟩ := h
  exact ⟨k, List.mem_append_left _ hk, hsent⟩

/-- The inner loop sends the buffer, or has sent it. -/
theorem sends_loop {client : Client} {offset first bytesSent : ℕ} {buffer : List Byte}
    {toServer : Stream Byte} (hclient : client = sendingLoop buffer bytesSent)
    (hbytes : bytesSent ≤ buffer.length) (hoffset : offset = first + buffer.length)
    (hbuffer : buffer <+: file.drop first) (hfirst : first ≤ file.length)
    (hstream : Streams file events toServer.sent (first + bytesSent)) :
    Sends file events ⟨client, offset, toServer⟩ := by
  subst hclient
  have hlength := hbuffer.length_le
  rw [List.length_drop] at hlength
  unfold sendingLoop
  by_cases hmore : bytesSent < buffer.length
  · rw [if_pos hmore]
    exact ⟨hmore, first, hoffset, hbuffer, hstream⟩
  · have hall : first + bytesSent = offset := by omega
    rw [if_neg hmore]
    refine ⟨by dsimp only; omega, ?_⟩
    rw [← hall]
    exact hstream

/-- A piece of the buffer is the next piece of the file. -/
theorem piece_of_file {buffer : List Byte} {first bytesSent n : ℕ}
    (hbuffer : buffer <+: file.drop first) (hn : n ≤ buffer.length - bytesSent)
    (hbytes : bytesSent < buffer.length) :
    file.take (first + bytesSent) ++ (buffer.drop bytesSent).take n =
      file.take (first + bytesSent + n) := by
  obtain ⟨rest, hrest⟩ := hbuffer
  have hdrop : file.drop (first + bytesSent) = buffer.drop bytesSent ++ rest := by
    rw [← List.drop_drop, ← hrest, List.drop_append_of_le_length (by omega)]
  have hsplit : file.take (first + bytesSent + n) =
      file.take (first + bytesSent) ++ (file.drop (first + bytesSent)).take n := List.take_add
  rw [hsplit, hdrop, List.take_append_of_le_length (by rw [List.length_drop]; exact hn)]

/-- The step lemma. -/
theorem Sends.step (h : Sends file events s) (hstep : SendStep file s e s') :
    Sends file (events ++ [e]) s' := by
  obtain ⟨client, offset, toServer⟩ := s
  obtain ⟨client', offset', toServer'⟩ := s'
  obtain ⟨⟨hpossible, hclient⟩, hfile, rfl, rfl⟩ := hstep
  cases clientTransition_of_step hclient with
  | seeked fileSize =>
    obtain rfl : fileSize = file.length := hfile
    exact ⟨rfl, h.1, by simpa [transmitted] using h.2⟩
  | notSeeked => trivial
  | sentSize fileSize result =>
    obtain ⟨rfl, hoffset, hsent⟩ := h
    cases result with
    | sent k =>
      dsimp only at hoffset hsent
      subst hoffset
      refine ⟨Nat.zero_le _, k, by simp, ?_⟩
      simp [transmitted, hsent, readLength]
    | failed => trivial
    | brokenPipe => trivial
  | read result =>
    obtain ⟨hoffset, hstream⟩ := h
    cases result with
    | none => trivial
    | some bytes =>
      obtain ⟨hpart, hend⟩ := hfile
      cases bytes with
      | nil =>
        have hlength : offset = file.length := Nat.le_antisymm hoffset (hend rfl)
        dsimp only at hstream
        rw [hlength] at hstream
        change Streams file _ (toServer.sent ++ []) file.length
        rw [List.append_nil]
        exact hstream.concat _
      | cons b bytes =>
        refine sends_loop rfl (Nat.zero_le _) rfl hpart hoffset ?_
        simpa [transmitted] using hstream.concat _
  | sent buffer bytesSent result =>
    obtain ⟨hmore, first, hoffset, hbuffer, k, hk, hsent⟩ := h
    cases result with
    | sent n =>
      have hn : n ≤ buffer.length - bytesSent := hpossible
      have hfirst : first ≤ file.length := by
        have hlength := hbuffer.length_le
        rw [List.length_drop] at hlength
        omega
      refine sends_loop rfl (by omega) hoffset hbuffer hfirst ⟨k, List.mem_append_left _ hk, ?_⟩
      dsimp only at hsent
      rw [Stream.sent_put, hsent, transmitted, List.append_assoc, piece_of_file hbuffer hn hmore,
        Nat.add_assoc]
    | failed => trivial
    | brokenPipe => trivial
  | receivedCount result stale => cases result <;> trivial
  | _ ok =>
    cases ok with
    | false => trivial
    | true => exact ⟨h.1, by simpa [transmitted] using h.2⟩

/-- The invariant holds in every reachable state. -/
theorem run_sends (run : Run (SendStep file) startSending events s) : Sends file events s := by
  induction run with
  | nil => exact ⟨rfl, rfl⟩
  | snoc _ hlast ih => exact ih.step hlast

@[simp] theorem length_netBytes (n : BitVec 32) : (netBytes n).length = 4 := length_bigEndian ..

/-- All four bytes of a number. -/
theorem take_netBytes (n : BitVec 32) : (netBytes n).take 4 = netBytes n :=
  List.take_of_length_le (Nat.le_of_eq (length_netBytes n))

/-- Reading a length back gives the length. -/
theorem ntohl_netBytes (n : BitVec 32) : ntohl (netBytes n) = n := by
  have hn := n.isLt
  rw [ntohl, netBytes, value_bigEndian, Nat.mod_eq_of_lt (by omega), BitVec.ofNat_toNat,
    BitVec.setWidth_eq]

/-- A file whose length fits announces its length. -/
theorem toNat_announced (hsize : file.length < 2 ^ 32) : (announced file).toNat = file.length := by
  rw [announced, BitVec.toNat_ofNat, Nat.mod_eq_of_lt hsize]

/-- A whole length followed by the file. -/
theorem framed_iff (file : List Byte) :
    Framed (netBytes (announced file) ++ file) ↔ file.length < 2 ^ 32 := by
  have hhead : (netBytes (announced file) ++ file).take 4 = netBytes (announced file) :=
    List.take_left' (length_netBytes _)
  have hrest : (netBytes (announced file) ++ file).drop 4 = file :=
    List.drop_left' (length_netBytes _)
  rw [Framed, hhead, hrest, ntohl_netBytes]
  constructor
  · rintro ⟨_, hlength⟩
    rw [← hlength]
    exact (announced file).isLt
  · intro hsize
    refine ⟨?_, toNat_announced hsize⟩
    rw [List.length_append, length_netBytes]
    omega

/-- The stream of a client that has sent everything, with all four bytes of
the length. -/
theorem Sends.sent_eq (h : Sends file events s) (hdone : s.client = .receivingCount)
    (hwhole : ∀ k, .sentSize (.sent k) ∈ events → k = 4) :
    s.toServer.sent = netBytes (announced file) ++ file := by
  rw [Sends, hdone] at h
  obtain ⟨k, hk, hsent⟩ := h
  rw [hsent, hwhole k hk, take_netBytes, List.take_length]

/-- A file whose length fits into 32 bits is sent as its length and exactly as
many bytes of content, so a server that reads as many has read the stream. -/
theorem stream_framed (run : Run (SendStep file) startSending events s)
    (hdone : s.client = .receivingCount) (hsize : file.length < 2 ^ 32)
    (hwhole : ∀ k, .sentSize (.sent k) ∈ events → k = 4) :
    s.toServer.sent = netBytes (announced file) ++ file ∧
      (announced file).toNat = file.length ∧ Framed s.toServer.sent := by
  have hsent := (run_sends run).sent_eq hdone hwhole
  refine ⟨hsent, toNat_announced hsize, ?_⟩
  rw [hsent]
  exact (framed_iff file).mpr hsize

/-- A step of the client, with what it does to the file and the connection. -/
theorem sendStep_of {c c' : Client} {offset : ℕ} {toServer : Stream Byte}
    (hclient : ClientStep c e c') (hfile : FileAnswers file offset e) :
    SendStep file ⟨c, offset, toServer⟩ e
      ⟨c', offset + readLength e, toServer.put (transmitted c e)⟩ :=
  ⟨hclient, hfile, rfl, rfl⟩

/-- A call that is tested for failure only, and has succeeded. -/
theorem checked_step {c c' : Client} (offset : ℕ) (toServer : Stream Byte)
    (hclient : c.step (.checked true) = some c') :
    SendStep file ⟨c, offset, toServer⟩ (.checked true)
      ⟨c', offset, toServer.put (transmitted c (.checked true))⟩ :=
  sendStep_of ⟨trivial, hclient⟩ trivial

/-- The calls up to the `send` of the length. -/
def opening (file : List Byte) : List ClientEvent :=
  [] ++ [.checked true] ++ [.checked true] ++ [.checked true] ++ [.checked true] ++
    [.seeked (some file.length)] ++ [.sentSize (.sent 4)]

/-- The length can be sent. -/
theorem opening_run (file : List Byte) :
    ∃ toServer, Run (SendStep file) startSending (opening file) ⟨.reading, 0, toServer⟩ := by
  have hseek : ∀ toServer, SendStep file ⟨.seeking, 0, toServer⟩ (.seeked (some file.length))
      ⟨.sendingSize (announced file), 0, toServer.put []⟩ := fun _ => sendStep_of ⟨trivial, rfl⟩ rfl
  have hsize : ∀ toServer, SendStep file ⟨.sendingSize (announced file), 0, toServer⟩
      (.sentSize (.sent 4)) ⟨.reading, 0, toServer.put ((netBytes (announced file)).take 4)⟩ :=
    fun _ => sendStep_of ⟨Nat.le_refl 4, rfl⟩ trivial
  exact ⟨_, (((((Run.nil.snoc (checked_step 0 _ rfl)).snoc (checked_step 0 _ rfl)).snoc
    (checked_step 0 _ rfl)).snoc (checked_step 0 _ rfl)).snoc (hseek _)).snoc (hsize _)⟩

/-- The rest of the file can be sent, a buffer at a time. -/
theorem content_run (left : ℕ) {offset : ℕ} (toServer : Stream Byte)
    (hoffset : offset + left = file.length) :
    ∃ events s, Run (SendStep file) ⟨.reading, offset, toServer⟩ events s ∧
      s.client = .receivingCount ∧ ∀ k, .sentSize (.sent k) ∉ events := by
  induction left using Nat.strongRecOn generalizing offset toServer with
  | _ left ih =>
    by_cases hleft : left = 0
    · have hread : SendStep file ⟨.reading, offset, toServer⟩ (.read (some []))
          ⟨.receivingCount, offset, toServer.put []⟩ :=
        sendStep_of ⟨by simp [ClientEvent.Possible], rfl⟩ ⟨by simp, fun _ => by omega⟩
      exact ⟨_, _, .snoc .nil hread, rfl, by simp⟩
    · obtain ⟨buffer, hbuffer⟩ : ∃ buffer, buffer = (file.drop offset).take bufferSize := ⟨_, rfl⟩
      have hlength : buffer.length = min bufferSize left := by
        rw [hbuffer, List.length_take, List.length_drop]
        omega
      have hpositive : 0 < buffer.length := by
        rw [hlength, bufferSize]
        omega
      have hread : SendStep file ⟨.reading, offset, toServer⟩ (.read (some buffer))
          ⟨.sending buffer 0, offset + buffer.length, toServer.put []⟩ := by
        refine sendStep_of ⟨?_, ?_⟩ ⟨?_, fun hempty => ?_⟩
        · simp only [ClientEvent.Possible, Option.mem_some_iff, forall_eq']
          omega
        · cases buffer with
          | nil => exact absurd hpositive (Nat.lt_irrefl 0)
          | cons b buffer => rfl
        · rw [hbuffer]
          exact List.take_prefix _ _
        · rw [hempty] at hpositive
          exact absurd hpositive (Nat.lt_irrefl 0)
      have hsent : ∀ toServer, SendStep file ⟨.sending buffer 0, offset + buffer.length, toServer⟩
          (.sent (.sent buffer.length))
          ⟨.reading, offset + buffer.length, toServer.put ((buffer.drop 0).take buffer.length)⟩ := by
        refine fun toServer => sendStep_of ⟨Nat.le_refl _, ?_⟩ trivial
        simp only [Client.step, afterSent, sendingLoop, Nat.zero_add, Nat.lt_irrefl, if_false]
      obtain ⟨events, s, run, hdone, hnone⟩ := ih (left - buffer.length) (by omega)
        ((toServer.put []).put ((buffer.drop 0).take buffer.length))
        (show offset + buffer.length + (left - buffer.length) = file.length by omega)
      refine ⟨_, s, ((Run.nil.snoc hread).snoc (hsent _)).trans run, hdone, fun k hmem => ?_⟩
      rcases List.mem_append.mp hmem with hmem | hmem
      · simp at hmem
      · exact hnone k hmem

/-- Every file can be sent. -/
theorem transfer_run (file : List Byte) : ∃ events s,
    Run (SendStep file) startSending events s ∧ s.client = .receivingCount ∧
      ∀ k, .sentSize (.sent k) ∈ events → k = 4 := by
  obtain ⟨toServer, hopening⟩ := opening_run file
  obtain ⟨events, s, hcontent, hdone, hnone⟩ := content_run file.length toServer (Nat.zero_add _)
  refine ⟨_, s, hopening.trans hcontent, hdone, fun k hmem => ?_⟩
  rcases List.mem_append.mp hmem with hmem | hmem
  · simpa [opening] using hmem
  · exact absurd hmem (hnone k)

/-- A file of one letter is framed. -/
theorem stream_framed_oneLetter : ∃ events s, Run (SendStep [65]) startSending events s ∧
    s.toServer.sent = [0, 0, 0, 1, 65] ∧ Framed s.toServer.sent := by
  obtain ⟨events, s, run, hdone, hwhole⟩ := transfer_run [65]
  obtain ⟨hsent, -, hframed⟩ := stream_framed run hdone (by decide) hwhole
  exact ⟨events, s, run, hsent, hframed⟩

/-- A file of 2 ^ 32 bytes is announced as an empty one. -/
theorem stream_not_framed : ∃ file events s, Run (SendStep file) startSending events s ∧
    s.client = .receivingCount ∧ (∀ k, .sentSize (.sent k) ∈ events → k = 4) ∧
      (announced file).toNat ≠ file.length ∧ ¬Framed s.toServer.sent := by
  obtain ⟨events, s, run, hdone, hwhole⟩ := transfer_run (List.replicate (2 ^ 32) 0)
  have hlength : (List.replicate (2 ^ 32) (0 : Byte)).length = 2 ^ 32 := List.length_replicate
  refine ⟨_, events, s, run, hdone, hwhole, ?_, ?_⟩
  · rw [hlength]
    exact Nat.ne_of_lt (BitVec.isLt _)
  · rw [(run_sends run).sent_eq hdone hwhole, framed_iff, hlength]
    exact Nat.lt_irrefl _

end OSCourse.PccFraming
