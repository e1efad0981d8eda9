import OSCourse.MessageSlotHeaders
import OSCourse.MessageSlotStages

/-!
# Messages between senders and readers

What a reader prints is what the newest sender before it sent to the same
minor and the same 32-bit channel, whole. A sender that fails has left every
message as it was. This is as long as no write fails behind its node and
nobody meets what an empty header happens to point to. The statuses of the
failures are exact as long as `perror` leaves `errno` alone.
-/

namespace OSCourse.MessageSlotMail

open Runs DecimalText MessageSlotDriver MessageSlotList MessageSlotStore MessageSlotRefinement
  MessageSlotHistory MessageSlotMessages MessageSlotHeaders MessageSlotPrograms MessageSlotStages

variable {Addr Pid : Type}

/-- The channel of the driver that a channel argument stands for. -/
def slotArg (channel : Argument) : BitVec 32 := (channelArg channel).setWidth 32

/-- Headers arrive with null pointers, or no minor is read before a message
has been written to it. -/
def HeadersHarmless (events : List (Event Pid Addr)) : Prop :=
  HeadersClear events ∨ ∀ before e after, events = before ++ e :: after →
    (∃ length buffer tmp left, e.call = .read length buffer tmp left) →
      ∃ d ∈ before, ∃ k, (writtenBy e.target.minor k d).isSome = true

/-- The job is to send a message to a channel of a minor. -/
def Sends (device : List Byte → Option (Fin 256)) (minor : Fin 256) (slot : BitVec 32)
    (message : List Byte) : Job → Prop
  | .sender [_, deviceFile, channel, msg] =>
    device deviceFile.text = some minor ∧ slotArg channel = slot ∧ msg.text = message
  | _ => False

/-- Each call of a process has left every message of every channel as it was. -/
def KeepsMessages [DecidableEq Addr] (pid : Pid) (events : List (Event Pid Addr)) : Prop :=
  ∀ before e after, events = before ++ e :: after → e.file = pid →
    ∀ minor k, (message (storeAfter (before ++ [e])) minor k).map seen =
      (message (storeAfter before) minor k).map seen

variable {steady : Prop} {device : List Byte → Option (Fin 256)} {jobs : Pid → Job}
  {args : List Argument} {deviceFile channel msg : Argument} {w : World Pid Addr} {p : Process}
  {file : Option OpenFile} {own : List (Event Pid Addr)} {e : Event Pid Addr}
  {events before after : List (Event Pid Addr)}
  {s s' : State Pid Addr} {labels : List (Pid × Option (Event Pid Addr))} {status : ℤ}
  {minor : Fin 256} {k : BitVec 32} {bytes : List Byte}

/-- The bytes of an argument, as a write takes them from memory. -/
theorem bytesOf_arg (msg : Argument) :
    bytesOf (BitVec.ofNat 64 msg.text.length).toNat (fun i => msg.text.getD i 0) = msg.text := by
  have hshort := msg.short
  have hnat : (BitVec.ofNat 64 msg.text.length).toNat = msg.text.length := by
    rw [BitVec.toNat_ofNat]
    omega
  rw [hnat, bytesOf]
  refine List.ext_getElem (by simp) fun i hi hi' => ?_
  simp [List.getElem_map, List.getElem_range, List.getD_eq_getElem?_getD, hi']

/-- A sender that has written has written its message. -/
theorem SenderFailed.wrote {error : ℤ} (h : SenderFailed device deviceFile channel msg error own)
    (he : e ∈ own) : ∃ exit, Wrote device deviceFile channel msg e exit := by
  cases h with
  | unsent hwrote hexit => exact ⟨_, List.mem_singleton.mp he ▸ hwrote⟩
  | _ => cases he

theorem SenderStage.wrote (h : SenderStage steady device deviceFile channel msg p file own)
    (he : e ∈ own) : ∃ exit, Wrote device deviceFile channel msg e exit := by
  cases h with
  | failed text file hone hfailed => exact SenderFailed.wrote hfailed he
  | leaving file hone hfailed hreports => exact SenderFailed.wrote hfailed he
  | sent fd file hwrote => exact ⟨_, List.mem_singleton.mp he ▸ hwrote⟩
  | gone errno file hleft =>
    cases hleft with
    | unopened => cases he
    | failed hfailed hreports => exact SenderFailed.wrote hfailed he
    | sent hwrote => exact ⟨_, List.mem_singleton.mp he ▸ hwrote⟩
  | _ => cases he

/-- A reader that has read has made a read. -/
theorem ReaderFailed.fetched {error : ℤ} (h : ReaderFailed device deviceFile channel error own)
    (he : e ∈ own) : ∃ exit bytes, Fetched device deviceFile channel e exit bytes := by
  cases h with
  | missed hfetched hexit => exact ⟨_, _, List.mem_singleton.mp he ▸ hfetched⟩
  | _ => cases he

theorem ReaderStage.fetched (h : ReaderStage steady device deviceFile channel p file own)
    (he : e ∈ own) : ∃ exit bytes, Fetched device deviceFile channel e exit bytes := by
  cases h with
  | failed text file hone hfailed => exact ReaderFailed.fetched hfailed he
  | leaving file hone hfailed hreports => exact ReaderFailed.fetched hfailed he
  | got fd file hfetched hexit => exact ⟨_, _, List.mem_singleton.mp he ▸ hfetched⟩
  | closed file hfetched hexit => exact ⟨_, _, List.mem_singleton.mp he ▸ hfetched⟩
  | unprinted errno file hfetched hexit => exact ⟨_, _, List.mem_singleton.mp he ▸ hfetched⟩
  | gone fd other errno file hleft =>
    cases hleft with
    | unopened => cases he
    | failed hfailed hreports => exact ReaderFailed.fetched hfailed he
    | got hfetched hexit => exact ⟨_, _, List.mem_singleton.mp he ▸ hfetched⟩
  | _ => cases he

/-- A sender that has ended. -/
theorem SenderStage.left (h : SenderStage steady device deviceFile channel msg p file own)
    (hexit : p.program = .exit status) :
    SenderLeft steady device deviceFile channel msg status own := by
  cases h with
  | main name =>
    rw [senderMain, rejects_eq] at hexit
    cases hexit
  | gone errno file hleft =>
    cases hexit
    exact hleft
  | _ => cases hexit

/-- A reader that has ended. -/
theorem ReaderStage.left (h : ReaderStage steady device deviceFile channel p file own)
    (hexit : p.program = .exit status) :
    ReaderLeft steady device deviceFile channel status p.output own := by
  cases h with
  | main name =>
    rw [readerMain, rejects_eq] at hexit
    cases hexit
  | gone fd other errno file hleft =>
    cases hexit
    exact hleft
  | _ => cases hexit

/-- A program with the wrong number of arguments has ended with status 1. -/
theorem Misused.left {request : Syscall} {output : List Byte} (h : Misused request output p)
    (hexit : p.program = .exit status) : status = 1 ∧ p.output = output := by
  cases h with
  | main => cases hexit
  | gone errno =>
    cases hexit
    exact ⟨rfl, rfl⟩

/-- An error that is a positive number below 256 makes such a status. -/
theorem Reports.bounds {error : ℤ} (h : Reports steady error status) (hpos : 0 < error)
    (hsmall : error < 256) : 0 < status ∧ status < 256 := by
  rcases h with rfl | ⟨-, hbounds⟩
  · exact ⟨hpos, hsmall⟩
  · exact hbounds

/-- A write that went through put its bytes on its channel. -/
theorem written_eq (h : writtenBy minor k e = some bytes) :
    ∃ length user answers, e.call = .write length (some user) answers ∧ e.reply = .written .done ∧
      e.target.minor = minor ∧ channelOf e.target = k ∧ bytesOf length.toNat user = bytes := by
  unfold writtenBy at h
  split at h
  · next length user answers hcall hreply =>
    split at h
    · next htarget =>
      exact ⟨length, user, answers, hcall, hreply, htarget.1, htarget.2, Option.some.inj h⟩
    · cases h
  · cases h

/-- A read of a whole message into a buffer of full size. -/
theorem read_found {found : Message} {msg : List Byte} (hseen : seen found = whole msg)
    (hlength : found.msgLength.toNat ≤ bufLen) {exit : ReadExit} {tmp : Bool} {left : ℕ}
    (h : (exit, bytes) = found.read (BitVec.ofNat 64 bufLen) true tmp left) :
    exit = .noTmp ∨ exit = .badCopy ∨ exit.code = msg.length ∧ bytes = msg := by
  have hfits : ¬(BitVec.ofNat 64 bufLen < found.msgLength.signExtend 64 ∨ true = false) := by
    rintro (hshort | hfalse)
    · rw [BitVec.lt_def, extended_length hlength] at hshort
      change bufLen < _ at hshort
      omega
    · cases hfalse
  have hmsg : msg.length ≤ bufLen := by
    have htext : found.text = msg := (Prod.mk.inj hseen).1
    have htake := List.length_take_le found.msgLength.toNat found.stored
    rw [← htext, Message.text]
    omega
  rw [Message.read, if_neg hfits] at h
  cases tmp with
  | false => exact .inl (Prod.mk.inj h).1
  | true =>
    by_cases hleft : left = 0
    · subst hleft
      have hwhole := read_whole hseen hlength (BitVec.ofNat 64 bufLen)
      rw [Message.read, if_neg hfits, ← h, expected, if_neg (by change ¬bufLen < _; omega)] at hwhole
      exact .inr (.inr (Prod.mk.inj hwhole))
    · rw [if_neg hleft] at h
      exact .inr (.inl (Prod.mk.inj h).1)

section Histories

variable [DecidableEq Addr] [DecidableEq Pid]

/-- A list that is there stays, and a file that opens has one. -/
theorem devices_step (hstep : Step s e s') :
    (∀ i, (s.devices i).isSome = true → (s'.devices i).isSome = true) ∧
      ∀ minor header exit, e.call = .open minor header → e.reply = .opened exit →
        ¬exit.code < 0 → (s'.devices minor.succ).isSome = true := by
  cases hstep with
  | «open» minor header hcall htarget hclosed hpossible hperform =>
    cases hdevice : s.devices minor.succ with
    | some lst =>
      simp only [performOpen, deviceOpen, hdevice, Prod.mk.injEq] at hperform
      obtain ⟨hreply, rfl⟩ := hperform
      refine ⟨fun i hi => hi, fun minor' header' exit hcall' hreply' hcode => ?_⟩
      obtain ⟨rfl, rfl⟩ := Call.open.inj (hcall.symm.trans hcall')
      exact Option.isSome_iff_exists.mpr ⟨lst, hdevice⟩
    | none =>
      cases header with
      | none =>
        simp only [performOpen, deviceOpen, hdevice, Prod.mk.injEq] at hperform
        obtain ⟨hreply, rfl⟩ := hperform
        refine ⟨fun i hi => hi, fun minor' header' exit hcall' hreply' hcode => ?_⟩
        rw [← Reply.opened.inj (hreply.trans hreply')] at hcode
        exact absurd (by decide) hcode
      | some block =>
        simp only [performOpen, deviceOpen, hdevice, Prod.mk.injEq] at hperform
        obtain ⟨hreply, rfl⟩ := hperform
        refine ⟨fun i hi => ?_, fun minor' header' exit hcall' hreply' hcode => ?_⟩
        · by_cases hsucc : i = minor.succ
          · rw [hsucc]
            simp
          · simpa [Function.update_of_ne hsucc] using hi
        · obtain ⟨rfl, -⟩ := Call.open.inj (hcall.symm.trans hcall')
          simp
  | on hfile hpossible hperform =>
    obtain ⟨f, target, call, reply⟩ := e
    cases call with
    | «open» minor header => cases hperform
    | ioctl command param =>
      simp only [performOn, Except.ok.injEq, Prod.mk.injEq] at hperform
      obtain ⟨-, rfl⟩ := hperform
      exact ⟨fun i hi => hi, fun minor header exit hcall => by cases hcall⟩
    | read length buffer tmp left =>
      obtain ⟨⟨exit, bytes, memory⟩, hread, hresult⟩ := bind_eq_ok hperform
      cases hresult
      exact ⟨fun i hi => hi, fun minor header exit hcall => by cases hcall⟩
    | write length buffer answers =>
      obtain ⟨⟨exit, memory⟩, hwrite, hresult⟩ := bind_eq_ok hperform
      cases hresult
      exact ⟨fun i hi => hi, fun minor header exit hcall => by cases hcall⟩

/-- The minor of an open file has a list. -/
theorem opened_file (run : Run Step start events s) :
    ∀ f file, s.files f = some file → (s.devices file.minor.succ).isSome = true := by
  induction run with
  | nil =>
    intro f file hfile
    cases hfile
  | @snoc events s e s' run hstep ih =>
    intro f file hfile
    obtain ⟨hkept, hopened⟩ := devices_step hstep
    by_cases hf : f = e.file
    · subst hf
      rcases files_step hstep with ⟨minor, header, exit, hcall, hreply, hfiles⟩ |
        ⟨htarget, ⟨command, param, -, -, hfiles⟩ | ⟨hfiles, -⟩⟩
      · rw [hfiles] at hfile
        split at hfile
        · exact hkept _ (ih _ _ hfile)
        · next hcode =>
          rw [Function.update_self] at hfile
          obtain rfl := Option.some.inj hfile
          exact hopened minor header exit hcall hreply hcode
      · rw [hfiles, Function.update_self] at hfile
        obtain rfl := Option.some.inj hfile
        have hminor : (deviceIoctl e.target command param).2.minor = e.target.minor := by
          unfold deviceIoctl
          split <;> rfl
        rw [hminor]
        exact hkept _ (ih _ _ htarget)
      · rw [hfiles] at hfile
        exact hkept _ (ih _ _ hfile)
    · rw [files_of_ne hstep hf] at hfile
      exact hkept _ (ih _ _ hfile)

/-- Where reads are harmless, the minor of a read is settled. -/
theorem settled_of_harmless (run : Run Step start before s)
    (hlate : ∀ d ∈ before, failedLate d = false)
    (hheaders : HeadersHarmless (before ++ e :: after)) {length : BitVec 64} {buffer : Bool}
    {tmp : Option (Addr × (ℕ → Byte))} {left : ℕ} (hcall : e.call = .read length buffer tmp left) :
    Settled (storeAfter before) (garbageAfter before) e.target.minor := by
  rcases hheaders with hclear | hcovered
  · exact .inl (garbage_clear (fun d hd => hclear d (List.mem_append_left _ hd)) _)
  · obtain ⟨d, hd, k, hwritten⟩ := hcovered before e after rfl ⟨length, buffer, tmp, left, hcall⟩
    have hsome : newest (writtenBy e.target.minor k) before ≠ none := fun hnone => by
      rw [newest_eq_none.mp hnone d hd] at hwritten
      cases hwritten
    have hmessage := message_newest run hlate e.target.minor k
    obtain ⟨bytes, hbytes⟩ := Option.ne_none_iff_exists'.mp hsome
    rw [hbytes, Option.map_some] at hmessage
    obtain ⟨found, hfound, -⟩ := Option.map_eq_some_iff.mp hmessage
    unfold message at hfound
    obtain ⟨slot, hslot, hk⟩ := Option.bind_eq_some_iff.mp hfound
    exact .inr ⟨slot, k, found, hslot, hk⟩

/-- A reader's read finds what was written newest on its channel, or nothing;
it may fail for want of memory or at its copy. -/
theorem read_newest (run : Run Step start (before ++ e :: after) s)
    (hlate : ∀ d ∈ before, failedLate d = false)
    (hheaders : HeadersHarmless (before ++ e :: after)) {exit : ReadExit}
    (hfetched : Fetched device deviceFile channel e exit bytes) :
    match newest (writtenBy e.target.minor (slotArg channel)) before with
    | none => exit = .wouldBlock
    | some msg => exit = .noTmp ∨ exit = .badCopy ∨ exit.code = msg.length ∧ bytes = msg := by
  obtain ⟨middle, run, hrest⟩ := run.split
  obtain ⟨next, hstep, -⟩ := hrest.first
  obtain ⟨tmp, left, hcall⟩ := hfetched.call
  have hrep := run_represents run
  obtain ⟨cells, hlayout⟩ := id hrep
  obtain ⟨-, hallows⟩ := Represents.step hrep hstep
  simp only [Store.Allows, hcall] at hallows
  obtain ⟨exit', bytes', hreply, hresult⟩ := hallows
  obtain ⟨rfl, rfl⟩ := Reply.read.inj (hfetched.reply.symm.trans hreply)
  have hdemand := hresult (settled_of_harmless run hlate hheaders hcall)
  have hopened := opened_file run _ _ (files_read hstep hcall).1
  obtain ⟨lst, hlst⟩ := Option.isSome_iff_exists.mp hopened
  have hslot : storeAfter before e.target.minor = some (lookup (cells e.target.minor)) := by
    rw [hlayout.opened, hlst, Option.map_some]
  have hchannel : channelOf e.target = slotArg channel := by
    rw [channelOf, hfetched.set, slotArg]
  have hnewest := message_newest run hlate e.target.minor (slotArg channel)
  have hmessage : message (storeAfter before) e.target.minor (slotArg channel) =
      lookup (cells e.target.minor) (slotArg channel) := by
    rw [message, hslot, Option.bind_some]
  rw [Store.read, if_neg (by rw [hfetched.set]; exact hfetched.nonzero), hslot] at hdemand
  dsimp only at hdemand
  rw [hchannel] at hdemand
  cases hfound : lookup (cells e.target.minor) (slotArg channel) with
  | none =>
    rw [hmessage, hfound, Option.map_none] at hnewest
    rw [Option.map_eq_none_iff.mp hnewest.symm]
    rw [hfound] at hdemand
    exact (Prod.mk.inj hdemand).1
  | some found =>
    rw [hmessage, hfound, Option.map_some] at hnewest
    obtain ⟨msg, hmsg, hwhole⟩ := Option.map_eq_some_iff.mp hnewest.symm
    rw [hmsg]
    rw [hfound] at hdemand
    have hvalid := message_valid hlayout (hmessage.trans hfound)
    exact read_found hwhole.symm hvalid.2 hdemand

/-- A sender's write is rejected for its size alone, fails for want of memory
or at its copy, or goes through. -/
theorem write_ends (run : Run Step start (before ++ e :: after) s) {exit : WriteExit}
    (hwrote : Wrote device deviceFile channel msg e exit) :
    (exit = .badSize ∧ (msg.text.length = 0 ∨ bufLen < msg.text.length)) ∨
      (0 < msg.text.length ∧ msg.text.length ≤ bufLen ∧
        (exit = .noNode ∨ exit = .noTmp ∨ exit = .badCopy ∨ exit = .done)) := by
  obtain ⟨middle, run, hrest⟩ := run.split
  obtain ⟨next, hstep, -⟩ := hrest.first
  obtain ⟨answers, hcall⟩ := hwrote.call
  have hrep := run_represents run
  obtain ⟨cells, hlayout⟩ := id hrep
  obtain ⟨-, hallows⟩ := Represents.step hrep hstep
  simp only [Store.Allows, hcall] at hallows
  have hexit := Reply.written.inj (hwrote.reply.symm.trans hallows)
  have hshort := msg.short
  have hnat : (BitVec.ofNat 64 msg.text.length).toNat = msg.text.length := by
    rw [BitVec.toNat_ofNat]
    omega
  rw [Store.writeExit] at hexit
  by_cases hsize : bufLen < (BitVec.ofNat 64 msg.text.length).toNat ∨
      BitVec.ofNat 64 msg.text.length = 0
  · rw [if_pos hsize] at hexit
    refine .inl ⟨hexit, ?_⟩
    rcases hsize with hlong | hempty
    · exact .inr (hnat ▸ hlong)
    · rw [hempty] at hnat
      exact .inl hnat.symm
  · have hempty : msg.text.length ≠ 0 := fun h => hsize (.inr (by rw [h]; rfl))
    have hlong : msg.text.length ≤ bufLen := by
      rw [← hnat]
      exact not_lt.mp fun h => hsize (.inl h)
    refine .inr ⟨Nat.pos_of_ne_zero hempty, hlong, ?_⟩
    have hopened := opened_file run _ _ (files_write hstep hcall).1
    obtain ⟨lst, hlst⟩ := Option.isSome_iff_exists.mp hopened
    have hslot : storeAfter before e.target.minor = some (lookup (cells e.target.minor)) := by
      rw [hlayout.opened, hlst, Option.map_some]
    rw [if_neg hsize, if_neg (by rw [hwrote.set]; exact hwrote.nonzero), hslot] at hexit
    simp only [Option.isNone_some, Bool.false_eq_true, if_false] at hexit
    split at hexit
    · exact .inl hexit
    · split at hexit
      · exact .inr (.inl hexit)
      · split at hexit
        · exact .inr (.inr (.inl hexit))
        · exact .inr (.inr (.inr hexit))

/-- Every message on a channel was sent there by a sender. -/
theorem sent_by (run : Run (Move steady device) (boot jobs) labels w) (he : e ∈ eventsOf labels)
    (hwritten : writtenBy minor k e = some bytes) : Sends device minor k bytes (jobs e.file) := by
  obtain ⟨length, user, answers, hcall, hreply, hminor, hk, hbytes⟩ := written_eq hwritten
  have hplaced := run_placed run e.file
  have hown := mem_transfers he (by rw [moves, hcall])
  generalize jobs e.file = job at hplaced
  unfold Placed at hplaced
  split at hplaced
  · next name deviceFile channel msg =>
    obtain ⟨exit, hwrote⟩ := SenderStage.wrote hplaced hown
    obtain ⟨answers', hcall'⟩ := hwrote.call
    obtain ⟨rfl, huser, rfl⟩ := Call.write.inj (hcall.symm.trans hcall')
    obtain rfl := Option.some.inj huser
    refine ⟨hminor ▸ hwrote.minor, ?_, ?_⟩
    · rw [slotArg, ← hwrote.set]
      exact hk
    · rw [← hbytes]
      exact (bytesOf_arg msg).symm
  · next name deviceFile channel =>
    obtain ⟨exit, bytes, hfetched⟩ := ReaderStage.fetched hplaced hown
    obtain ⟨tmp, left, hcall'⟩ := hfetched.call
    cases hcall.symm.trans hcall'
  · rw [hplaced.2] at hown
    cases hown
  · rw [hplaced.2] at hown
    cases hown

/-- What the read of a reader found. -/
theorem fetched_newest (run : Run (Move steady device) (boot jobs) labels w)
    (hlate : ∀ e ∈ eventsOf labels, failedLate e = false)
    (hheaders : HeadersHarmless (eventsOf labels)) (he : e ∈ eventsOf labels) {exit : ReadExit}
    (hfetched : Fetched device deviceFile channel e exit bytes) :
    ∃ before after, eventsOf labels = before ++ e :: after ∧
      match newest (writtenBy e.target.minor (slotArg channel)) before with
      | none => exit = .wouldBlock
      | some msg => (∃ sender, Sends device e.target.minor (slotArg channel) msg (jobs sender)) ∧
          (exit = .noTmp ∨ exit = .badCopy ∨ exit.code = msg.length ∧ bytes = msg) := by
  obtain ⟨before, after, hsplit⟩ := List.append_of_mem he
  refine ⟨before, after, hsplit, ?_⟩
  have hrun := driver_run run
  rw [hsplit] at hrun hheaders hlate
  have hnewest := read_newest hrun (fun d hd => hlate d (List.mem_append_left _ hd)) hheaders
    hfetched
  cases hfound : newest (writtenBy e.target.minor (slotArg channel)) before with
  | none =>
    rw [hfound] at hnewest
    exact hnewest
  | some msg =>
    rw [hfound] at hnewest
    obtain ⟨d, hd, hwritten⟩ := newest_mem hfound
    exact ⟨⟨d.file, sent_by run (hsplit ▸ List.mem_append_left _ hd) hwritten⟩, hnewest⟩

/-- A reader that has ended was started with the wrong number of arguments and
printed its usage, or it has never come to its read and printed nothing, or its
read found the message sent newest to its minor and its channel. It has then
printed that message whole, or nothing if the read failed for want of memory or
at its copy; and where nobody had sent anything it has printed nothing. -/
theorem reader_prints_newest (run : Run (Move steady device) (boot jobs) labels w)
    (hlate : ∀ e ∈ eventsOf labels, failedLate e = false)
    (hheaders : HeadersHarmless (eventsOf labels)) {pid : Pid} (hjob : jobs pid = .reader args)
    (hexit : (w.process pid).program = .exit status) :
    (args.length ≠ 3 ∧ status = 1 ∧ (w.process pid).output = usage) ∨
      ∃ name deviceFile channel, args = [name, deviceFile, channel] ∧
        ((transfersOf pid (eventsOf labels) = [] ∧ (w.process pid).output = [] ∧
            (status = 1 ∨ Reports steady einval status ∧ channelArg channel = 0 ∨
              device deviceFile.text = none ∧ 0 < status ∧ status < 256)) ∨
          ∃ minor before e after, device deviceFile.text = some minor ∧
            eventsOf labels = before ++ e :: after ∧ e.file = pid ∧
            (∃ exit bytes, e.reply = .read exit bytes) ∧
            match newest (writtenBy minor (slotArg channel)) before with
            | none => Reports steady ewouldblock status ∧ (w.process pid).output = []
            | some message =>
              (∃ sender, Sends device minor (slotArg channel) message (jobs sender)) ∧
                (status = 0 ∧ (w.process pid).output = message ∨
                  Reports steady enospc status ∧ (w.process pid).output = [])) := by
  have hplaced := run_placed run pid
  rw [hjob] at hplaced
  unfold Placed at hplaced
  split at hplaced
  · cases ‹Job.reader args = _›
  · next name deviceFile channel hargs =>
    obtain rfl := Job.reader.inj hargs
    refine .inr ⟨_, _, _, rfl, ?_⟩
    have hleft := ReaderStage.left hplaced hexit
    generalize hoption : transfersOf pid (eventsOf labels) = own at hleft ⊢
    generalize (w.process pid).output = output at hleft ⊢
    cases hleft with
    | unopened => exact .inl ⟨rfl, rfl, .inl rfl⟩
    | failed hfailed hreports =>
      cases hfailed with
      | refused hzero => exact .inl ⟨rfl, rfl, .inr (.inl ⟨hreports, hzero⟩)⟩
      | strange hdevice hpos hsmall =>
        exact .inl ⟨rfl, rfl, .inr (.inr ⟨hdevice, Reports.bounds hreports hpos hsmall⟩)⟩
      | @missed e exit bytes hfetched hneg =>
        obtain ⟨he, hpid⟩ := transfers_mem (hoption ▸ List.mem_singleton_self e)
        obtain ⟨before, after, hsplit, hnewest⟩ := fetched_newest run hlate hheaders he hfetched
        refine .inr ⟨_, before, e, after, hfetched.minor, hsplit, hpid, ⟨_, _, hfetched.reply⟩, ?_⟩
        cases hfound : newest (writtenBy e.target.minor (slotArg channel)) before with
        | none =>
          rw [hfound] at hnewest
          rw [hnewest] at hreports
          exact ⟨hreports, rfl⟩
        | some msg =>
          rw [hfound] at hnewest
          refine ⟨hnewest.1, .inr ⟨?_, rfl⟩⟩
          rcases hnewest.2 with rfl | rfl | ⟨hcode, -⟩
          · exact hreports
          · exact hreports
          · omega
    | @got e exit bytes hfetched hpos =>
      obtain ⟨he, hpid⟩ := transfers_mem (hoption ▸ List.mem_singleton_self e)
      obtain ⟨before, after, hsplit, hnewest⟩ := fetched_newest run hlate hheaders he hfetched
      refine .inr ⟨_, before, e, after, hfetched.minor, hsplit, hpid, ⟨_, _, hfetched.reply⟩, ?_⟩
      cases hfound : newest (writtenBy e.target.minor (slotArg channel)) before with
      | none =>
        rw [hfound] at hnewest
        rw [hnewest] at hpos
        exact absurd hpos (by decide)
      | some msg =>
        rw [hfound] at hnewest
        refine ⟨hnewest.1, .inl ⟨rfl, ?_⟩⟩
        rcases hnewest.2 with hexit | hexit | ⟨hcode, rfl⟩
        · rw [hexit] at hpos
          exact absurd hpos (by decide)
        · rw [hexit] at hpos
          exact absurd hpos (by decide)
        · rw [printed, hcode, Int.toNat_natCast, List.take_left]
  · cases ‹Job.reader args = _›
  · next hthree hargs =>
    obtain rfl := Job.reader.inj hargs
    refine .inl ⟨fun hlength => ?_, Misused.left hplaced.1 hexit⟩
    obtain ⟨name, deviceFile, channel, rfl⟩ := List.length_eq_three.mp hlength
    exact hthree _ _ _ rfl

/-- A call that puts no message on any channel leaves every message as it was. -/
theorem messages_kept (run : Run Step start (before ++ e :: after) s) (hlate : failedLate e = false)
    (hsilent : ∀ minor k, writtenBy minor k e = none) (minor : Fin 256) (k : BitVec 32) :
    (message (storeAfter (before ++ [e])) minor k).map seen =
      (message (storeAfter before) minor k).map seen := by
  obtain ⟨middle, run, hrest⟩ := run.split
  obtain ⟨next, hstep, -⟩ := hrest.first
  obtain ⟨-, hallows⟩ := Represents.step (run_represents run) hstep
  rw [storeAfter_snoc, message_record hallows hlate, hsilent, Option.map_none, Option.none_or]

/-- A process that has put no message on any channel has left them all alone. -/
theorem keepsMessages (run : Run (Move steady device) (boot jobs) labels w)
    (hlate : ∀ e ∈ eventsOf labels, failedLate e = false) {pid : Pid}
    (hfailed : ∀ e ∈ transfersOf pid (eventsOf labels), e.reply ≠ .written .done) :
    KeepsMessages pid (eventsOf labels) := by
  intro before e after hsplit hpid
  have he : e ∈ eventsOf labels := hsplit ▸ List.mem_append_right _ List.mem_cons_self
  refine messages_kept (hsplit ▸ driver_run run) (hlate e he) fun minor k => ?_
  by_contra hwritten
  obtain ⟨bytes, hbytes⟩ := Option.ne_none_iff_exists'.mp hwritten
  obtain ⟨length, user, answers, hcall, hreply, -⟩ := written_eq hbytes
  have hmem := mem_transfers he (by rw [moves, hcall])
  rw [hpid] at hmem
  exact hfailed e hmem hreply

/-- A sender that has ended with status 0 has put its whole message on its
channel. One that has ended with another status has left every message as it
was with each of its calls, and the status says why: the wrong number of
arguments, a device that could not be opened, a channel argument that stands
for zero, a file that is no slot, a message that is empty or too long, or no
memory for a new channel. -/
theorem sender_ends (run : Run (Move steady device) (boot jobs) labels w)
    (hlate : ∀ e ∈ eventsOf labels, failedLate e = false) {pid : Pid}
    (hjob : jobs pid = .sender args) (hexit : (w.process pid).program = .exit status) :
    (args.length ≠ 4 ∧ status = 1 ∧ KeepsMessages pid (eventsOf labels)) ∨
      ∃ name deviceFile channel msg, args = [name, deviceFile, channel, msg] ∧
        ((status = 0 ∧ ∃ minor before e after, device deviceFile.text = some minor ∧
            eventsOf labels = before ++ e :: after ∧ e.file = pid ∧
            writtenBy minor (slotArg channel) e = some msg.text ∧
            0 < msg.text.length ∧ msg.text.length ≤ bufLen) ∨
          (0 < status ∧ status < 256 ∧ KeepsMessages pid (eventsOf labels) ∧
            (status = ebadf ∨ Reports steady einval status ∧ channelArg channel = 0 ∨
              device deviceFile.text = none ∨
              Reports steady emsgsize status ∧
                (msg.text.length = 0 ∨ bufLen < msg.text.length) ∨
              Reports steady enospc status))) := by
  have hplaced := run_placed run pid
  have hkept : (∀ e ∈ transfersOf pid (eventsOf labels), e.reply ≠ .written .done) →
      KeepsMessages pid (eventsOf labels) := keepsMessages run hlate
  rw [hjob] at hplaced
  unfold Placed at hplaced
  split at hplaced
  · next name deviceFile channel msg hargs =>
    obtain rfl := Job.sender.inj hargs
    refine .inr ⟨_, _, _, _, rfl, ?_⟩
    have hleft := SenderStage.left hplaced hexit
    generalize hoption : transfersOf pid (eventsOf labels) = own at hleft hkept
    cases hleft with
    | unopened => exact .inr ⟨by decide, by decide, hkept (by simp), .inl rfl⟩
    | failed hfailed hreports =>
      cases hfailed with
      | refused hzero =>
        obtain ⟨hpos, hsmall⟩ := Reports.bounds hreports (by decide) (by decide)
        exact .inr ⟨hpos, hsmall, hkept (by simp), .inr (.inl ⟨hreports, hzero⟩)⟩
      | strange hdevice herror hbound =>
        obtain ⟨hpos, hsmall⟩ := Reports.bounds hreports herror hbound
        exact .inr ⟨hpos, hsmall, hkept (by simp), .inr (.inr (.inl hdevice))⟩
      | @unsent e exit hwrote hfailed =>
        obtain ⟨he, hpid⟩ := transfers_mem (hoption ▸ List.mem_singleton_self e)
        obtain ⟨before, after, hsplit⟩ := List.append_of_mem he
        have hnot : ∀ d ∈ [e], d.reply ≠ .written .done := by
          intro d hd hreply
          rw [List.mem_singleton.mp hd, hwrote.reply] at hreply
          exact hfailed (Reply.written.inj hreply)
        have hearly := hlate e he
        rw [failedLate, hwrote.reply] at hearly
        rcases write_ends (hsplit ▸ driver_run run) hwrote with ⟨rfl, hlength⟩ |
          ⟨-, -, rfl | rfl | rfl | rfl⟩
        · obtain ⟨hpos, hsmall⟩ := Reports.bounds hreports (by decide) (by decide)
          exact .inr ⟨hpos, hsmall, hkept hnot, .inr (.inr (.inr (.inl ⟨hreports, hlength⟩)))⟩
        · obtain ⟨hpos, hsmall⟩ := Reports.bounds hreports (by decide) (by decide)
          exact .inr ⟨hpos, hsmall, hkept hnot, .inr (.inr (.inr (.inr hreports)))⟩
        · cases hearly
        · cases hearly
        · exact absurd rfl hfailed
    | @sent e hwrote =>
      obtain ⟨he, hpid⟩ := transfers_mem (hoption ▸ List.mem_singleton_self e)
      obtain ⟨before, after, hsplit⟩ := List.append_of_mem he
      rcases write_ends (hsplit ▸ driver_run run) hwrote with ⟨hsize, -⟩ | ⟨hpos, hlong, -⟩
      · cases hsize
      · refine .inl ⟨rfl, _, before, e, after, hwrote.minor, hsplit, hpid, ?_, hpos, hlong⟩
        obtain ⟨answers, hcall⟩ := hwrote.call
        rw [writtenBy, hcall, hwrote.reply]
        dsimp only
        rw [if_pos ⟨rfl, by rw [channelOf, hwrote.set, slotArg]⟩, bytesOf_arg]
  · cases ‹Job.sender args = _›
  · next hfour hargs =>
    obtain rfl := Job.sender.inj hargs
    refine .inl ⟨fun hlength => ?_, (Misused.left hplaced.1 hexit).1, hkept fun e he => ?_⟩
    · obtain ⟨name, rest, rfl⟩ := List.exists_cons_of_length_eq_add_one hlength
      obtain ⟨deviceFile, channel, msg, rfl⟩ := List.length_eq_three.mp (Nat.succ.inj hlength)
      exact hfour _ _ _ _ rfl
    · rw [hplaced.2] at he
      cases he
  · cases ‹Job.sender args = _›

end Histories

/-- A short argument. -/
def arg (c : Byte) : Argument := ⟨[c], (by decide : 1 < 131072)⟩

/-- One sender sends an A to channel 5 and one reader reads channel 5. -/
def exchangeJobs : Bool → Job
  | false => .sender [arg 0x73, arg 0x64, arg 0x35, arg 0x41]
  | true => .reader [arg 0x72, arg 0x64, arg 0x35]

/-- There is one device. -/
def onlyDevice : List Byte → Option (Fin 256) := fun _ => some 0

/-- The sender goes first. -/
def exchange : List (Bool × Option (Event Bool ℕ)) :=
  [] ++ [(false, some ⟨false, ⟨0, 0⟩, .open 0 (some (1, ⟨none, 7⟩)), .opened .initialised⟩)] ++
    [(false, some ⟨false, ⟨0, 0⟩, .ioctl msgSlotChannel 5, .ioctl 0⟩)] ++
    [(false, some ⟨false, ⟨0, 5⟩, .write 1 (some fun i => [0x41].getD i 0)
      ⟨some (2, ⟨0, none, 0, none⟩), some (3, fun _ => 0), some (4, fun _ => 0), 0⟩,
      .written .done⟩)] ++
    [(false, none)] ++
    [(true, some ⟨true, ⟨0, 0⟩, .open 0 none, .opened .reopened⟩)] ++
    [(true, none)] ++
    [(true, some ⟨true, ⟨0, 0⟩, .ioctl msgSlotChannel 5, .ioctl 0⟩)] ++
    [(true, some ⟨true, ⟨0, 5⟩, .read 128 true (some (4, fun _ => 0)) 0, .read (.done 1) [0x41]⟩)] ++
    [(true, none)] ++ [(true, none)]

set_option maxRecDepth 8000 in
/-- Both end with status 0, and the reader has printed the A. -/
theorem exchange_run : ∃ w, Run (Move True onlyDevice) (boot exchangeJobs) exchange w ∧
    (w.process false).program = .exit 0 ∧ (w.process true).program = .exit 0 ∧
    (w.process true).output = [0x41] := by
  refine ⟨_, .snoc (.snoc (.snoc (.snoc (.snoc (.snoc (.snoc (.snoc (.snoc (.snoc .nil
    (.driver 3 rfl (.open _ rfl) rfl (.open 0 (some (1, ⟨none, 7⟩)) rfl rfl rfl ?_ rfl)))
    (.driver 3 rfl (.ioctl _ _ ⟨3, rfl, rfl⟩) rfl (.on rfl trivial (performOn_ioctl (by decide)))))
    (.driver 3 rfl (.write _ _ ⟨3, rfl, rfl⟩) rfl (.on rfl ?_ rfl)))
    (.quiet rfl (.close ⟨3, rfl, rfl⟩)))
    (.driver 3 rfl (.open _ rfl) rfl (.open 0 none rfl rfl rfl ?_ rfl)))
    (.quiet rfl (.calloc (by decide : (0 : ℤ) ≤ 1))))
    (.driver 3 rfl (.ioctl _ _ ⟨3, rfl, rfl⟩) rfl (.on rfl trivial (performOn_ioctl (by decide)))))
    (.driver 3 rfl (.read _ _ _ ⟨3, rfl, rfl⟩) rfl (.on rfl ?_ rfl)))
    (.quiet rfl (.close ⟨3, rfl, rfl⟩)))
    (.quiet rfl (.print (by decide : (1 : ℤ) ≤ (1 : ℕ)))), rfl, rfl, rfl⟩
  · simp [Call.Possible, boot, start]
  · simp [Call.Possible, boot, start, Memory.set]
  · simp [Call.Possible]
  · intro block hblock
    cases hblock
    rfl
/-- The header of the exchange points nowhere. -/
theorem exchange_clear : HeadersClear (eventsOf exchange) := by
  intro e he minor block hcall hreply
  simp only [eventsOf, exchange, List.nil_append, List.cons_append, List.filterMap_cons,
    List.filterMap_nil, List.mem_cons, List.not_mem_nil, or_false] at he
  rcases he with rfl | rfl | rfl | rfl | rfl | rfl
  · cases hcall
    rfl
  all_goals cases hcall

/-- The reader of the exchange printed what was newest on channel 5. -/
theorem reader_prints_newest_exchange : ∃ minor before e after,
    eventsOf exchange = before ++ e :: after ∧ e.file = true ∧
      newest (writtenBy minor (slotArg (arg 0x35))) before = some [0x41] := by
  obtain ⟨w, run, -, hexit, houtput⟩ := exchange_run
  have hjob : exchangeJobs true = .reader [arg 0x72, arg 0x64, arg 0x35] := rfl
  rcases reader_prints_newest run (by decide) (.inl exchange_clear) hjob hexit with
    ⟨hlength, -⟩ | ⟨name, deviceFile, channel, hargs, ⟨-, hnone, -⟩ |
      ⟨minor, before, e, after, -, hsplit, hfile, -, hnewest⟩⟩
  · exact absurd rfl hlength
  · rw [houtput] at hnone
    cases hnone
  · cases hargs
    refine ⟨minor, before, e, after, hsplit, hfile, ?_⟩
    cases hfound : newest (writtenBy minor (slotArg (arg 0x35))) before with
    | none =>
      rw [hfound, houtput] at hnewest
      cases hnewest.2
    | some message =>
      rw [hfound, houtput] at hnewest
      rcases hnewest.2 with ⟨-, hmessage⟩ | ⟨-, hmessage⟩
      · rw [hmessage]
      · cases hmessage

/-- The sender of the exchange put its message on channel 5. -/
theorem sender_ends_exchange : ∃ minor before e after,
    eventsOf exchange = before ++ e :: after ∧ e.file = false ∧
      writtenBy minor (slotArg (arg 0x35)) e = some [0x41] := by
  obtain ⟨w, run, hexit, -⟩ := exchange_run
  have hjob : exchangeJobs false = .sender [arg 0x73, arg 0x64, arg 0x35, arg 0x41] := rfl
  rcases sender_ends run (by decide) hjob hexit with ⟨hlength, -⟩ |
    ⟨name, deviceFile, channel, msg, hargs,
      ⟨-, minor, before, e, after, -, hsplit, hfile, hwritten, -⟩ | ⟨hpos, -⟩⟩
  · exact absurd rfl hlength
  · cases hargs
    exact ⟨minor, before, e, after, hsplit, hfile, hwritten⟩
  · cases hpos

/-- The 32-bit channel of a channel argument. -/
theorem slotArg_toNat (channel : Argument) :
    ((slotArg channel).toNat : ℤ) = clamp (numberOf channel.text) % 4294967296 := by
  rw [slotArg, channelArg, strtol_eq, BitVec.toNat_setWidth, BitVec.toNat_ofInt]
  omega

/-- No channel argument is rejected before the `ioctl`, and the `ioctl` refuses
exactly those that stand for 0. Two arguments are for one 32-bit channel exactly if
the `long` values nearest to their numbers are congruent modulo 2 ^ 32. The number
of an argument is the one it spells, if it does. -/
theorem channel_arguments (first second : Argument) :
    rejects first.text = false ∧ (channelArg first = 0 ↔ numberOf first.text = 0) ∧
      (slotArg first = slotArg second ↔
        clamp (numberOf first.text) % 4294967296 = clamp (numberOf second.text) % 4294967296) ∧
      ∀ z, Spells first.text z → numberOf first.text = z := by
  refine ⟨rejects_eq _, ?_, ?_, fun z => numberOf_spells⟩
  · rw [channelArg, strtol_eq, ← BitVec.toNat_inj, BitVec.toNat_ofInt]
    unfold clamp longMin longMax
    change _ = 0 ↔ _
    split
    · omega
    · split <;> omega
  · rw [← slotArg_toNat, ← slotArg_toNat, Int.natCast_inj, BitVec.toNat_inj]

/-- Channel 4294967301 is channel 5. -/
theorem channel_arguments_alias (first second : Argument) (hfirst : Spells first.text 5)
    (hsecond : Spells second.text 4294967301) : slotArg first = slotArg second := by
  obtain ⟨-, -, halias, hnumber⟩ := channel_arguments first second
  obtain ⟨-, -, -, hnumber'⟩ := channel_arguments second first
  rw [halias, hnumber _ hfirst, hnumber' _ hsecond]
  decide

end OSCourse.MessageSlotMail
