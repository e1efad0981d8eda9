import OSCourse.MessageSlotHistory

/-!
# Reads return the newest write

The message of a channel is determined by the newest successful write to the
minor and the 32-bit channel, as long as no write fails behind its node.
Reads, opens of opened minors, settings of channels and writes rejected
before they have a node leave devices and heap exactly as they were.
-/

namespace OSCourse.MessageSlotMessages

open Runs MessageSlotDriver MessageSlotList MessageSlotInsert MessageSlotStore
  MessageSlotRefinement MessageSlotHistory

variable {Addr File : Type}

/-- The bytes an event successfully writes to a channel. -/
def writtenBy (minor : Fin 256) (channelId : BitVec 32) (e : Event File Addr) :
    Option (List Byte) :=
  match e.call, e.reply with
  | .write length (some user) _, .written .done =>
    if e.target.minor = minor ∧ channelOf e.target = channelId then
      some (bytesOf length.toNat user)
    else none
  | _, _ => none

/-- The write failed at its temporary buffer or at the copy from the user. -/
def failedLate (e : Event File Addr) : Bool :=
  match e.reply with
  | .written .noTmp => true
  | .written .badCopy => true
  | _ => false

/-- The code and the bytes a read must return for the newest message. -/
def expected (newest : Option (List Byte)) (length : BitVec 64) : ℤ × List Byte :=
  match newest with
  | none => (-ewouldblock, [])
  | some msg => if length.toNat < msg.length then (-enospc, []) else (msg.length, msg)

/-- Calls that must not change what any read returns: reads, settings of
channels, opens of opened minors, and writes rejected before their node. -/
def Inert (s : State File Addr) (e : Event File Addr) : Prop :=
  match e.call with
  | .open minor _ => (s.devices minor.succ).isSome = true
  | .ioctl _ _ => True
  | .read _ _ _ _ => True
  | .write _ _ _ => ∃ exit, e.reply = .written exit ∧ reachedNode exit = false

variable {s s' : State File Addr} {store : Store} {file : OpenFile} {length : BitVec 64}
  {buffer : Option (ℕ → Byte)} {answers : WriteAnswers Addr} {e : Event File Addr}
  {events : List (Event File Addr)}

/-- Putting a message on an opened minor changes that channel alone. -/
theorem message_put (hopened : (store file.minor).isSome = true) (new : Message)
    (minor : Fin 256) (channelId : BitVec 32) :
    message (store.put file new) minor channelId =
      if minor = file.minor ∧ channelId = channelOf file then some new
      else message store minor channelId := by
  obtain ⟨slot, hslot⟩ := Option.isSome_iff_exists.mp hopened
  rw [message, message, Store.put, hslot, Option.map_some]
  by_cases hminor : minor = file.minor
  · subst hminor
    rw [Function.update_self, Option.bind_some, hslot, Option.bind_some]
    by_cases hchannel : channelId = channelOf file
    · subst hchannel
      simp
    · rw [Function.update_of_ne hchannel, if_neg (by simp [hchannel])]
  · rw [Function.update_of_ne hminor, if_neg (by simp [hminor])]

/-- A write that got as far as its node had passed the checks before. -/
theorem writeExit_reached (h : reachedNode (store.writeExit file length buffer answers) = true) :
    length.toNat ≤ bufLen ∧ file.privateData ≠ 0 ∧ buffer.isSome = true ∧
      (store file.minor).isSome = true := by
  unfold Store.writeExit at h
  split at h
  · cases h
  · split at h
    · cases h
    · split at h
      · cases h
      · rename_i hsize hchannel hbuffer
        cases hslot : store file.minor with
        | none =>
          rw [hslot] at h
          cases h
        | some slot =>
          refine ⟨by omega, hchannel, ?_, rfl⟩
          exact Option.isSome_iff_ne_none.mpr (by simpa using hbuffer)

/-- A stored message of the length the user gave reads back as written. -/
theorem text_written (hlength : length.toNat ≤ bufLen) (user : ℕ → Byte) (rest : List Byte) :
    Message.text ⟨bytesOf length.toNat user ++ rest, length.setWidth 32⟩ =
      bytesOf length.toNat user := by
  rw [Message.text, truncated_length hlength, List.take_left' (length_bytesOf ..)]

/-- What a reader sees of a message. -/
def seen (message : Message) : List Byte × BitVec 32 := (message.text, message.msgLength)

/-- What a reader should see of written bytes. -/
def whole (bytes : List Byte) : List Byte × BitVec 32 := (bytes, BitVec.ofNat 32 bytes.length)

/-- One event keeps the messages those of the newest writes. -/
theorem message_record {garbage : Fin 256 → Option Addr} (hallows : Store.Allows store garbage e)
    (hlate : failedLate e = false) (minor : Fin 256) (channelId : BitVec 32) :
    (message (Store.record store e) minor channelId).map seen =
      ((writtenBy minor channelId e).map whole).or ((message store minor channelId).map seen) := by
  obtain ⟨f, target, call, reply⟩ := e
  cases call with
  | «open» i header =>
    simp only [Store.Allows] at hallows
    subst hallows
    cases hslot : store i with
    | some slot => simp [Store.record, writtenBy]
    | none =>
      cases header with
      | none => simp [Store.record, writtenBy]
      | some block =>
        simp only [Store.record, writtenBy, Option.isSome_none, Option.isSome_some, if_true,
          Bool.false_eq_true, if_false, Option.map_none, Option.none_or, message]
        by_cases hminor : minor = i
        · subst hminor
          simp [hslot]
        · rw [Function.update_of_ne hminor]
  | ioctl command param =>
    cases reply <;> simp [Store.record, writtenBy]
  | read length buffer tmp left =>
    cases reply <;> simp [Store.record, writtenBy]
  | write length buffer answers =>
    simp only [Store.Allows] at hallows
    subst hallows
    cases hexit : store.writeExit target length buffer answers with
    | done =>
      obtain ⟨hlength, _, hbuffer, hopened⟩ := writeExit_reached (by rw [hexit]; rfl)
      obtain ⟨user, rfl⟩ := Option.isSome_iff_exists.mp hbuffer
      simp only [Store.record, Store.wrote, writtenBy, message_put hopened]
      by_cases hthis : minor = target.minor ∧ channelId = channelOf target
      · rw [if_pos hthis, if_pos ⟨hthis.1.symm, hthis.2.symm⟩]
        simp only [Option.map_some, Option.some_or, seen, whole, text_written hlength,
          length_bytesOf]
        rw [BitVec.ofNat_toNat]
      · rw [if_neg hthis, if_neg fun hthat => hthis ⟨hthat.1.symm, hthat.2.symm⟩, Option.map_none,
          Option.none_or]
    | noTmp => simp [failedLate, hexit] at hlate
    | badCopy => simp [failedLate, hexit] at hlate
    | _ => simp [Store.record, Store.wrote, writtenBy]

/-- Messages in the heap are short and their blocks full. -/
theorem message_valid {garbage : Fin 256 → Option Addr} {cells : Fin 256 → List (Cell Addr)}
    (h : Layout s store garbage cells) {minor : Fin 256} {channelId : BitVec 32} {found : Message}
    (hfound : message store minor channelId = some found) :
    found.stored.length = bufLen ∧ found.msgLength.toNat ≤ bufLen := by
  rw [message, h.opened] at hfound
  cases hdevice : s.devices minor.succ with
  | none => simp [hdevice] at hfound
  | some lst =>
    rw [hdevice, Option.map_some, Option.bind_some, lookup] at hfound
    obtain ⟨c, hc, rfl⟩ := Option.map_eq_some_iff.mp hfound
    exact h.valid minor c (List.mem_of_find?_eq_some hc)

/-- A complete read of a message that is whole. -/
theorem read_whole {found : Message} {bytes : List Byte} (hseen : seen found = whole bytes)
    (hlength : found.msgLength.toNat ≤ bufLen) (length : BitVec 64) :
    ((found.read length true true 0).1.code, (found.read length true true 0).2) =
      expected (some bytes) length := by
  simp only [seen, whole, Prod.mk.injEq] at hseen
  obtain ⟨htext, hstored⟩ := hseen
  have hshort : bytes.length ≤ bufLen := by
    rw [← htext, Message.text, List.length_take]
    omega
  have hcount : found.msgLength.toNat = bytes.length := by
    simp only [bufLen] at hshort
    rw [hstored, BitVec.toNat_ofNat, Nat.mod_eq_of_lt (by omega)]
  have hlt : length < found.msgLength.signExtend 64 ↔ length.toNat < bytes.length := by
    rw [BitVec.lt_def, extended_length hlength, hcount]
  have hcode : found.msgLength.toInt = bytes.length := by
    simp only [bufLen] at hshort
    rw [BitVec.toInt_eq_toNat_of_lt (by omega), hcount]
  simp only [Message.read, expected, hlt, Bool.true_eq_false, or_false, if_false]
  by_cases hsmall : length.toNat < bytes.length
  · rw [if_pos hsmall, if_pos hsmall]
    rfl
  · rw [if_neg hsmall, if_neg hsmall]
    simp only [if_true, ReadExit.code, hcode, Nat.sub_zero, hcount, htext, List.take_length]

variable [DecidableEq Addr] [DecidableEq File]

/-- After a run without late failures every message is that of the newest
successful write to its minor and channel. -/
theorem message_newest (run : Run Step start events s) (hlate : ∀ e ∈ events, failedLate e = false)
    (minor : Fin 256) (channelId : BitVec 32) :
    (message (storeAfter events) minor channelId).map seen =
      (newest (writtenBy minor channelId) events).map whole := by
  induction run with
  | nil => rfl
  | @snoc labels middle label final run hlast ih =>
    have hallows := (Represents.step (run_represents run) hlast).2
    rw [storeAfter_snoc, newest_snoc,
      message_record hallows (hlate label (by simp)), Option.map_or,
      ih fun e he => hlate e (List.mem_append_left _ he)]

/-- An inert call leaves the devices and the heap exactly as they were. -/
theorem inert_step (run : Run Step start events s) (hstep : Step s e s') (hinert : Inert s e) :
    s'.devices = s.devices ∧ s'.memory = s.memory := by
  cases hstep with
  | «open» minor header hcall htarget hclosed hpossible hperform =>
    simp only [Inert, hcall] at hinert
    obtain ⟨lst, hdevice⟩ := Option.isSome_iff_exists.mp hinert
    simp only [performOpen, deviceOpen, hdevice, Prod.mk.injEq] at hperform
    rw [← hperform.2]
    exact ⟨rfl, rfl⟩
  | on hfile hpossible hperform =>
    obtain ⟨f, target, call, reply⟩ := e
    obtain ⟨cells, hlayout⟩ := run_represents run
    cases call with
    | «open» minor header => cases hperform
    | ioctl command param =>
      simp only [performOn, Except.ok.injEq, Prod.mk.injEq] at hperform
      rw [← hperform.2]
      exact ⟨rfl, rfl⟩
    | read length buffer tmp left =>
      obtain ⟨⟨exit, bytes, memory⟩, hread, hresult⟩ := bind_eq_ok hperform
      obtain rfl := deviceRead_memory hpossible hread
      cases hresult
      exact ⟨rfl, rfl⟩
    | write length buffer answers =>
      obtain ⟨exit, hexit, hearly⟩ := hinert
      obtain ⟨⟨exit', memory⟩, hwrite, hresult⟩ := bind_eq_ok hperform
      simp only [Except.ok.injEq, Prod.mk.injEq] at hresult
      obtain ⟨hreply, rfl⟩ := hresult
      obtain rfl : exit' = exit := Reply.written.inj (hreply.trans hexit)
      rcases hlayout.deviceWrite target length buffer hpossible with ⟨hfault, _⟩ | ⟨m', hok, _, hsame⟩
      · rw [hwrite] at hfault
        cases hfault
      · rw [hwrite] at hok
        cases hok
        refine ⟨rfl, hsame (fun hdone => ?_) (harmless_of_early hearly)⟩
        rw [hdone] at hearly
        cases hearly

/-- The store semantics of the driver. A complete read of a channel of a minor
that has been written returns the newest successful write to the minor and
the 32-bit channel, through whichever files, or that there is none, or that
the buffer is too small; and inert calls change nothing a read looks at. -/
theorem slot_store (run : Run Step start events s)
    (hlate : ∀ e ∈ events, failedLate e = false) :
    (∀ f file length tmp contents, s.files f = some file → file.privateData ≠ 0 →
      (∃ e ∈ events, ∃ channelId, (writtenBy file.minor channelId e).isSome = true) →
      s.memory.heap tmp = none →
      ∃ exit bytes,
        performOn s f file (.read length true (some (tmp, contents)) 0) = .ok (.read exit bytes, s) ∧
          (exit.code, bytes) =
            expected (newest (writtenBy file.minor (channelOf file)) events) length) ∧
    (∀ e s', Step s e s' → Inert s e → s'.devices = s.devices ∧ s'.memory = s.memory) := by
  refine ⟨?_, fun e s' hstep hinert => inert_step run hstep hinert⟩
  rintro f file length tmp contents hfile hchannel ⟨e, he, channelId, hwritten⟩ htmp
  obtain ⟨cells, hlayout⟩ := run_represents run
  have hfirst : (message (storeAfter events) file.minor channelId).isSome = true := by
    have hsome : newest (writtenBy file.minor channelId) events ≠ none := fun hnone => by
      rw [newest_eq_none.mp hnone e he] at hwritten
      cases hwritten
    have hmessage := message_newest run hlate file.minor channelId
    rw [← Option.isSome_map (f := seen), hmessage, Option.isSome_map]
    exact Option.isSome_iff_ne_none.mpr hsome
  obtain ⟨slot, hslot⟩ : ∃ slot, storeAfter events file.minor = some slot := by
    cases hslot : storeAfter events file.minor with
    | none => simp [message, hslot] at hfirst
    | some slot => exact ⟨slot, rfl⟩
  have hsettled : Settled (storeAfter events) (garbageAfter events) file.minor := by
    obtain ⟨found, hfound⟩ := Option.isSome_iff_exists.mp hfirst
    rw [message, hslot, Option.bind_some] at hfound
    exact .inr ⟨slot, channelId, found, hslot, hfound⟩
  have hfree : ∀ block ∈ some (tmp, contents), s.memory.heap block.1 = none := by simpa using htmp
  have hread := hlayout.deviceRead file length true 0 (hsettled.clean hlayout) hfree
  have hperform : performOn s f file (.read length true (some (tmp, contents)) 0) =
      .ok (.read ((storeAfter events).read file length true true 0).1
        ((storeAfter events).read file length true true 0).2, s) := by
    rw [performOn, hread]
    rfl
  refine ⟨_, _, hperform, ?_⟩
  have hnewest := message_newest run hlate file.minor (channelOf file)
  rw [message, hslot, Option.bind_some] at hnewest
  simp only [Store.read, if_neg hchannel, hslot]
  cases hfound : slot (channelOf file) with
  | none =>
    rw [hfound, Option.map_none] at hnewest
    rw [Option.map_eq_none_iff.mp hnewest.symm]
    rfl
  | some found =>
    rw [hfound, Option.map_some] at hnewest
    obtain ⟨bytes, hbytes, hwhole⟩ := Option.map_eq_some_iff.mp hnewest.symm
    rw [hbytes]
    have hmessage : message (storeAfter events) file.minor (channelOf file) = some found := by
      rw [message, hslot, Option.bind_some, hfound]
    exact read_whole hwhole.symm (message_valid hlayout hmessage).2 length

/-- Setting a channel of a file. -/
theorem performOn_ioctl {f : File} {param : BitVec 64} (hparam : param ≠ 0) :
    performOn s f file (.ioctl msgSlotChannel param) = .ok (.ioctl 0,
      { s with files := Function.update s.files f (some { file with privateData := param }) }) := by
  rw [performOn, deviceIoctl, if_pos ⟨rfl, hparam⟩]

/-- One file opens a minor, sets channel 5 and writes one byte. -/
def firstMessage : List (Event Unit ℕ) :=
  [] ++ [⟨(), ⟨0, 0⟩, .open 0 (some (1, ⟨none, 7⟩)), .opened .initialised⟩] ++
    [⟨(), ⟨0, 0⟩, .ioctl msgSlotChannel 5, .ioctl 0⟩] ++
    [⟨(), ⟨0, 5⟩, .write 1 (some fun _ => 65)
      ⟨some (2, ⟨0, none, 0, none⟩), some (3, fun _ => 0), some (4, fun _ => 0), 0⟩,
      .written .done⟩]

set_option maxRecDepth 4000 in
/-- The message is written, and the block at 4 is free again. -/
theorem firstMessage_run : ∃ s : State Unit ℕ, Run Step start firstMessage s ∧
    s.files () = some ⟨0, 5⟩ ∧ s.memory.heap 4 = none := by
  refine ⟨_, .snoc (.snoc (.snoc .nil
    (.open 0 (some (1, ⟨none, 7⟩)) rfl rfl rfl (by simp [Call.Possible, start]) rfl))
    (.on rfl trivial (performOn_ioctl (by decide))))
    (.on rfl ?_ rfl), rfl, rfl⟩
  simp [Call.Possible, start, Memory.set]

/-- The store semantics on the first message. -/
theorem slot_store_firstMessage : ∃ s : State Unit ℕ, Run Step start firstMessage s ∧
    ∃ exit bytes, performOn s () ⟨0, 5⟩ (.read 1 true (some (4, fun _ => 0)) 0) =
      .ok (.read exit bytes, s) ∧ (exit.code, bytes) = (1, [65]) := by
  obtain ⟨s, run, hfile, hfree⟩ := firstMessage_run
  obtain ⟨hreads, -⟩ := slot_store run (by decide)
  obtain ⟨exit, bytes, hperform, hexpected⟩ := hreads () ⟨0, 5⟩ 1 4 (fun _ => 0) hfile (by decide)
    ⟨_, List.mem_append_right _ List.mem_cons_self, 5, rfl⟩ hfree
  exact ⟨s, run, exit, bytes, hperform, hexpected⟩

end OSCourse.MessageSlotMessages
