import OSCourse.MessageSlotMessages

/-!
# Writes that fail

A failed write that is harmless is as if it had never been issued. A failed
write that is not has made a channel with a message nobody wrote, or has
given an old message a new length, and a read sees the difference.
-/

namespace OSCourse.MessageSlotFailures

open Runs MessageSlotDriver MessageSlotList MessageSlotInsert MessageSlotStore
  MessageSlotRefinement MessageSlotHistory MessageSlotMessages

variable {Addr File : Type} {s s' : State File Addr} {store : Store}
  {garbage : Fin 256 → Option Addr} {file : OpenFile} {length : BitVec 64}
  {buffer : Option (ℕ → Byte)} {answers : WriteAnswers Addr} {e : Event File Addr}
  {before : List (Event File Addr)}

/-- The store after a write that failed behind its node. -/
theorem wrote_late {exit : WriteExit} (hreached : reachedNode exit = true) (hfailed : exit ≠ .done) :
    store.wrote file length buffer answers exit =
      store.put file ⟨store.block file answers, length.setWidth 32⟩ := by
  cases exit with
  | noTmp => rfl
  | badCopy => rfl
  | done => exact absurd rfl hfailed
  | _ => cases hreached

/-- A write that is not harmless has a message of its length afterwards. -/
theorem harmful_message (hopened : (store file.minor).isSome = true) {exit : WriteExit}
    (hreached : reachedNode exit = true) (hfailed : exit ≠ .done) :
    message (store.wrote file length buffer answers exit) file.minor (channelOf file) =
      some ⟨store.block file answers, length.setWidth 32⟩ := by
  rw [wrote_late hreached hfailed, message_put hopened, if_pos ⟨rfl, rfl⟩]

/-- What a failed write that is not harmless had in front of it. -/
theorem harmful_cases (h : ¬Harmless store file length buffer answers) :
    length.toNat ≤ bufLen ∧ length ≠ 0 ∧ file.privateData ≠ 0 ∧
      (store file.minor).isSome = true ∧ ∀ found,
        message store file.minor (channelOf file) = some found →
          found.msgLength ≠ length.setWidth 32 := by
  unfold Harmless at h
  push Not at h
  obtain ⟨hsize, hzero, hchannel, _, hslot, hmessage⟩ := h
  refine ⟨by omega, hzero, hchannel, Option.isSome_iff_ne_none.mpr hslot,
    fun found hfound => ?_⟩
  rw [hfound] at hmessage
  exact hmessage

variable [DecidableEq Addr]

/-- The code and the bytes of a read. -/
def readResult (s : State File Addr) (file : OpenFile) (length : BitVec 64) (buffer : Bool)
    (tmp : Option (Addr × (ℕ → Byte))) (left : ℕ) : Except Fault (ℤ × List Byte) :=
  (deviceRead s file length buffer tmp left).map fun r => (r.1.code, r.2.1)

/-- No read tells two states apart. -/
def SameReads (s s' : State File Addr) : Prop :=
  ∀ file length buffer tmp left,
    (∀ block ∈ tmp, s.memory.heap block.1 = none ∧ s'.memory.heap block.1 = none) →
      readResult s file length buffer tmp left = readResult s' file length buffer tmp left

/-- A read of a settled minor, by the store. -/
theorem readResult_eq (h : Represents s store garbage) (hsettled : Settled store garbage file.minor)
    (length : BitVec 64) (buffer : Bool) {tmp : Option (Addr × (ℕ → Byte))} (left : ℕ)
    (htmp : ∀ block ∈ tmp, s.memory.heap block.1 = none) :
    readResult s file length buffer tmp left =
      .ok ((store.read file length buffer tmp.isSome left).1.code,
        (store.read file length buffer tmp.isSome left).2) := by
  obtain ⟨cells, hlayout⟩ := h
  rw [readResult, hlayout.deviceRead file length buffer left (hsettled.clean hlayout) htmp]
  rfl

/-- A complete read of a settled minor, by the message of its channel. -/
theorem readResult_message (h : Represents s store garbage) (hchannel : file.privateData ≠ 0)
    (hopened : (store file.minor).isSome = true) (hsettled : Settled store garbage file.minor)
    {a : Addr} (ha : s.memory.heap a = none) (contents : ℕ → Byte) :
    readResult s file (BitVec.allOnes 64) true (some (a, contents)) 0 =
      match message store file.minor (channelOf file) with
      | none => .ok (-ewouldblock, [])
      | some found => .ok (found.msgLength.toInt, found.text) := by
  obtain ⟨slot, hslot⟩ := Option.isSome_iff_exists.mp hopened
  have hfree : ∀ block ∈ some (a, contents), s.memory.heap block.1 = none := by simpa using ha
  rw [readResult_eq h hsettled _ true 0 hfree]
  have hmessage : message store file.minor (channelOf file) = slot (channelOf file) := by
    rw [message, hslot, Option.bind_some]
  simp only [Store.read, if_neg hchannel, hslot, hmessage]
  cases hfound : slot (channelOf file) with
  | none => rfl
  | some found =>
    have hlarge : ¬BitVec.allOnes 64 < found.msgLength.signExtend 64 := BitVec.not_allOnes_lt
    have htext : found.text.take found.msgLength.toNat = found.text := by
      rw [Message.text, List.take_take, Nat.min_self]
    have hread : found.read (BitVec.allOnes 64) true true 0 =
        (.done found.msgLength, found.text) := by
      rw [Message.read, if_neg (by simp only [hlarge, Bool.true_eq_false, or_self, not_false_eq_true])]
      simp only [Bool.true_eq_false, if_false, if_true, Nat.sub_zero, htext]
    simp only [Option.isSome_some, hread]
    rfl

variable [DecidableEq File]

/-- The state of a run after a failed write. -/
theorem write_step (h : Represents s store garbage) (hstep : Step s e s')
    (hcall : e.call = .write length buffer answers) :
    e.reply = .written (store.writeExit e.target length buffer answers) ∧
      Represents s' (store.wrote e.target length buffer answers
        (store.writeExit e.target length buffer answers)) garbage ∧
      (store.writeExit e.target length buffer answers ≠ .done →
        Harmless store e.target length buffer answers → s' = s) := by
  cases hstep with
  | «open» minor header hopen => rw [hopen] at hcall; cases hcall
  | on hfile hpossible hperform =>
    obtain ⟨f, target, call, reply⟩ := e
    obtain rfl : call = .write length buffer answers := hcall
    obtain ⟨cells, hlayout⟩ := h
    obtain ⟨⟨exit, memory⟩, hwrite, hresult⟩ := bind_eq_ok hperform
    cases hresult
    rcases hlayout.deviceWrite target length buffer hpossible with
      ⟨hfault, _⟩ | ⟨m', hok, hrep, hsame⟩
    · rw [hwrite] at hfault
      cases hfault
    · rw [hwrite] at hok
      cases hok
      exact ⟨rfl, hrep, fun hfailed hharmless => by rw [hsame hfailed hharmless]⟩

/-- A failed write that is not harmless is seen by a read of its channel. -/
theorem harmful_seen (h : Represents s store garbage) (hstep : Step s e s')
    (hcall : e.call = .write length buffer answers) (hfailed : e.reply ≠ .written .done)
    (hsettled : Settled store garbage e.target.minor)
    (hfree : ∃ a, s.memory.heap a = none ∧ s'.memory.heap a = none)
    (hharmful : ¬Harmless store e.target length buffer answers) : ¬SameReads s s' := by
  intro hsame
  obtain ⟨hreply, hrep, _⟩ := write_step h hstep hcall
  rw [hreply, ne_eq, Reply.written.injEq] at hfailed
  have hreached : reachedNode (store.writeExit e.target length buffer answers) = true := by
    by_contra hearly
    exact hharmful (harmless_of_early (by simpa using hearly))
  obtain ⟨hsize, hzero, hchannel, hopened, hother⟩ := harmful_cases hharmful
  have hmessage : message (store.wrote e.target length buffer answers
      (store.writeExit e.target length buffer answers)) e.target.minor (channelOf e.target) =
        some ⟨store.block e.target answers, length.setWidth 32⟩ :=
    harmful_message hopened hreached hfailed
  obtain ⟨slot, hslot⟩ : ∃ slot, store.wrote e.target length buffer answers
      (store.writeExit e.target length buffer answers) e.target.minor = some slot := by
    cases hslot : store.wrote e.target length buffer answers
      (store.writeExit e.target length buffer answers) e.target.minor with
    | none => simp [message, hslot] at hmessage
    | some slot => exact ⟨slot, rfl⟩
  have hsettled' : Settled (store.wrote e.target length buffer answers
      (store.writeExit e.target length buffer answers)) garbage e.target.minor := by
    rw [message, hslot, Option.bind_some] at hmessage
    exact .inr ⟨slot, _, _, hslot, hmessage⟩
  obtain ⟨a, ha, ha'⟩ := hfree
  have hread := readResult_message h hchannel hopened hsettled ha fun _ => 0
  have hread' := readResult_message hrep hchannel (by rw [hslot]; rfl) hsettled' ha' fun _ => 0
  rw [hsame e.target _ true _ 0 (by simpa using ⟨ha, ha'⟩), hread', hmessage] at hread
  cases hfound : message store e.target.minor (channelOf e.target) with
  | none =>
    rw [hfound] at hread
    simp only [Except.ok.injEq, Prod.mk.injEq] at hread
    have hnonneg : 0 ≤ (length.setWidth 32).toInt := by
      rw [BitVec.toInt_eq_toNat_of_lt]
      · exact Int.natCast_nonneg _
      · rw [truncated_length hsize]
        simp only [bufLen] at hsize
        omega
    rw [hread.1] at hnonneg
    exact absurd hnonneg (by decide)
  | some found =>
    rw [hfound] at hread
    simp only [Except.ok.injEq, Prod.mk.injEq] at hread
    exact hother found hfound (BitVec.eq_of_toInt_eq hread.1.symm)

/-- A failed write can be taken out of the history, with every later reply
and state as they are, if it is harmless; and if it is not, a read tells the
states before and after it apart. -/
theorem failed_write_atomic_iff (run : Run Step start before s) (hstep : Step s e s')
    (hcall : e.call = .write length buffer answers) (hfailed : e.reply ≠ .written .done) :
    (Harmless (storeAfter before) e.target length buffer answers →
      s' = s ∧ ∀ after final, Run Step s' after final → Run Step start (before ++ after) final) ∧
    (Settled (storeAfter before) (garbageAfter before) e.target.minor →
      (∃ a, s.memory.heap a = none ∧ s'.memory.heap a = none) →
        (SameReads s s' ↔ Harmless (storeAfter before) e.target length buffer answers)) := by
  have hrep := run_represents run
  obtain ⟨hreply, _, hsame⟩ := write_step hrep hstep hcall
  have hnot : (storeAfter before).writeExit e.target length buffer answers ≠ .done := by
    rwa [hreply, ne_eq, Reply.written.injEq] at hfailed
  refine ⟨fun hharmless => ?_, fun hsettled hfree => ⟨fun hreads => ?_, fun hharmless => ?_⟩⟩
  · obtain rfl := hsame hnot hharmless
    exact ⟨rfl, fun after final hafter => run.trans hafter⟩
  · by_contra hharmful
    exact harmful_seen hrep hstep hcall hfailed hsettled hfree hharmful hreads
  · rw [hsame hnot hharmless]
    exact fun _ _ _ _ _ _ => rfl

/-- One file opens a minor and sets channel 5. -/
def channelSet : List (Event Unit ℕ) :=
  [] ++ [⟨(), ⟨0, 0⟩, .open 0 (some (1, ⟨none, 7⟩)), .opened .initialised⟩] ++
    [⟨(), ⟨0, 0⟩, .ioctl msgSlotChannel 5, .ioctl 0⟩]

/-- A first write of a byte that gets its node but no temporary buffer. -/
def noBuffer : Event Unit ℕ :=
  ⟨(), ⟨0, 5⟩, .write 1 (some fun _ => 65)
    ⟨some (2, ⟨0, none, 0, none⟩), some (3, fun _ => 0), none, 0⟩, .written .noTmp⟩

set_option maxRecDepth 4000 in
/-- The write fails, and the block at 4 is free before and after. -/
theorem noBuffer_step : ∃ s s' : State Unit ℕ, Run Step start channelSet s ∧ Step s noBuffer s' ∧
    s.memory.heap 4 = none ∧ s'.memory.heap 4 = none := by
  refine ⟨_, _, .snoc (.snoc .nil
    (.open 0 (some (1, ⟨none, 7⟩)) rfl rfl rfl (by simp [Call.Possible, start]) rfl))
    (.on rfl trivial (performOn_ioctl (by decide))), .on rfl ?_ rfl, rfl, rfl⟩
  simp [Call.Possible, start, Memory.set, noBuffer]

/-- After the failed write a read returns a byte that nobody wrote. -/
theorem failed_write_not_atomic : ∃ (s s' : State Unit ℕ) (e : Event Unit ℕ),
    Run Step start channelSet s ∧ Step s e s' ∧ (∃ length buffer answers,
      e.call = .write length buffer answers) ∧ e.reply ≠ .written .done ∧ ¬SameReads s s' := by
  obtain ⟨s, s', run, hstep, hfree, hfree'⟩ := noBuffer_step
  refine ⟨s, s', noBuffer, run, hstep, ⟨_, _, _, rfl⟩, nofun, ?_⟩
  refine harmful_seen (run_represents run) hstep rfl nofun (.inl rfl) ⟨4, hfree, hfree'⟩ ?_
  simp [Harmless, noBuffer, channelSet, storeAfter, Store.record, message, bufLen]

/-- A write over the first message, of the same length, whose copy from the
user fails. -/
def badCopy : Event Unit ℕ :=
  ⟨(), ⟨0, 5⟩, .write 1 (some fun _ => 66) ⟨none, none, some (4, fun _ => 0), 1⟩, .written .badCopy⟩

set_option maxRecDepth 4000 in
/-- The first message is written, and the write over it fails. -/
theorem badCopy_step : ∃ s s' : State Unit ℕ, Run Step start firstMessage s ∧ Step s badCopy s' ∧
    s.memory.heap 4 = none ∧ s'.memory.heap 4 = none := by
  refine ⟨_, _, .snoc (.snoc (.snoc .nil
    (.open 0 (some (1, ⟨none, 7⟩)) rfl rfl rfl (by simp [Call.Possible, start]) rfl))
    (.on rfl trivial (performOn_ioctl (by decide)))) (.on rfl ?_ rfl), .on rfl ?_ rfl, rfl, rfl⟩
  · simp [Call.Possible, start, Memory.set]
  · simp [Call.Possible, start, Memory.set, badCopy]

/-- Failed writes on the two runs: the first is harmless, the second is not. -/
theorem failed_write_atomic_iff_both :
    (∃ s s' : State Unit ℕ, Run Step start firstMessage s ∧ Step s badCopy s' ∧ s' = s) ∧
      ∃ s s' : State Unit ℕ, Run Step start channelSet s ∧ Step s noBuffer s' ∧
        (SameReads s s' ↔ Harmless (storeAfter channelSet) ⟨0, 5⟩ 1 (some fun _ => 65)
          ⟨some ((2 : ℕ), ⟨0, none, 0, none⟩), some (3, fun _ => 0), none, 0⟩) := by
  constructor
  · obtain ⟨s, s', run, hstep, -, -⟩ := badCopy_step
    obtain ⟨hharmless, -⟩ := failed_write_atomic_iff run hstep rfl nofun
    refine ⟨s, s', run, hstep, (hharmless ?_).1⟩
    exact .inr (.inr (.inr (.inr (.inr rfl))))
  · obtain ⟨s, s', run, hstep, hfree, hfree'⟩ := noBuffer_step
    obtain ⟨-, hseen⟩ := failed_write_atomic_iff run hstep rfl nofun
    exact ⟨s, s', run, hstep, hseen (.inl rfl) ⟨4, hfree, hfree'⟩⟩

end OSCourse.MessageSlotFailures
