import OSCourse.MessageSlotHeaders

/-!
# Channels kept apart

Two histories that differ only in the writes to one channel of a minor are
compared by what a read of another channel of the minor returns. A channel
passes through a pointer and an unsigned long before it is compared as an
int, so the two histories read alike exactly for channels with different
low halves.
-/

namespace OSCourse.MessageSlotIsolation

open Runs MessageSlotDriver MessageSlotList MessageSlotInsert MessageSlotStore
  MessageSlotRefinement MessageSlotHistory MessageSlotMessages MessageSlotFailures
  MessageSlotHeaders

variable {Addr File : Type}

/-- What remains of the kernel's answers to a write without their addresses. -/
def anonymousAnswers (answers : WriteAnswers Addr) : WriteAnswers Unit :=
  ⟨answers.node.map fun _ => ((), ⟨0, none, 0, none⟩), answers.msg.map fun block => ((), block.2),
    answers.tmp.map fun _ => ((), fun _ => 0), answers.left⟩

/-- A call without the addresses of the blocks it was given. -/
def anonymous : Call Addr → Call Unit
  | .open minor header => .open minor (header.map fun _ => ((), ⟨none, 0⟩))
  | .ioctl command param => .ioctl command param
  | .read length buffer tmp left => .read length buffer (tmp.map fun _ => ((), fun _ => 0)) left
  | .write length buffer answers => .write length buffer (anonymousAnswers answers)

/-- What a history without the writes to a channel keeps of an event. -/
def besides (minor : Fin 256) (channel : BitVec 64) (e : Event File Addr) :
    Option (OpenFile × Call Unit) :=
  match e.call with
  | .write _ _ _ =>
    if e.target.minor = minor ∧ e.target.privateData = channel then none
    else some (e.target, anonymous e.call)
  | _ => some (e.target, anonymous e.call)

/-- Histories that differ only in writes to the first channel read alike on the
second, wherever the list of the minor is in order. -/
def Isolated (minor : Fin 256) (first second : BitVec 64) : Prop :=
  ∀ (File Addr : Type) [DecidableEq File] [DecidableEq Addr] (events events' : List (Event File Addr))
    (s s' : State File Addr) (f : File), Run Step start events s → Run Step start events' s' →
    events.filterMap (besides minor first) = events'.filterMap (besides minor first) →
    s.files f = some ⟨minor, second⟩ → s'.files f = some ⟨minor, second⟩ →
    Settled (storeAfter events) (garbageAfter events) minor →
    Settled (storeAfter events') (garbageAfter events') minor →
    ∀ length buffer tmp tmp' left, (Call.read length buffer tmp left).Possible s.memory →
      (Call.read length buffer tmp' left).Possible s'.memory → tmp.isSome = tmp'.isSome →
        readResult s ⟨minor, second⟩ length buffer tmp left =
          readResult s' ⟨minor, second⟩ length buffer tmp' left

/-- What a call does to the store. -/
def Store.perform (store : Store) (file : OpenFile) (call : Call Addr) : Store :=
  match call with
  | .open minor header =>
    if (store minor).isNone ∧ header.isSome then Function.update store minor (some fun _ => none)
    else store
  | .write length buffer answers =>
    store.wrote file length buffer answers (store.writeExit file length buffer answers)
  | _ => store

/-- The stores agree on everything but one channel of one minor. -/
structure SameBut (minor : Fin 256) (channelId : BitVec 32) (store store' : Store) : Prop where
  opened : ∀ i, (store i).isSome = (store' i).isSome
  message : ∀ i k, ¬(i = minor ∧ k = channelId) → message store i k = message store' i k

variable {store store' : Store} {garbage : Fin 256 → Option Addr} {file : OpenFile}
  {minor : Fin 256} {channelId : BitVec 32} {s s' : State File Addr}
  {events : List (Event File Addr)} {e : Event File Addr}

/-- The reply of an event says what its call does. -/
theorem record_eq_perform (hallows : Store.Allows store garbage e) :
    Store.record store e = Store.perform store e.target e.call := by
  obtain ⟨f, target, call, reply⟩ := e
  cases call with
  | «open» i header =>
    simp only [Store.Allows] at hallows
    subst hallows
    cases hslot : store i <;> cases header <;> simp [Store.record, Store.perform, hslot]
  | ioctl command param =>
    simp only [Store.Allows] at hallows
    subst hallows
    rfl
  | read length buffer tmp left =>
    obtain ⟨exit, bytes, rfl, _⟩ := hallows
    rfl
  | write length buffer answers =>
    simp only [Store.Allows] at hallows
    subst hallows
    rfl

/-- Addresses do not matter to the store. -/
theorem perform_anonymous (store : Store) (file : OpenFile) (call : Call Addr) :
    Store.perform store file (anonymous call) = Store.perform store file call := by
  cases call with
  | «open» i header => simp [Store.perform, anonymous]
  | ioctl command param => rfl
  | read length buffer tmp left => rfl
  | write length buffer answers =>
    have hexit : store.writeExit file length buffer (anonymousAnswers answers) =
        store.writeExit file length buffer answers := by
      simp only [Store.writeExit, anonymousAnswers, Option.isNone_map]
      rfl
    have hblock : store.block file (anonymousAnswers answers) = store.block file answers := by
      unfold Store.block anonymousAnswers
      cases answers.msg <;> rfl
    rw [anonymous, Store.perform, Store.perform, hexit]
    cases store.writeExit file length buffer answers <;> simp only [Store.wrote, hblock]

theorem SameBut.symm (h : SameBut minor channelId store store') :
    SameBut minor channelId store' store :=
  ⟨fun i => (h.opened i).symm, fun i k hne => (h.message i k hne).symm⟩

theorem SameBut.trans {store'' : Store} (h : SameBut minor channelId store store')
    (h' : SameBut minor channelId store' store'') : SameBut minor channelId store store'' :=
  ⟨fun i => (h.opened i).trans (h'.opened i), fun i k hne =>
    (h.message i k hne).trans (h'.message i k hne)⟩

/-- A put keeps the opened minors. -/
theorem isSome_put (store : Store) (file : OpenFile) (new : Message) (i : Fin 256) :
    (store.put file new i).isSome = (store i).isSome := by
  unfold Store.put
  by_cases hi : i = file.minor
  · subst hi
    rw [Function.update_self, Option.isSome_map]
  · rw [Function.update_of_ne hi]

/-- There is nothing to put on a minor that is not opened. -/
theorem put_unopened (hslot : store file.minor = none) (new : Message) :
    store.put file new = store := by
  rw [Store.put, hslot, Option.map_none, ← hslot, Function.update_eq_self]

/-- A put leaves other channels alone. -/
theorem message_put_of_ne (store : Store) (new : Message) {i : Fin 256} {k : BitVec 32}
    (hne : ¬(i = file.minor ∧ k = channelOf file)) :
    message (store.put file new) i k = message store i k := by
  cases hopened : store file.minor with
  | some slot => rw [message_put (by rw [hopened]; rfl), if_neg hne]
  | none => rw [put_unopened hopened]

/-- A write to the exempt channel keeps the stores the same. -/
theorem SameBut.write_left (h : SameBut file.minor (channelOf file) store store')
    (length : BitVec 64) (buffer : Option (ℕ → Byte)) (answers : WriteAnswers Addr) :
    SameBut file.minor (channelOf file)
      (Store.perform store file (.write length buffer answers)) store' := by
  have hput : ∀ new, SameBut file.minor (channelOf file) (store.put file new) store' := fun new =>
    ⟨fun i => by rw [isSome_put, h.opened], fun i k hne => by
      rw [message_put_of_ne store new hne, h.message i k hne]⟩
  rw [Store.perform]
  cases store.writeExit file length buffer answers with
  | noTmp => exact hput _
  | badCopy => exact hput _
  | done =>
    cases buffer with
    | none => exact h
    | some user => exact hput _
  | _ => exact h

/-- A write ends alike in stores with the same message on its channel. -/
theorem writeExit_congr (hopened : (store file.minor).isSome = (store' file.minor).isSome)
    (hmessage : message store file.minor (channelOf file) =
      message store' file.minor (channelOf file)) (length : BitVec 64)
    (buffer : Option (ℕ → Byte)) (answers : WriteAnswers Addr) :
    store.writeExit file length buffer answers = store'.writeExit file length buffer answers := by
  unfold Store.writeExit
  cases hslot : store file.minor with
  | none =>
    rw [hslot, Option.isSome_none] at hopened
    rw [Option.isSome_eq_false_iff.mp hopened.symm |> Option.isNone_iff_eq_none.mp]
  | some slot =>
    rw [hslot, Option.isSome_some] at hopened
    obtain ⟨slot', hslot'⟩ := Option.isSome_iff_exists.mp hopened.symm
    rw [message, hslot, message, hslot', Option.bind_some, Option.bind_some] at hmessage
    simp only [hslot', hmessage]

/-- The same call keeps the stores the same but for one channel. -/
theorem SameBut.perform (h : SameBut minor channelId store store') (file : OpenFile)
    (call : Call Addr) :
    SameBut minor channelId (Store.perform store file call) (Store.perform store' file call) := by
  cases call with
  | «open» i header =>
    have hnone : (store i).isNone = (store' i).isNone := by
      rw [← Option.not_isSome, ← Option.not_isSome, h.opened]
    simp only [Store.perform, hnone]
    split
    · constructor
      · intro j
        by_cases hj : j = i
        · rw [hj, Function.update_self, Function.update_self]
        · rw [Function.update_of_ne hj, Function.update_of_ne hj, h.opened]
      · intro j k hne
        by_cases hj : j = i
        · simp only [MessageSlotStore.message, hj, Function.update_self]
        · simp only [MessageSlotStore.message, Function.update_of_ne hj]
          exact h.message j k hne
    · exact h
  | ioctl command param => exact h
  | read length buffer tmp left => exact h
  | write length buffer answers =>
    by_cases hthis : file.minor = minor ∧ channelOf file = channelId
    · obtain ⟨rfl, rfl⟩ := hthis
      have hleft := h.write_left length buffer answers
      exact (hleft.symm.write_left length buffer answers).symm
    · have hmessage := h.message file.minor (channelOf file) hthis
      have hexit := writeExit_congr (h.opened file.minor) hmessage length buffer answers
      have hblock : store.block file answers = store'.block file answers := by
        rw [Store.block, Store.block, hmessage]
      have hput : ∀ new, SameBut minor channelId (store.put file new) (store'.put file new) := by
        intro new
        refine ⟨fun i => by rw [isSome_put, isSome_put, h.opened], fun i k hne => ?_⟩
        by_cases hik : i = file.minor ∧ k = channelOf file
        · obtain ⟨rfl, rfl⟩ := hik
          have hopened := h.opened file.minor
          cases hslot : store file.minor with
          | none =>
            rw [hslot, Option.isSome_none, eq_comm, Option.isSome_eq_false_iff,
              Option.isNone_iff_eq_none] at hopened
            rw [put_unopened hslot, put_unopened hopened, hmessage]
          | some slot =>
            rw [hslot, Option.isSome_some] at hopened
            rw [message_put (by rw [hslot]; rfl), message_put hopened.symm, hmessage]
        · rw [message_put_of_ne store new hik, message_put_of_ne store' new hik,
            h.message i k hne]
      rw [Store.perform, Store.perform, hexit]
      cases store'.writeExit file length buffer answers with
      | noTmp =>
        simp only [Store.wrote, hblock]
        exact hput _
      | badCopy =>
        simp only [Store.wrote, hblock]
        exact hput _
      | done =>
        cases buffer with
        | none => exact h
        | some user =>
          simp only [Store.wrote, hblock]
          exact hput _
      | _ => exact h

/-- The store of a history is that of its calls. -/
theorem storeAfter_besides [DecidableEq Addr] [DecidableEq File]
    (run : Run Step start events s) (minor : Fin 256) (channel : BitVec 64) :
    SameBut minor (channel.setWidth 32) (storeAfter events)
      ((events.filterMap (besides minor channel)).foldl
        (fun store kept => Store.perform store kept.1 kept.2) Store.empty) := by
  induction run with
  | nil => exact ⟨fun _ => rfl, fun _ _ _ => rfl⟩
  | @snoc events middle e final run hlast ih =>
    have hallows := (Represents.step (run_represents run) hlast).2
    rw [storeAfter_snoc, record_eq_perform hallows, List.filterMap_append, List.foldl_append]
    have hsame : SameBut minor (channel.setWidth 32)
        (Store.perform (storeAfter events) e.target e.call)
        (Store.perform ((events.filterMap (besides minor channel)).foldl
          (fun store kept => Store.perform store kept.1 kept.2) Store.empty) e.target
            (anonymous e.call)) := by
      rw [perform_anonymous]
      exact ih.perform e.target e.call
    by_cases hdropped : besides minor channel e = none
    · rw [List.filterMap_cons_none hdropped, List.filterMap_nil, List.foldl_nil]
      obtain ⟨f, target, call, reply⟩ := e
      cases call with
      | write length buffer answers =>
        simp only [besides, ite_eq_left_iff, reduceCtorEq, imp_false, not_not] at hdropped
        obtain ⟨rfl, rfl⟩ := hdropped
        exact SameBut.write_left ih length buffer answers
      | _ => cases hdropped
    · have hkept : besides minor channel e = some (e.target, anonymous e.call) := by
        unfold besides at hdropped ⊢
        split
        · split_ifs at hdropped ⊢ <;> simp_all
        · rfl
      rw [List.filterMap_cons_some hkept, List.filterMap_nil, List.foldl_cons, List.foldl_nil]
      exact hsame

/-- A read returns alike in stores with the same message on its channel. -/
theorem read_congr (hopened : (store file.minor).isSome = (store' file.minor).isSome)
    (hmessage : message store file.minor (channelOf file) =
      message store' file.minor (channelOf file)) (length : BitVec 64) (buffer tmp : Bool)
    (left : ℕ) :
    store.read file length buffer tmp left = store'.read file length buffer tmp left := by
  unfold Store.read
  cases hslot : store file.minor with
  | none =>
    rw [hslot, Option.isSome_none, eq_comm, Option.isSome_eq_false_iff,
      Option.isNone_iff_eq_none] at hopened
    rw [hopened]
  | some slot =>
    rw [hslot, Option.isSome_some] at hopened
    obtain ⟨slot', hslot'⟩ := Option.isSome_iff_exists.mp hopened.symm
    rw [message, hslot, message, hslot', Option.bind_some, Option.bind_some] at hmessage
    simp only [hslot', hmessage]

/-- Channels with different low halves are isolated. -/
theorem isolated_of_ne {first second : BitVec 64}
    (hne : first.setWidth 32 ≠ second.setWidth 32) (minor : Fin 256) :
    Isolated minor first second := by
  intro File Addr _ _ events events' s s' f run run' hsame _ _ hsettled hsettled' length buffer
    tmp tmp' left hpossible hpossible' htmp
  have hleft := storeAfter_besides run minor first
  have hright := storeAfter_besides run' minor first
  rw [← hsame] at hright
  have hstores := hleft.trans hright.symm
  rw [readResult_eq (run_represents run) hsettled length buffer left hpossible,
    readResult_eq (run_represents run') hsettled' length buffer left hpossible', htmp,
    read_congr (hstores.opened minor) (hstores.message minor (second.setWidth 32) fun heq =>
      hne heq.2.symm)]

section Aliases

variable [DecidableEq Addr] [DecidableEq File]

/-- Setting a channel is a step. -/
theorem ioctl_step {f : File} {param : BitVec 64} (hfile : s.files f = some file)
    (hparam : param ≠ 0) :
    Step s ⟨f, file, .ioctl msgSlotChannel param, .ioctl 0⟩
      { s with files := Function.update s.files f (some { file with privateData := param }) } :=
  .on hfile trivial (performOn_ioctl hparam)

/-- A write to a minor without channels is a step. -/
theorem write_first_step (h : Represents s store garbage) {f : File} (hfile : s.files f = some file)
    (hslot : store file.minor = some fun _ => none) {length : BitVec 64}
    {buffer : Option (ℕ → Byte)} {answers : WriteAnswers Addr}
    (hpossible : (Call.write length buffer answers).Possible s.memory) :
    ∃ m', Step s ⟨f, file, .write length buffer answers,
      .written (store.writeExit file length buffer answers)⟩ { s with memory := m' } := by
  obtain ⟨cells, hlayout⟩ := h
  rcases hlayout.deviceWrite file length buffer hpossible with ⟨_, hfull, _⟩ | ⟨m', hok, _, _⟩
  · rw [hlayout.cells_nil hslot] at hfull
    cases hfull
  · refine ⟨m', .on hfile hpossible ?_⟩
    rw [performOn, hok]
    rfl

end Aliases

/-- One file opens a minor and sets a channel. -/
def openAndSet (minor : Fin 256) (channel : BitVec 64) : List (Event Unit ℕ) :=
  [] ++ [⟨(), ⟨minor, 0⟩, .open minor (some (1, ⟨none, 0⟩)), .opened .initialised⟩] ++
    [⟨(), ⟨minor, 0⟩, .ioctl msgSlotChannel channel, .ioctl 0⟩]

/-- Every `kmalloc` of the write succeeds, and so does the copy from the user. -/
def freshBlocks : WriteAnswers ℕ :=
  ⟨some (2, ⟨0, none, 0, none⟩), some (3, fun _ => 0), some (4, fun _ => 0), 0⟩

/-- It writes one byte to its channel. -/
def oneByte (minor : Fin 256) (channel : BitVec 64) : Event Unit ℕ :=
  ⟨(), ⟨minor, channel⟩, .write 1 (some fun _ => 65) freshBlocks, .written .done⟩

/-- It sets another channel. -/
def switch (minor : Fin 256) (first second : BitVec 64) : Event Unit ℕ :=
  ⟨(), ⟨minor, first⟩, .ioctl msgSlotChannel second, .ioctl 0⟩

/-- The first two calls. -/
theorem openAndSet_run (minor : Fin 256) {channel : BitVec 64} (hchannel : channel ≠ 0) :
    ∃ s, Run Step start (openAndSet minor channel) s ∧ s.files () = some ⟨minor, channel⟩ ∧
      ∀ a, a ≠ 1 → s.memory.heap a = none := by
  refine ⟨_, .snoc (.snoc .nil (.open minor (some (1, ⟨none, 0⟩)) rfl rfl rfl
    (by simp [Call.Possible, start]) rfl)) (ioctl_step rfl hchannel), rfl, fun a ha => ?_⟩
  exact set_heap_of_ne _ _ ha

/-- The store after the first two calls. -/
theorem openAndSet_store (minor : Fin 256) (channel : BitVec 64) :
    storeAfter (openAndSet minor channel) = Function.update Store.empty minor (some fun _ => none) :=
  rfl

/-- The write goes through, as the first one of the minor. -/
theorem oneByte_step (minor : Fin 256) {channel : BitVec 64} (hchannel : channel ≠ 0) :
    ∃ s m', Run Step start (openAndSet minor channel) s ∧ s.files () = some ⟨minor, channel⟩ ∧
      Step s (oneByte minor channel) { s with memory := m' } := by
  obtain ⟨s, run, hfile, hdead⟩ := openAndSet_run minor hchannel
  have hslot : storeAfter (openAndSet minor channel) minor = some fun _ => none := by
    rw [openAndSet_store, Function.update_self]
  have hpossible : (Call.write 1 (some fun _ => 65) freshBlocks).Possible s.memory := by
    simp [Call.Possible, hdead, freshBlocks]
  have hexit : (storeAfter (openAndSet minor channel)).writeExit ⟨minor, channel⟩ 1
      (some fun _ => 65) freshBlocks = .done := by
    rw [Store.writeExit, if_neg (by decide), if_neg hchannel, if_neg (by decide), hslot]
    rfl
  obtain ⟨m', hwrite⟩ := write_first_step (run_represents run) hfile hslot hpossible
  rw [hexit] at hwrite
  exact ⟨s, m', run, hfile, hwrite⟩

/-- Without the write the second channel is empty. -/
theorem read_before (minor : Fin 256) {first second : BitVec 64} (hsecond : second ≠ 0) :
    (storeAfter (openAndSet minor first ++ [switch minor first second])).read ⟨minor, second⟩
      0 true false 0 = (.wouldBlock, []) := by
  have hstore : storeAfter (openAndSet minor first ++ [switch minor first second]) =
      storeAfter (openAndSet minor first) := by
    rw [storeAfter_snoc]
    rfl
  rw [hstore, openAndSet_store, Store.read, if_neg hsecond, Function.update_self]

/-- With it the second channel holds its byte, if its low half is the same. -/
theorem read_after (minor : Fin 256) {first second : BitVec 64} (hsecond : second ≠ 0)
    (heq : first.setWidth 32 = second.setWidth 32) :
    (storeAfter (openAndSet minor first ++ [oneByte minor first] ++
      [switch minor first second])).read ⟨minor, second⟩ 0 true false 0 = (.short, []) := by
  have hstore : storeAfter (openAndSet minor first ++ [oneByte minor first] ++
      [switch minor first second]) = (storeAfter (openAndSet minor first)).wrote ⟨minor, first⟩ 1
        (some fun _ => 65) freshBlocks .done := by
    rw [storeAfter_snoc, storeAfter_snoc]
    rfl
  rw [hstore, openAndSet_store, Store.wrote, Store.put, Function.update_self, Option.map_some,
    Store.read, if_neg hsecond, Function.update_self]
  simp only [channelOf, heq, Function.update_self, Message.read]
  rfl

/-- Channels with the same low half are not isolated. -/
theorem not_isolated {first second : BitVec 64} (hfirst : first ≠ 0) (hsecond : second ≠ 0)
    (heq : first.setWidth 32 = second.setWidth 32) (minor : Fin 256) :
    ¬Isolated minor first second := by
  intro hisolated
  obtain ⟨s, m', run, hfile, hwrite⟩ := oneByte_step minor hfirst
  have hafter : Run Step start (openAndSet minor first ++ [oneByte minor first] ++
      [switch minor first second]) _ := (run.snoc hwrite).snoc (ioctl_step hfile hsecond)
  have hbefore : Run Step start (openAndSet minor first ++ [switch minor first second]) _ :=
    run.snoc (ioctl_step hfile hsecond)
  have hdropped : besides minor first (oneByte minor first) = none := if_pos ⟨rfl, rfl⟩
  have hsame : (openAndSet minor first ++ [oneByte minor first] ++
      [switch minor first second]).filterMap (besides minor first) =
        (openAndSet minor first ++ [switch minor first second]).filterMap (besides minor first) := by
    simp only [List.filterMap_append, List.filterMap_cons_none hdropped, List.filterMap_nil,
      List.append_nil]
  have hclear : ∀ events : List (Event Unit ℕ), (∀ e ∈ events, e ∈ openAndSet minor first ∨
      e = oneByte minor first ∨ e = switch minor first second) →
        garbageAfter events minor = none := by
    intro events hevents
    refine garbage_clear (fun e he i block hcall _ => ?_) minor
    rcases hevents e he with hmem | rfl | rfl
    · simp only [openAndSet, List.nil_append, List.cons_append, List.mem_cons, List.not_mem_nil,
        or_false] at hmem
      rcases hmem with rfl | rfl
      · cases hcall
        rfl
      · cases hcall
    · cases hcall
    · cases hcall
  have hsettled := hclear (openAndSet minor first ++ [oneByte minor first] ++
    [switch minor first second]) (by simp)
  have hsettled' := hclear (openAndSet minor first ++ [switch minor first second])
    (by simp; tauto)
  have hreads := hisolated Unit ℕ _ _ _ _ () hafter hbefore hsame (by simp) (by simp)
    (.inl hsettled) (.inl hsettled') 0 true none none 0 (by simp [Call.Possible])
    (by simp [Call.Possible]) rfl
  rw [readResult_eq (run_represents hafter) (.inl hsettled) 0 true 0 (by simp),
    readResult_eq (run_represents hbefore) (.inl hsettled') 0 true 0 (by simp),
    Option.isSome_none, read_after minor hsecond heq, read_before minor hsecond] at hreads
  cases hreads

/-- For two channels that a file can be set to, histories that differ in the
writes to one read alike on the other if and only if the low halves of the
channels differ. -/
theorem isolated_iff (minor : Fin 256) {first second : BitVec 64} (hfirst : first ≠ 0)
    (hsecond : second ≠ 0) :
    Isolated minor first second ↔ first.setWidth 32 ≠ second.setWidth 32 :=
  ⟨fun hisolated heq => not_isolated hfirst hsecond heq minor hisolated, fun hne =>
    isolated_of_ne hne minor⟩

/-- Channels 5 and 6 are isolated, channels 5 and 2 ^ 32 + 5 are not. -/
theorem isolated_iff_five :
    Isolated 0 5 6 ∧ ¬Isolated 0 5 0x100000005 :=
  ⟨(isolated_iff 0 (by decide) (by decide)).mpr (by decide), fun hisolated =>
    (isolated_iff 0 (by decide) (by decide)).mp hisolated (by decide)⟩

/-- A write to channel 5 is read on the distinct channel 2 ^ 32 + 5. -/
theorem isolation_fails : ¬∀ first second : BitVec 64, first ≠ 0 → second ≠ 0 → first ≠ second →
    Isolated 0 first second := fun h =>
  not_isolated (by decide) (by decide) (by decide) 0 (h 5 0x100000005 (by decide) (by decide)
    (by decide))

end OSCourse.MessageSlotIsolation
