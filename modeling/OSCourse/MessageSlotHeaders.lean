import OSCourse.MessageSlotFailures

/-!
# Headers and reads of unwritten channels

Opening a minor sets the size of its header and leaves the pointer to the
first node as `kmalloc` left it. Inserting trusts the size and searching
trusts the pointer, so the list is in order exactly in those histories where
every header arrived with a null pointer. A channel without a successful
write reads as empty unless a late failure made its node. A channel is meant
modulo `2 ^ 32` throughout, as the driver takes it.
-/

namespace OSCourse.MessageSlotHeaders

open HeapSegments Runs MessageSlotDriver MessageSlotList MessageSlotInsert MessageSlotStore
  MessageSlotRefinement MessageSlotHistory MessageSlotMessages MessageSlotFailures

variable {Addr File : Type}

/-- The header of a minor heads a finite chain of `size` live nodes. -/
def HeaderWellFormed (s : State File Addr) (lst : Addr) : Prop :=
  ∃ first size nodes, s.memory.heap lst = some (.list ⟨first, size⟩) ∧
    Chain (nodeLink s.memory) first nodes ∧ size = nodes.length

/-- What should hold between two calls, after a history. -/
structure SlotsInOrder [DecidableEq Addr] (events : List (Event File Addr))
    (s : State File Addr) : Prop where
  /-- The headers of opened minors are well formed. -/
  headers : ∀ minor lst, s.devices (Fin.succ minor) = some lst → HeaderWellFormed s lst
  /-- A search ends and meets live nodes only. -/
  searches : ∀ minor lst channelId, s.devices (Fin.succ minor) = some lst →
    ∃ found, findChannelId s.memory lst channelId = .ok found
  /-- A channel nobody wrote reads as empty. -/
  unwritten : ∀ file length buffer tmp left, file.privateData ≠ 0 →
    (s.devices file.minor.succ).isSome = true →
    (∀ e ∈ events, writtenBy file.minor (channelOf file) e = none) →
    (Call.read length buffer tmp left).Possible s.memory →
      deviceRead s file length buffer tmp left = .ok (.wouldBlock, [], s.memory)

/-- Every header block arrived with a null pointer. -/
def HeadersClear (events : List (Event File Addr)) : Prop :=
  ∀ e ∈ events, ∀ minor block, e.call = .open minor (some block) →
    e.reply = .opened .initialised → block.2.first = none

/-- Every write that failed late was to a channel already written. -/
def LateOnWritten (events : List (Event File Addr)) : Prop :=
  ∀ before e after, events = before ++ e :: after → failedLate e = true →
    ∃ d ∈ before, writtenBy e.target.minor (channelOf e.target) d ≠ none

variable {s s' : State File Addr} {store : Store} {garbage : Fin 256 → Option Addr}
  {e : Event File Addr} {events : List (Event File Addr)}

/-- Only the first open of a minor brings a new header. -/
theorem recordGarbage_cases (garbage : Fin 256 → Option Addr) (e : Event File Addr) :
    recordGarbage garbage e = garbage ∨
      ∃ minor header, e.call = .open minor header ∧ e.reply = .opened .initialised ∧
        recordGarbage garbage e =
          Function.update garbage minor (header.bind fun block => block.2.first) := by
  unfold recordGarbage
  split
  · rename_i minor header hcall hreply
    exact .inr ⟨minor, header, hcall, hreply, rfl⟩
  · exact .inl rfl

/-- Clear headers leave nothing behind. -/
theorem garbage_clear (h : HeadersClear events) (minor : Fin 256) :
    garbageAfter events minor = none := by
  induction events using List.reverseRec with
  | nil => rfl
  | append_singleton events e ih =>
    have hbefore : garbageAfter events minor = none :=
      ih fun d hd => h d (List.mem_append_left _ hd)
    rw [garbageAfter_snoc]
    rcases recordGarbage_cases (garbageAfter events) e with hsame | ⟨i, header, hcall, hreply, hnew⟩
    · rw [hsame, hbefore]
    · rw [hnew]
      by_cases hminor : minor = i
      · subst hminor
        rw [Function.update_self]
        cases header with
        | none => rfl
        | some block => exact h e (by simp) minor block hcall hreply
      · rw [Function.update_of_ne hminor, hbefore]

/-- A late failure puts a message on its channel. -/
theorem late_record (hallows : Store.Allows store garbage e) (hlate : failedLate e = true) :
    (store e.target.minor).isSome = true ∧ e.target.privateData ≠ 0 ∧
      ∃ new, Store.record store e = store.put e.target new := by
  obtain ⟨f, target, call, reply⟩ := e
  cases call with
  | «open» minor header =>
    simp only [Store.Allows] at hallows
    subst hallows
    simp [failedLate] at hlate
  | ioctl command param =>
    simp only [Store.Allows] at hallows
    subst hallows
    simp [failedLate] at hlate
  | read length buffer tmp left =>
    obtain ⟨exit, bytes, rfl, _⟩ := hallows
    simp [failedLate] at hlate
  | write length buffer answers =>
    simp only [Store.Allows] at hallows
    subst hallows
    have hreached : reachedNode (store.writeExit target length buffer answers) = true := by
      cases hexit : store.writeExit target length buffer answers <;>
        simp [failedLate, hexit, reachedNode] at hlate ⊢
    have hfailed : store.writeExit target length buffer answers ≠ .done := fun hdone => by
      simp [failedLate, hdone] at hlate
    obtain ⟨_, hchannel, _, hopened⟩ := writeExit_reached hreached
    exact ⟨hopened, hchannel, _, wrote_late hreached hfailed⟩

/-- A message comes from a successful write, from a late failure, or was there
before. -/
theorem message_origin (hallows : Store.Allows store garbage e) {minor : Fin 256}
    {channelId : BitVec 32} (hfound : message (Store.record store e) minor channelId ≠ none) :
    writtenBy minor channelId e ≠ none ∨ message store minor channelId ≠ none ∨
      (failedLate e = true ∧ e.target.minor = minor ∧ channelOf e.target = channelId) := by
  cases hlate : failedLate e with
  | false =>
    have hrecord := message_record hallows hlate minor channelId
    by_cases hwritten : writtenBy minor channelId e = none
    · rw [hwritten, Option.map_none, Option.none_or] at hrecord
      refine .inr (.inl fun hnone => hfound ?_)
      rw [hnone, Option.map_none] at hrecord
      exact Option.map_eq_none_iff.mp hrecord
    · exact .inl hwritten
  | true =>
    obtain ⟨hopened, _, new, hrecord⟩ := late_record hallows hlate
    by_cases hthis : minor = e.target.minor ∧ channelId = channelOf e.target
    · exact .inr (.inr ⟨rfl, hthis.1.symm, hthis.2.symm⟩)
    · rw [hrecord, message_put hopened, if_neg hthis] at hfound
      exact .inr (.inl hfound)

variable [DecidableEq Addr] [DecidableEq File]

/-- Without late failures on new channels, every message was written. -/
theorem message_written (run : Run Step start events s) (hlate : LateOnWritten events)
    {minor : Fin 256} {channelId : BitVec 32}
    (hfound : message (storeAfter events) minor channelId ≠ none) :
    ∃ e ∈ events, writtenBy minor channelId e ≠ none := by
  induction run with
  | nil => simp [storeAfter, message, Store.empty] at hfound
  | @snoc events middle e final run hlast ih =>
    have hbefore : LateOnWritten events := fun before d after heq =>
      hlate before d (after ++ [e]) (by simp [heq])
    rw [storeAfter_snoc] at hfound
    rcases message_origin (Represents.step (run_represents run) hlast).2 hfound with
      hwritten | hold | ⟨hfailed, rfl, rfl⟩
    · exact ⟨e, by simp, hwritten⟩
    · obtain ⟨d, hd, hwritten⟩ := ih hbefore hold
      exact ⟨d, List.mem_append_left _ hd, hwritten⟩
    · obtain ⟨d, hd, hwritten⟩ := hlate events e [] rfl hfailed
      exact ⟨d, List.mem_append_left _ hd, hwritten⟩

/-- With clear headers and no late failure on a new channel all is in order. -/
theorem slots_in_order (run : Run Step start events s) (hclear : HeadersClear events)
    (hlate : LateOnWritten events) : SlotsInOrder events s := by
  obtain ⟨cells, hlayout⟩ := run_represents run
  have hpointer : ∀ minor lst, s.devices (Fin.succ minor) = some lst →
      ∃ first, ListHolds s.memory lst first (cells minor) ∧
        (cells minor = [] → first = none) := fun minor lst hdevice => by
    obtain ⟨first, hlist, hfirst⟩ := hlayout.lists minor lst hdevice
    exact ⟨first, hlist, fun hempty => (hfirst hempty).trans (garbage_clear hclear minor)⟩
  refine ⟨fun minor lst hdevice => ?_, fun minor lst channelId hdevice => ?_, ?_⟩
  · obtain ⟨first, hlist, hfirst⟩ := hpointer minor lst hdevice
    refine ⟨first, _, (cells minor).map Cell.node, hlist.header, ?_, by rw [List.length_map]⟩
    by_cases hempty : cells minor = []
    · rw [hempty]
      exact hfirst hempty
    · exact hlist.chain hempty
  · obtain ⟨first, hlist, hfirst⟩ := hpointer minor lst hdevice
    exact ⟨_, hlist.findChannelId hfirst (hlayout.room minor) channelId⟩
  · intro file length buffer tmp left hchannel hopened hnever hpossible
    have hmessage : message (storeAfter events) file.minor (channelOf file) = none := by
      by_contra hfound
      obtain ⟨e, he, hwritten⟩ := message_written run hlate hfound
      exact hwritten (hnever e he)
    have hslot : storeAfter events file.minor = some (lookup (cells file.minor)) := by
      obtain ⟨lst, hdevice⟩ := Option.isSome_iff_exists.mp hopened
      rw [hlayout.opened, hdevice, Option.map_some]
    rw [message, hslot, Option.bind_some] at hmessage
    rw [hlayout.deviceRead file length buffer left (fun _ => garbage_clear hclear file.minor)
      hpossible]
    simp only [Store.read, if_neg hchannel, hslot, hmessage]

/-- A header with anything but a null pointer is not in order once opened. -/
theorem clear_of_order (run : Run Step start (events ++ [e]) s)
    (horder : SlotsInOrder (events ++ [e]) s) {minor : Fin 256}
    {block : Addr × LinkedList Addr} (hcall : e.call = .open minor (some block))
    (hreply : e.reply = .opened .initialised) : block.2.first = none := by
  obtain ⟨cells, hlayout⟩ := run_represents run
  have hstore : storeAfter (events ++ [e]) minor = some fun _ => none := by
    simp only [storeAfter_snoc, Store.record, hcall, hreply, Function.update_self]
  have hgarbage : garbageAfter (events ++ [e]) minor = block.2.first := by
    simp only [garbageAfter_snoc, recordGarbage, hcall, hreply, Function.update_self,
      Option.bind_some]
  have hempty : cells minor = [] := hlayout.cells_nil hstore
  rw [hlayout.opened] at hstore
  obtain ⟨lst, hdevice, _⟩ := Option.map_eq_some_iff.mp hstore
  obtain ⟨first, hlist, hfirst⟩ := hlayout.lists minor lst hdevice
  obtain ⟨first', size, nodes, hheader, hchain, hsize⟩ := horder.headers minor lst hdevice
  rw [hlist.header, hempty] at hheader
  cases hheader
  obtain rfl : nodes = [] := by simpa using hsize.symm
  rw [← hgarbage, ← hfirst hempty]
  exact hchain

/-- A late failure on a channel nobody wrote makes it readable. -/
theorem written_of_order (run : Run Step start (events ++ [e]) s)
    (horder : SlotsInOrder (events ++ [e]) s) (hlate : failedLate e = true) :
    ∃ d ∈ events, writtenBy e.target.minor (channelOf e.target) d ≠ none := by
  by_contra hnever
  push Not at hnever
  obtain ⟨cells, hlayout⟩ := run_represents run
  obtain ⟨middle, hbefore, hlast⟩ := run.last
  have hallows := (Represents.step (run_represents hbefore) hlast).2
  obtain ⟨hopened, hchannel, new, hrecord⟩ := late_record hallows hlate
  have hfound : message (storeAfter (events ++ [e])) e.target.minor (channelOf e.target) =
      some new := by
    rw [storeAfter_snoc, hrecord, message_put hopened, if_pos ⟨rfl, rfl⟩]
  obtain ⟨slot, hslot⟩ : ∃ slot, storeAfter (events ++ [e]) e.target.minor = some slot := by
    cases hslot : storeAfter (events ++ [e]) e.target.minor with
    | none => simp [message, hslot] at hfound
    | some slot => exact ⟨slot, rfl⟩
  rw [message, hslot, Option.bind_some] at hfound
  have hdevice : (s.devices e.target.minor.succ).isSome = true := by
    rw [← Option.isSome_map, ← hlayout.opened, hslot]
    rfl
  have hsettled : Settled (storeAfter (events ++ [e])) (garbageAfter (events ++ [e]))
      e.target.minor := .inr ⟨slot, _, _, hslot, hfound⟩
  have hwritten : writtenBy e.target.minor (channelOf e.target) e = none := by
    unfold writtenBy
    split
    · rename_i hreply
      simp [failedLate, hreply] at hlate
    · rfl
  have hnever' : ∀ d ∈ events ++ [e],
      writtenBy e.target.minor (channelOf e.target) d = none := by
    intro d hd
    rcases List.mem_append.mp hd with hd | hd
    · exact hnever d hd
    · obtain rfl : d = e := by simpa using hd
      exact hwritten
  have hnone : ∀ block ∈ (none : Option (Addr × (ℕ → Byte))), s.memory.heap block.1 = none := by
    simp
  have hread := horder.unwritten e.target 0 false none 0 hchannel hdevice hnever' hnone
  rw [hlayout.deviceRead e.target 0 false 0 (hsettled.clean hlayout) hnone] at hread
  simp only [Store.read, if_neg hchannel, hslot, hfound, Message.read, or_true, if_true] at hread
  cases hread

/-- In a history the lists are in order and unwritten channels read as empty,
after every prefix, if and only if every header arrived with a null pointer
and every write that failed late was to a channel already written, with
channels taken modulo `2 ^ 32`. -/
theorem slots_in_order_iff (run : Run Step start events s) :
    (∀ before middle, before <+: events → Run Step start before middle →
      SlotsInOrder before middle) ↔ HeadersClear events ∧ LateOnWritten events := by
  constructor
  · intro horder
    have hpart : ∀ before e after, events = before ++ e :: after → ∃ middle,
        Run Step start (before ++ [e]) middle ∧ SlotsInOrder (before ++ [e]) middle := by
      intro before e after heq
      have hsplit : events = (before ++ [e]) ++ after := by simp [heq]
      rw [hsplit] at run
      obtain ⟨middle, hbefore, _⟩ := run.split
      exact ⟨middle, hbefore, horder _ _ ⟨after, hsplit.symm⟩ hbefore⟩
    constructor
    · intro e he minor block hcall hreply
      obtain ⟨before, after, heq⟩ := List.append_of_mem he
      obtain ⟨middle, hrun, hinOrder⟩ := hpart before e after heq
      exact clear_of_order hrun hinOrder hcall hreply
    · intro before e after heq hlate
      obtain ⟨middle, hrun, hinOrder⟩ := hpart before e after heq
      exact written_of_order hrun hinOrder hlate
  · rintro ⟨hclear, hlate⟩ before middle ⟨after, rfl⟩ hrun
    refine slots_in_order hrun (fun e he => hclear e (List.mem_append_left _ he)) ?_
    intro first e second heq hfailed
    exact hlate first e (second ++ after) (by simp [heq]) hfailed

/-- The two conditions on the first message. -/
theorem slots_in_order_iff_firstMessage :
    (∃ s : State Unit ℕ, Run Step start firstMessage s) ∧ ∀ before (middle : State Unit ℕ),
      before <+: firstMessage → Run Step start before middle → SlotsInOrder before middle := by
  obtain ⟨s, run, -, -⟩ := firstMessage_run
  refine ⟨⟨s, run⟩, (slots_in_order_iff run).mpr ⟨?_, ?_⟩⟩
  · simp [HeadersClear, firstMessage]
  · intro before e after heq hlate
    have hall : ∀ d ∈ firstMessage, failedLate d = false := by decide
    rw [hall e (by simp [heq])] at hlate
    cases hlate

/-- A minor opened with a header whose block held a pointer to 7. -/
def dirtyHeader : Event Unit ℕ :=
  ⟨(), ⟨0, 0⟩, .open 0 (some (1, ⟨some 7, 7⟩)), .opened .initialised⟩

/-- The first search of the minor follows the stale pointer. -/
theorem slots_out_of_order : ∃ s : State Unit ℕ, Run Step start ([] ++ [dirtyHeader]) s ∧
    findChannelId s.memory 1 5 = .error .wildPointer ∧ ¬SlotsInOrder ([] ++ [dirtyHeader]) s := by
  refine ⟨_, .snoc .nil (.open 0 (some (1, ⟨some 7, 7⟩)) rfl rfl rfl
    (by simp [Call.Possible, start, dirtyHeader]) rfl), rfl, fun horder => ?_⟩
  obtain ⟨found, hfound⟩ := horder.searches 0 1 5 rfl
  cases hfound

end OSCourse.MessageSlotHeaders
