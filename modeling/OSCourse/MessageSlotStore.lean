import OSCourse.MessageSlotInsert

/-!
# The store of messages behind the driver

Seen from outside, a minor is a partial map from 32-bit channels to
messages. Reads and writes have their meaning on this map; a write that
fails after its node was found or created leaves a message nobody wrote.
The lists in the heap represent the map, the lists of different minors
share no block, and no block lives outside the lists between two calls.
-/

namespace OSCourse.MessageSlotStore

open HeapSegments MessageSlotDriver MessageSlotList MessageSlotInsert

variable {Addr File : Type}

/-- The contents of a message block and the length the driver stores. -/
structure Message where
  /-- The whole message block. -/
  stored : List Byte
  /-- The stored length. -/
  msgLength : BitVec 32

/-- The bytes a reader gets. -/
def Message.text (message : Message) : List Byte := message.stored.take message.msgLength.toNat

/-- The opened minors with their channels. -/
abbrev Store := Fin 256 → Option (BitVec 32 → Option Message)

/-- No minor is opened. -/
def Store.empty : Store := fun _ => none

/-- The channel of a file as the driver sees it. -/
def channelOf (file : OpenFile) : BitVec 32 := file.privateData.setWidth 32

/-- The message of a channel. -/
def message (store : Store) (minor : Fin 256) (channelId : BitVec 32) : Option Message :=
  (store minor).bind fun slot => slot channelId

/-- A read of a message. -/
def Message.read (message : Message) (length : BitVec 64) (buffer tmp : Bool) (left : ℕ) :
    ReadExit × List Byte :=
  if length < message.msgLength.signExtend 64 ∨ buffer = false then (.short, [])
  else if tmp = false then (.noTmp, [])
  else
    (if left = 0 then .done message.msgLength else .badCopy,
      message.text.take (message.msgLength.toNat - left))

/-- A read of the store. -/
def Store.read (store : Store) (file : OpenFile) (length : BitVec 64) (buffer tmp : Bool)
    (left : ℕ) : ReadExit × List Byte :=
  if file.privateData = 0 then (.noChannel, [])
  else
    match store file.minor with
    | none => (.noDevice, [])
    | some slot =>
      match slot (channelOf file) with
      | none => (.wouldBlock, [])
      | some message => message.read length buffer tmp left

/-- How a write ends. -/
def Store.writeExit (store : Store) (file : OpenFile) (length : BitVec 64)
    (buffer : Option (ℕ → Byte)) (answers : WriteAnswers Addr) : WriteExit :=
  if bufLen < length.toNat ∨ length = 0 then .badSize
  else if file.privateData = 0 then .noChannel
  else if buffer.isNone then .nullBuffer
  else
    match store file.minor with
    | none => .noDevice
    | some slot =>
      if (slot (channelOf file)).isNone ∧ (answers.node.isNone ∨ answers.msg.isNone) then .noNode
      else if answers.tmp.isNone then .noTmp
      else if answers.left ≠ 0 then .badCopy
      else .done

/-- Puts a message on the channel of a file. -/
def Store.put (store : Store) (file : OpenFile) (message : Message) : Store :=
  Function.update store file.minor
    ((store file.minor).map fun slot => Function.update slot (channelOf file) (some message))

/-- The message block a write finds: that of the channel, or a fresh one. -/
def Store.block (store : Store) (file : OpenFile) (answers : WriteAnswers Addr) : List Byte :=
  match message store file.minor (channelOf file) with
  | some found => found.stored
  | none => (answers.msg.map fun block => bytesOf bufLen block.2).getD []

/-- The store after a write that ended in a given way. -/
def Store.wrote (store : Store) (file : OpenFile) (length : BitVec 64)
    (buffer : Option (ℕ → Byte)) (answers : WriteAnswers Addr) : WriteExit → Store
  | .noTmp => store.put file ⟨store.block file answers, length.setWidth 32⟩
  | .badCopy => store.put file ⟨store.block file answers, length.setWidth 32⟩
  | .done =>
    match buffer with
    | none => store
    | some user =>
      store.put file ⟨bytesOf length.toNat user ++ (store.block file answers).drop length.toNat,
        length.setWidth 32⟩
  | _ => store

/-- The message in a cell. -/
def cellMessage (c : Cell Addr) : Message := ⟨c.stored, c.msgLength⟩

/-- The message of a channel in a list of cells. -/
def lookup (cells : List (Cell Addr)) (channelId : BitVec 32) : Option Message :=
  (cells.find? fun c => c.channelId = channelId).map cellMessage

/-- A cell in the middle is found under its channel, and hides nothing else. -/
theorem lookup_middle {left right : List (Cell Addr)} {c : Cell Addr}
    (hleft : ∀ d ∈ left, d.channelId ≠ c.channelId) (channelId : BitVec 32) :
    lookup (left ++ c :: right) channelId =
      if channelId = c.channelId then some (cellMessage c)
      else lookup (left ++ right) channelId := by
  rw [lookup, lookup, List.find?_append, List.find?_append, List.find?_cons]
  by_cases heq : channelId = c.channelId
  · subst heq
    have hnone : (left.find? fun d => d.channelId = c.channelId) = none := by
      rw [List.find?_eq_none]
      intro d hd
      simpa using hleft d hd
    rw [hnone]
    simp
  · simp [heq, Ne.symm heq]

/-- What a call may do to the list of one minor: nothing outside the list
changes, except that dead blocks may join it. -/
structure ListStep (m m' : Memory Addr) (lst : Addr) (cells cells' : List (Cell Addr)) : Prop where
  holds : ∃ first, ListHolds m' lst first cells'
  frame : ∀ x, (m.heap x).isSome = true → ¬Uses lst cells x → m'.heap x = m.heap x
  grows : ∀ x, Uses lst cells x → Uses lst cells' x
  fresh : ∀ x, Uses lst cells' x → Uses lst cells x ∨ m.heap x = none
  live : ∀ x, (m'.heap x).isSome = true → (m.heap x).isSome = true ∨ Uses lst cells' x
  created : m.created ≤ m'.created
  room : cells'.length + m.created ≤ cells.length + m'.created

variable {m m' m'' : Memory Addr} {lst : Addr} {first : Option Addr}
  {cells cells' cells'' left right : List (Cell Addr)} {c c' new : Cell Addr}

/-- No cell has a channel, so the channel has no message. -/
theorem lookup_none {channelId : BitVec 32}
    (hnew : ∀ c ∈ cells, c.channelId ≠ channelId) : lookup cells channelId = none := by
  rw [lookup, List.find?_eq_none.mpr (by simpa using hnew), Option.map_none]

/-- A list that stays as it is. -/
theorem listStep_refl (h : ListHolds m lst first cells) :
    ListStep m m lst cells cells :=
  ⟨⟨first, h⟩, fun _ _ _ => rfl, fun _ hx => hx, fun _ hx => .inl hx, fun _ hx => .inl hx,
    Nat.le_refl _, Nat.le_refl _⟩

/-- Two changes of one list make one. -/
theorem ListStep.trans (h : ListStep m m' lst cells cells')
    (h' : ListStep m' m'' lst cells' cells'') : ListStep m m'' lst cells cells'' where
  holds := h'.holds
  frame x hx hnot := by
    have hsame := h.frame x hx hnot
    rw [h'.frame x (by rw [hsame]; exact hx) fun huses => ?_, hsame]
    rcases h.fresh x huses with hold | hdead
    · exact hnot hold
    · rw [hdead] at hx
      cases hx
  grows x hx := h'.grows x (h.grows x hx)
  fresh x hx := by
    rcases h'.fresh x hx with hold | hdead
    · exact h.fresh x hold
    · by_cases hlive : (m.heap x).isSome = true
      · by_cases huses : Uses lst cells x
        · exact .inl huses
        · rw [h.frame x hlive huses] at hdead
          exact .inr hdead
      · exact .inr (by simpa using hlive)
  live x hx := by
    rcases h'.live x hx with hold | huses
    · exact (h.live x hold).imp_right (h'.grows x)
    · exact .inr huses
  created := Nat.le_trans h.created h'.created
  room := by
    have hfirst := h.room
    have hsecond := h'.room
    omega

/-- Linking a new cell is such a change. -/
theorem listStep_of_linked (hlink : Linked m m' lst first left right new)
    (h : ListHolds m lst first (left ++ right)) (hnode : m.heap new.node = none)
    (hmsg : m.heap new.msg = none)
    (hleft : ∀ c ∈ left, c.channelId.toInt < new.channelId.toInt)
    (hright : ∀ c ∈ right, new.channelId.toInt < c.channelId.toInt) :
    ListStep m m' lst (left ++ right) (left ++ new :: right) := by
  have hmiddle : ∀ x, Uses lst (left ++ new :: right) x ↔
      Uses lst (left ++ right) x ∨ x = new.node ∨ x = new.msg := by
    intro x
    simp only [Uses, List.mem_append, List.mem_cons]
    grind
  have hothers : ∀ x, ¬Uses lst (left ++ right) x → x ≠ new.node → x ≠ new.msg →
      m'.heap x = m.heap x := by
    intro x hnot hxn hxm
    refine hlink.others x (fun heq => hnot (.inl heq)) hxn hxm fun p hp heq => hnot (.inr ⟨p, ?_, .inl heq⟩)
    exact List.mem_append_left _ (List.mem_of_getLast? hp)
  refine ⟨⟨_, hlink.listHolds h hnode hmsg hleft hright⟩, fun x hx hnot => ?_, fun x hx => ?_,
    fun x hx => ?_, fun x hx => ?_, by rw [hlink.created]; exact Nat.le_succ _, ?_⟩
  · refine hothers x hnot (fun heq => ?_) fun heq => ?_
    · rw [heq, hnode] at hx
      cases hx
    · rw [heq, hmsg] at hx
      cases hx
  · exact (hmiddle x).mpr (.inl hx)
  · rcases (hmiddle x).mp hx with hold | rfl | rfl
    · exact .inl hold
    · exact .inr hnode
    · exact .inr hmsg
  · by_cases huses : Uses lst (left ++ new :: right) x
    · exact .inr huses
    · rw [hmiddle] at huses
      push Not at huses
      rw [hothers x huses.1 huses.2.1 huses.2.2] at hx
      exact .inl hx
  · rw [hlink.created]
    simp only [List.length_append, List.length_cons]
    omega

/-- A cell with other contents in its two blocks. -/
structure Replaced (m m' : Memory Addr) (c c' : Cell Addr) : Prop where
  node_eq : c'.node = c.node
  msg_eq : c'.msg = c.msg
  channel_eq : c'.channelId = c.channelId
  node : ∀ n, m.heap c.node = some (.node n) →
    m'.heap c.node = some (.node { n with msgLength := c'.msgLength })
  msg : m'.heap c.msg = some (.bytes c'.stored)
  others : ∀ x, x ≠ c.node → x ≠ c.msg → m'.heap x = m.heap x
  created : m'.created = m.created

/-- A cell whose blocks changed leaves the list in order. -/
theorem Replaced.listHolds (hrep : Replaced m m' c c')
    (h : ListHolds m lst first (left ++ c :: right)) :
    ListHolds m' lst first (left ++ c' :: right) := by
  have hc : c ∈ left ++ c :: right := List.mem_append_right _ List.mem_cons_self
  obtain ⟨hnl, hml, hnm⟩ := h.kinds hc hc
  have hmem : ∀ d, d ∈ left ∨ d ∈ right → d ∈ left ++ c :: right := by
    intro d hd
    simp only [List.mem_append, List.mem_cons]
    tauto
  have hne : ∀ d, d ∈ left ∨ d ∈ right → d.node ≠ c.node ∧ d.msg ≠ c.msg := by
    have hnodes := h.nodes_nodup
    have hmsgs := h.apart
    simp only [List.map_append, List.map_cons, List.nodup_middle, List.nodup_cons,
      List.mem_append, List.mem_map] at hnodes hmsgs
    intro d hd
    constructor
    · exact fun heq => hnodes.1 (hd.imp (fun h => ⟨d, h, heq⟩) fun h => ⟨d, h, heq⟩)
    · exact fun heq => hmsgs.1 (hd.imp (fun h => ⟨d, h, heq⟩) fun h => ⟨d, h, heq⟩)
  have hkeep : ∀ d, d ∈ left ∨ d ∈ right → CellHolds m' d := by
    intro d hd
    refine (h.holds d (hmem d hd)).congr ?_ ?_
    · exact hrep.others _ (hne d hd).1 (h.kinds (hmem d hd) hc).2.2
    · exact hrep.others _ (h.kinds hc (hmem d hd)).2.2.symm (hne d hd).2
  have hnodes : (left ++ c' :: right).map Cell.node = (left ++ c :: right).map Cell.node := by
    simp [hrep.node_eq]
  obtain ⟨next, hnode⟩ := (h.holds c hc).node_eq
  have hnew := hrep.node _ hnode
  refine ⟨?_, fun _ => ?_, ?_, ?_, ?_⟩
  · rw [hrep.others lst hnl.symm hml.symm, h.header]
    simp
  · rw [hnodes]
    refine (h.chain (by simp)).congr fun a ha => ?_
    obtain ⟨d, hd, rfl⟩ := List.mem_map.mp ha
    by_cases heq : d.node = c.node
    · rw [heq, MessageSlotList.nodeLink_eq hnode, MessageSlotList.nodeLink_eq hnew]
    · simp only [nodeLink, hrep.others _ heq (h.kinds hd hc).2.2]
  · intro d hd
    rcases List.mem_append.mp hd with hd | hd
    · exact hkeep d (.inl hd)
    · rcases List.mem_cons.mp hd with rfl | hd
      · refine ⟨⟨next, ?_⟩, ?_⟩
        · rw [hrep.node_eq, hnew, hrep.channel_eq, hrep.msg_eq]
        · rw [hrep.msg_eq, hrep.msg]
      · exact hkeep d (.inr hd)
  · obtain ⟨hl, hr, hlr⟩ := List.pairwise_append.mp h.sorted
    obtain ⟨hcr, hr⟩ := List.pairwise_cons.mp hr
    refine List.pairwise_append.mpr ⟨hl, List.pairwise_cons.mpr ⟨?_, hr⟩, ?_⟩
    · rw [hrep.channel_eq]
      exact hcr
    · intro d hd e he
      rcases List.mem_cons.mp he with rfl | he
      · rw [hrep.channel_eq]
        exact hlr d hd c List.mem_cons_self
      · exact hlr d hd e (List.mem_cons_of_mem _ he)
  · have hmsgs := h.apart
    simpa [hrep.msg_eq] using hmsgs

/-- Changing the blocks of a cell changes one list. -/
theorem Replaced.listStep (hrep : Replaced m m' c c')
    (h : ListHolds m lst first (left ++ c :: right)) :
    ListStep m m' lst (left ++ c :: right) (left ++ c' :: right) := by
  have huses : ∀ x, Uses lst (left ++ c' :: right) x ↔ Uses lst (left ++ c :: right) x := by
    intro x
    simp only [Uses, List.mem_append, List.mem_cons]
    constructor
    · rintro (hx | ⟨d, hd | rfl | hd, hx⟩)
      · exact .inl hx
      · exact .inr ⟨d, .inl hd, hx⟩
      · rw [hrep.node_eq, hrep.msg_eq] at hx
        exact .inr ⟨c, .inr (.inl rfl), hx⟩
      · exact .inr ⟨d, .inr (.inr hd), hx⟩
    · rintro (hx | ⟨d, hd | rfl | hd, hx⟩)
      · exact .inl hx
      · exact .inr ⟨d, .inl hd, hx⟩
      · rw [← hrep.node_eq, ← hrep.msg_eq] at hx
        exact .inr ⟨c', .inr (.inl rfl), hx⟩
      · exact .inr ⟨d, .inr (.inr hd), hx⟩
  have hc : c ∈ left ++ c :: right := List.mem_append_right _ List.mem_cons_self
  have hothers : ∀ x, ¬Uses lst (left ++ c :: right) x → m'.heap x = m.heap x := fun x hnot =>
    hrep.others x (fun heq => hnot (.inr ⟨c, hc, .inl heq⟩)) fun heq => hnot (.inr ⟨c, hc, .inr heq⟩)
  refine ⟨⟨_, hrep.listHolds h⟩, fun x _ hnot => hothers x hnot, fun x hx => (huses x).mpr hx,
    fun x hx => .inl ((huses x).mp hx), fun x hx => ?_, Nat.le_of_eq hrep.created.symm, ?_⟩
  · by_cases hx' : Uses lst (left ++ c :: right) x
    · exact .inr ((huses x).mpr hx')
    · rw [hothers x hx'] at hx
      exact .inl hx
  · rw [hrep.created]
    simp

end OSCourse.MessageSlotStore
