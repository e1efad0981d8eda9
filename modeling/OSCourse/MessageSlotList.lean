import OSCourse.HeapSegments
import OSCourse.MessageSlotDriver

/-!
# The sorted channel list of a minor

A list of cells describes the nodes of one header in order, with their
message blocks. Searching visits only these nodes; creating a channel links
one new node at its place in the order and leaves every other block alone;
a failed creation leaves the heap as it was. The pointer of an empty header
is not described, because nothing initialises it.
-/

namespace OSCourse.MessageSlotList

open HeapSegments MessageSlotDriver

variable {Addr : Type}

@[simp] theorem ok_bind {α β : Type} (a : α) (f : α → Except Fault β) :
    (Except.ok a >>= f) = f a := rfl

@[simp] theorem error_bind {α β : Type} (e : Fault) (f : α → Except Fault β) :
    (Except.error e >>= f) = .error e := rfl

/-- A sequence that does not fault is one of steps that do not. -/
theorem bind_eq_ok {α β : Type} {x : Except Fault α} {f : α → Except Fault β} {b : β}
    (h : (x >>= f) = .ok b) : ∃ a, x = .ok a ∧ f a = .ok b := by
  cases x with
  | error fault => cases h
  | ok a => exact ⟨a, rfl, h⟩

/-- A node with its message block. -/
structure Cell (Addr : Type) where
  /-- The node's address. -/
  node : Addr
  channelId : BitVec 32
  /-- The message block's address. -/
  msg : Addr
  msgLength : BitVec 32
  /-- The contents of the message block. -/
  stored : List Byte

/-- The links between live nodes. -/
def nodeLink (m : Memory Addr) (a : Addr) : Option (Option Addr) :=
  match m.heap a with
  | some (.node n) => some n.next
  | _ => none

/-- The heap holds a cell, wherever its node points. -/
structure CellHolds (m : Memory Addr) (c : Cell Addr) : Prop where
  node_eq : ∃ next, m.heap c.node = some (.node ⟨c.channelId, some c.msg, c.msgLength, next⟩)
  msg_eq : m.heap c.msg = some (.bytes c.stored)

/-- The header holds these cells, in the signed order of their channels. -/
structure ListHolds (m : Memory Addr) (lst : Addr) (first : Option Addr)
    (cells : List (Cell Addr)) : Prop where
  header : m.heap lst = some (.list ⟨first, cells.length⟩)
  chain : cells ≠ [] → Chain (nodeLink m) first (cells.map Cell.node)
  holds : ∀ c ∈ cells, CellHolds m c
  sorted : cells.Pairwise fun c d => c.channelId.toInt < d.channelId.toInt
  apart : (cells.map Cell.msg).Nodup

/-- The blocks a header and its cells occupy. -/
def Uses (lst : Addr) (cells : List (Cell Addr)) (a : Addr) : Prop :=
  a = lst ∨ ∃ c ∈ cells, a = c.node ∨ a = c.msg

variable {m m' : Memory Addr} {lst a b : Addr} {first : Option Addr}
  {cells before after : List (Cell Addr)} {c d new : Cell Addr} {channelId : BitVec 32}

/-- The link of a node in the heap. -/
theorem nodeLink_eq {n : ListNode Addr} (h : m.heap a = some (.node n)) :
    nodeLink m a = some n.next := by
  simp only [nodeLink, h]

theorem CellHolds.congr (h : CellHolds m c) (hnode : m'.heap c.node = m.heap c.node)
    (hmsg : m'.heap c.msg = m.heap c.msg) : CellHolds m' c :=
  ⟨by rw [hnode]; exact h.node_eq, by rw [hmsg]; exact h.msg_eq⟩

/-- The frame rule of lists. -/
theorem ListHolds.congr (h : ListHolds m lst first cells)
    (hagree : ∀ a, Uses lst cells a → m'.heap a = m.heap a) : ListHolds m' lst first cells where
  header := by rw [hagree lst (.inl rfl)]; exact h.header
  chain hne := by
    refine (h.chain hne).congr fun a ha => ?_
    obtain ⟨c, hc, rfl⟩ := List.mem_map.mp ha
    simp only [nodeLink, hagree c.node (.inr ⟨c, hc, .inl rfl⟩)]
  holds c hc :=
    (h.holds c hc).congr (hagree _ (.inr ⟨c, hc, .inl rfl⟩)) (hagree _ (.inr ⟨c, hc, .inr rfl⟩))
  sorted := h.sorted
  apart := h.apart

/-- Every block of a list is live. -/
theorem ListHolds.live (h : ListHolds m lst first cells) (ha : Uses lst cells a) :
    (m.heap a).isSome = true := by
  rcases ha with rfl | ⟨c, hc, rfl | rfl⟩
  · rw [h.header]
    rfl
  · obtain ⟨next, hnode⟩ := (h.holds c hc).node_eq
    rw [hnode]
    rfl
  · rw [(h.holds c hc).msg_eq]
    rfl

/-- A dead block belongs to no list. -/
theorem ListHolds.not_uses (h : ListHolds m lst first cells) (ha : m.heap a = none) :
    ¬Uses lst cells a := by
  intro huses
  have hlive := h.live huses
  rw [ha] at hlive
  cases hlive

/-- Cells of a list lie apart from blocks that were dead. -/
theorem ListHolds.apart_from_dead (h : ListHolds m lst first cells)
    (hnode : m.heap new.node = none) (hmsg : m.heap new.msg = none) (hc : c ∈ cells) :
    (c.node ≠ new.node ∧ c.node ≠ new.msg) ∧ c.msg ≠ new.node ∧ c.msg ≠ new.msg := by
  have hn := h.not_uses hnode
  have hm := h.not_uses hmsg
  exact ⟨⟨fun heq => hn (heq ▸ .inr ⟨c, hc, .inl rfl⟩), fun heq => hm (heq ▸ .inr ⟨c, hc, .inl rfl⟩)⟩,
    fun heq => hn (heq ▸ .inr ⟨c, hc, .inr rfl⟩), fun heq => hm (heq ▸ .inr ⟨c, hc, .inr rfl⟩)⟩

/-- No node occurs twice. -/
theorem ListHolds.nodes_nodup (h : ListHolds m lst first cells) : (cells.map Cell.node).Nodup := by
  by_cases hne : cells = []
  · rw [hne]
    exact List.nodup_nil
  · exact (h.chain hne).nodup

/-- A node and a message buffer have different addresses. -/
theorem CellHolds.node_ne_msg (hc : CellHolds m c) (hd : CellHolds m d) : c.node ≠ d.msg := by
  obtain ⟨next, hnode⟩ := hc.node_eq
  intro heq
  rw [heq, hd.msg_eq] at hnode
  simp at hnode

/-- Blocks of different kinds have different addresses. -/
theorem ListHolds.kinds (h : ListHolds m lst first cells) (hc : c ∈ cells) (hd : d ∈ cells) :
    c.node ≠ lst ∧ c.msg ≠ lst ∧ c.node ≠ d.msg := by
  obtain ⟨next, hnode⟩ := (h.holds c hc).node_eq
  have hmsg := (h.holds c hc).msg_eq
  have hheader := h.header
  refine ⟨fun heq => ?_, fun heq => ?_, (h.holds c hc).node_ne_msg (h.holds d hd)⟩
  · rw [heq, hheader] at hnode
    simp at hnode
  · rw [heq, hheader] at hmsg
    simp at hmsg

/-- One channel has at most one cell. -/
theorem ListHolds.unique (h : ListHolds m lst first cells) (hc : c ∈ cells) (hd : d ∈ cells)
    (heq : c.channelId = d.channelId) : c = d := by
  obtain ⟨i, hi, rfl⟩ := List.getElem_of_mem hc
  obtain ⟨j, hj, rfl⟩ := List.getElem_of_mem hd
  rcases Nat.lt_trichotomy i j with hij | rfl | hji
  · have hlt := List.pairwise_iff_getElem.mp h.sorted i j hi hj hij
    rw [heq] at hlt
    omega
  · rfl
  · have hlt := List.pairwise_iff_getElem.mp h.sorted j i hj hi hji
    rw [heq] at hlt
    omega

/-- Reading the header. -/
theorem ListHolds.loadList (h : ListHolds m lst first cells) :
    loadList m lst = .ok ⟨first, cells.length⟩ := by
  simp only [MessageSlotDriver.loadList, h.header]

/-- Reading a node of the list. -/
theorem CellHolds.loadNode (h : CellHolds m c) :
    ∃ next, nodeLink m c.node = some next ∧
      loadNode m c.node = .ok ⟨c.channelId, some c.msg, c.msgLength, next⟩ := by
  obtain ⟨next, hnode⟩ := h.node_eq
  exact ⟨next, nodeLink_eq hnode, by simp only [MessageSlotDriver.loadNode, hnode]⟩

/-- The search visits the nodes of the list and finds the one of the channel. -/
theorem findFrom_eq {fuel : ℕ} (hchain : Chain (nodeLink m) first (cells.map Cell.node))
    (hholds : ∀ c ∈ cells, CellHolds m c) (hfuel : cells.length < fuel) :
    findFrom m channelId fuel first =
      .ok ((cells.find? fun c => c.channelId = channelId).map Cell.node) := by
  induction cells generalizing first fuel with
  | nil =>
    obtain rfl : first = none := hchain
    cases fuel <;> rfl
  | cons c cells ih =>
    obtain ⟨rfl, next, hnext, hrest⟩ := hchain
    obtain ⟨fuel, rfl⟩ := Nat.exists_eq_succ_of_ne_zero (Nat.ne_zero_of_lt hfuel)
    obtain ⟨next', hnext', hload⟩ := (hholds c List.mem_cons_self).loadNode
    obtain rfl : next' = next := by simpa [hnext] using hnext'.symm
    simp only [findFrom, hload, ok_bind]
    by_cases heq : c.channelId = channelId
    · simp [heq]
    · rw [if_neg heq, ih hrest (fun d hd => hholds d (List.mem_cons_of_mem c hd)) (by simpa using hfuel)]
      simp [heq]

/-- `findChannelId` on a list whose pointer is in order. -/
theorem ListHolds.findChannelId (h : ListHolds m lst first cells)
    (hfirst : cells = [] → first = none) (hfuel : cells.length ≤ m.created)
    (channelId : BitVec 32) :
    findChannelId m lst channelId =
      .ok ((cells.find? fun c => c.channelId = channelId).map Cell.node) := by
  have hchain : Chain (nodeLink m) first (cells.map Cell.node) := by
    by_cases hne : cells = []
    · subst hne
      exact hfirst rfl
    · exact h.chain hne
  rw [MessageSlotDriver.findChannelId, h.loadList, ok_bind]
  exact findFrom_eq hchain h.holds (Nat.lt_succ_of_le hfuel)

section Updates

variable [DecidableEq Addr]

@[simp] theorem set_heap_self (m : Memory Addr) (a : Addr) (b : Block Addr) :
    (m.set a b).heap a = some b :=
  Function.update_self ..

theorem set_heap_of_ne (m : Memory Addr) {a x : Addr} (b : Block Addr) (h : x ≠ a) :
    (m.set a b).heap x = m.heap x :=
  Function.update_of_ne h ..

/-- Writing fields of a live node. -/
theorem updateNode_eq {n : ListNode Addr} (h : m.heap a = some (.node n))
    (f : ListNode Addr → ListNode Addr) : updateNode m a f = .ok (m.set a (.node (f n))) := by
  simp only [updateNode, loadNode, h, ok_bind]

/-- Writing fields of a live header. -/
theorem updateList_eq {l : LinkedList Addr} (h : m.heap a = some (.list l))
    (f : LinkedList Addr → LinkedList Addr) : updateList m a f = .ok (m.set a (.list (f l))) := by
  simp only [updateList, loadList, h, ok_bind]

/-- Freeing a block that was just allocated restores the heap. -/
theorem kfree_set (h : m.heap a = none) (b : Block Addr) : kfree (m.set a b) a = .ok m := by
  have hheap : Function.update (Function.update m.heap a (some b)) a none = m.heap := by
    rw [Function.update_idem, ← h, Function.update_eq_self]
  rw [kfree, set_heap_self, Option.isSome_some, if_pos rfl]
  simp only [Memory.set, hheap]

/-- The blocks of a write are new. -/
structure Fresh (m : Memory Addr) (answers : WriteAnswers Addr) : Prop where
  node : ∀ node ∈ answers.node, m.heap node.1 = none
  msg : ∀ msg ∈ answers.msg, m.heap msg.1 = none
  apart : ∀ node ∈ answers.node, ∀ msg ∈ answers.msg, node.1 ≠ msg.1

variable {answers : WriteAnswers Addr}

/-- Without one of its two blocks `createNode` leaves the heap as it was. -/
theorem createNode_fails (h : Fresh m answers) (hfail : answers.node = none ∨ answers.msg = none)
    (channelId : BitVec 32) : createNode m channelId answers = .ok (none, m) := by
  cases hnode : answers.node with
  | none => simp only [createNode, hnode]
  | some block =>
    have hmsg : answers.msg = none := by simpa [hnode] using hfail
    simp only [createNode, hnode, hmsg, kfree_set (h.node block hnode), ok_bind]

/-- The cell of a new node. -/
def newCell (channelId : BitVec 32) (node : Addr × ListNode Addr) (msg : Addr × (ℕ → Byte)) :
    Cell Addr :=
  ⟨node.1, channelId, msg.1, node.2.msgLength, bytesOf bufLen msg.2⟩

/-- With both blocks `createNode` builds a node that points nowhere. -/
theorem createNode_builds (h : Fresh m answers) {node : Addr × ListNode Addr}
    {msg : Addr × (ℕ → Byte)} (hnode : answers.node = some node) (hmsg : answers.msg = some msg)
    (channelId : BitVec 32) :
    ∃ m', createNode m channelId answers = .ok (some node.1, m') ∧
      m'.heap node.1 = some (.node ⟨channelId, some msg.1, node.2.msgLength, none⟩) ∧
      m'.heap msg.1 = some (.bytes (bytesOf bufLen msg.2)) ∧
      (∀ x, x ≠ node.1 → x ≠ msg.1 → m'.heap x = m.heap x) ∧ m'.created = m.created := by
  have hne : node.1 ≠ msg.1 := h.apart node hnode msg hmsg
  have hload : ((m.set node.1 (.node node.2)).set msg.1 (.bytes (bytesOf bufLen msg.2))).heap
      node.1 = some (.node node.2) := by
    rw [set_heap_of_ne _ _ hne, set_heap_self]
  have hcreate : createNode m channelId answers = .ok (some node.1,
      ((m.set node.1 (.node node.2)).set msg.1 (.bytes (bytesOf bufLen msg.2))).set node.1
        (.node { node.2 with msg := some msg.1, channelId := channelId, next := none })) := by
    simp only [createNode, hnode, hmsg, updateNode_eq hload, ok_bind]
  refine ⟨_, hcreate, by rw [set_heap_self], ?_, fun x hxn hxm => ?_, rfl⟩
  · rw [set_heap_of_ne _ _ hne.symm, set_heap_self]
  · rw [set_heap_of_ne _ _ hxn, set_heap_of_ne _ _ hxm, set_heap_of_ne _ _ hxn]

/-- Counting a new node, up to the largest signed 32-bit size. -/
theorem growSize_eq {l : LinkedList Addr} (h : m.heap lst = some (.list l)) :
    growSize m lst =
      if l.size = 2 ^ 31 - 1 then .error .signedOverflow
      else .ok { m.set lst (.list { l with size := l.size + 1 }) with created := m.created + 1 } := by
  simp only [growSize, loadList, h, ok_bind]

end Updates

end OSCourse.MessageSlotList
