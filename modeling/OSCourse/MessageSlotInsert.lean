import OSCourse.MessageSlotNodes

/-!
# Finding or creating a channel

What `getOrCreateNode` does to the nodes of a list is carried over to the
cells, which are nodes with their message blocks: it finds the cell of a
channel, or links one new cell at its place in the order with one changed
link and nothing else touched, or changes nothing.
-/

namespace OSCourse.MessageSlotInsert

open HeapSegments MessageSlotDriver MessageSlotList MessageSlotNodes

variable {Addr : Type}

/-- A new cell linked between two parts of a list. -/
structure Linked (m m' : Memory Addr) (lst : Addr) (first : Option Addr)
    (before after : List (Cell Addr)) (new : Cell Addr) : Prop where
  node : m'.heap new.node =
    some (.node ⟨new.channelId, some new.msg, new.msgLength, after.head?.map Cell.node⟩)
  msg : m'.heap new.msg = some (.bytes new.stored)
  header : m'.heap lst = some (.list
    ⟨if before.isEmpty then some new.node else first, (before.length + after.length : ℕ) + 1⟩)
  prev : ∀ p ∈ before.getLast?,
    m'.heap p.node = some (.node ⟨p.channelId, some p.msg, p.msgLength, some new.node⟩)
  others : ∀ x, x ≠ lst → x ≠ new.node → x ≠ new.msg → (∀ p ∈ before.getLast?, x ≠ p.node) →
    m'.heap x = m.heap x
  created : m'.created = m.created + 1

variable {m m' : Memory Addr} {lst : Addr} {first next : Option Addr}
  {before after : List (Cell Addr)} {c new p : Cell Addr} {channelId : BitVec 32}

/-- Cells other than the new one keep their contents. -/
theorem Linked.keeps (hlink : Linked m m' lst first before after new)
    (h : ListHolds m lst first (before ++ after)) (hnode : m.heap new.node = none)
    (hmsg : m.heap new.msg = none) (hc : c ∈ before ++ after) : CellHolds m' c := by
  obtain ⟨⟨hcn, hcm⟩, hmn, hmm⟩ := h.apart_from_dead hnode hmsg hc
  obtain ⟨hlst, hmlst, _⟩ := h.kinds hc hc
  obtain ⟨next, hold⟩ := (h.holds c hc).node_eq
  constructor
  · by_cases hp : ∃ p ∈ before.getLast?, c.node = p.node
    · obtain ⟨p, hp, heq⟩ := hp
      have hpmem : p ∈ before ++ after := List.mem_append_left _ (List.mem_of_getLast? hp)
      obtain ⟨next', hold'⟩ := (h.holds p hpmem).node_eq
      rw [heq, hold'] at hold
      have hprev := hlink.prev p hp
      rw [← heq] at hprev
      refine ⟨some new.node, ?_⟩
      rw [hprev]
      simp only [Option.some.injEq, Block.node.injEq, ListNode.mk.injEq] at hold ⊢
      obtain ⟨h1, h2, h3, -⟩ := hold
      exact ⟨h1, h2, h3, trivial⟩
    · refine ⟨next, ?_⟩
      rw [hlink.others _ hlst hcn hcm fun p hmem heq => hp ⟨p, hmem, heq⟩]
      exact hold
  · rw [hlink.others _ hmlst hmn hmm fun p hp heq => ?_]
    · exact (h.holds c hc).msg_eq
    · have hpmem : p ∈ before ++ after := List.mem_append_left _ (List.mem_of_getLast? hp)
      exact (h.kinds hpmem hc).2.2 heq.symm

/-- The nodes of a list of cells. -/
theorem nodesHold_of_listHolds {cells : List (Cell Addr)} (h : ListHolds m lst first cells) :
    NodesHold m lst first (cells.map Cell.node) where
  header := by rw [h.header, List.length_map]
  chain hne := h.chain (by simpa using hne)
  sorted := by
    rw [List.pairwise_map]
    refine h.sorted.imp_of_mem fun {c d} hc hd hlt => ?_
    obtain ⟨_, hnode⟩ := (h.holds c hc).node_eq
    obtain ⟨_, hnode'⟩ := (h.holds d hd).node_eq
    rwa [channelAt_eq hnode, channelAt_eq hnode']

/-- A cell linked to the cells of a list is a node joined to its nodes. -/
theorem Linked.joined (hlink : Linked m m' lst first before after new)
    (h : ListHolds m lst first (before ++ after)) :
    Joined m m' lst first (before.map Cell.node) (after.map Cell.node) new where
  node := by rw [hlink.node, List.head?_map]
  msg := hlink.msg
  header := by
    rw [hlink.header, List.length_map, List.length_map]
    cases before <;> rfl
  prev a ha n hn := by
    rw [List.getLast?_map] at ha
    obtain ⟨p, hp, rfl⟩ := Option.map_eq_some_iff.mp ha
    obtain ⟨_, hnode⟩ := (h.holds p (List.mem_append_left _ (List.mem_of_getLast? hp))).node_eq
    rw [hnode] at hn
    cases hn
    exact hlink.prev p hp
  others x hx hxn hxm hxp := by
    refine hlink.others x hx hxn hxm fun p hp => hxp p.node ?_
    rw [List.getLast?_map]
    exact Option.mem_map_of_mem Cell.node hp
  created := hlink.created

/-- The chain runs through the new node. -/
theorem Linked.chain (hlink : Linked m m' lst first before after new)
    (h : ListHolds m lst first (before ++ after)) (hnode : m.heap new.node = none)
    (hmsg : m.heap new.msg = none) :
    Chain (nodeLink m') (if before.isEmpty then some new.node else first)
      ((before ++ new :: after).map Cell.node) := by
  have hnodes := nodesHold_of_listHolds h
  rw [List.map_append] at hnodes
  have hchain := (hlink.joined h).chain hnodes hnode hmsg
  rw [List.map_append, List.map_cons]
  cases before <;> exact hchain

/-- A linked list with a new cell at its place in the order is in order. -/
theorem Linked.listHolds (hlink : Linked m m' lst first before after new)
    (h : ListHolds m lst first (before ++ after)) (hnode : m.heap new.node = none)
    (hmsg : m.heap new.msg = none)
    (hbefore : ∀ c ∈ before, c.channelId.toInt < new.channelId.toInt)
    (hafter : ∀ c ∈ after, new.channelId.toInt < c.channelId.toInt) :
    ListHolds m' lst (if before.isEmpty then some new.node else first) (before ++ new :: after) where
  header := by
    rw [hlink.header]
    simp only [List.length_append, List.length_cons]
    push_cast
    rw [Int.add_assoc]
  chain _ := hlink.chain h hnode hmsg
  holds c hc := by
    rcases List.mem_append.mp hc with hc | hc
    · exact hlink.keeps h hnode hmsg (List.mem_append_left _ hc)
    · rcases List.mem_cons.mp hc with rfl | hc
      · exact ⟨⟨_, hlink.node⟩, hlink.msg⟩
      · exact hlink.keeps h hnode hmsg (List.mem_append_right _ hc)
  sorted := by
    obtain ⟨hl, hr, hlr⟩ := List.pairwise_append.mp h.sorted
    refine List.pairwise_append.mpr ⟨hl, List.pairwise_cons.mpr ⟨hafter, hr⟩, ?_⟩
    intro c hc d hd
    rcases List.mem_cons.mp hd with rfl | hd
    · exact hbefore c hc
    · exact hlr c hc d hd
  apart := by
    have hnodup := h.apart
    have hnew : ∀ c ∈ before ++ after, c.msg ≠ new.msg := fun c hc =>
      (h.apart_from_dead hnode hmsg hc).2.2
    simp only [List.map_append, List.map_cons, List.nodup_middle, List.nodup_cons] at hnodup ⊢
    refine ⟨fun hmem => ?_, hnodup⟩
    rw [← List.map_append] at hmem
    obtain ⟨c, hc, heq⟩ := List.mem_map.mp hmem
    exact hnew c hc heq

/-- Cells on both sides of a place in the order have other channels. -/
theorem ne_of_sides (hbefore : ∀ c ∈ before, c.channelId.toInt < channelId.toInt)
    (hafter : ∀ c ∈ after, channelId.toInt < c.channelId.toInt) :
    ∀ c ∈ before ++ after, c.channelId ≠ channelId := by
  rintro c hc rfl
  rcases List.mem_append.mp hc with hc | hc
  · exact Int.lt_irrefl _ (hbefore c hc)
  · exact Int.lt_irrefl _ (hafter c hc)

/-- The channel of a cell is read from its node. -/
theorem CellHolds.channelAt_eq (h : CellHolds m c) : channelAt m c.node = c.channelId.toInt := by
  obtain ⟨_, hnode⟩ := h.node_eq
  exact MessageSlotNodes.channelAt_eq hnode

/-- A node joined to the nodes of a list is a cell linked to its cells. -/
theorem linked_of_joined (h : ListHolds m lst first (before ++ after))
    (hjoin : Joined m m' lst first (before.map Cell.node) (after.map Cell.node) new) :
    Linked m m' lst first before after new where
  node := by rw [hjoin.node, List.head?_map]
  msg := hjoin.msg
  header := by
    rw [hjoin.header, List.length_map, List.length_map]
    cases before <;> rfl
  prev p hp := by
    have hpmem : p ∈ before ++ after := List.mem_append_left _ (List.mem_of_getLast? hp)
    obtain ⟨_, hnode⟩ := (h.holds p hpmem).node_eq
    refine hjoin.prev p.node ?_ _ hnode
    rw [List.getLast?_map]
    exact Option.mem_map_of_mem Cell.node hp
  others x hx hxn hxm hxp := by
    refine hjoin.others x hx hxn hxm fun p hp => ?_
    rw [List.getLast?_map] at hp
    obtain ⟨q, hq, rfl⟩ := Option.map_eq_some_iff.mp hp
    exact hxp q hq
  created := hjoin.created

/-- What became of a new node: linked at its place, unless the size would
overflow. -/
def Inserted (m : Memory Addr) (lst : Addr) (first : Option Addr)
    (before after : List (Cell Addr)) (new : Cell Addr)
    (result : Except Fault (Option Addr × Memory Addr)) : Prop :=
  (((before ++ after).length : ℤ) = 2 ^ 31 - 1 ∧ result = .error .signedOverflow) ∨
    (((before ++ after).length : ℤ) ≠ 2 ^ 31 - 1 ∧
      ∃ m', result = .ok (some new.node, m') ∧ Linked m m' lst first before after new)

/-- The three outcomes of `getOrCreateNode` on a list. -/
inductive Outcome (m : Memory Addr) (lst : Addr) (first : Option Addr) (cells : List (Cell Addr))
    (channelId : BitVec 32) (answers : WriteAnswers Addr)
    (result : Except Fault (Option Addr × Memory Addr)) : Prop
  | found (c : Cell Addr) (hmem : c ∈ cells) (hchannel : c.channelId = channelId)
      (hresult : result = .ok (some c.node, m))
  | failed (hnew : ∀ c ∈ cells, c.channelId ≠ channelId)
      (hfail : answers.node = none ∨ answers.msg = none) (hresult : result = .ok (none, m))
  | inserted (before after : List (Cell Addr)) (node : Addr × ListNode Addr)
      (msg : Addr × (ℕ → Byte)) (hcells : cells = before ++ after)
      (hbefore : ∀ c ∈ before, c.channelId.toInt < channelId.toInt)
      (hafter : ∀ c ∈ after, channelId.toInt < c.channelId.toInt)
      (hnode : answers.node = some node) (hmsg : answers.msg = some msg)
      (hresult : Inserted m lst first before after (newCell channelId node msg) result)

/-- What `getOrCreateNode` does to a list: it finds the cell of the channel,
or links a new one at its place, or changes nothing. -/
theorem getOrCreateNode_outcome [DecidableEq Addr] {answers : WriteAnswers Addr}
    {cells : List (Cell Addr)} (h : ListHolds m lst first cells)
    (hfresh : Fresh m answers) (hfuel : cells.length ≤ m.created) (channelId : BitVec 32) :
    Outcome m lst first cells channelId answers (getOrCreateNode m lst channelId answers) := by
  have hchannel : ∀ c ∈ cells, channelAt m c.node = c.channelId.toInt :=
    fun c hc => CellHolds.channelAt_eq (h.holds c hc)
  cases getOrCreateNode_nodes (nodesHold_of_listHolds h) hfresh (by simpa using hfuel)
      channelId with
  | found a hmem ha hresult =>
    obtain ⟨c, hc, rfl⟩ := List.mem_map.mp hmem
    rw [hchannel c hc] at ha
    exact .found c hc (BitVec.eq_of_toInt_eq ha) hresult
  | failed hnew hfail hresult =>
    refine .failed (fun c hc heq => ?_) hfail hresult
    refine hnew c.node (List.mem_map_of_mem hc) ?_
    rw [hchannel c hc, heq]
  | placed left right node msg hnodes hleft hright hnode hmsg hresult =>
    obtain ⟨before, after, rfl, rfl, rfl⟩ := List.map_eq_append_iff.mp hnodes
    refine .inserted before after node msg rfl (fun c hc => ?_) (fun c hc => ?_) hnode hmsg ?_
    · rw [← hchannel c (List.mem_append_left _ hc)]
      exact hleft c.node (List.mem_map_of_mem hc)
    · rw [← hchannel c (List.mem_append_right _ hc)]
      exact hright c.node (List.mem_map_of_mem hc)
    · have hlength : (before.map Cell.node ++ after.map Cell.node).length =
          (before ++ after).length := by simp
      rw [Placed, hlength] at hresult
      rcases hresult with ⟨hfull, hresult⟩ | ⟨hfull, m', hresult, hjoin⟩
      · exact .inl ⟨hfull, hresult⟩
      · exact .inr ⟨hfull, m', hresult, linked_of_joined h hjoin⟩

end OSCourse.MessageSlotInsert
