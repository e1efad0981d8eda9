import Mathlib.Data.List.Nodup
import OSCourse.MessageSlotList

/-!
# The nodes of a channel list

`getOrCreateNode` reads and writes nodes and the header only, so what it
does is said about a list of node addresses, whatever the message pointers
are. It stops at the node of the channel or at the first larger one. Its
three ways of linking a new node, into an empty list, before a node and
behind the last one, have one effect, which is stated once: one new node at
its place, one changed link, and nothing else touched.
-/

namespace OSCourse.MessageSlotNodes

open HeapSegments MessageSlotDriver MessageSlotList

variable {Addr : Type}

/-- The channel of a node, as the signed number that is compared. -/
def channelAt (m : Memory Addr) (a : Addr) : ℤ :=
  match m.heap a with
  | some (.node n) => n.channelId.toInt
  | _ => 0

/-- The header counts these nodes, they are chained from its pointer unless
there is none, and they stand in the signed order of their channels. -/
structure NodesHold (m : Memory Addr) (lst : Addr) (first : Option Addr) (nodes : List Addr) :
    Prop where
  header : m.heap lst = some (.list ⟨first, nodes.length⟩)
  chain : nodes ≠ [] → Chain (nodeLink m) first nodes
  sorted : nodes.Pairwise fun a b => channelAt m a < channelAt m b

/-- A new cell that is in the heap but on no list. -/
structure Built (m m' : Memory Addr) (new : Cell Addr) (next : Option Addr) : Prop where
  node : m'.heap new.node =
    some (.node ⟨new.channelId, some new.msg, new.msgLength, next⟩)
  msg : m'.heap new.msg = some (.bytes new.stored)
  others : ∀ x, x ≠ new.node → x ≠ new.msg → m'.heap x = m.heap x
  created : m'.created = m.created

/-- A new cell whose node was joined between two parts of a list. -/
structure Joined (m m' : Memory Addr) (lst : Addr) (first : Option Addr) (before after : List Addr)
    (new : Cell Addr) : Prop where
  node : m'.heap new.node =
    some (.node ⟨new.channelId, some new.msg, new.msgLength, after.head?⟩)
  msg : m'.heap new.msg = some (.bytes new.stored)
  header : m'.heap lst = some (.list
    ⟨if before.isEmpty then some new.node else first, (before.length + after.length : ℕ) + 1⟩)
  prev : ∀ p ∈ before.getLast?, ∀ n, m.heap p = some (.node n) →
    m'.heap p = some (.node { n with next := some new.node })
  others : ∀ x, x ≠ lst → x ≠ new.node → x ≠ new.msg → (∀ p ∈ before.getLast?, x ≠ p) →
    m'.heap x = m.heap x
  created : m'.created = m.created + 1

variable {m m' : Memory Addr} {lst a p : Addr} {first next : Option Addr}
  {nodes before after : List Addr} {new : Cell Addr} {channelId : BitVec 32} {n : ListNode Addr}

theorem channelAt_eq (h : m.heap a = some (.node n)) : channelAt m a = n.channelId.toInt := by
  simp only [channelAt, h]

/-- A link is read from a live node. -/
theorem node_of_link (h : nodeLink m a = some next) :
    ∃ n, m.heap a = some (.node n) ∧ n.next = next := by
  unfold nodeLink at h
  split at h
  · rename_i n hn
    exact ⟨n, hn, Option.some.inj h⟩
  · cases h

/-- Every listed address is that of a node. -/
theorem NodesHold.node (h : NodesHold m lst first nodes) (ha : a ∈ nodes) :
    ∃ n, m.heap a = some (.node n) := by
  obtain ⟨next, hnext⟩ := (h.chain (List.ne_nil_of_mem ha)).live ha
  obtain ⟨n, hn, _⟩ := node_of_link hnext
  exact ⟨n, hn⟩

/-- A node is not the header. -/
theorem NodesHold.ne_lst (h : NodesHold m lst first nodes) (ha : a ∈ nodes) : a ≠ lst := by
  obtain ⟨n, hn⟩ := h.node ha
  intro heq
  rw [heq, h.header] at hn
  cases hn

/-- A dead block is neither the header nor a node. -/
theorem NodesHold.not_dead (h : NodesHold m lst first nodes) (ha : m.heap a = none) :
    a ≠ lst ∧ a ∉ nodes := by
  constructor
  · intro heq
    rw [heq, h.header] at ha
    cases ha
  · intro hmem
    obtain ⟨n, hn⟩ := h.node hmem
    rw [ha] at hn
    cases hn

theorem NodesHold.nodup (h : NodesHold m lst first nodes) : nodes.Nodup := by
  by_cases hne : nodes = []
  · rw [hne]
    exact List.nodup_nil
  · exact (h.chain hne).nodup

/-- Reading the header. -/
theorem NodesHold.loadList (h : NodesHold m lst first nodes) :
    loadList m lst = .ok ⟨first, nodes.length⟩ := by
  simp only [MessageSlotDriver.loadList, h.header]

/-- Reading a node of the list. -/
theorem NodesHold.loadNode (h : NodesHold m lst first nodes) (ha : a ∈ nodes) :
    ∃ n, m.heap a = some (.node n) ∧ loadNode m a = .ok n := by
  obtain ⟨n, hn⟩ := h.node ha
  exact ⟨n, hn, by simp only [MessageSlotDriver.loadNode, hn]⟩

/-- One channel has at most one node. -/
theorem NodesHold.unique (h : NodesHold m lst first nodes) {b : Addr} (ha : a ∈ nodes)
    (hb : b ∈ nodes) (heq : channelAt m a = channelAt m b) : a = b := by
  obtain ⟨i, hi, rfl⟩ := List.getElem_of_mem ha
  obtain ⟨j, hj, rfl⟩ := List.getElem_of_mem hb
  rcases Nat.lt_trichotomy i j with hij | rfl | hji
  · have hlt := List.pairwise_iff_getElem.mp h.sorted i j hi hj hij
    omega
  · rfl
  · have hlt := List.pairwise_iff_getElem.mp h.sorted j i hj hi hji
    omega

/-- The node before the place of a new one is on the list. -/
theorem mem_of_prev (hp : p ∈ before.getLast?) : p ∈ before ++ after :=
  List.mem_append_left _ (List.mem_of_getLast? hp)

/-- Nodes other than the new one keep all their fields but the link. -/
theorem Joined.keeps (hjoin : Joined m m' lst first before after new)
    (h : NodesHold m lst first (before ++ after)) (hnode : m.heap new.node = none)
    (hmsg : m.heap new.msg = none) (ha : a ∈ before ++ after) (hn : m.heap a = some (.node n)) :
    ∃ next, m'.heap a = some (.node { n with next := next }) := by
  by_cases hp : a ∈ before.getLast?
  · exact ⟨_, hjoin.prev a hp n hn⟩
  · refine ⟨n.next, ?_⟩
    have hnew : a ≠ new.node := fun heq => (h.not_dead hnode).2 (heq ▸ ha)
    have hbuf : a ≠ new.msg := fun heq => (h.not_dead hmsg).2 (heq ▸ ha)
    rw [hjoin.others a (h.ne_lst ha) hnew hbuf fun p hmem heq => hp (heq ▸ hmem), hn]

/-- Their channels are what they were. -/
theorem Joined.channelAt_eq (hjoin : Joined m m' lst first before after new)
    (h : NodesHold m lst first (before ++ after)) (hnode : m.heap new.node = none)
    (hmsg : m.heap new.msg = none) (ha : a ∈ before ++ after) :
    channelAt m' a = channelAt m a := by
  obtain ⟨n, hn⟩ := h.node ha
  obtain ⟨next, hn'⟩ := hjoin.keeps h hnode hmsg ha hn
  rw [MessageSlotNodes.channelAt_eq hn, MessageSlotNodes.channelAt_eq hn']

/-- Links of nodes other than the one before the new node are unchanged. -/
theorem Joined.nodeLink_eq (hjoin : Joined m m' lst first before after new)
    (h : NodesHold m lst first (before ++ after)) (hnode : m.heap new.node = none)
    (hmsg : m.heap new.msg = none) (ha : a ∈ before ++ after)
    (hlast : ∀ p ∈ before.getLast?, a ≠ p) : nodeLink m' a = nodeLink m a := by
  have hnew : a ≠ new.node := fun heq => (h.not_dead hnode).2 (heq ▸ ha)
  have hbuf : a ≠ new.msg := fun heq => (h.not_dead hmsg).2 (heq ▸ ha)
  simp only [nodeLink, hjoin.others _ (h.ne_lst ha) hnew hbuf hlast]

/-- The chain runs through the new node. -/
theorem Joined.chain (hjoin : Joined m m' lst first before after new)
    (h : NodesHold m lst first (before ++ after)) (hnode : m.heap new.node = none)
    (hmsg : m.heap new.msg = none) :
    Chain (nodeLink m') (if before.isEmpty then some new.node else first)
      (before ++ new.node :: after) := by
  have hnew : nodeLink m' new.node = some after.head? := MessageSlotList.nodeLink_eq hjoin.node
  rcases List.eq_nil_or_concat before with rfl | ⟨front, p, rfl⟩
  · have hafter : Chain (nodeLink m) after.head? after := by
      by_cases hne : after = []
      · rw [hne]
        rfl
      · have hchain := h.chain (by simpa using hne)
        rw [List.nil_append] at hchain
        rwa [← hchain.first_eq]
    refine hafter.push_front hnew fun a ha => ?_
    exact hjoin.nodeLink_eq h hnode hmsg (by simpa using ha) (by simp)
  · rw [List.concat_eq_append] at h hjoin ⊢
    have hlast : (front ++ [p]).getLast? = some p := List.getLast?_concat
    obtain ⟨n, hn⟩ := h.node (mem_of_prev hlast)
    have hprev := MessageSlotList.nodeLink_eq (hjoin.prev p hlast n hn)
    have hnodup := h.nodup
    simp only [List.append_assoc, List.singleton_append, List.nodup_middle, List.nodup_cons,
      List.mem_append] at hnodup
    have hkeep : ∀ a, a ∈ front ∨ a ∈ after → nodeLink m' a = nodeLink m a := by
      intro a ha
      refine hjoin.nodeLink_eq h hnode hmsg ?_ fun q hq => ?_
      · simp only [List.mem_append]
        tauto
      · rw [hlast] at hq
        obtain rfl : p = q := by simpa using hq
        exact fun heq => hnodup.1 (heq ▸ ha)
    have hempty : (front ++ [p]).isEmpty = false := by simp
    rw [hempty]
    exact (h.chain (by simp)).splice hprev hnew (fun a ha => hkeep a (.inl ha))
      fun a ha => hkeep a (.inr ha)

/-- A list with a new node at its place in the order is in order. -/
theorem Joined.nodesHold (hjoin : Joined m m' lst first before after new)
    (h : NodesHold m lst first (before ++ after)) (hnode : m.heap new.node = none)
    (hmsg : m.heap new.msg = none)
    (hbefore : ∀ a ∈ before, channelAt m a < new.channelId.toInt)
    (hafter : ∀ a ∈ after, new.channelId.toInt < channelAt m a) :
    NodesHold m' lst (if before.isEmpty then some new.node else first)
      (before ++ new.node :: after) where
  header := by
    rw [hjoin.header]
    simp only [List.length_append, List.length_cons]
    push_cast
    rw [Int.add_assoc]
  chain _ := hjoin.chain h hnode hmsg
  sorted := by
    have hnew : channelAt m' new.node = new.channelId.toInt :=
      MessageSlotNodes.channelAt_eq hjoin.node
    have hold : ∀ a ∈ before ++ after, channelAt m' a = channelAt m a :=
      fun a ha => hjoin.channelAt_eq h hnode hmsg ha
    have hsorted : (before ++ after).Pairwise fun a b => channelAt m' a < channelAt m' b := by
      refine h.sorted.imp_of_mem fun {a b} ha hb hlt => ?_
      rwa [hold a ha, hold b hb]
    obtain ⟨hl, hr, hlr⟩ := List.pairwise_append.mp hsorted
    refine List.pairwise_append.mpr ⟨hl, List.pairwise_cons.mpr ⟨fun a ha => ?_, hr⟩, ?_⟩
    · rw [hnew, hold a (List.mem_append_right _ ha)]
      exact hafter a ha
    · intro a ha b hb
      rcases List.mem_cons.mp hb with rfl | hb
      · rw [hnew, hold a (List.mem_append_left _ ha)]
        exact hbefore a ha
      · exact hlr a ha b hb

/-- The loop goes on when the channel is larger than that of the node. -/
theorem smaller_concat (hbefore : ∀ b ∈ before, channelAt m b < channelId.toInt)
    (hn : m.heap a = some (.node n)) (hne : channelId ≠ n.channelId)
    (hlt : ¬channelId.slt n.channelId = true) :
    ∀ b ∈ before ++ [a], channelAt m b < channelId.toInt := by
  intro b hb
  rcases List.mem_append.mp hb with hb | hb
  · exact hbefore b hb
  · rw [List.mem_singleton.mp hb, channelAt_eq hn]
    have hle : n.channelId.toInt ≤ channelId.toInt := by simpa [BitVec.slt] using hlt
    have hneInt : n.channelId.toInt ≠ channelId.toInt := fun heq =>
      hne (BitVec.eq_of_toInt_eq heq.symm)
    omega

section Functions

variable [DecidableEq Addr] {answers : WriteAnswers Addr}

/-- Writing the first pointer and the size of a header whose new first node
is built. -/
theorem Built.linkFirst (after : List Addr) (hbuilt : Built m m' new after.head?)
    (h : NodesHold m lst first after) (hnode : m.heap new.node = none)
    (hmsg : m.heap new.msg = none) :
    ∃ m₁, (updateList m' lst fun l => { l with first := some new.node }) = .ok m₁ ∧
      (((after.length : ℤ) = 2 ^ 31 - 1 ∧ growSize m₁ lst = .error .signedOverflow) ∨
        ((after.length : ℤ) ≠ 2 ^ 31 - 1 ∧
          ∃ m₂, growSize m₁ lst = .ok m₂ ∧ Joined m m₂ lst first [] after new)) := by
  have hln : lst ≠ new.node := (h.not_dead hnode).1.symm
  have hlm : lst ≠ new.msg := (h.not_dead hmsg).1.symm
  have hheader : m'.heap lst = some (.list ⟨first, after.length⟩) := by
    rw [hbuilt.others lst hln hlm, h.header]
  refine ⟨_, updateList_eq hheader _, ?_⟩
  rw [growSize_eq (set_heap_self ..)]
  by_cases hfull : (after.length : ℤ) = 2 ^ 31 - 1
  · exact .inl ⟨hfull, by simp only [hfull, if_true]⟩
  · refine .inr ⟨hfull, _, by simp only [hfull, if_false]; rfl, ?_⟩
    have hother : ∀ x, x ≠ lst → (((m'.set lst (.list ⟨some new.node, after.length⟩)).set lst
        (.list ⟨some new.node, after.length + 1⟩)).heap x) = m'.heap x := fun x hx => by
      rw [set_heap_of_ne _ _ hx, set_heap_of_ne _ _ hx]
    constructor
    · exact (hother _ hln.symm).trans hbuilt.node
    · exact (hother _ hlm.symm).trans hbuilt.msg
    · simp
    · simp
    · intro x hx hxn hxm _
      exact (hother x hx).trans (hbuilt.others x hxn hxm)
    · exact congrArg (· + 1) hbuilt.created

/-- Writing the link of the node before the new one, and the size. -/
theorem Built.linkBehind (before after : List Addr) (hbuilt : Built m m' new after.head?)
    (h : NodesHold m lst first (before ++ after)) (hnode : m.heap new.node = none)
    (hmsg : m.heap new.msg = none) (hp : p ∈ before.getLast?) :
    ∃ m₁, (updateNode m' p fun c => { c with next := some new.node }) = .ok m₁ ∧
      ((((before ++ after).length : ℤ) = 2 ^ 31 - 1 ∧
          growSize m₁ lst = .error .signedOverflow) ∨
        (((before ++ after).length : ℤ) ≠ 2 ^ 31 - 1 ∧
          ∃ m₂, growSize m₁ lst = .ok m₂ ∧ Joined m m₂ lst first before after new)) := by
  have hpmem : p ∈ before ++ after := mem_of_prev hp
  have hln : lst ≠ new.node := (h.not_dead hnode).1.symm
  have hlm : lst ≠ new.msg := (h.not_dead hmsg).1.symm
  have hpn : p ≠ new.node := fun heq => (h.not_dead hnode).2 (heq ▸ hpmem)
  have hpm : p ≠ new.msg := fun heq => (h.not_dead hmsg).2 (heq ▸ hpmem)
  have hpl := h.ne_lst hpmem
  have hempty : before.isEmpty = false := by
    cases before with
    | nil => simp at hp
    | cons => rfl
  obtain ⟨old, hold⟩ := h.node hpmem
  have hcell : m'.heap p = some (.node old) := by rw [hbuilt.others _ hpn hpm, hold]
  have hheader : m'.heap lst = some (.list ⟨first, (before ++ after).length⟩) := by
    rw [hbuilt.others lst hln hlm, h.header]
  refine ⟨_, updateNode_eq hcell _, ?_⟩
  rw [growSize_eq ((set_heap_of_ne _ _ hpl.symm).trans hheader)]
  by_cases hfull : ((before ++ after).length : ℤ) = 2 ^ 31 - 1
  · exact .inl ⟨hfull, by simp only [hfull, if_true]⟩
  · refine .inr ⟨hfull, _, by simp only [hfull, if_false]; rfl, ?_⟩
    have hother : ∀ x, x ≠ lst → x ≠ p → (((m'.set p
        (.node { old with next := some new.node })).set lst
          (.list ⟨first, (before ++ after).length + 1⟩)).heap x) = m'.heap x := fun x hx hxp => by
      rw [set_heap_of_ne _ _ hx, set_heap_of_ne _ _ hxp]
    constructor
    · exact (hother _ hln.symm hpn.symm).trans hbuilt.node
    · exact (hother _ hlm.symm hpm.symm).trans hbuilt.msg
    · simp [hempty]
    · intro q hq n hn
      obtain rfl : p = q := Option.some.inj (hp.symm.trans hq)
      obtain rfl : old = n := by simpa [hold] using hn
      exact (set_heap_of_ne _ _ hpl).trans (set_heap_self ..)
    · intro x hx hxn hxm hxp
      exact (hother x hx (hxp p hp)).trans (hbuilt.others x hxn hxm)
    · exact congrArg (· + 1) hbuilt.created

/-- What became of a new node: joined at its place, unless the size would
overflow. -/
def Placed (m : Memory Addr) (lst : Addr) (first : Option Addr) (before after : List Addr)
    (new : Cell Addr) (result : Except Fault (Option Addr × Memory Addr)) : Prop :=
  (((before ++ after).length : ℤ) = 2 ^ 31 - 1 ∧ result = .error .signedOverflow) ∨
    (((before ++ after).length : ℤ) ≠ 2 ^ 31 - 1 ∧
      ∃ m', result = .ok (some new.node, m') ∧ Joined m m' lst first before after new)

/-- What `createNode` builds, as a cell off the list. -/
theorem createNode_built (hfresh : Fresh m answers) {node : Addr × ListNode Addr}
    {msg : Addr × (ℕ → Byte)} (hnode : answers.node = some node) (hmsg : answers.msg = some msg)
    (channelId : BitVec 32) :
    ∃ m', createNode m channelId answers = .ok (some (newCell channelId node msg).node, m') ∧
      Built m m' (newCell channelId node msg) none := by
  obtain ⟨m', hcreate, hn, hm, hothers, hcreated⟩ := createNode_builds hfresh hnode hmsg channelId
  exact ⟨m', hcreate, hn, hm, hothers, hcreated⟩

/-- Pointing the new node at its successor. -/
theorem Built.point (hbuilt : Built m m' new none) (hne : new.node ≠ new.msg) (next : Addr) :
    ∃ m₁, (updateNode m' new.node fun c => { c with next := some next }) = .ok m₁ ∧
      Built m m₁ new (some next) := by
  refine ⟨_, updateNode_eq hbuilt.node _, set_heap_self .., ?_, fun x hxn hxm => ?_, hbuilt.created⟩
  · rw [set_heap_of_ne _ _ hne.symm]
    exact hbuilt.msg
  · rw [set_heap_of_ne _ _ hxn]
    exact hbuilt.others x hxn hxm

/-- A node linked before another one. -/
theorem insertBefore_eq (h : NodesHold m lst first (before ++ a :: after))
    (hfresh : Fresh m answers) {node : Addr × ListNode Addr} {msg : Addr × (ℕ → Byte)}
    (hnode : answers.node = some node) (hmsg : answers.msg = some msg) (channelId : BitVec 32) :
    Placed m lst first before (a :: after) (newCell channelId node msg)
      (insertBefore m lst channelId answers before.getLast? a) := by
  have hdeadNode : m.heap (newCell channelId node msg).node = none := hfresh.node node hnode
  have hdeadMsg : m.heap (newCell channelId node msg).msg = none := hfresh.msg msg hmsg
  obtain ⟨m₀, hcreate, hbuilt⟩ := createNode_built hfresh hnode hmsg channelId
  obtain ⟨m₁, hpoint, hpointed⟩ := hbuilt.point (hfresh.apart node hnode msg hmsg) a
  cases hlast : before.getLast? with
  | none =>
    obtain rfl : before = [] := List.getLast?_eq_none_iff.mp hlast
    obtain ⟨m₂, hupdate, hgrow⟩ := hpointed.linkFirst (a :: after) h hdeadNode hdeadMsg
    rcases hgrow with ⟨hfull, hgrow⟩ | ⟨hfull, m₃, hgrow, hjoin⟩
    · refine .inl ⟨hfull, ?_⟩
      simp only [insertBefore, hcreate, ok_bind, hpoint, hupdate, hgrow, error_bind]
    · refine .inr ⟨hfull, m₃, ?_, hjoin⟩
      simp only [insertBefore, hcreate, ok_bind, hpoint, hupdate, hgrow]
  | some p =>
    obtain ⟨m₂, hupdate, hgrow⟩ :=
      hpointed.linkBehind before (a :: after) h hdeadNode hdeadMsg hlast
    rcases hgrow with ⟨hfull, hgrow⟩ | ⟨hfull, m₃, hgrow, hjoin⟩
    · refine .inl ⟨hfull, ?_⟩
      simp only [insertBefore, hcreate, ok_bind, hpoint, hupdate, hgrow, error_bind]
    · refine .inr ⟨hfull, m₃, ?_, hjoin⟩
      simp only [insertBefore, hcreate, ok_bind, hpoint, hupdate, hgrow]

/-- A node linked behind the last one. -/
theorem append_eq (h : NodesHold m lst first (before ++ [])) (hp : p ∈ before.getLast?)
    (hfresh : Fresh m answers) {node : Addr × ListNode Addr} {msg : Addr × (ℕ → Byte)}
    (hnode : answers.node = some node) (hmsg : answers.msg = some msg) (channelId : BitVec 32) :
    Placed m lst first before [] (newCell channelId node msg)
      (append m lst channelId answers p) := by
  obtain ⟨m₀, hcreate, hbuilt⟩ := createNode_built hfresh hnode hmsg channelId
  obtain ⟨m₁, hupdate, hgrow⟩ := hbuilt.linkBehind before [] h (hfresh.node node hnode)
    (hfresh.msg msg hmsg) hp
  rcases hgrow with ⟨hfull, hgrow⟩ | ⟨hfull, m₂, hgrow, hjoin⟩
  · refine .inl ⟨hfull, ?_⟩
    simp only [append, hcreate, ok_bind, hupdate, hgrow, error_bind]
  · refine .inr ⟨hfull, m₂, ?_, hjoin⟩
    simp only [append, hcreate, ok_bind, hupdate, hgrow]

/-- The three outcomes of `getOrCreateNode` on a list of nodes. -/
inductive NodeOutcome (m : Memory Addr) (lst : Addr) (first : Option Addr) (nodes : List Addr)
    (channelId : BitVec 32) (answers : WriteAnswers Addr)
    (result : Except Fault (Option Addr × Memory Addr)) : Prop
  | found (a : Addr) (hmem : a ∈ nodes) (hchannel : channelAt m a = channelId.toInt)
      (hresult : result = .ok (some a, m))
  | failed (hnew : ∀ a ∈ nodes, channelAt m a ≠ channelId.toInt)
      (hfail : answers.node = none ∨ answers.msg = none) (hresult : result = .ok (none, m))
  | placed (before after : List Addr) (node : Addr × ListNode Addr) (msg : Addr × (ℕ → Byte))
      (hnodes : nodes = before ++ after)
      (hbefore : ∀ a ∈ before, channelAt m a < channelId.toInt)
      (hafter : ∀ a ∈ after, channelId.toInt < channelAt m a)
      (hnode : answers.node = some node) (hmsg : answers.msg = some msg)
      (hresult : Placed m lst first before after (newCell channelId node msg) result)

omit [DecidableEq Addr] in
/-- The place of a new channel is found, whether or not the blocks for its
node arrive. -/
theorem outcome_of_place (before after : List Addr)
    {result : Except Fault (Option Addr × Memory Addr)}
    (hbefore : ∀ a ∈ before, channelAt m a < channelId.toInt)
    (hafter : ∀ a ∈ after, channelId.toInt < channelAt m a)
    (hfails : answers.node = none ∨ answers.msg = none → result = .ok (none, m))
    (hbuilds : ∀ node msg, answers.node = some node → answers.msg = some msg →
      Placed m lst first before after (newCell channelId node msg) result) :
    NodeOutcome m lst first (before ++ after) channelId answers result := by
  have hnew : ∀ a ∈ before ++ after, channelAt m a ≠ channelId.toInt := by
    intro a ha
    rcases List.mem_append.mp ha with ha | ha
    · exact Int.ne_of_lt (hbefore a ha)
    · exact (Int.ne_of_lt (hafter a ha)).symm
  cases hnode : answers.node with
  | none => exact .failed hnew (.inl hnode) (hfails (.inl hnode))
  | some node =>
    cases hmsg : answers.msg with
    | none => exact .failed hnew (.inr hmsg) (hfails (.inr hmsg))
    | some msg =>
      exact .placed before after node msg rfl hbefore hafter hnode hmsg
        (hbuilds node msg hnode hmsg)

/-- The loop of `getOrCreateNode`, once the nodes before are known to be
smaller. -/
theorem scan_outcome (before : List Addr) (h : NodesHold m lst first (before ++ a :: after))
    (hfresh : Fresh m answers) (hbefore : ∀ b ∈ before, channelAt m b < channelId.toInt)
    {fuel : ℕ} (hfuel : after.length < fuel) :
    NodeOutcome m lst first (before ++ a :: after) channelId answers
      (scan m lst channelId answers fuel before.getLast? a) := by
  induction after generalizing before a fuel with
  | nil =>
    obtain ⟨fuel, rfl⟩ := Nat.exists_eq_succ_of_ne_zero (Nat.ne_zero_of_lt hfuel)
    have ha : a ∈ before ++ [a] := List.mem_append_right _ List.mem_cons_self
    obtain ⟨n, hn, hload⟩ := h.loadNode ha
    have hlink := (h.chain (by simp)).link_last
    rw [MessageSlotList.nodeLink_eq hn, Option.some.injEq] at hlink
    simp only [scan, hload, ok_bind, hlink]
    by_cases heq : channelId = n.channelId
    · rw [if_pos heq]
      exact .found a ha (by rw [channelAt_eq hn, heq]) rfl
    · rw [if_neg heq]
      by_cases hlt : channelId.slt n.channelId = true
      · rw [if_pos hlt]
        refine outcome_of_place before _ hbefore ?_ (fun hfail => ?_) fun node msg hnode hmsg => ?_
        · simpa [BitVec.slt, channelAt_eq hn] using hlt
        · simp only [insertBefore, createNode_fails hfresh hfail, ok_bind]
        · exact insertBefore_eq h hfresh hnode hmsg channelId
      · rw [if_neg hlt]
        have hall := smaller_concat hbefore hn heq hlt
        rw [← List.append_nil (before ++ [a])] at h ⊢
        refine outcome_of_place (before ++ [a]) [] hall (by simp) (fun hfail => ?_)
          fun node msg hnode hmsg => ?_
        · simp only [append, createNode_fails hfresh hfail, ok_bind]
        · exact append_eq h List.getLast?_concat hfresh hnode hmsg channelId
  | cons b after ih =>
    obtain ⟨fuel, rfl⟩ := Nat.exists_eq_succ_of_ne_zero (Nat.ne_zero_of_lt hfuel)
    have ha : a ∈ before ++ a :: b :: after := List.mem_append_right _ List.mem_cons_self
    obtain ⟨n, hn, hload⟩ := h.loadNode ha
    obtain ⟨_, _, _, next, hnext, hb, _⟩ := segment_append.mp (h.chain (by simp))
    rw [MessageSlotList.nodeLink_eq hn, Option.some.injEq] at hnext
    subst hb
    simp only [scan, hload, ok_bind, hnext]
    by_cases heq : channelId = n.channelId
    · rw [if_pos heq]
      exact .found a ha (by rw [channelAt_eq hn, heq]) rfl
    · rw [if_neg heq]
      by_cases hlt : channelId.slt n.channelId = true
      · rw [if_pos hlt]
        have haLt : channelId.toInt < channelAt m a := by
          simpa [BitVec.slt, channelAt_eq hn] using hlt
        refine outcome_of_place before _ hbefore ?_ (fun hfail => ?_) fun node msg hnode hmsg => ?_
        · have hsorted := (List.pairwise_append.mp h.sorted).2.1
          intro c hc
          rcases List.mem_cons.mp hc with rfl | hc
          · exact haLt
          · exact Int.lt_trans haLt ((List.pairwise_cons.mp hsorted).1 c hc)
        · simp only [insertBefore, createNode_fails hfresh hfail, ok_bind]
        · exact insertBefore_eq h hfresh hnode hmsg channelId
      · rw [if_neg hlt]
        have hall := smaller_concat hbefore hn heq hlt
        have hnextScan : NodeOutcome m lst first (before ++ [a] ++ b :: after) channelId answers
            (scan m lst channelId answers fuel (before ++ [a]).getLast? b) :=
          ih _ (by simpa using h) hall (by simpa using hfuel)
        rw [List.getLast?_concat, List.append_assoc] at hnextScan
        exact hnextScan

/-- What `getOrCreateNode` does to a list of nodes: it finds the node of the
channel, or joins a new one at its place, or changes nothing. -/
theorem getOrCreateNode_nodes (h : NodesHold m lst first nodes) (hfresh : Fresh m answers)
    (hfuel : nodes.length ≤ m.created) (channelId : BitVec 32) :
    NodeOutcome m lst first nodes channelId answers
      (getOrCreateNode m lst channelId answers) := by
  rw [getOrCreateNode, h.loadList, ok_bind]
  cases nodes with
  | nil =>
    rw [if_pos (by simp)]
    refine outcome_of_place [] [] (by simp) (by simp) (fun hfail => ?_)
      fun node msg hnode hmsg => ?_
    · simp only [createNode_fails hfresh hfail, ok_bind]
    · obtain ⟨m₀, hcreate, hbuilt⟩ := createNode_built hfresh hnode hmsg channelId
      obtain ⟨m₁, hupdate, hgrow⟩ := hbuilt.linkFirst [] h (hfresh.node node hnode)
        (hfresh.msg msg hmsg)
      rcases hgrow with ⟨hfull, hgrow⟩ | ⟨hfull, m₂, hgrow, hjoin⟩
      · refine .inl ⟨hfull, ?_⟩
        simp only [hcreate, ok_bind, hupdate, hgrow, error_bind]
      · refine .inr ⟨hfull, m₂, ?_, hjoin⟩
        simp only [hcreate, ok_bind, hupdate, hgrow]
  | cons a nodes =>
    have hfirst : first = some a := (h.chain (by simp)).1
    rw [if_neg (by simp; omega), hfirst]
    rw [hfirst] at h
    exact scan_outcome [] h hfresh (by simp) (Nat.lt_succ_of_le (Nat.le_of_succ_le hfuel))

end Functions

end OSCourse.MessageSlotNodes
