import OSCourse.MessageSlotNodes

/-!
# The ordered list between two calls

Whatever the allocations answer, `getOrCreateNode` takes a well formed list
to a well formed list, and `findChannelId`, which does not know about the
order, finds afterwards what it would have found before and the new node.
-/

namespace OSCourse.MessageSlotOrdered

open HeapSegments MessageSlotDriver MessageSlotList MessageSlotNodes

variable {Addr : Type}

/-- The node of a channel among these nodes. -/
def nodeOf (m : Memory Addr) (nodes : List Addr) (channelId : BitVec 32) : Option Addr :=
  nodes.find? fun a => decide (channelAt m a = channelId.toInt)

/-- What a call of `getOrCreateNode` with this result did to a list: the nodes
before and after, and the memory before and after. -/
structure Kept (m m' : Memory Addr) (lst : Addr) (nodes nodes' : List Addr) (channelId : BitVec 32)
    (answers : WriteAnswers Addr) (result : Option Addr) : Prop where
  ordered : ∃ first, NodesHold m' lst first nodes'
  null_iff : result = none ↔ (∀ a ∈ nodes, channelAt m a ≠ channelId.toInt) ∧
    (answers.node = none ∨ answers.msg = none)
  unchanged : result = none → m' = m ∧ nodes' = nodes
  returned : ∀ a, result = some a → a ∈ nodes' ∧ channelAt m' a = channelId.toInt ∧
    ∀ b ∈ nodes', channelAt m' b = channelId.toInt → b = a
  created_iff : ∀ a, result = some a →
    (a ∉ nodes ↔ ∀ b ∈ nodes, channelAt m b ≠ channelId.toInt)
  existing : ∀ a, result = some a → a ∈ nodes → m' = m ∧ nodes' = nodes
  members : ∀ a, result = some a → ∀ b, b ∈ nodes' ↔ b = a ∨ b ∈ nodes
  others : ∀ b ∈ nodes, ∀ n, m.heap b = some (.node n) →
    ∃ next, m'.heap b = some (.node { n with next := next })
  messages : ∀ x b, m.heap x = some (.bytes b) → m'.heap x = some (.bytes b)
  finds : nodes ≠ [] → ∀ id, ∃ found, findChannelId m lst id = .ok found ∧
    findChannelId m' lst id = .ok (if id = channelId then result.or found else found)
  finds_new : ∀ a, result = some a → findChannelId m' lst channelId = .ok (some a)

variable {m m' : Memory Addr} {lst a : Addr} {first : Option Addr}
  {nodes before after : List Addr} {new : Cell Addr} {channelId : BitVec 32} {n : ListNode Addr}

/-- The comparison of `findChannelId` is one of signed numbers. -/
theorem channelId_eq_iff (hn : m.heap a = some (.node n)) :
    n.channelId = channelId ↔ channelAt m a = channelId.toInt := by
  rw [channelAt_eq hn]
  exact ⟨fun heq => by rw [heq], BitVec.eq_of_toInt_eq⟩

/-- The search visits the nodes of the chain one after the other. -/
theorem findFrom_nodes {fuel : ℕ} (hchain : Chain (nodeLink m) first nodes)
    (hfuel : nodes.length < fuel) :
    findFrom m channelId fuel first = .ok (nodeOf m nodes channelId) := by
  induction nodes generalizing first fuel with
  | nil =>
    obtain rfl : first = none := hchain
    cases fuel <;> rfl
  | cons a nodes ih =>
    obtain ⟨rfl, next, hnext, hrest⟩ := hchain
    obtain ⟨fuel, rfl⟩ := Nat.exists_eq_succ_of_ne_zero (Nat.ne_zero_of_lt hfuel)
    obtain ⟨n, hn, rfl⟩ := node_of_link hnext
    have hload : loadNode m a = .ok n := by simp only [loadNode, hn]
    simp only [findFrom, hload, ok_bind]
    by_cases heq : n.channelId = channelId
    · rw [if_pos heq, nodeOf, List.find?_cons_of_pos]
      exact decide_eq_true ((channelId_eq_iff hn).mp heq)
    · rw [if_neg heq, ih hrest (by simpa using hfuel), nodeOf, nodeOf, List.find?_cons_of_neg]
      simpa using fun hchannel => heq ((channelId_eq_iff hn).mpr hchannel)

/-- `findChannelId` on a nonempty well formed list. -/
theorem findChannelId_nodes (h : NodesHold m lst first nodes) (hne : nodes ≠ [])
    (hfuel : nodes.length ≤ m.created) (channelId : BitVec 32) :
    findChannelId m lst channelId = .ok (nodeOf m nodes channelId) := by
  rw [findChannelId, h.loadList, ok_bind]
  exact findFrom_nodes (h.chain hne) (Nat.lt_succ_of_le hfuel)

/-- The node of a channel is the only one with it. -/
theorem nodeOf_eq_some (h : NodesHold m lst first nodes) (ha : a ∈ nodes)
    (hchannel : channelAt m a = channelId.toInt) : nodeOf m nodes channelId = some a := by
  cases hfind : nodeOf m nodes channelId with
  | none =>
    have hall := List.find?_eq_none.mp hfind a ha
    simp [hchannel] at hall
  | some b =>
    have hb := List.find?_some hfind
    simp only [decide_eq_true_eq] at hb
    rw [h.unique (List.mem_of_find?_eq_some hfind) ha (hb.trans hchannel.symm)]

/-- Without a node of the channel there is nothing to find. -/
theorem nodeOf_eq_none (hnew : ∀ a ∈ nodes, channelAt m a ≠ channelId.toInt) :
    nodeOf m nodes channelId = none := by
  rw [nodeOf, List.find?_eq_none]
  simpa using hnew

/-- The node of a channel is found by the channels alone. -/
theorem nodeOf_congr (hagree : ∀ a ∈ nodes, channelAt m' a = channelAt m a) :
    nodeOf m' nodes channelId = nodeOf m nodes channelId := by
  induction nodes with
  | nil => rfl
  | cons a nodes ih =>
    have hrest := ih fun b hb => hagree b (List.mem_cons_of_mem a hb)
    rw [nodeOf, nodeOf] at hrest ⊢
    rw [List.find?_cons, List.find?_cons, hagree a List.mem_cons_self, hrest]

/-- A joined node is found under its own channel and under no other. -/
theorem nodeOf_joined (hjoin : Joined m m' lst first before after new)
    (h : NodesHold m lst first (before ++ after)) (hnode : m.heap new.node = none)
    (hmsg : m.heap new.msg = none)
    (hbefore : ∀ a ∈ before, channelAt m a < new.channelId.toInt) (id : BitVec 32) :
    nodeOf m' (before ++ new.node :: after) id =
      if id = new.channelId then some new.node else nodeOf m (before ++ after) id := by
  have hold : ∀ a ∈ before ++ after, channelAt m' a = channelAt m a :=
    fun a ha => hjoin.channelAt_eq h hnode hmsg ha
  have hnew : channelAt m' new.node = new.channelId.toInt := channelAt_eq hjoin.node
  have hleft : nodeOf m' before id = nodeOf m before id :=
    nodeOf_congr fun a ha => hold a (List.mem_append_left _ ha)
  have hright : nodeOf m' after id = nodeOf m after id :=
    nodeOf_congr fun a ha => hold a (List.mem_append_right _ ha)
  have hsplit : nodeOf m' (before ++ new.node :: after) id =
      (nodeOf m before id).or (nodeOf m' (new.node :: after) id) := by
    rw [nodeOf, List.find?_append, ← hleft]
    rfl
  have hwhole : nodeOf m (before ++ after) id =
      (nodeOf m before id).or (nodeOf m after id) := List.find?_append
  rw [hsplit, hwhole]
  by_cases heq : id = new.channelId
  · subst heq
    rw [if_pos rfl, nodeOf_eq_none fun a ha => Int.ne_of_lt (hbefore a ha), Option.none_or, nodeOf,
      List.find?_cons_of_pos (by simpa using hnew)]
  · have hne : ¬channelAt m' new.node = id.toInt := fun hid =>
      heq (BitVec.eq_of_toInt_eq (hid.symm.trans hnew))
    rw [if_neg heq, ← hright, nodeOf, nodeOf, nodeOf, List.find?_cons_of_neg (by simpa using hne)]

/-- A call that changed nothing has kept the list. -/
theorem kept_of_found {answers : WriteAnswers Addr} (h : NodesHold m lst first nodes)
    (hfuel : nodes.length ≤ m.created) (ha : a ∈ nodes)
    (hchannel : channelAt m a = channelId.toInt) :
    Kept m m lst nodes nodes channelId answers (some a) where
  ordered := ⟨first, h⟩
  null_iff := by simpa using fun hnew => absurd hchannel (hnew a ha)
  unchanged hnone := by cases hnone
  returned b hb := by
    cases hb
    exact ⟨ha, hchannel, fun c hc heq => h.unique hc ha (heq.trans hchannel.symm)⟩
  created_iff b hb := by
    cases hb
    exact ⟨fun hnot => absurd ha hnot, fun hnew => absurd hchannel (hnew a ha)⟩
  existing _ _ _ := ⟨rfl, rfl⟩
  members b hb c := by
    cases hb
    exact ⟨.inr, fun hc => hc.elim (fun heq => heq ▸ ha) id⟩
  others b _ n hn := ⟨n.next, hn⟩
  messages _ _ hx := hx
  finds hne id := by
    refine ⟨_, findChannelId_nodes h hne hfuel id, ?_⟩
    rw [findChannelId_nodes h hne hfuel id]
    by_cases heq : id = channelId
    · rw [if_pos heq, heq, nodeOf_eq_some h ha hchannel]
      rfl
    · rw [if_neg heq]
  finds_new b hb := by
    cases hb
    rw [findChannelId_nodes h (List.ne_nil_of_mem ha) hfuel, nodeOf_eq_some h ha hchannel]

/-- So has one whose allocations failed. -/
theorem kept_of_failed {answers : WriteAnswers Addr} (h : NodesHold m lst first nodes)
    (hfuel : nodes.length ≤ m.created)
    (hnew : ∀ a ∈ nodes, channelAt m a ≠ channelId.toInt)
    (hfail : answers.node = none ∨ answers.msg = none) :
    Kept m m lst nodes nodes channelId answers none where
  ordered := ⟨first, h⟩
  null_iff := ⟨fun _ => ⟨hnew, hfail⟩, fun _ => rfl⟩
  unchanged _ := ⟨rfl, rfl⟩
  returned _ hsome := by cases hsome
  created_iff _ hsome := by cases hsome
  existing _ hsome := by cases hsome
  members _ hsome := by cases hsome
  others b _ n hn := ⟨n.next, hn⟩
  messages _ _ hx := hx
  finds hne id := by
    refine ⟨_, findChannelId_nodes h hne hfuel id, ?_⟩
    rw [findChannelId_nodes h hne hfuel id, Option.none_or, ite_self]
  finds_new _ hsome := by cases hsome

/-- A call that joined a new node has kept the others. -/
theorem kept_of_joined {answers : WriteAnswers Addr}
    (hjoin : Joined m m' lst first before after new)
    (h : NodesHold m lst first (before ++ after)) (hnode : m.heap new.node = none)
    (hmsg : m.heap new.msg = none) (hfuel : (before ++ after).length ≤ m.created)
    (hbefore : ∀ a ∈ before, channelAt m a < new.channelId.toInt)
    (hafter : ∀ a ∈ after, new.channelId.toInt < channelAt m a)
    (hnodes : answers.node ≠ none) (hmsgs : answers.msg ≠ none) :
    Kept m m' lst (before ++ after) (before ++ new.node :: after) new.channelId answers
      (some new.node) := by
  have hordered := hjoin.nodesHold h hnode hmsg hbefore hafter
  have hnew : ∀ a ∈ before ++ after, channelAt m a ≠ new.channelId.toInt := by
    intro a ha
    rcases List.mem_append.mp ha with ha | ha
    · exact Int.ne_of_lt (hbefore a ha)
    · exact (Int.ne_of_lt (hafter a ha)).symm
  have hmem : new.node ∈ before ++ new.node :: after :=
    List.mem_append_right _ List.mem_cons_self
  have hchannel : channelAt m' new.node = new.channelId.toInt := channelAt_eq hjoin.node
  have hroom : (before ++ new.node :: after).length ≤ m'.created := by
    rw [hjoin.created]
    simp only [List.length_append, List.length_cons] at hfuel ⊢
    omega
  have hfinds : ∀ id, findChannelId m' lst id =
      .ok (if id = new.channelId then some new.node else nodeOf m (before ++ after) id) := by
    intro id
    rw [findChannelId_nodes hordered (List.ne_nil_of_mem hmem) hroom,
      nodeOf_joined hjoin h hnode hmsg hbefore]
  refine
    { ordered := ⟨_, hordered⟩
      null_iff := by simp [hnodes, hmsgs]
      unchanged := fun hnone => by cases hnone
      returned := fun b hb => by
        cases hb
        exact ⟨hmem, hchannel, fun c hc heq => hordered.unique hc hmem (heq.trans hchannel.symm)⟩
      created_iff := fun b hb => by
        cases hb
        exact ⟨fun _ => hnew, fun _ => (h.not_dead hnode).2⟩
      existing := fun b hb hold => by
        cases hb
        exact absurd hold (h.not_dead hnode).2
      members := fun b hb c => by
        cases hb
        simp only [List.mem_append, List.mem_cons]
        tauto
      others := fun b hb n hn => hjoin.keeps h hnode hmsg hb hn
      messages := fun x b hx => ?_
      finds := fun hne id => ?_
      finds_new := fun b hb => ?_ }
  · have hlst : x ≠ lst := by
      rintro rfl
      rw [h.header] at hx
      cases hx
    have hprev : ∀ p ∈ before.getLast?, x ≠ p := by
      rintro p hp rfl
      obtain ⟨n, hn⟩ := h.node (mem_of_prev hp)
      rw [hn] at hx
      cases hx
    have hlive : ∀ y, m.heap y = none → x ≠ y := by
      rintro y hy rfl
      rw [hy] at hx
      cases hx
    rw [hjoin.others x hlst (hlive _ hnode) (hlive _ hmsg) hprev, hx]
  · refine ⟨_, findChannelId_nodes h hne hfuel id, ?_⟩
    rw [hfinds id, Option.some_or]
  · cases hb
    rw [hfinds, if_pos rfl]

section Functions

variable [DecidableEq Addr]

/-- The ordered list: for every well formed list with room for one more node,
every channel and every answer of the allocations, `getOrCreateNode` ends and
has kept the list, where a walk over the nodes is not cut short. -/
theorem getOrCreateNode_keeps (m : Memory Addr) (lst : Addr) (nodes : List Addr)
    (channelId : BitVec 32) (answers : WriteAnswers Addr)
    (hlist : ∃ first, NodesHold m lst first nodes) (hsize : nodes.length < 2 ^ 31 - 1)
    (hfresh : Fresh m answers) (hfuel : nodes.length ≤ m.created) :
    ∃ result m' nodes', getOrCreateNode m lst channelId answers = .ok (result, m') ∧
      Kept m m' lst nodes nodes' channelId answers result := by
  obtain ⟨first, h⟩ := hlist
  cases getOrCreateNode_nodes h hfresh hfuel channelId with
  | found a hmem hchannel hresult =>
    exact ⟨_, _, nodes, hresult, kept_of_found h hfuel hmem hchannel⟩
  | failed hnew hfail hresult =>
    exact ⟨_, _, nodes, hresult, kept_of_failed h hfuel hnew hfail⟩
  | placed before after node msg hnodes hbefore hafter hnode hmsg hresult =>
    subst hnodes
    rcases hresult with ⟨hfull, _⟩ | ⟨_, m', hresult, hjoin⟩
    · omega
    · exact ⟨_, m', _, hresult, kept_of_joined hjoin h (hfresh.node node hnode)
        (hfresh.msg msg hmsg) hfuel hbefore hafter (by simp [hnode]) (by simp [hmsg])⟩

end Functions

/-- A list with the channels 3 and 7 in the nodes 1 and 2, whose messages are
in the blocks 4 and 5. -/
def twoChannels : Memory ℕ where
  heap a :=
    if a = 0 then some (.list ⟨some 1, 2⟩)
    else if a = 1 then some (.node ⟨3, some 4, 0, some 2⟩)
    else if a = 2 then some (.node ⟨7, some 5, 0, none⟩)
    else if a = 4 ∨ a = 5 then some (.bytes [])
    else none
  created := 2

/-- The list of two channels with a new channel between them. -/
theorem getOrCreateNode_keeps_middle : ∃ result m' nodes',
    getOrCreateNode twoChannels 0 5
      ⟨some (8, ⟨0, none, 0, none⟩), some (9, fun _ => 0), none, 0⟩ = .ok (result, m') ∧
    Kept twoChannels m' 0 [1, 2] nodes' 5
      ⟨some (8, ⟨0, none, 0, none⟩), some (9, fun _ => 0), none, 0⟩ result := by
  refine getOrCreateNode_keeps twoChannels 0 [1, 2] 5 _ ⟨some 1, ⟨rfl, fun _ => ?_, ?_⟩⟩
    (by decide) ⟨?_, ?_, ?_⟩ (by decide)
  · exact ⟨rfl, some 2, rfl, rfl, none, rfl, rfl⟩
  · simp [channelAt, twoChannels]
  · simp [twoChannels]
  · simp [twoChannels]
  · simp

end OSCourse.MessageSlotOrdered
