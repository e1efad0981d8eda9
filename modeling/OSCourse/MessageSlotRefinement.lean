import OSCourse.MessageSlotStore

/-!
# The driver refines the store

One layout relates the heap to the store: a list for each opened minor, the
lists apart from each other, nothing else live. What an empty header points
to is part of the layout, as the contents its block had when it arrived.
Reads and writes are computed on the layout once, and each has its meaning
on the store; the only fault left is the overflow of a list's size.
-/

namespace OSCourse.MessageSlotRefinement

open HeapSegments MessageSlotDriver MessageSlotList MessageSlotInsert MessageSlotStore

variable {Addr File : Type}

/-- The heap is laid out as the lists of a store. -/
structure Layout (s : State File Addr) (store : Store) (garbage : Fin 256 → Option Addr)
    (cells : Fin 256 → List (Cell Addr)) : Prop where
  opened : ∀ minor, store minor = (s.devices minor.succ).map fun _ => lookup (cells minor)
  lists : ∀ minor lst, s.devices minor.succ = some lst →
    ∃ first, ListHolds s.memory lst first (cells minor) ∧ (cells minor = [] → first = garbage minor)
  valid : ∀ minor, ∀ c ∈ cells minor, c.stored.length = bufLen ∧ c.msgLength.toNat ≤ bufLen
  apart : ∀ i j lst lst' a, s.devices i.succ = some lst → s.devices j.succ = some lst' →
    Uses lst (cells i) a → Uses lst' (cells j) a → i = j
  live : ∀ a, (s.memory.heap a).isSome = true →
    ∃ minor lst, s.devices minor.succ = some lst ∧ Uses lst (cells minor) a
  room : ∀ minor, (cells minor).length ≤ s.memory.created

/-- The state represents a store, and empty headers point to what their
blocks held. -/
def Represents (s : State File Addr) (store : Store) (garbage : Fin 256 → Option Addr) : Prop :=
  ∃ cells, Layout s store garbage cells

variable {s : State File Addr} {store : Store} {garbage : Fin 256 → Option Addr}
  {cells : Fin 256 → List (Cell Addr)} {m m' : Memory Addr} {lst : Addr} {first : Option Addr}
  {file : OpenFile} {length : BitVec 64}

/-- A stored length is far from the sign bit. -/
theorem extended_length {msgLength : BitVec 32} (h : msgLength.toNat ≤ bufLen) :
    (msgLength.signExtend 64).toNat = msgLength.toNat := by
  have hmsb : msgLength.msb = false := by
    rw [BitVec.msb_eq_false_iff_two_mul_lt]
    simp only [bufLen] at h
    omega
  rw [BitVec.signExtend_eq_setWidth_of_msb_false hmsb, BitVec.toNat_setWidth]
  omega

/-- A length the driver accepts survives the conversion to int. -/
theorem truncated_length (h : length.toNat ≤ bufLen) :
    (length.setWidth 32).toNat = length.toNat := by
  simp only [bufLen] at h
  rw [BitVec.toNat_setWidth, Nat.mod_eq_of_lt (by omega)]

@[simp] theorem length_bytesOf (n : ℕ) (contents : ℕ → Byte) : (bytesOf n contents).length = n := by
  simp [bytesOf]

/-- A copy from the user that leaves nothing over. -/
theorem copyFromUser_all (n : ℕ) (contents user : ℕ → Byte) :
    copyFromUser (bytesOf n contents) user n 0 = bytesOf n user := by
  simp [copyFromUser]

/-- A copy of a whole source to the start of a block. -/
theorem memcpy_eq {dst src : List Byte} (hdst : src.length ≤ dst.length) :
    memcpy dst src src.length = .ok (src ++ dst.drop src.length) := by
  simp [memcpy, hdst]

/-- A change of one list keeps the layout. -/
theorem Layout.listStep (h : Layout s store garbage cells) {minor : Fin 256}
    (hdevice : s.devices minor.succ = some lst) {cells' : List (Cell Addr)}
    (hstep : ListStep s.memory m' lst (cells minor) cells') (hne : cells' ≠ [])
    (hvalid : ∀ c ∈ cells', c.stored.length = bufLen ∧ c.msgLength.toNat ≤ bufLen) :
    Layout { s with memory := m' } (Function.update store minor (some (lookup cells'))) garbage
      (Function.update cells minor cells') where
  opened i := by
    by_cases hi : i = minor
    · subst hi
      simp [hdevice]
    · rw [Function.update_of_ne hi, Function.update_of_ne hi, h.opened]
  lists i lst' hi := by
    by_cases him : i = minor
    · subst him
      obtain rfl : lst = lst' := Option.some.inj (hdevice.symm.trans hi)
      obtain ⟨first, hfirst⟩ := hstep.holds
      rw [Function.update_self]
      exact ⟨first, hfirst, fun hempty => absurd hempty hne⟩
    · obtain ⟨first, hfirst, hempty⟩ := h.lists i lst' hi
      rw [Function.update_of_ne him]
      refine ⟨first, hfirst.congr fun a ha => ?_, hempty⟩
      exact hstep.frame a (hfirst.live ha) fun huses => him (h.apart i minor _ _ a hi hdevice ha huses)
  valid i := by
    by_cases hi : i = minor
    · subst hi
      rw [Function.update_self]
      exact hvalid
    · rw [Function.update_of_ne hi]
      exact h.valid i
  apart i j lsti lstj a hi hj hai haj := by
    have hback : ∀ k lstk, s.devices k.succ = some lstk → k ≠ minor → Uses lstk (cells k) a →
        ¬Uses lst cells' a := by
      intro k lstk hk hne huses hnew
      obtain ⟨first, hlist, _⟩ := h.lists k lstk hk
      rcases hstep.fresh a hnew with hold | hdead
      · exact hne (h.apart k minor _ _ a hk hdevice huses hold)
      · exact hlist.not_uses hdead huses
    by_cases him : i = minor <;> by_cases hjm : j = minor
    · rw [him, hjm]
    · subst him
      obtain rfl : lst = lsti := Option.some.inj (hdevice.symm.trans hi)
      rw [Function.update_self] at hai
      rw [Function.update_of_ne hjm] at haj
      exact absurd hai (hback j lstj hj hjm haj)
    · subst hjm
      obtain rfl : lst = lstj := Option.some.inj (hdevice.symm.trans hj)
      rw [Function.update_self] at haj
      rw [Function.update_of_ne him] at hai
      exact absurd haj (hback i lsti hi him hai)
    · rw [Function.update_of_ne him] at hai
      rw [Function.update_of_ne hjm] at haj
      exact h.apart i j lsti lstj a hi hj hai haj
  live a ha := by
    have hmine : Uses lst cells' a →
        ∃ k lst', s.devices k.succ = some lst' ∧ Uses lst' (Function.update cells minor cells' k) a :=
      fun huses => ⟨minor, lst, hdevice, by rw [Function.update_self]; exact huses⟩
    rcases hstep.live a ha with hold | hnew
    · obtain ⟨k, lst', hk, huses⟩ := h.live a hold
      by_cases hkm : k = minor
      · subst hkm
        obtain rfl : lst = lst' := Option.some.inj (hdevice.symm.trans hk)
        exact hmine (hstep.grows a huses)
      · exact ⟨k, lst', hk, by rw [Function.update_of_ne hkm]; exact huses⟩
    · exact hmine hnew
  room i := by
    have hroom := h.room i
    have hcreated := hstep.created
    have hgrow := hstep.room
    by_cases hi : i = minor
    · subst hi
      rw [Function.update_self]
      dsimp only
      omega
    · rw [Function.update_of_ne hi]
      dsimp only
      omega

/-- A minor without messages has no cells. -/
theorem Layout.cells_nil (h : Layout s store garbage cells) {minor : Fin 256}
    (hslot : store minor = some fun _ => none) : cells minor = [] := by
  rw [h.opened] at hslot
  obtain ⟨lst, _, hlookup⟩ := Option.map_eq_some_iff.mp hslot
  rw [List.eq_nil_iff_forall_not_mem]
  intro c hc
  have hnone := congrFun hlookup c.channelId
  rw [lookup, Option.map_eq_none_iff, List.find?_eq_none] at hnone
  simpa using hnone c hc

section Operations

variable [DecidableEq Addr]

/-- A read does what the store says, provided an empty header points nowhere;
the heap is as before. -/
theorem Layout.deviceRead (h : Layout s store garbage cells) (file : OpenFile) (length : BitVec 64)
    (buffer : Bool) {tmp : Option (Addr × (ℕ → Byte))} (left : ℕ)
    (hclean : cells file.minor = [] → garbage file.minor = none)
    (htmp : ∀ block ∈ tmp, s.memory.heap block.1 = none) :
    deviceRead s file length buffer tmp left =
      .ok ((store.read file length buffer tmp.isSome left).1,
        (store.read file length buffer tmp.isSome left).2, s.memory) := by
  rw [MessageSlotDriver.deviceRead, Store.read]
  by_cases hchannel : file.privateData = 0
  · rw [if_pos hchannel, if_pos hchannel]
  · rw [if_neg hchannel, if_neg hchannel]
    cases hdevice : s.devices file.minor.succ with
    | none => simp [h.opened, hdevice]
    | some lst =>
      obtain ⟨first, hlist, hfirst⟩ := h.lists file.minor lst hdevice
      have hsearch : findChannelId s.memory lst (file.privateData.setWidth 32) = .ok
          (((cells file.minor).find? fun c => c.channelId = channelOf file).map Cell.node) :=
        hlist.findChannelId (fun hempty => (hfirst hempty).trans (hclean hempty))
          (h.room file.minor) (channelOf file)
      simp only [h.opened, hdevice, Option.map_some, hsearch, ok_bind, lookup]
      cases hfind : (cells file.minor).find? fun c => c.channelId = channelOf file with
      | none => simp only [Option.map_none]
      | some c =>
        have hc : c ∈ cells file.minor := List.mem_of_find?_eq_some hfind
        obtain ⟨hstored, hlength⟩ := h.valid file.minor c hc
        obtain ⟨next, _, hload⟩ := (hlist.holds c hc).loadNode
        simp only [Option.map_some, hload, ok_bind, Message.read, cellMessage]
        by_cases hshort : length < c.msgLength.signExtend 64 ∨ buffer = false
        · rw [if_pos hshort, if_pos hshort]
        · rw [if_neg hshort, if_neg hshort]
          cases tmp with
          | none => rfl
          | some block =>
            have hbytes : loadBytes s.memory (some c.msg) = .ok c.stored := by
              simp only [loadBytes, (hlist.holds c hc).msg_eq]
            have hcopy : memcpy (bytesOf c.msgLength.toNat block.2) c.stored c.msgLength.toNat =
                .ok (c.stored.take c.msgLength.toNat) := by
              simp [memcpy, hstored, hlength]
            simp only [hbytes, ok_bind, extended_length hlength, hcopy,
              kfree_set (htmp block rfl), Option.isSome_some, Message.text]
            rfl

/-- The node a write works on: found in the list, or new and linked. -/
structure Ready (m m' : Memory Addr) (lst : Addr) (cells : List (Cell Addr))
    (channelId : BitVec 32) (answers : WriteAnswers Addr) (c : Cell Addr)
    (left right : List (Cell Addr)) : Prop where
  step : ListStep m m' lst cells (left ++ c :: right)
  channel : c.channelId = channelId
  place : ∀ d ∈ left, d.channelId ≠ c.channelId
  sides : ∀ d, d ∈ left ∨ d ∈ right → d ∈ cells
  others : ∀ k, k ≠ channelId → lookup (left ++ right) k = lookup cells k
  block : (lookup cells channelId = some (cellMessage c) ∧ m' = m) ∨
    (lookup cells channelId = none ∧ ∃ msg, answers.msg = some msg ∧
      c.stored = bytesOf bufLen msg.2)
  dead : ∀ x, m.heap x = none → (∀ node ∈ answers.node, x ≠ node.1) →
    (∀ msg ∈ answers.msg, x ≠ msg.1) → m'.heap x = none

/-- `getOrCreateNode` on the layout: overflow, no node, or a node to work on. -/
theorem getOrCreateNode_ready {cells : List (Cell Addr)} {answers : WriteAnswers Addr}
    (h : ListHolds m lst first cells) (hfresh : Fresh m answers)
    (hroom : cells.length ≤ m.created) (channelId : BitVec 32) :
    (getOrCreateNode m lst channelId answers = .error .signedOverflow ∧
        lookup cells channelId = none ∧ (cells.length : ℤ) = 2 ^ 31 - 1 ∧
        answers.node.isSome = true ∧ answers.msg.isSome = true) ∨
      (getOrCreateNode m lst channelId answers = .ok (none, m) ∧ lookup cells channelId = none ∧
        (answers.node.isNone = true ∨ answers.msg.isNone = true)) ∨
      ∃ m' c left right, getOrCreateNode m lst channelId answers = .ok (some c.node, m') ∧
        (lookup cells channelId = none → answers.node.isNone = false ∧ answers.msg.isNone = false) ∧
        Ready m m' lst cells channelId answers c left right := by
  cases getOrCreateNode_outcome h hfresh hroom channelId with
  | found c hmem hchannel hresult =>
    obtain ⟨left, right, rfl⟩ := List.append_of_mem hmem
    have hplace : ∀ d ∈ left, d.channelId ≠ c.channelId := by
      intro d hd heq
      have hlt := (List.pairwise_append.mp h.sorted).2.2 d hd c List.mem_cons_self
      rw [heq] at hlt
      exact Int.lt_irrefl _ hlt
    have hlookup : lookup (left ++ c :: right) channelId = some (cellMessage c) := by
      rw [lookup_middle hplace, if_pos hchannel.symm]
    refine .inr (.inr ⟨m, c, left, right, hresult, fun hnone => ?_, listStep_refl h, hchannel, hplace,
      fun d hd => ?_, fun k hk => ?_, .inl ⟨hlookup, rfl⟩, fun x hx _ _ => hx⟩)
    · rw [hlookup] at hnone
      cases hnone
    · simp only [List.mem_append, List.mem_cons]
      tauto
    · rw [lookup_middle hplace, if_neg (hchannel ▸ hk)]
  | failed hnew hfail hresult =>
    refine .inr (.inl ⟨hresult, lookup_none hnew, ?_⟩)
    simpa using hfail
  | inserted left right node msg hcells hleft hright hnode hmsg hresult =>
    subst hcells
    have hnone : lookup (left ++ right) channelId = none :=
      lookup_none (ne_of_sides hleft hright)
    rcases hresult with ⟨hfull, hresult⟩ | ⟨_, m', hresult, hlinked⟩
    · exact .inl ⟨hresult, hnone, hfull, by rw [hnode]; rfl, by rw [hmsg]; rfl⟩
    · have hstep := listStep_of_linked hlinked h (hfresh.node node hnode) (hfresh.msg msg hmsg) hleft hright
      refine .inr (.inr ⟨m', newCell channelId node msg, left, right, hresult, fun _ => ?_, hstep,
        rfl, fun d hd => ?_, fun d hd => List.mem_append.mpr hd, fun k _ => rfl,
        .inr ⟨hnone, msg, hmsg, rfl⟩, fun x hx hxn hxm => ?_⟩)
      · rw [hnode, hmsg]
        exact ⟨rfl, rfl⟩
      · exact ne_of_sides hleft hright d (List.mem_append_left _ hd)
      · have hnot := h.not_uses hx
        rw [hlinked.others x (fun heq => hnot (.inl heq)) (hxn node hnode) (hxm msg hmsg), hx]
        exact fun p hp heq => hnot (.inr ⟨p, List.mem_append_left _ (List.mem_of_getLast? hp),
          .inl heq⟩)

/-- `setMsg` on a live node whose block is long enough. -/
theorem setMsg_eq {node msg : Addr} {n : ListNode Addr} {old new : List Byte}
    {msgLength : BitVec 32} (hnode : m.heap node = some (.node n)) (hmsg : n.msg = some msg)
    (hold : m.heap msg = some (.bytes old)) (hne : node ≠ msg)
    (hcount : (msgLength.signExtend 64).toNat = new.length) (hfits : new.length ≤ old.length) :
    setMsg m node new msgLength =
      .ok ((m.set msg (.bytes (new ++ old.drop new.length))).set node
        (.node { n with msgLength := msgLength })) := by
  have hkept : (m.set msg (.bytes (new ++ old.drop new.length))).heap node = some (.node n) := by
    rw [set_heap_of_ne _ _ hne, hnode]
  simp only [setMsg, loadNode, hnode, ok_bind, hmsg, loadBytes, hold, hcount, memcpy_eq hfits,
    updateNode_eq hkept]

/-- The part of `device_write` behind the search: the length is stored first,
and the message once it has arrived in the temporary buffer. -/
theorem write_node {left right : List (Cell Addr)} {c : Cell Addr}
    (h : ListHolds m lst first (left ++ c :: right)) (hstored : c.stored.length = bufLen)
    (hlength : length.toNat ≤ bufLen) :
    ∃ m₁, (updateNode m c.node fun n => { n with msgLength := length.setWidth 32 }) = .ok m₁ ∧
      Replaced m m₁ c { c with msgLength := length.setWidth 32 } ∧
      (∀ tmp block, m.heap tmp = none → kfree (m₁.set tmp block) tmp = .ok m₁) ∧
      ∀ tmp copied, m.heap tmp = none → copied.length = length.toNat →
        ∃ m₂ m₃, setMsg (m₁.set tmp (.bytes copied)) c.node copied (length.setWidth 32) = .ok m₂ ∧
          kfree m₂ tmp = .ok m₃ ∧
          Replaced m m₃ c { c with
            msgLength := length.setWidth 32, stored := copied ++ c.stored.drop length.toNat } := by
  have hc : c ∈ left ++ c :: right := List.mem_append_right _ List.mem_cons_self
  obtain ⟨next, hnode⟩ := (h.holds c hc).node_eq
  have hmsg := (h.holds c hc).msg_eq
  have hnm : c.node ≠ c.msg := (h.kinds hc hc).2.2
  have hdead : ∀ tmp, m.heap tmp = none → c.node ≠ tmp ∧ c.msg ≠ tmp := fun tmp htmp =>
    ⟨fun heq => h.not_uses htmp (heq ▸ .inr ⟨c, hc, .inl rfl⟩),
      fun heq => h.not_uses htmp (heq ▸ .inr ⟨c, hc, .inr rfl⟩)⟩
  refine ⟨_, updateNode_eq hnode _, ⟨rfl, rfl, rfl, fun n hn => ?_, ?_, fun x hxn _ => ?_, rfl⟩, ?_, ?_⟩
  · rw [hnode] at hn
    cases hn
    exact set_heap_self ..
  · rw [set_heap_of_ne _ _ hnm.symm, hmsg]
  · exact set_heap_of_ne _ _ hxn
  · intro tmp block htmp
    refine kfree_set ?_ block
    rw [set_heap_of_ne _ _ (hdead tmp htmp).1.symm, htmp]
  · intro tmp copied htmp hcopied
    obtain ⟨hnt, hmt⟩ := hdead tmp htmp
    have hbound : (length.setWidth 32).toNat ≤ bufLen := by rw [truncated_length hlength]; exact hlength
    have hcount : ((length.setWidth 32).signExtend 64).toNat = copied.length := by
      rw [extended_length hbound, truncated_length hlength, hcopied]
    generalize hm₁ : m.set c.node (.node ⟨c.channelId, some c.msg, length.setWidth 32, next⟩) = m₁
    have hnode₁ : (m₁.set tmp (.bytes copied)).heap c.node =
        some (.node ⟨c.channelId, some c.msg, length.setWidth 32, next⟩) := by
      rw [set_heap_of_ne _ _ hnt, ← hm₁, set_heap_self]
    have hmsg₁ : (m₁.set tmp (.bytes copied)).heap c.msg = some (.bytes c.stored) := by
      rw [set_heap_of_ne _ _ hmt, ← hm₁, set_heap_of_ne _ _ hnm.symm, hmsg]
    have hset := setMsg_eq hnode₁ rfl hmsg₁ hnm hcount (by omega)
    rw [hcopied] at hset
    refine ⟨_, _, hset, by rw [kfree, set_heap_of_ne _ _ hnt.symm, set_heap_of_ne _ _ hmt.symm,
      set_heap_self, Option.isSome_some, if_pos rfl], rfl, rfl, rfl, fun n hn => ?_, ?_,
      fun x hxn hxm => ?_, ?_⟩
    · rw [hnode] at hn
      cases hn
      exact (Function.update_of_ne hnt ..).trans (set_heap_self ..)
    · refine (Function.update_of_ne hmt ..).trans ?_
      rw [set_heap_of_ne _ _ hnm.symm, set_heap_self]
    · by_cases hxt : x = tmp
      · subst hxt
        exact (Function.update_self ..).trans htmp.symm
      · refine (Function.update_of_ne hxt ..).trans ?_
        rw [set_heap_of_ne _ _ hxn, set_heap_of_ne _ _ hxm, set_heap_of_ne _ _ hxt, ← hm₁,
          set_heap_of_ne _ _ hxn]
    · rw [← hm₁]
      rfl

omit [DecidableEq Addr] in
/-- The cell a write works on becomes the message of its channel. -/
theorem Layout.put (h : Layout s store garbage cells)
    (hdevice : s.devices file.minor.succ = some lst) {answers : WriteAnswers Addr}
    {left right : List (Cell Addr)} {c c' : Cell Addr}
    (hready : Ready s.memory m lst (cells file.minor) (channelOf file) answers c left right)
    (hrep : Replaced m m' c c') (hstored : c'.stored.length = bufLen)
    (hlength : c'.msgLength.toNat ≤ bufLen) :
    Represents { s with memory := m' } (store.put file (cellMessage c')) garbage := by
  obtain ⟨first, hlist⟩ := hready.step.holds
  have hslot : lookup (left ++ c' :: right) =
      Function.update (lookup (cells file.minor)) (channelOf file) (some (cellMessage c')) := by
    funext k
    rw [lookup_middle fun d hd => by rw [hrep.channel_eq]; exact hready.place d hd]
    rw [hrep.channel_eq, hready.channel]
    by_cases hk : k = channelOf file
    · rw [if_pos hk, hk, Function.update_self]
    · rw [if_neg hk, Function.update_of_ne hk, hready.others k hk]
  have hlayout := h.listStep hdevice (hready.step.trans (hrep.listStep hlist)) (by simp)
    fun d hd => by
      rcases List.mem_append.mp hd with hd | hd
      · exact h.valid file.minor d (hready.sides d (.inl hd))
      · rcases List.mem_cons.mp hd with rfl | hd
        · exact ⟨hstored, hlength⟩
        · exact h.valid file.minor d (hready.sides d (.inr hd))
  rw [hslot] at hlayout
  have hput : store.put file (cellMessage c') = Function.update store file.minor (some
      (Function.update (lookup (cells file.minor)) (channelOf file) (some (cellMessage c')))) := by
    rw [Store.put, h.opened, hdevice, Option.map_some, Option.map_some]
  rw [hput]
  exact ⟨_, hlayout⟩

/-- The write got as far as its node. -/
def reachedNode : WriteExit → Bool
  | .noTmp => true
  | .badCopy => true
  | .done => true
  | _ => false

/-- The write cannot have changed anything when it fails: it is rejected
before its node, it gets no node, or the node already has its length. -/
def Harmless (store : Store) (file : OpenFile) (length : BitVec 64)
    (buffer : Option (ℕ → Byte)) (answers : WriteAnswers Addr) : Prop :=
  bufLen < length.toNat ∨ length = 0 ∨ file.privateData = 0 ∨ buffer = none ∨
    store file.minor = none ∨
      match message store file.minor (channelOf file) with
      | none => answers.node = none ∨ answers.msg = none
      | some found => found.msgLength = length.setWidth 32

omit [DecidableEq Addr] in
/-- A write that never reached its node is harmless. -/
theorem harmless_of_early {buffer : Option (ℕ → Byte)} {answers : WriteAnswers Addr}
    (h : reachedNode (store.writeExit file length buffer answers) = false) :
    Harmless store file length buffer answers := by
  unfold Store.writeExit at h
  unfold Harmless
  split at h
  · rename_i hsize
    rcases hsize with hsize | hsize
    · exact .inl hsize
    · exact .inr (.inl hsize)
  · split at h
    · rename_i hchannel
      exact .inr (.inr (.inl hchannel))
    · split at h
      · rename_i hbuffer
        exact .inr (.inr (.inr (.inl (by simpa using hbuffer))))
      · cases hslot : store file.minor with
        | none => exact .inr (.inr (.inr (.inr (.inl rfl))))
        | some slot =>
          rw [hslot] at h
          dsimp only at h
          split at h
          · rename_i hfail
            have hnone : message store file.minor (channelOf file) = none := by
              rw [message, hslot, Option.bind_some]
              simpa using hfail.1
            rw [hnone]
            exact .inr (.inr (.inr (.inr (.inr (by simpa using hfail.2)))))
          · split at h
            · cases h
            · split at h <;> cases h

omit [DecidableEq Addr] in
/-- Writing a cell its own contents changes nothing. -/
theorem Replaced.eq_self {c : Cell Addr} (hrep : Replaced m m' c c) (h : CellHolds m c) :
    m' = m := by
  obtain ⟨heap, created⟩ := m
  obtain ⟨heap', created'⟩ := m'
  obtain rfl : created' = created := hrep.created
  have hheap : heap' = heap := by
    funext x
    obtain ⟨next, hnode⟩ := h.node_eq
    by_cases hxn : x = c.node
    · rw [hxn]
      exact (hrep.node _ hnode).trans hnode.symm
    · by_cases hxm : x = c.msg
      · rw [hxm]
        exact hrep.msg.trans h.msg_eq.symm
      · exact hrep.others x hxn hxm
  rw [hheap]

section ReadyFacts

variable {cs left right : List (Cell Addr)} {answers : WriteAnswers Addr} {c : Cell Addr}
  {m₁ : Memory Addr} {user : ℕ → Byte}

omit [DecidableEq Addr] in
/-- The block behind the node of a write has its full size. -/
theorem Ready.stored_length {channelId : BitVec 32}
    (hready : Ready m m' lst cs channelId answers c left right)
    (hvalid : ∀ d ∈ cs, d.stored.length = bufLen ∧ d.msgLength.toNat ≤ bufLen) :
    c.stored.length = bufLen := by
  rcases hready.block with ⟨hfound, _⟩ | ⟨_, msg, _, hstored⟩
  · obtain ⟨d, hd, heq⟩ := Option.map_eq_some_iff.mp hfound
    simp only [cellMessage, Message.mk.injEq] at heq
    rw [← heq.1, (hvalid d (List.mem_of_find?_eq_some hd)).1]
  · rw [hstored, length_bytesOf]

omit [DecidableEq Addr] in
/-- The node of a write has the block the store finds for it. -/
theorem Ready.block_eq (hready : Ready m m' lst cs (channelOf file) answers c left right)
    (hslot : store file.minor = some (lookup cs)) : store.block file answers = c.stored := by
  rw [Store.block, message, hslot, Option.bind_some]
  rcases hready.block with ⟨hfound, _⟩ | ⟨hnone, msg, hmsg, hstored⟩
  · rw [hfound]
    rfl
  · rw [hnone, hmsg, hstored]
    rfl

omit [DecidableEq Addr] in
/-- Storing the length of a harmless write changes nothing: the node was
there, and it has this length. -/
theorem Ready.same_of_harmless (hready : Ready m m' lst cs (channelOf file) answers c left right)
    (hslot : store file.minor = some (lookup cs))
    (hbuilt : lookup cs (channelOf file) = none →
      answers.node.isNone = false ∧ answers.msg.isNone = false)
    (hrep : Replaced m' m₁ c { c with msgLength := length.setWidth 32 })
    (hlength : length.toNat ≤ bufLen) (hzero : length ≠ 0) (hchannel : file.privateData ≠ 0)
    (hharmless : Harmless store file length (some user) answers) : m₁ = m := by
  obtain ⟨first₀, hlist₀⟩ := hready.step.holds
  have hmessage : message store file.minor (channelOf file) = lookup cs (channelOf file) := by
    rw [message, hslot, Option.bind_some]
  simp only [Harmless, hslot, Nat.not_lt.mpr hlength, hzero, hchannel, reduceCtorEq,
    false_or, hmessage] at hharmless
  rcases hready.block with ⟨hfound, rfl⟩ | ⟨hnone, _⟩
  · rw [hfound] at hharmless
    have heq : { c with msgLength := length.setWidth 32 } = c := by rw [← hharmless]; rfl
    rw [heq] at hrep
    exact Replaced.eq_self hrep (hlist₀.holds c (List.mem_append_right _ List.mem_cons_self))
  · rw [hnone] at hharmless
    obtain ⟨hn, hm⟩ := hbuilt hnone
    rcases hharmless with heq | heq
    · rw [heq] at hn
      cases hn
    · rw [heq] at hm
      cases hm

end ReadyFacts

/-- A write does what the store says, unless the size of the list overflows;
a failed write that is harmless leaves the heap as it was. -/
theorem Layout.deviceWrite (h : Layout s store garbage cells) (file : OpenFile)
    (length : BitVec 64) (buffer : Option (ℕ → Byte)) {answers : WriteAnswers Addr}
    (hpossible : (Call.write length buffer answers).Possible s.memory) :
    (deviceWrite s file length buffer answers = .error .signedOverflow ∧
        ((cells file.minor).length : ℤ) = 2 ^ 31 - 1 ∧
        lookup (cells file.minor) (channelOf file) = none) ∨
      ∃ m', deviceWrite s file length buffer answers =
          .ok (store.writeExit file length buffer answers, m') ∧
        Represents { s with memory := m' } (store.wrote file length buffer answers
          (store.writeExit file length buffer answers)) garbage ∧
        (store.writeExit file length buffer answers ≠ .done →
          Harmless store file length buffer answers → m' = s.memory) := by
  obtain ⟨hnode, hmsg, htmp, hnodeMsg, hnodeTmp, hmsgTmp⟩ := hpossible
  have hsame : Represents { s with memory := s.memory } store garbage := ⟨cells, h⟩
  unfold MessageSlotDriver.deviceWrite Store.writeExit
  by_cases hsize : bufLen < length.toNat ∨ length = 0
  · rw [if_pos hsize, if_pos hsize]
    exact .inr ⟨_, rfl, hsame, fun _ _ => rfl⟩
  rw [if_neg hsize, if_neg hsize]
  by_cases hchannel : file.privateData = 0
  · rw [if_pos hchannel, if_pos hchannel]
    exact .inr ⟨_, rfl, hsame, fun _ _ => rfl⟩
  rw [if_neg hchannel, if_neg hchannel]
  cases buffer with
  | none => exact .inr ⟨_, rfl, hsame, fun _ _ => rfl⟩
  | some user =>
    rw [if_neg (by simp)]
    cases hdevice : s.devices file.minor.succ with
    | none =>
      simp only [h.opened, hdevice, Option.map_none]
      exact .inr ⟨_, rfl, hsame, fun _ _ => rfl⟩
    | some lst =>
      obtain ⟨first, hlist, _⟩ := h.lists file.minor lst hdevice
      have hlength : length.toNat ≤ bufLen := by omega
      have hslot : store file.minor = some (lookup (cells file.minor)) := by
        rw [h.opened, hdevice, Option.map_some]
      simp only [hslot]
      rcases getOrCreateNode_ready hlist ⟨hnode, hmsg, hnodeMsg⟩ (h.room file.minor)
        (channelOf file) with ⟨hresult, hnone, hfull, _⟩ | ⟨hresult, hnone, hfail⟩ |
        ⟨m₀, c, left, right, hresult, hbuilt, hready⟩
      · refine .inl ⟨?_, hfull, hnone⟩
        rw [channelOf] at hresult
        simp only [hresult, error_bind]
      · rw [if_pos ⟨by rw [hnone]; rfl, hfail⟩]
        rw [channelOf] at hresult
        simp only [hresult, ok_bind]
        exact .inr ⟨_, rfl, hsame, fun _ _ => rfl⟩
      · have hnot : ¬((lookup (cells file.minor) (channelOf file)).isNone = true ∧
            (answers.node.isNone = true ∨ answers.msg.isNone = true)) := by
          rintro ⟨hnone, hfail⟩
          obtain ⟨hn, hm⟩ := hbuilt (by simpa using hnone)
          rw [hn, hm] at hfail
          simp at hfail
        have hblock := hready.block_eq hslot
        have hstored := hready.stored_length (h.valid file.minor)
        have hbound : (length.setWidth 32).toNat ≤ bufLen := by
          rw [truncated_length hlength]
          exact hlength
        obtain ⟨first₀, hlist₀⟩ := hready.step.holds
        obtain ⟨m₁, hupdate, hrep, hfree, hset⟩ := write_node hlist₀ hstored hlength
        have hharmless : Harmless store file length (some user) answers → m₁ = s.memory :=
          hready.same_of_harmless hslot hbuilt hrep hlength (fun heq => hsize (.inr heq)) hchannel
        rw [if_neg hnot]
        rw [channelOf] at hresult
        simp only [hresult, ok_bind, hupdate]
        refine .inr ?_
        cases htmpBlock : answers.tmp with
        | none =>
          refine ⟨m₁, rfl, ?_, fun _ => hharmless⟩
          have hput := h.put hdevice hready hrep hstored hbound
          simpa [Store.wrote, hblock, cellMessage] using hput
        | some block =>
          have hdead : m₀.heap block.1 = none := by
            refine hready.dead _ (htmp block htmpBlock) (fun node hn => ?_) fun msg hm => ?_
            · exact (hnodeTmp node hn block htmpBlock).symm
            · exact (hmsgTmp msg hm block htmpBlock).symm
          simp only [Option.isNone_some, Bool.false_eq_true, if_false]
          by_cases hleft : answers.left ≠ 0
          · rw [if_pos hleft, if_pos hleft]
            simp only [hfree _ _ hdead, ok_bind]
            refine ⟨m₁, rfl, ?_, fun _ => hharmless⟩
            have hput := h.put hdevice hready hrep hstored hbound
            simpa [Store.wrote, hblock, cellMessage] using hput
          · rw [if_neg hleft, if_neg hleft]
            have hzero : answers.left = 0 := by omega
            have hcopied : copyFromUser (bytesOf length.toNat block.2) user length.toNat
                answers.left = bytesOf length.toNat user := by
              rw [hzero, copyFromUser_all]
            obtain ⟨m₂, m₃, hsetMsg, hkfree, hrep'⟩ :=
              hset block.1 (bytesOf length.toNat user) hdead (length_bytesOf ..)
            simp only [hcopied, hsetMsg, ok_bind, hkfree]
            refine ⟨m₃, rfl, ?_, fun hdone => absurd rfl hdone⟩
            have hput := h.put hdevice hready hrep' (by simp [hstored]; omega) hbound
            simpa [Store.wrote, hblock, cellMessage] using hput

end Operations

end OSCourse.MessageSlotRefinement
