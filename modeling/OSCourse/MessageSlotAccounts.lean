import OSCourse.MessageSlotCleanup
import OSCourse.MessageSlotMessages

/-!
# The accounts of the message slot driver

Each call logs the blocks it allocates and frees, on every one of its exits.
The log of a run replays from the empty heap to the heap of the state it
reached, and the log of the cleanup replays from there to the empty heap,
so between them every block has whole lives only. Between two calls the
live blocks are those of the lists.
-/

namespace OSCourse.MessageSlotAccounts

open Runs HeapLog MessageSlotDriver MessageSlotList MessageSlotInsert MessageSlotStore
  MessageSlotRefinement MessageSlotHistory MessageSlotMessages MessageSlotCleanup

variable {Addr File : Type}

/-- A block from `kmalloc` that the same call frees again. -/
def borrowed {α : Type} : Option (Addr × α) → List (Action Addr)
  | none => []
  | some block => life block.1

/-- What `createNode` allocates and frees. -/
def createNodeLog (answers : WriteAnswers Addr) : List (Action Addr) :=
  match answers.node with
  | none => []
  | some node =>
    match answers.msg with
    | none => [.alloc node.1, .free node.1]
    | some msg => [.alloc node.1, .alloc msg.1]

/-- What the loop of `getOrCreateNode` allocates and frees. -/
def scanLog (m : Memory Addr) (channelId : BitVec 32) (answers : WriteAnswers Addr) :
    ℕ → Addr → List (Action Addr)
  | 0, _ => []
  | fuel + 1, node =>
    match loadNode m node with
    | .error _ => []
    | .ok cell =>
      if channelId = cell.channelId then []
      else if channelId.slt cell.channelId then createNodeLog answers
      else
        match cell.next with
        | some next => scanLog m channelId answers fuel next
        | none => createNodeLog answers

/-- What `getOrCreateNode` allocates and frees. -/
def getOrCreateNodeLog (m : Memory Addr) (lst : Addr) (channelId : BitVec 32)
    (answers : WriteAnswers Addr) : List (Action Addr) :=
  match loadList m lst with
  | .error _ => []
  | .ok l =>
    if l.size = 0 then createNodeLog answers
    else
      match l.first with
      | none => []
      | some first => scanLog m channelId answers (m.created + 1) first

/-- What `device_open` allocates. -/
def deviceOpenLog (s : State File Addr) (minor : Fin 256)
    (header : Option (Addr × LinkedList Addr)) : List (Action Addr) :=
  match s.devices minor.succ with
  | some _ => []
  | none =>
    match header with
    | none => []
    | some block => [.alloc block.1]

/-- What `device_read` allocates and frees: its temporary buffer, once the
node is found and the user's buffer is large enough. -/
def deviceReadLog (s : State File Addr) (file : OpenFile) (length : BitVec 64) (buffer : Bool)
    (tmp : Option (Addr × (ℕ → Byte))) : List (Action Addr) :=
  if file.privateData = 0 then []
  else
    match s.devices file.minor.succ with
    | none => []
    | some lst =>
      match findChannelId s.memory lst (file.privateData.setWidth 32) with
      | .ok (some node) =>
        match loadNode s.memory node with
        | .error _ => []
        | .ok cell =>
          if length < cell.msgLength.signExtend 64 ∨ buffer = false then [] else borrowed tmp
      | _ => []

section Writes

variable [DecidableEq Addr]

/-- What `device_write` allocates and frees: the blocks of a new channel,
and its temporary buffer once there is a node. -/
def deviceWriteLog (s : State File Addr) (file : OpenFile) (length : BitVec 64)
    (buffer : Option (ℕ → Byte)) (answers : WriteAnswers Addr) : List (Action Addr) :=
  if bufLen < length.toNat ∨ length = 0 then []
  else if file.privateData = 0 then []
  else
    match buffer with
    | none => []
    | some _ =>
      match s.devices file.minor.succ with
      | none => []
      | some lst =>
        getOrCreateNodeLog s.memory lst (file.privateData.setWidth 32) answers ++
          match getOrCreateNode s.memory lst (file.privateData.setWidth 32) answers with
          | .ok (some _, _) => borrowed answers.tmp
          | _ => []

/-- What a call allocates and frees. -/
def callLog (s : State File Addr) (e : Event File Addr) : List (Action Addr) :=
  match e.call with
  | .open minor header => deviceOpenLog s minor header
  | .ioctl _ _ => []
  | .read length buffer tmp _ => deviceReadLog s e.target length buffer tmp
  | .write length buffer answers => deviceWriteLog s e.target length buffer answers

variable {m m' : Memory Addr} {a lst : Addr} {answers : WriteAnswers Addr}
  {channelId : BitVec 32} {found : Option Addr}

omit [DecidableEq Addr] in
theorem loadNode_live {cell : ListNode Addr} (h : loadNode m a = .ok cell) : liveOf m a = true := by
  unfold loadNode at h
  split at h
  · rename_i hheap
    rw [liveOf, hheap]
    rfl
  · cases h

omit [DecidableEq Addr] in
theorem loadList_live {l : LinkedList Addr} (h : loadList m a = .ok l) : liveOf m a = true := by
  unfold loadList at h
  split at h
  · rename_i hheap
    rw [liveOf, hheap]
    rfl
  · cases h

/-- Writing fields of a node allocates and frees nothing. -/
theorem liveOf_updateNode {f : ListNode Addr → ListNode Addr} (h : updateNode m a f = .ok m') :
    liveOf m' = liveOf m := by
  obtain ⟨cell, hload, h⟩ := bind_eq_ok h
  cases h
  exact liveOf_set_live (loadNode_live hload) _

/-- Writing fields of a header allocates and frees nothing. -/
theorem liveOf_updateList {f : LinkedList Addr → LinkedList Addr} (h : updateList m a f = .ok m') :
    liveOf m' = liveOf m := by
  obtain ⟨l, hload, h⟩ := bind_eq_ok h
  cases h
  exact liveOf_set_live (loadList_live hload) _

theorem liveOf_growSize (h : growSize m lst = .ok m') : liveOf m' = liveOf m := by
  obtain ⟨l, hload, h⟩ := bind_eq_ok h
  split at h
  · cases h
  · cases h
    exact liveOf_set_live (loadList_live hload) (.list { l with size := l.size + 1 })

theorem liveOf_setMsg {node : Addr} {msg : List Byte} {msgLength : BitVec 32}
    (h : setMsg m node msg msgLength = .ok m') : liveOf m' = liveOf m := by
  obtain ⟨cell, _, h⟩ := bind_eq_ok h
  obtain ⟨old, hold, h⟩ := bind_eq_ok h
  obtain ⟨new, _, h⟩ := bind_eq_ok h
  cases hmsg : cell.msg with
  | none =>
    rw [hmsg] at h
    cases h
  | some b =>
    rw [hmsg] at h hold
    have hlive : liveOf m b = true := by
      simp only [loadBytes] at hold
      split at hold
      · rename_i hheap
        rw [liveOf, hheap]
        rfl
      · cases hold
    rw [liveOf_updateNode h, liveOf_set_live hlive]

/-- The log of `createNode`, whichever of its two blocks arrived. -/
theorem replay_createNode (hfresh : Fresh m answers)
    (h : createNode m channelId answers = .ok (found, m')) :
    replay (liveOf m) (createNodeLog answers) = some (liveOf m') := by
  unfold createNode at h
  unfold createNodeLog
  cases hnode : answers.node with
  | none =>
    rw [hnode] at h
    cases h
    rfl
  | some node =>
    have hdead : liveOf m node.1 = false := by
      rw [liveOf, hfresh.node node hnode]
      rfl
    rw [hnode] at h
    cases hmsg : answers.msg with
    | none =>
      simp only [hmsg, kfree_set (hfresh.node node hnode), ok_bind] at h
      cases h
      exact replay_life hdead
    | some msg =>
      simp only [hmsg] at h
      obtain ⟨m₁, hupdate, h⟩ := bind_eq_ok h
      cases h
      have hne : msg.1 ≠ node.1 := (hfresh.apart node hnode msg hmsg).symm
      have hdead' : Function.update (liveOf m) node.1 true msg.1 = false := by
        rw [Function.update_of_ne hne, liveOf, hfresh.msg msg hmsg]
        rfl
      rw [liveOf_updateNode hupdate, liveOf_set, liveOf_set]
      exact replay_append (replay_alloc hdead) (replay_alloc hdead')

/-- Linking a new node before another one. -/
theorem replay_insertBefore (hfresh : Fresh m answers) {prevNode : Option Addr} {node : Addr}
    (h : insertBefore m lst channelId answers prevNode node = .ok (found, m')) :
    replay (liveOf m) (createNodeLog answers) = some (liveOf m') := by
  obtain ⟨⟨created, m₁⟩, hcreate, h⟩ := bind_eq_ok h
  rw [replay_createNode hfresh hcreate]
  cases created with
  | none =>
    cases h
    rfl
  | some newNode =>
    obtain ⟨m₂, hnext, h⟩ := bind_eq_ok h
    cases prevNode with
    | none =>
      obtain ⟨m₃, hlink, h⟩ := bind_eq_ok h
      obtain ⟨m₄, hgrow, h⟩ := bind_eq_ok h
      cases h
      rw [liveOf_growSize hgrow, liveOf_updateList hlink, liveOf_updateNode hnext]
    | some p =>
      obtain ⟨m₃, hlink, h⟩ := bind_eq_ok h
      obtain ⟨m₄, hgrow, h⟩ := bind_eq_ok h
      cases h
      rw [liveOf_growSize hgrow, liveOf_updateNode hlink, liveOf_updateNode hnext]

/-- Linking a new node behind the last one. -/
theorem replay_linkLast (hfresh : Fresh m answers) {prevNode : Addr}
    (h : append m lst channelId answers prevNode = .ok (found, m')) :
    replay (liveOf m) (createNodeLog answers) = some (liveOf m') := by
  obtain ⟨⟨created, m₁⟩, hcreate, h⟩ := bind_eq_ok h
  rw [replay_createNode hfresh hcreate]
  cases created with
  | none =>
    cases h
    rfl
  | some newNode =>
    obtain ⟨m₂, hlink, h⟩ := bind_eq_ok h
    obtain ⟨m₃, hgrow, h⟩ := bind_eq_ok h
    cases h
    rw [liveOf_growSize hgrow, liveOf_updateNode hlink]

/-- The log of the loop, by the branch it leaves through. -/
theorem replay_scan (hfresh : Fresh m answers) {fuel : ℕ} {prevNode : Option Addr} {node : Addr}
    (h : scan m lst channelId answers fuel prevNode node = .ok (found, m')) :
    replay (liveOf m) (scanLog m channelId answers fuel node) = some (liveOf m') := by
  induction fuel generalizing prevNode node with
  | zero => cases h
  | succ fuel ih =>
    obtain ⟨cell, hload, h⟩ := bind_eq_ok h
    simp only [scanLog, hload]
    split at h
    · rename_i heq
      cases h
      rw [if_pos heq]
      rfl
    · rename_i hne
      rw [if_neg hne]
      split at h
      · rename_i hlt
        rw [if_pos hlt]
        exact replay_insertBefore hfresh h
      · rename_i hge
        rw [if_neg hge]
        cases hnext : cell.next with
        | none =>
          rw [hnext] at h
          exact replay_linkLast hfresh h
        | some next =>
          rw [hnext] at h
          exact ih h

/-- The log of `getOrCreateNode`. -/
theorem replay_getOrCreateNode (hfresh : Fresh m answers)
    (h : getOrCreateNode m lst channelId answers = .ok (found, m')) :
    replay (liveOf m) (getOrCreateNodeLog m lst channelId answers) = some (liveOf m') := by
  obtain ⟨l, hload, h⟩ := bind_eq_ok h
  simp only [getOrCreateNodeLog, hload]
  split at h
  · rename_i hzero
    rw [if_pos hzero]
    obtain ⟨⟨created, m₁⟩, hcreate, h⟩ := bind_eq_ok h
    rw [replay_createNode hfresh hcreate]
    cases created with
    | none =>
      cases h
      rfl
    | some newNode =>
      obtain ⟨m₂, hlink, h⟩ := bind_eq_ok h
      obtain ⟨m₃, hgrow, h⟩ := bind_eq_ok h
      cases h
      rw [liveOf_growSize hgrow, liveOf_updateList hlink]
  · rename_i hsize
    rw [if_neg hsize]
    cases hfirst : l.first with
    | none =>
      rw [hfirst] at h
      cases h
    | some first =>
      rw [hfirst] at h
      exact replay_scan hfresh h

omit [DecidableEq Addr] in
/-- The loop logs nothing, or a call of `createNode`. -/
theorem scanLog_eq (m : Memory Addr) (channelId : BitVec 32) (answers : WriteAnswers Addr)
    (fuel : ℕ) (node : Addr) :
    scanLog m channelId answers fuel node = [] ∨
      scanLog m channelId answers fuel node = createNodeLog answers := by
  induction fuel generalizing node with
  | zero => exact .inl rfl
  | succ fuel ih =>
    unfold scanLog
    split
    · exact .inl rfl
    · split
      · exact .inl rfl
      · split
        · exact .inr rfl
        · split
          · exact ih _
          · exact .inr rfl

omit [DecidableEq Addr] in
/-- Only the blocks of a new channel are logged by `getOrCreateNode`. -/
theorem getOrCreateNodeLog_address {x : Action Addr}
    (hx : x ∈ getOrCreateNodeLog m lst channelId answers) :
    (∃ node ∈ answers.node, x.address = node.1) ∨ ∃ msg ∈ answers.msg, x.address = msg.1 := by
  have hcreate : x ∈ createNodeLog answers := by
    unfold getOrCreateNodeLog at hx
    split at hx
    · cases hx
    · split at hx
      · exact hx
      · split at hx
        · cases hx
        · rename_i first _
          rcases scanLog_eq m channelId answers (m.created + 1) first with heq | heq
          · rw [heq] at hx
            cases hx
          · rw [heq] at hx
            exact hx
  unfold createNodeLog at hcreate
  split at hcreate
  · cases hcreate
  · rename_i node hnode
    split at hcreate
    · refine .inl ⟨node, hnode, ?_⟩
      rcases List.mem_pair.mp hcreate with rfl | rfl
      · rfl
      · rfl
    · rename_i msg hmsg
      rcases List.mem_pair.mp hcreate with rfl | rfl
      · exact .inl ⟨node, hnode, rfl⟩
      · exact .inr ⟨msg, hmsg, rfl⟩

/-- A temporary buffer that is freed with the other blocks as they were. -/
theorem replay_buffer {m₁ : Memory Addr} {b : Block Addr} (hdead : liveOf m a = false)
    (hsame : liveOf m₁ = liveOf (m.set a b)) (hfree : kfree m₁ a = .ok m') :
    replay (liveOf m) (life a) = some (liveOf m') := by
  refine replay_append (replay_alloc hdead) ?_
  rw [← liveOf_set m a b, ← hsame]
  exact replay_kfree hfree

variable {s s' : State File Addr} {file : OpenFile} {length : BitVec 64}

/-- The log of a write, on every one of its exits. -/
theorem replay_deviceWrite {buffer : Option (ℕ → Byte)} {exit : WriteExit}
    (hpossible : (Call.write length buffer answers).Possible s.memory)
    (h : deviceWrite s file length buffer answers = .ok (exit, m')) :
    replay (liveOf s.memory) (deviceWriteLog s file length buffer answers) = some (liveOf m') := by
  obtain ⟨hnode, hmsg, htmp, hnodeMsg, hnodeTmp, hmsgTmp⟩ := hpossible
  unfold deviceWrite at h
  unfold deviceWriteLog
  by_cases hsize : bufLen < length.toNat ∨ length = 0
  · rw [if_pos hsize] at h ⊢
    cases h
    rfl
  rw [if_neg hsize] at h ⊢
  by_cases hchannel : file.privateData = 0
  · rw [if_pos hchannel] at h ⊢
    cases h
    rfl
  rw [if_neg hchannel] at h ⊢
  cases buffer with
  | none =>
    cases h
    rfl
  | some user =>
    cases hdevice : s.devices file.minor.succ with
    | none =>
      simp only [hdevice] at h
      cases h
      rfl
    | some lst =>
      simp only [hdevice] at h
      obtain ⟨⟨found, m₁⟩, hget, h⟩ := bind_eq_ok h
      have hlog := replay_getOrCreateNode ⟨hnode, hmsg, hnodeMsg⟩ hget
      refine replay_append hlog ?_
      rw [hget]
      cases found with
      | none =>
        cases h
        rfl
      | some node =>
        obtain ⟨m₂, hlength, h⟩ := bind_eq_ok h
        have hsame := liveOf_updateNode hlength
        cases htmpEq : answers.tmp with
        | none =>
          simp only [htmpEq] at h
          cases h
          rw [hsame]
          rfl
        | some tmp =>
          simp only [htmpEq] at h
          have hapart : ∀ x ∈ getOrCreateNodeLog s.memory lst (file.privateData.setWidth 32) answers,
              x.address ≠ tmp.1 := by
            intro x hx
            rcases getOrCreateNodeLog_address hx with ⟨node, hmem, heq⟩ | ⟨msg, hmem, heq⟩
            · rw [heq]
              exact hnodeTmp node hmem tmp htmpEq
            · rw [heq]
              exact hmsgTmp msg hmem tmp htmpEq
          have hdead : liveOf m₂ tmp.1 = false := by
            rw [hsame, replay_frame hlog hapart, liveOf, htmp tmp htmpEq]
            rfl
          rw [← hsame]
          split at h
          · obtain ⟨m₃, hfree, h⟩ := bind_eq_ok h
            cases h
            exact replay_buffer hdead rfl hfree
          · obtain ⟨m₃, hset, h⟩ := bind_eq_ok h
            obtain ⟨m₄, hfree, h⟩ := bind_eq_ok h
            cases h
            exact replay_buffer hdead (liveOf_setMsg hset) hfree

omit [DecidableEq Addr] in
/-- The log of a read: at most its temporary buffer. -/
theorem deviceReadLog_eq (s : State File Addr) (file : OpenFile) (length : BitVec 64) (buffer : Bool)
    (tmp : Option (Addr × (ℕ → Byte))) :
    deviceReadLog s file length buffer tmp = [] ∨
      deviceReadLog s file length buffer tmp = borrowed tmp := by
  unfold deviceReadLog
  split
  · exact .inl rfl
  · split
    · exact .inl rfl
    · split
      · split
        · exact .inl rfl
        · split
          · exact .inl rfl
          · exact .inr rfl
      · exact .inl rfl

/-- A read leaves the live blocks as they were. -/
theorem replay_deviceRead {buffer : Bool} {tmp : Option (Addr × (ℕ → Byte))}
    (htmp : ∀ block ∈ tmp, s.memory.heap block.1 = none) :
    replay (liveOf s.memory) (deviceReadLog s file length buffer tmp) = some (liveOf s.memory) := by
  rcases deviceReadLog_eq s file length buffer tmp with heq | heq
  · rw [heq]
    rfl
  · rw [heq]
    cases htmpEq : tmp with
    | none => rfl
    | some block =>
      have hdead : liveOf s.memory block.1 = false := by
        rw [liveOf, htmp block htmpEq]
        rfl
      exact replay_life hdead

/-- The log of an open: the header of a minor that is opened for the first time. -/
theorem replay_performOpen [DecidableEq File] {f : File} {minor : Fin 256}
    {header : Option (Addr × LinkedList Addr)} {reply : Reply}
    (hpossible : ∀ block ∈ header, s.memory.heap block.1 = none)
    (hperform : performOpen s f minor header = (reply, s')) :
    replay (liveOf s.memory) (deviceOpenLog s minor header) = some (liveOf s'.memory) := by
  unfold performOpen deviceOpen at hperform
  unfold deviceOpenLog
  cases hdevice : s.devices minor.succ with
  | some lst =>
    simp only [hdevice] at hperform
    cases hperform
    rfl
  | none =>
    simp only [hdevice] at hperform
    cases header with
    | none =>
      cases hperform
      rfl
    | some block =>
      cases hperform
      have hdead : liveOf s.memory block.1 = false := by
        rw [liveOf, hpossible block rfl]
        rfl
      simp only [liveOf_set]
      exact replay_alloc hdead

/-- The log of every call. -/
theorem replay_step [DecidableEq File] {e : Event File Addr} (hstep : Step s e s') :
    replay (liveOf s.memory) (callLog s e) = some (liveOf s'.memory) := by
  unfold callLog
  cases hstep with
  | «open» minor header hcall htarget hclosed hpossible hperform =>
    rw [hcall] at hpossible
    simp only [hcall]
    exact replay_performOpen hpossible hperform
  | on hfile hpossible hperform =>
    obtain ⟨f, target, call, reply⟩ := e
    cases call with
    | «open» minor header => cases hperform
    | ioctl command param =>
      simp only [performOn, Except.ok.injEq, Prod.mk.injEq] at hperform
      obtain ⟨_, rfl⟩ := hperform
      rfl
    | read length buffer tmp left =>
      obtain ⟨⟨exit, bytes, memory⟩, hread, hresult⟩ := bind_eq_ok hperform
      obtain rfl := deviceRead_memory hpossible hread
      cases hresult
      exact replay_deviceRead hpossible
    | write length buffer answers =>
      obtain ⟨⟨exit, memory⟩, hwrite, hresult⟩ := bind_eq_ok hperform
      cases hresult
      exact replay_deviceWrite hpossible hwrite

end Writes

/-- The header of a minor, and the node and message buffer of each of its cells. -/
def minorBlocks (s : State File Addr) (cells : Fin 256 → List (Cell Addr)) (minor : Fin 256) :
    List Addr :=
  match s.devices minor.succ with
  | none => []
  | some lst => lst :: (cells minor).flatMap fun c => [c.node, c.msg]

/-- The blocks the driver accounts for. -/
def blocks (s : State File Addr) (cells : Fin 256 → List (Cell Addr)) : List Addr :=
  (List.finRange 256).flatMap (minorBlocks s cells)

/-- Every opened minor has a header that lists its cells, and the live blocks
are these headers with the blocks of their cells, each of them once. -/
structure Inventory (s : State File Addr) (cells : Fin 256 → List (Cell Addr)) : Prop where
  lists : ∀ minor lst, s.devices minor.succ = some lst →
    ∃ first, ListHolds s.memory lst first (cells minor)
  nodup : (blocks s cells).Nodup
  live : ∀ a, liveOf s.memory a = true ↔ a ∈ blocks s cells

section Inventories

variable {s s' : State File Addr} {store : Store} {garbage : Fin 256 → Option Addr}
  {cells : Fin 256 → List (Cell Addr)} {a : Addr}

/-- The blocks of an opened minor. -/
theorem mem_minorBlocks {minor : Fin 256} :
    a ∈ minorBlocks s cells minor ↔
      ∃ lst, s.devices minor.succ = some lst ∧ Uses lst (cells minor) a := by
  unfold minorBlocks
  cases s.devices minor.succ with
  | none => simp
  | some lst => simp [Uses]

/-- No block of a list occurs in two of its roles. -/
theorem cellBlocks_nodup {m : Memory Addr} {lst : Addr} {first : Option Addr}
    {cells : List (Cell Addr)} (h : ListHolds m lst first cells) :
    (lst :: cells.flatMap fun c => [c.node, c.msg]).Nodup := by
  refine List.nodup_cons.mpr ⟨fun hmem => ?_, List.nodup_flatMap.mpr ⟨fun c hc => ?_, ?_⟩⟩
  · obtain ⟨c, hc, hlst⟩ := List.mem_flatMap.mp hmem
    rcases List.mem_pair.mp hlst with heq | heq
    · exact (h.kinds hc hc).1 heq.symm
    · exact (h.kinds hc hc).2.1 heq.symm
  · simpa using (h.kinds hc hc).2.2
  · have hnodes := List.pairwise_map.mp h.nodes_nodup
    have hmsgs := List.pairwise_map.mp h.apart
    refine (hnodes.and hmsgs).imp_of_mem fun {c d} hc hd hne => ?_
    have hcd := (h.kinds hc hd).2.2
    have hdc := (h.kinds hd hc).2.2
    simp [List.disjoint_left, hne.1, hne.2, hcd, hdc.symm]

/-- A heap that is laid out is in balance. -/
theorem inventory_of_layout (h : Layout s store garbage cells) : Inventory s cells where
  lists minor lst hdevice := by
    obtain ⟨first, hlist, _⟩ := h.lists minor lst hdevice
    exact ⟨first, hlist⟩
  nodup := by
    refine List.nodup_flatMap.mpr ⟨fun minor _ => ?_, ?_⟩
    · unfold minorBlocks
      cases hdevice : s.devices minor.succ with
      | none => exact List.nodup_nil
      | some lst =>
        obtain ⟨first, hlist, _⟩ := h.lists minor lst hdevice
        exact cellBlocks_nodup hlist
    · refine (List.nodup_finRange 256).imp fun {i j} hne => ?_
      refine List.disjoint_left.mpr fun a hi hj => hne ?_
      obtain ⟨lst, hdevice, huses⟩ := mem_minorBlocks.mp hi
      obtain ⟨lst', hdevice', huses'⟩ := mem_minorBlocks.mp hj
      exact h.apart i j lst lst' a hdevice hdevice' huses huses'
  live a := by
    simp only [blocks, List.mem_flatMap, mem_minorBlocks]
    constructor
    · intro hlive
      obtain ⟨minor, lst, hdevice, huses⟩ := h.live a hlive
      exact ⟨minor, List.mem_finRange minor, lst, hdevice, huses⟩
    · rintro ⟨minor, _, lst, hdevice, huses⟩
      obtain ⟨first, hlist, _⟩ := h.lists minor lst hdevice
      exact hlist.live huses

end Inventories

/-- The call can come from a program: an open through a new file, any other
call through a file that is open. -/
def Issued (s : State File Addr) (f : File) (target : OpenFile) : Call Addr → Prop
  | .open minor _ => (s.files f).isNone ∧ target = ⟨minor, 0⟩
  | _ => s.files f = some target

/-- No read before the minor has its first node, and no new node when the
minor has 2^31 - 1 of them. -/
def Admitted (cells : Fin 256 → List (Cell Addr)) (target : OpenFile) : Call Addr → Prop
  | .read _ _ _ _ => cells target.minor ≠ []
  | .write _ _ _ => (cells target.minor).length + 1 < 2 ^ 31 ∨
      ∃ c ∈ cells target.minor, c.channelId = channelOf target
  | _ => True

section Runs

variable [DecidableEq Addr] [DecidableEq File] {s s' : State File Addr}
  {cells : Fin 256 → List (Cell Addr)} {store : Store} {garbage : Fin 256 → Option Addr}
  {events : List (Event File Addr)} {log : List (Action Addr)}

/-- A call, with its entries added to the log. -/
structure LoggedStep (t : State File Addr × List (Action Addr)) (e : Event File Addr)
    (t' : State File Addr × List (Action Addr)) : Prop where
  step : Step t.1 e t'.1
  log : t'.2 = t.2 ++ callLog t.1 e

/-- Every admitted call returns; none of them faults. -/
theorem call_returns (h : Layout s store garbage cells) {f : File} {target : OpenFile}
    {call : Call Addr} (hissued : Issued s f target call) (hpossible : call.Possible s.memory)
    (hadmitted : Admitted cells target call) : ∃ reply s', Step s ⟨f, target, call, reply⟩ s' := by
  cases call with
  | «open» minor header =>
    exact ⟨(performOpen s f minor header).1, (performOpen s f minor header).2,
      .open minor header rfl hissued.2 hissued.1 hpossible rfl⟩
  | ioctl command param =>
    exact ⟨.ioctl (deviceIoctl target command param).1,
      { s with files := Function.update s.files f (some (deviceIoctl target command param).2) },
      .on hissued hpossible rfl⟩
  | read length buffer tmp left =>
    have hread := h.deviceRead target length buffer left (fun hnil => absurd hnil hadmitted) hpossible
    have hperform : performOn s f target (.read length buffer tmp left) =
        .ok (.read (store.read target length buffer tmp.isSome left).1
          (store.read target length buffer tmp.isSome left).2, s) := by
      rw [performOn, hread]
      rfl
    exact ⟨_, _, .on hissued hpossible hperform⟩
  | write length buffer answers =>
    rcases h.deviceWrite target length buffer hpossible with ⟨_, hfull, hnone⟩ | ⟨m', hok, _, _⟩
    · rcases hadmitted with hroom | ⟨c, hc, hchannel⟩
      · omega
      · rw [lookup, Option.map_eq_none_iff, List.find?_eq_none] at hnone
        exact absurd hchannel (by simpa using hnone c hc)
    · have hperform : performOn s f target (.write length buffer answers) =
          .ok (.written (store.writeExit target length buffer answers), { s with memory := m' }) := by
        rw [performOn, hok]
        rfl
      exact ⟨_, _, .on hissued hpossible hperform⟩

/-- The log of a run replays from the empty heap to the heap it reached. -/
theorem run_replays {t : State File Addr × List (Action Addr)}
    (run : Run LoggedStep (start, []) events t) :
    Run Step start events t.1 ∧ replay (fun _ => false) t.2 = some (liveOf t.1.memory) := by
  induction run with
  | nil => exact ⟨.nil, rfl⟩
  | snoc _ hlast ih =>
    obtain ⟨hrun, hlog⟩ := ih
    refine ⟨hrun.snoc hlast.step, ?_⟩
    rw [hlast.log]
    exact replay_append hlog (replay_step hlast.step)

/-- Every run has a log. -/
theorem run_logged (run : Run Step start events s) :
    ∃ log, Run LoggedStep ((start : State File Addr), []) events (s, log) := by
  induction run with
  | nil => exact ⟨[], .nil⟩
  | snoc _ hlast ih =>
    obtain ⟨log, hrun⟩ := ih
    exact ⟨_, hrun.snoc ⟨hlast, rfl⟩⟩

/-- After every run the live blocks are those of the lists, no admitted call
faults, and a cleanup leaves every block allocated by then freed exactly
once. -/
theorem blocks_accounted (run : Run LoggedStep ((start : State File Addr), []) events (s, log)) :
    ∃ cells, Inventory s cells ∧
      (∀ f target call, Issued s f target call → call.Possible s.memory →
        Admitted cells target call →
        ∃ reply t, LoggedStep (s, log) ⟨f, target, call, reply⟩ t) ∧
      ∃ freed m', simpleCleanup s = .ok (freed, m') ∧ (∀ a, m'.heap a = none) ∧
        ∀ a, ∃ n, about a (log ++ freed) = (List.replicate n (life a)).flatten := by
  obtain ⟨hrun, hlog⟩ := run_replays run
  obtain ⟨cells, hlayout⟩ := run_represents hrun
  refine ⟨cells, inventory_of_layout hlayout, ?_, ?_⟩
  · intro f target call hissued hpossible hadmitted
    obtain ⟨reply, s', hstep⟩ := call_returns hlayout hissued hpossible hadmitted
    exact ⟨reply, (s', log ++ callLog s ⟨f, target, call, reply⟩), hstep, rfl⟩
  · obtain ⟨freed, m', hcleanup, hempty⟩ := simpleCleanup_eq hlayout
    refine ⟨freed, m', hcleanup, hempty, fun a => ?_⟩
    have hheap : liveOf m' = fun _ => false := by
      funext x
      rw [liveOf, hempty x]
      rfl
    have hfreed := replay_freeDevices hcleanup
    rw [hheap] at hfreed
    exact replay_balanced (replay_append hlog hfreed) a

end Runs

/-- The accounts of one written message: header, node and message buffer are
live, the temporary buffer at 4 has been freed, and after the cleanup each
of the four blocks has lived once. -/
theorem blocks_accounted_firstMessage : ∃ (s : State Unit ℕ) (log : List (Action ℕ)),
    Run LoggedStep (start, []) firstMessage (s, log) ∧
    ∃ cells, Inventory s cells ∧ (∃ freed m', simpleCleanup s = .ok (freed, m') ∧
      ∀ a, ∃ n, about a (log ++ freed) = (List.replicate n (life a)).flatten) := by
  obtain ⟨s, run, _⟩ := firstMessage_run
  obtain ⟨log, hrun⟩ := run_logged run
  obtain ⟨cells, hinventory, _, freed, m', hcleanup, _, hlives⟩ := blocks_accounted hrun
  exact ⟨s, log, hrun, cells, hinventory, freed, m', hcleanup, hlives⟩

end OSCourse.MessageSlotAccounts
