import OSCourse.HeapLog
import OSCourse.MessageSlotHistory
import Mathlib.Data.List.FinRange

/-!
# Unloading the message slot driver

`simple_cleanup` walks the array of devices and frees the list of each
opened minor: every node with its message buffer, and the header last. The
walk keeps the node it will follow one step ahead of the node it frees, so
it never reads a block it has freed. Each function also logs the blocks it
frees, in order.
-/

namespace OSCourse.MessageSlotCleanup

open HeapSegments HeapLog MessageSlotDriver MessageSlotList MessageSlotStore MessageSlotRefinement

variable {Addr File : Type}

/-- The live addresses of a heap. -/
def liveOf (m : Memory Addr) (a : Addr) : Bool := (m.heap a).isSome

section Cleanup

variable [DecidableEq Addr]

/-- `kfree` of a possibly null pointer, which does nothing on null. -/
def kfreePointer (m : Memory Addr) :
    Option Addr → Except Fault (List (Action Addr) × Memory Addr)
  | none => .ok ([], m)
  | some a => do
    let m ← kfree m a
    .ok ([.free a], m)

/-- `freeNode`. -/
def freeNode (m : Memory Addr) (node : Addr) :
    Except Fault (List (Action Addr) × Memory Addr) := do
  let cell ← loadNode m node
  let (msg, m) ← kfreePointer m cell.msg
  let (own, m) ← kfreePointer m (some node)
  .ok (msg ++ own, m)

/-- The loop of `freeLst` and the free of the last node behind it. -/
def freeNodes : ℕ → Memory Addr → Addr → Option Addr →
    Except Fault (List (Action Addr) × Memory Addr)
  | _, m, prev, none => freeNode m prev
  | 0, _, _, some _ => .error .endlessLoop
  | fuel + 1, m, prev, some cur => do
    let (freed, m) ← freeNode m prev
    let cell ← loadNode m cur
    let (rest, m) ← freeNodes fuel m cur cell.next
    .ok (freed ++ rest, m)

/-- The nodes `freeLst` frees. -/
def freeCells (m : Memory Addr) (l : LinkedList Addr) :
    Except Fault (List (Action Addr) × Memory Addr) :=
  if l.size ≠ 0 then
    match l.first with
    | none => .error .wildPointer
    | some prev => do
      let cell ← loadNode m prev
      freeNodes (m.created + 1) m prev cell.next
  else .ok ([], m)

/-- `freeLst`. -/
def freeLst (m : Memory Addr) (lst : Addr) :
    Except Fault (List (Action Addr) × Memory Addr) := do
  let l ← loadList m lst
  let (nodes, m) ← freeCells m l
  let (own, m) ← kfreePointer m (some lst)
  .ok (nodes ++ own, m)

/-- The loop of `simple_cleanup` over the minors that are left. -/
def freeDevices (devices : Fin 257 → Option Addr) :
    List (Fin 256) → Memory Addr → Except Fault (List (Action Addr) × Memory Addr)
  | [], m => .ok ([], m)
  | minor :: minors, m =>
    match devices minor.succ with
    | none => freeDevices devices minors m
    | some lst => do
      let (freed, m) ← freeLst m lst
      let (rest, m) ← freeDevices devices minors m
      .ok (freed ++ rest, m)

/-- `simple_cleanup`, which starts behind the unused first entry. -/
def simpleCleanup (s : State File Addr) : Except Fault (List (Action Addr) × Memory Addr) :=
  freeDevices s.devices (List.finRange 256) s.memory

variable {m m' m'' : Memory Addr} {a lst : Addr} {first : Option Addr} {cells : List (Cell Addr)}
  {log : List (Action Addr)}

/-- Storing a block makes its address live. -/
theorem liveOf_set (m : Memory Addr) (a : Addr) (b : Block Addr) :
    liveOf (m.set a b) = Function.update (liveOf m) a true := by
  funext x
  by_cases hx : x = a
  · subst hx
    simp [liveOf]
  · simp [liveOf, hx, set_heap_of_ne _ _ hx]

/-- Storing to a live address changes nothing about what is live. -/
theorem liveOf_set_live (h : liveOf m a = true) (b : Block Addr) :
    liveOf (m.set a b) = liveOf m := by
  rw [liveOf_set, ← h, Function.update_eq_self]

/-- A free that does not fault replays. -/
theorem replay_kfree (h : kfree m a = .ok m') :
    replay (liveOf m) [.free a] = some (liveOf m') := by
  unfold kfree at h
  split at h
  · rename_i hsome
    cases h
    have hlive : liveOf m a = true := hsome
    rw [replay_free hlive]
    refine congrArg some (funext fun x => ?_)
    by_cases hx : x = a
    · subst hx
      simp [liveOf]
    · simp [liveOf, hx]
  · cases h

theorem replay_kfreePointer {p : Option Addr} (h : kfreePointer m p = .ok (log, m')) :
    replay (liveOf m) log = some (liveOf m') := by
  cases p with
  | none =>
    cases h
    rfl
  | some a =>
    obtain ⟨m₁, hfree, heq⟩ := bind_eq_ok h
    cases heq
    exact replay_kfree hfree

theorem replay_freeNode {node : Addr} (h : freeNode m node = .ok (log, m')) :
    replay (liveOf m) log = some (liveOf m') := by
  obtain ⟨cell, _, h⟩ := bind_eq_ok h
  obtain ⟨⟨msg, m₁⟩, hmsg, h⟩ := bind_eq_ok h
  obtain ⟨⟨own, m₂⟩, hown, h⟩ := bind_eq_ok h
  cases h
  exact replay_append (replay_kfreePointer hmsg) (replay_kfreePointer hown)

theorem replay_freeNodes {fuel : ℕ} {prev : Addr} {cur : Option Addr}
    (h : freeNodes fuel m prev cur = .ok (log, m')) :
    replay (liveOf m) log = some (liveOf m') := by
  induction fuel generalizing m prev cur log with
  | zero =>
    cases cur with
    | none => exact replay_freeNode h
    | some cur => cases h
  | succ fuel ih =>
    cases cur with
    | none => exact replay_freeNode h
    | some cur =>
      obtain ⟨⟨freed, m₁⟩, hnode, h⟩ := bind_eq_ok h
      obtain ⟨cell, _, h⟩ := bind_eq_ok h
      obtain ⟨⟨rest, m₂⟩, hrest, h⟩ := bind_eq_ok h
      cases h
      exact replay_append (replay_freeNode hnode) (ih hrest)

theorem replay_freeLst (h : freeLst m lst = .ok (log, m')) :
    replay (liveOf m) log = some (liveOf m') := by
  obtain ⟨l, _, h⟩ := bind_eq_ok h
  obtain ⟨⟨nodes, m₁⟩, hnodes, h⟩ := bind_eq_ok h
  obtain ⟨⟨own, m₂⟩, hown, h⟩ := bind_eq_ok h
  cases h
  refine replay_append ?_ (replay_kfreePointer hown)
  unfold freeCells at hnodes
  split at hnodes
  · split at hnodes
    · cases hnodes
    · obtain ⟨cell, _, hloop⟩ := bind_eq_ok hnodes
      exact replay_freeNodes hloop
  · cases hnodes
    rfl

/-- The log of a cleanup replays from the heap it found to the one it left. -/
theorem replay_freeDevices {devices : Fin 257 → Option Addr} {minors : List (Fin 256)}
    (h : freeDevices devices minors m = .ok (log, m')) :
    replay (liveOf m) log = some (liveOf m') := by
  induction minors generalizing m log with
  | nil =>
    cases h
    rfl
  | cons minor minors ih =>
    unfold freeDevices at h
    split at h
    · exact ih h
    · obtain ⟨⟨freed, m₁⟩, hlist, h⟩ := bind_eq_ok h
      obtain ⟨⟨rest, m₂⟩, hrest, h⟩ := bind_eq_ok h
      cases h
      exact replay_append (replay_freeLst hlist) (ih hrest)

/-- A heap without some of its blocks. -/
structure Erased (m m' : Memory Addr) (gone : Addr → Prop) : Prop where
  dead : ∀ x, gone x → m'.heap x = none
  kept : ∀ x, ¬gone x → m'.heap x = m.heap x
  created : m'.created = m.created

omit [DecidableEq Addr] in
/-- Two rounds of frees. -/
theorem Erased.trans {gone more all : Addr → Prop} (h : Erased m m' gone)
    (h' : Erased m' m'' more) (hall : ∀ x, all x ↔ gone x ∨ more x) : Erased m m'' all where
  dead x hx := by
    by_cases hmore : more x
    · exact h'.dead x hmore
    · rw [h'.kept x hmore, h.dead x (((hall x).mp hx).resolve_right hmore)]
  kept x hx := by
    rw [hall] at hx
    push Not at hx
    rw [h'.kept x hx.2, h.kept x hx.1]
  created := h'.created.trans h.created

omit [DecidableEq Addr] in
/-- A cell with none of its blocks among those freed. -/
theorem Erased.cellHolds {gone : Addr → Prop} {c : Cell Addr} (h : Erased m m' gone)
    (hc : CellHolds m c) (hnode : ¬gone c.node) (hmsg : ¬gone c.msg) : CellHolds m' c :=
  hc.congr (h.kept _ hnode) (h.kept _ hmsg)

/-- Freeing a live block. -/
theorem kfreePointer_eq (h : liveOf m a = true) :
    ∃ m', kfreePointer m (some a) = .ok ([.free a], m') ∧ Erased m m' fun x => x = a := by
  have hfree : kfree m a = .ok { m with heap := Function.update m.heap a none } := if_pos h
  refine ⟨{ m with heap := Function.update m.heap a none }, ?_, fun x hx => ?_, fun x hx => ?_, rfl⟩
  · rw [kfreePointer, hfree, ok_bind]
  · rw [hx]
    exact Function.update_self ..
  · exact Function.update_of_ne hx ..

/-- Freeing a node frees its message buffer and the node itself. -/
theorem freeNode_eq {c : Cell Addr} (h : CellHolds m c) :
    ∃ log m', freeNode m c.node = .ok (log, m') ∧
      Erased m m' fun x => x = c.node ∨ x = c.msg := by
  obtain ⟨next, _, hload⟩ := h.loadNode
  have hmsg : liveOf m c.msg = true := by
    rw [liveOf, h.msg_eq]
    rfl
  obtain ⟨m₁, hfirst, herased⟩ := kfreePointer_eq hmsg
  have hnode : liveOf m₁ c.node = true := by
    rw [liveOf, herased.kept _ (h.node_ne_msg h)]
    obtain ⟨next, hnode⟩ := h.node_eq
    rw [hnode]
    rfl
  obtain ⟨m₂, hsecond, herased'⟩ := kfreePointer_eq hnode
  have hboth : ∀ x, x = c.node ∨ x = c.msg ↔ x = c.msg ∨ x = c.node := fun x => Or.comm
  refine ⟨[.free c.msg] ++ [.free c.node], m₂, ?_, herased.trans herased' hboth⟩
  simp only [freeNode, hload, ok_bind, hfirst, hsecond]

/-- The loop frees every node from the one it starts at, and follows only
links of nodes it has not freed. -/
theorem freeNodes_eq {fuel : ℕ} {c : Cell Addr} {next : Option Addr}
    (hlink : nodeLink m c.node = some next)
    (hchain : Chain (nodeLink m) next (cells.map Cell.node))
    (hholds : ∀ d ∈ c :: cells, CellHolds m d) (hnodes : ((c :: cells).map Cell.node).Nodup)
    (hmsgs : ((c :: cells).map Cell.msg).Nodup) (hfuel : cells.length < fuel) :
    ∃ log m', freeNodes fuel m c.node next = .ok (log, m') ∧
      Erased m m' fun x => ∃ d ∈ c :: cells, x = d.node ∨ x = d.msg := by
  induction cells generalizing m c next fuel with
  | nil =>
    obtain ⟨log, m', hfree, herased⟩ := freeNode_eq (hholds c List.mem_cons_self)
    obtain rfl : next = none := hchain
    exact ⟨log, m', by cases fuel <;> exact hfree, by simpa using herased⟩
  | cons d cells ih =>
    obtain ⟨log, m₁, hfree, herased⟩ := freeNode_eq (hholds c List.mem_cons_self)
    obtain ⟨fuel, rfl⟩ := Nat.exists_eq_succ_of_ne_zero (Nat.ne_zero_of_lt hfuel)
    obtain ⟨rfl, next', hlink', hrest⟩ := hchain
    obtain ⟨hnotin, hnodes'⟩ := List.nodup_cons.mp hnodes
    obtain ⟨hnotin', hmsgs'⟩ := List.nodup_cons.mp hmsgs
    have hcell := hholds c List.mem_cons_self
    have hapart : ∀ e ∈ d :: cells, ¬(e.node = c.node ∨ e.node = c.msg) ∧
        ¬(e.msg = c.node ∨ e.msg = c.msg) := by
      intro e he
      have hcell' := hholds e (List.mem_cons_of_mem c he)
      refine ⟨not_or.mpr ⟨fun heq => hnotin ?_, hcell'.node_ne_msg hcell⟩,
        not_or.mpr ⟨(hcell.node_ne_msg hcell').symm, fun heq => hnotin' ?_⟩⟩
      · exact List.mem_map.mpr ⟨e, he, heq⟩
      · exact List.mem_map.mpr ⟨e, he, heq⟩
    have hkeep : ∀ e ∈ d :: cells, CellHolds m₁ e := fun e he =>
      herased.cellHolds (hholds e (List.mem_cons_of_mem c he)) (hapart e he).1 (hapart e he).2
    have hlinks : ∀ e ∈ d :: cells, nodeLink m₁ e.node = nodeLink m e.node := by
      intro e he
      simp only [nodeLink, herased.kept _ (hapart e he).1]
    obtain ⟨next₁, hnext₁, hload⟩ := (hkeep d List.mem_cons_self).loadNode
    obtain rfl : next₁ = next' := by
      rw [hlinks d List.mem_cons_self, hlink'] at hnext₁
      exact (Option.some.inj hnext₁).symm
    have hchain₁ : Chain (nodeLink m₁) next₁ (cells.map Cell.node) := by
      refine hrest.congr fun a ha => ?_
      obtain ⟨e, he, rfl⟩ := List.mem_map.mp ha
      exact hlinks e (List.mem_cons_of_mem d he)
    obtain ⟨rest, m₂, hloop, hall⟩ :=
      ih hnext₁ hchain₁ hkeep hnodes' hmsgs' (Nat.lt_of_succ_lt_succ hfuel)
    refine ⟨log ++ rest, m₂, ?_, herased.trans hall fun x => by simp [or_assoc]⟩
    simp only [freeNodes, hfree, ok_bind, hload, hloop]

/-- Freeing a list frees exactly its blocks. -/
theorem freeLst_eq (h : ListHolds m lst first cells) (hroom : cells.length ≤ m.created) :
    ∃ log m', freeLst m lst = .ok (log, m') ∧ Erased m m' (Uses lst cells) := by
  have hcells : ∃ log m₁, freeCells m ⟨first, cells.length⟩ = .ok (log, m₁) ∧
      Erased m m₁ fun x => ∃ c ∈ cells, x = c.node ∨ x = c.msg := by
    cases cells with
    | nil => exact ⟨[], m, rfl, by simp, by simp, rfl⟩
    | cons c cells =>
      obtain ⟨rfl, next, hnext, hrest⟩ := h.chain (List.cons_ne_nil c cells)
      obtain ⟨next', hnext', hload⟩ := (h.holds c List.mem_cons_self).loadNode
      obtain rfl : next' = next := by
        rw [hnext] at hnext'
        exact (Option.some.inj hnext').symm
      have hsize : ((c :: cells).length : ℤ) ≠ 0 := by
        rw [List.length_cons]
        omega
      have hfuel : cells.length < m.created + 1 := by
        rw [List.length_cons] at hroom
        omega
      obtain ⟨log, m₁, hloop, herased⟩ :=
        freeNodes_eq hnext hrest h.holds h.nodes_nodup h.apart hfuel
      refine ⟨log, m₁, ?_, herased⟩
      simp only [freeCells, if_pos hsize, hload, ok_bind, hloop]
  obtain ⟨log, m₁, hnodes, herased⟩ := hcells
  have hheader : liveOf m₁ lst = true := by
    rw [liveOf, herased.kept lst, h.header]
    · rfl
    · intro hx
      obtain ⟨c, hc, hx | hx⟩ := hx
      · exact (h.kinds hc hc).1 hx.symm
      · exact (h.kinds hc hc).2.1 hx.symm
  obtain ⟨m₂, hown, herased'⟩ := kfreePointer_eq hheader
  refine ⟨log ++ [.free lst], m₂, ?_, herased.trans herased' fun x => Or.comm⟩
  simp only [freeLst, h.loadList, ok_bind, hnodes, hown]

/-- The loop over the devices frees exactly the lists of the minors it visits. -/
theorem freeDevices_eq {devices : Fin 257 → Option Addr} {cells : Fin 256 → List (Cell Addr)}
    {minors : List (Fin 256)} (hminors : minors.Nodup)
    (hlists : ∀ i ∈ minors, ∀ lst, devices i.succ = some lst →
      ∃ first, ListHolds m lst first (cells i))
    (hapart : ∀ i j lst lst' a, devices i.succ = some lst → devices j.succ = some lst' →
      Uses lst (cells i) a → Uses lst' (cells j) a → i = j)
    (hroom : ∀ i, (cells i).length ≤ m.created) :
    ∃ log m', freeDevices devices minors m = .ok (log, m') ∧
      Erased m m' fun x => ∃ i ∈ minors, ∃ lst, devices i.succ = some lst ∧ Uses lst (cells i) x := by
  induction minors generalizing m with
  | nil => exact ⟨[], m, rfl, by simp, by simp, rfl⟩
  | cons minor minors ih =>
    obtain ⟨hnotin, hminors'⟩ := List.nodup_cons.mp hminors
    cases hdevice : devices minor.succ with
    | none =>
      obtain ⟨log, m', hrest, herased⟩ := ih hminors'
        (fun i hi => hlists i (List.mem_cons_of_mem minor hi)) hroom
      refine ⟨log, m', ?_, ?_⟩
      · simp only [freeDevices, hdevice, hrest]
      · simpa [hdevice] using herased
    | some lst =>
      obtain ⟨first, hlist⟩ := hlists minor List.mem_cons_self lst hdevice
      obtain ⟨log, m₁, hfree, herased⟩ := freeLst_eq hlist (hroom minor)
      have hlists' : ∀ i ∈ minors, ∀ lst, devices i.succ = some lst →
          ∃ first, ListHolds m₁ lst first (cells i) := by
        intro i hi lst' hdevice'
        obtain ⟨first', hlist'⟩ := hlists i (List.mem_cons_of_mem minor hi) lst' hdevice'
        refine ⟨first', hlist'.congr fun a ha => herased.kept a fun hgone => hnotin ?_⟩
        rw [hapart minor i lst lst' a hdevice hdevice' hgone ha]
        exact hi
      obtain ⟨rest, m₂, hrest, herased'⟩ := ih hminors' hlists' (by simpa [herased.created] using hroom)
      refine ⟨log ++ rest, m₂, ?_, herased.trans herased' fun x => by simp [hdevice]⟩
      simp only [freeDevices, hdevice, hfree, ok_bind, hrest]

/-- The cleanup of a driver whose heap is laid out runs without a fault and
leaves no block behind. -/
theorem simpleCleanup_eq {s : State File Addr} {store : Store} {garbage : Fin 256 → Option Addr}
    {cells : Fin 256 → List (Cell Addr)} (h : Layout s store garbage cells) :
    ∃ log m', simpleCleanup s = .ok (log, m') ∧ ∀ a, m'.heap a = none := by
  have hlists : ∀ i ∈ List.finRange 256, ∀ lst, s.devices i.succ = some lst →
      ∃ first, ListHolds s.memory lst first (cells i) := by
    intro i _ lst hdevice
    obtain ⟨first, hlist, _⟩ := h.lists i lst hdevice
    exact ⟨first, hlist⟩
  obtain ⟨log, m', hcleanup, herased⟩ :=
    freeDevices_eq (List.nodup_finRange 256) hlists h.apart h.room
  refine ⟨log, m', hcleanup, fun a => ?_⟩
  by_cases hlive : (s.memory.heap a).isSome = true
  · obtain ⟨minor, lst, hdevice, huses⟩ := h.live a hlive
    exact herased.dead a ⟨minor, List.mem_finRange minor, lst, hdevice, huses⟩
  · rw [herased.kept a]
    · simpa using hlive
    · intro hgone
      obtain ⟨i, hi, lst, hdevice, huses⟩ := hgone
      obtain ⟨first, hlist⟩ := hlists i hi lst hdevice
      exact hlive (hlist.live huses)

end Cleanup

end OSCourse.MessageSlotCleanup
