import Mathlib.Algebra.Group.Nat.Defs
import OSCourse.QueueState

/-!
# The two linked lists of the queue

The items from `queue.head` and the waiting threads from
`queue.waitingHead` are chains whose last cell the tail pointer knows and
whose length the counter holds. Each function of the queue edits one of
the two and leaves the other alone.
-/

namespace OSCourse.QueueLists

open HeapSegments QueueState

variable {Item Tid Addr : Type}

/-- The links of live items. -/
def itemLink (m : Memory Item Tid Addr) (a : Addr) : Option (Option Addr) :=
  (m.items a).map QueueItem.next

/-- The links of the waiting nodes, which always have memory. -/
def nodeLink (m : Memory Item Tid Addr) (t : Tid) : Option (Option Tid) := some (m.nodes t).next

/-- The item list holds these items with these serial numbers, in order, and
nothing else of the heap is live. -/
structure ItemsHold (m : Memory Item Tid Addr) (serial : Addr → ℕ) (pending : List (Item × ℕ))
    (cells : List Addr) : Prop where
  chain : Chain (itemLink m) m.queue.head cells
  tail_eq : m.queue.tail = cells.getLast?
  live : ∀ a, (m.items a).isSome = true ↔ a ∈ cells
  content : cells.map (fun a => (m.items a).map fun c => (c.data, serial a)) = pending.map some
  count_eq : m.queue.count = BitVec.ofNat 64 pending.length

/-- The waiting list consists of the nodes of these threads, in order. -/
structure WaitersHold (m : Memory Item Tid Addr) (waiters : List Tid) : Prop where
  chain : Chain (nodeLink m) m.queue.waitingHead waiters
  tail_eq : m.queue.waitingTail = waiters.getLast?
  count_eq : m.queue.waitingCount = BitVec.ofNat 64 waiters.length

/-- Nothing about the waiting threads differs. -/
structure SameWaiters (m m' : Memory Item Tid Addr) : Prop where
  nodes_eq : m'.nodes = m.nodes
  asleep_eq : m'.asleep = m.asleep
  head_eq : m'.queue.waitingHead = m.queue.waitingHead
  tail_eq : m'.queue.waitingTail = m.queue.waitingTail
  count_eq : m'.queue.waitingCount = m.queue.waitingCount

/-- Nothing about the items differs. -/
structure SameItems (m m' : Memory Item Tid Addr) : Prop where
  items_eq : m'.items = m.items
  head_eq : m'.queue.head = m.queue.head
  tail_eq : m'.queue.tail = m.queue.tail
  count_eq : m'.queue.count = m.queue.count
  visited_eq : m'.queue.visitedCount = m.queue.visitedCount

variable {m m' : Memory Item Tid Addr} {serial : Addr → ℕ} {pending rest : List (Item × ℕ)}
  {cells : List Addr} {waiters : List Tid} {item : Item} {n : ℕ} {a : Addr} {t u : Tid}

theorem WaitersHold.congr (h : WaitersHold m waiters) (hsame : SameWaiters m m') :
    WaitersHold m' waiters where
  chain := by
    rw [hsame.head_eq]
    refine h.chain.congr fun t _ => ?_
    rw [nodeLink, nodeLink, hsame.nodes_eq]
  tail_eq := by rw [hsame.tail_eq, h.tail_eq]
  count_eq := by rw [hsame.count_eq, h.count_eq]

theorem ItemsHold.congr (h : ItemsHold m serial pending cells) (hsame : SameItems m m') :
    ItemsHold m' serial pending cells where
  chain := by
    rw [hsame.head_eq]
    refine h.chain.congr fun a _ => ?_
    rw [itemLink, itemLink, hsame.items_eq]
  tail_eq := by rw [hsame.tail_eq, h.tail_eq]
  live := by rw [hsame.items_eq]; exact h.live
  content := by rw [hsame.items_eq]; exact h.content
  count_eq := by rw [hsame.count_eq, h.count_eq]

/-- As many cells as items. -/
theorem ItemsHold.length_eq (h : ItemsHold m serial pending cells) :
    cells.length = pending.length := by
  simpa using congrArg List.length h.content

/-- As long as the counter has not wrapped, it is zero exactly when no item
is there. -/
theorem ItemsHold.count_zero (h : ItemsHold m serial pending cells)
    (hbound : pending.length < 2 ^ 64) : m.queue.count = 0 ↔ pending = [] := by
  rw [h.count_eq, ← BitVec.toNat_inj, BitVec.toNat_ofNat, Nat.mod_eq_of_lt hbound]
  simp

/-- A counter that is not zero counts something, wrapped or not. -/
theorem ItemsHold.pending_ne_nil (h : ItemsHold m serial pending cells)
    (hcount : m.queue.count ≠ 0) : pending ≠ [] := by
  rintro rfl
  exact hcount h.count_eq

/-- The head pointer is null exactly when no item is there. -/
theorem ItemsHold.head_none (h : ItemsHold m serial pending cells) :
    m.queue.head = none ↔ pending = [] := by
  rw [h.chain.first_eq_none, ← List.length_eq_zero_iff, h.length_eq, List.length_eq_zero_iff]

/-- The tail pointer is null exactly when no item is there. -/
theorem ItemsHold.tail_none (h : ItemsHold m serial pending cells) :
    m.queue.tail = none ↔ pending = [] := by
  rw [h.tail_eq, List.getLast?_eq_none_iff, ← List.length_eq_zero_iff, h.length_eq,
    List.length_eq_zero_iff]

/-- A counter grows with its list. -/
theorem count_succ (k : ℕ) : BitVec.ofNat 64 k + 1 = BitVec.ofNat 64 (k + 1) := by
  rw [BitVec.ofNat_add]
  rfl

/-- A counter shrinks with its list. -/
theorem count_pred (k : ℕ) : BitVec.ofNat 64 (k + 1) - 1 = BitVec.ofNat 64 k := by
  rw [← count_succ, BitVec.add_sub_cancel]

section Items

variable [DecidableEq Addr]

/-- The items and serial numbers behind the cells when one more cell is
linked and the items of the others stay. -/
theorem ItemsHold.content_snoc (h : ItemsHold m serial pending cells) (hnew : a ∉ cells)
    (item : Item) (n : ℕ) {items : Addr → Option (QueueItem Item Addr)}
    (hold : ∀ c ∈ cells, (items c).map QueueItem.data = (m.items c).map QueueItem.data)
    (hitem : (items a).map QueueItem.data = some item) :
    (cells ++ [a]).map (fun c => (items c).map fun cell =>
      (cell.data, Function.update serial a n c)) = (pending ++ [(item, n)]).map some := by
  rw [List.map_append, List.map_append, ← h.content]
  congr 1
  · refine List.map_congr_left fun c hc => ?_
    have hca : c ≠ a := fun heq => hnew (heq ▸ hc)
    have hdata := hold c hc
    rw [Function.update_of_ne hca]
    cases hi : items c <;> cases hm : m.items c <;> simp_all
  · rw [List.map_singleton, List.map_singleton, Function.update_self]
    cases hi : items a <;> simp_all

/-- Linking a fresh item appends it and touches no waiting thread. -/
theorem ItemsHold.linkItem (h : ItemsHold m serial pending cells) (hfresh : m.items a = none)
    (item : Item) (n : ℕ) :
    ∃ m', linkItem m a item = some m' ∧ SameWaiters m m' ∧
      m'.queue.visitedCount = m.queue.visitedCount ∧
      ItemsHold m' (Function.update serial a n) (pending ++ [(item, n)]) (cells ++ [a]) := by
  have hnew : a ∉ cells := by
    rw [← h.live, hfresh]
    simp
  have hlength : (pending ++ [(item, n)]).length = pending.length + 1 := by simp
  rcases List.eq_nil_or_concat cells with rfl | ⟨front, last, rfl⟩
  · have htail : m.queue.tail = none := by rw [h.tail_eq, List.getLast?_nil]
    have hlink : QueueState.linkItem m a item = some { m with
        items := Function.update m.items a (some ⟨item, none⟩)
        queue := { m.queue with
          head := some a, tail := some a, count := m.queue.count + 1 } } := by
      simp only [QueueState.linkItem, htail]
    refine ⟨_, hlink, ⟨rfl, rfl, rfl, rfl, rfl⟩, rfl, ?_, rfl, ?_,
      h.content_snoc hnew item n (by simp) (by simp), ?_⟩
    · exact ⟨rfl, none, by simp [itemLink], rfl⟩
    · intro b
      by_cases hb : b = a
      · subst hb
        simp
      · simpa [Function.update_of_ne hb, hb] using h.live b
    · rw [hlength, ← count_succ, ← h.count_eq]
  · rw [List.concat_eq_append] at h hnew ⊢
    have htail : m.queue.tail = some last := by rw [h.tail_eq, List.getLast?_concat]
    have hlast : last ≠ a := fun heq => hnew (heq ▸ List.mem_append_right _ List.mem_cons_self)
    obtain ⟨cell, hcell⟩ : ∃ cell, m.items last = some cell :=
      Option.isSome_iff_exists.mp ((h.live last).mpr (by simp))
    have hfront : ∀ c ∈ front, c ≠ last ∧ c ≠ a := by
      intro c hc
      have hnodup := h.chain.nodup
      rw [List.nodup_append] at hnodup
      exact ⟨fun heq => hnodup.2.2 c hc last (by simp) heq,
        fun heq => hnew (heq ▸ List.mem_append_left _ hc)⟩
    have hlink : QueueState.linkItem m a item = some { m with
        items := Function.update (Function.update m.items a (some ⟨item, none⟩)) last
          (some { cell with next := some a })
        queue := { m.queue with tail := some a, count := m.queue.count + 1 } } := by
      simp only [QueueState.linkItem, htail, Function.update_of_ne hlast, hcell]
    refine ⟨_, hlink, ⟨rfl, rfl, rfl, rfl, rfl⟩, rfl, ?_, by simp, ?_,
      h.content_snoc hnew item n ?_ ?_, ?_⟩
    · refine h.chain.push ?_ ?_ fun c hc => ?_
      · simp [itemLink]
      · simp [itemLink, Function.update_of_ne hlast.symm]
      · simp only [itemLink, Function.update_of_ne (hfront c hc).1,
          Function.update_of_ne (hfront c hc).2]
    · intro b
      by_cases hb : b = a
      · subst hb
        simp [Function.update_of_ne hlast.symm]
      · by_cases hbl : b = last
        · subst hbl
          simp
        · have hlive := h.live b
          simp only [List.mem_append, List.mem_singleton, hbl, or_false] at hlive
          simp [hb, hbl, hlive]
    · intro c hc
      dsimp only
      rcases List.mem_append.mp hc with hc | hc
      · rw [Function.update_of_ne (hfront c hc).1, Function.update_of_ne (hfront c hc).2]
      · obtain rfl : c = last := by simpa using hc
        simp [hcell]
    · simp [Function.update_of_ne hlast.symm]
    · rw [hlength, ← count_succ, ← h.count_eq]

/-- Removing from a nonempty list returns its first item, frees exactly its
cell and touches no waiting thread. -/
theorem ItemsHold.removeFirst (h : ItemsHold m serial ((item, n) :: pending) cells) :
    ∃ a m' others, removeFirst m = some (a, item, m') ∧ cells = a :: others ∧ serial a = n ∧
      SameWaiters m m' ∧ m'.queue.visitedCount = m.queue.visitedCount + 1 ∧
      ItemsHold m' serial pending others := by
  cases cells with
  | nil =>
    have hlength := h.length_eq
    simp at hlength
  | cons a others =>
    have hcontent := h.content
    simp only [List.map_cons, List.cons.injEq, Option.map_eq_some_iff, Prod.mk.injEq] at hcontent
    obtain ⟨⟨cell, hcell, hdata, hserial⟩, hothers⟩ := hcontent
    have hhead : m.queue.head = some a := h.chain.1
    obtain ⟨next, hnext, hchain⟩ := h.chain.pop
    have hlink : next = cell.next := by
      rw [itemLink, hcell] at hnext
      simpa using hnext.symm
    have hnodup := List.nodup_cons.mp h.chain.nodup
    have hne : ∀ c ∈ others, c ≠ a := fun c hc heq => hnodup.1 (heq ▸ hc)
    have hremove : QueueState.removeFirst m = some (a, item, { m with
        queue := { m.queue with
          head := cell.next
          tail := if cell.next = none then none else m.queue.tail
          count := m.queue.count - 1
          visitedCount := m.queue.visitedCount + 1 }
        items := Function.update m.items a none }) := by
      simp only [QueueState.removeFirst, hhead, hcell, hdata]
    refine ⟨a, _, others, hremove, rfl, hserial, ⟨rfl, rfl, rfl, rfl, rfl⟩, rfl, ?_, ?_, ?_, ?_, ?_⟩
    · rw [← hlink]
      refine hchain.congr fun c hc => ?_
      simp only [itemLink, Function.update_of_ne (hne c hc)]
    · rw [← hlink]
      dsimp only
      cases others with
      | nil =>
        obtain rfl : next = none := hchain
        rfl
      | cons b others =>
        rw [hchain.1, if_neg (by simp), h.tail_eq, List.getLast?_cons_cons]
    · intro b
      dsimp only
      by_cases hb : b = a
      · subst hb
        simp [hnodup.1]
      · rw [Function.update_of_ne hb, h.live]
        simp [hb]
    · rw [← hothers]
      refine List.map_congr_left fun c hc => ?_
      dsimp only
      rw [Function.update_of_ne (hne c hc)]
    · dsimp only
      rw [h.count_eq, List.length_cons, count_pred]

/-- `tryDequeue` leaves a queue it takes for empty alone and otherwise takes
the first item. -/
theorem ItemsHold.tryDequeue (h : ItemsHold m serial pending cells) :
    (m.queue.count = 0 ∧ tryDequeue m = some (none, m)) ∨
      ∃ a item n rest m' others, pending = (item, n) :: rest ∧
        tryDequeue m = some (some (a, item), m') ∧ serial a = n ∧ SameWaiters m m' ∧
        m'.queue.visitedCount = m.queue.visitedCount + 1 ∧ ItemsHold m' serial rest others := by
  by_cases hcount : m.queue.count = 0
  · refine .inl ⟨hcount, ?_⟩
    rw [QueueState.tryDequeue, if_pos hcount]
  · obtain ⟨⟨item, n⟩, rest, rfl⟩ := List.exists_cons_of_ne_nil (h.pending_ne_nil hcount)
    obtain ⟨a, m', others, hremove, _, hserial, hwaiters, hvisited, hrest⟩ := h.removeFirst
    refine .inr ⟨a, item, n, rest, m', others, rfl, ?_, hserial, hwaiters, hvisited, hrest⟩
    rw [QueueState.tryDequeue, if_neg hcount, hremove, Option.map_some]

end Items

section Waiters

variable [DecidableEq Tid]

/-- Without waiting threads an enqueue wakes nobody. -/
theorem wakeFirst_nil (h : WaitersHold m []) : wakeFirst m = m := by
  have hhead : m.queue.waitingHead = none := h.chain
  simp only [wakeFirst, hhead]

/-- An enqueue unlinks the first waiting thread, marks it and lets it go on;
the nodes of the others and the items stay. -/
theorem WaitersHold.wakeFirst (h : WaitersHold m (t :: waiters)) :
    WaitersHold (wakeFirst m) waiters ∧ SameItems m (wakeFirst m) ∧
      ((wakeFirst m).nodes t).isWaiting = false ∧ (wakeFirst m).asleep t = false ∧
      ∀ u, u ≠ t → (wakeFirst m).nodes u = m.nodes u ∧ (wakeFirst m).asleep u = m.asleep u := by
  have hhead : m.queue.waitingHead = some t := h.chain.1
  obtain ⟨next, hnext, hchain⟩ := h.chain.pop
  have hlink : (m.nodes t).next = next := by simpa [nodeLink] using hnext
  have hnodup := List.nodup_cons.mp h.chain.nodup
  refine ⟨⟨?_, ?_, ?_⟩, ?_, ?_, ?_, ?_⟩
  · simp only [QueueState.wakeFirst, hhead, hlink]
    refine hchain.congr fun u hu => ?_
    have hut : u ≠ t := fun heq => hnodup.1 (heq ▸ hu)
    simp only [nodeLink, Function.update_of_ne hut]
  · simp only [QueueState.wakeFirst, hhead, hlink]
    cases waiters with
    | nil =>
      obtain rfl : next = none := hchain
      rfl
    | cons u waiters =>
      rw [hchain.1, if_neg (by simp), h.tail_eq, List.getLast?_cons_cons]
  · simp only [QueueState.wakeFirst, hhead]
    rw [h.count_eq, List.length_cons, count_pred]
  · constructor <;> simp only [QueueState.wakeFirst, hhead]
  · simp only [QueueState.wakeFirst, hhead, Function.update_self]
  · simp only [QueueState.wakeFirst, hhead, Function.update_self]
  · intro u hu
    simp only [QueueState.wakeFirst, hhead, Function.update_of_ne hu, and_self]

/-- Registering appends the thread's own node and blocks the thread; the
flags of the others and the items stay. -/
theorem WaitersHold.register (h : WaitersHold m waiters) (ht : t ∉ waiters) :
    WaitersHold (register m t) (waiters ++ [t]) ∧ SameItems m (register m t) ∧
      ((register m t).nodes t).isWaiting = true ∧
      ∀ u, u ≠ t → ((register m t).nodes u).isWaiting = (m.nodes u).isWaiting ∧
        (register m t).asleep u = m.asleep u := by
  have hlength : (waiters ++ [t]).length = waiters.length + 1 := by simp
  rcases List.eq_nil_or_concat waiters with rfl | ⟨front, last, rfl⟩
  · have htail : m.queue.waitingTail = none := by rw [h.tail_eq, List.getLast?_nil]
    refine ⟨⟨?_, ?_, ?_⟩, ?_, ?_, ?_⟩
    · simp only [QueueState.register, htail]
      exact ⟨rfl, none, by simp [nodeLink], rfl⟩
    · simp only [QueueState.register, htail]
      rfl
    · simp only [QueueState.register, htail]
      rw [hlength, ← count_succ, ← h.count_eq]
    · constructor <;> simp only [QueueState.register, htail]
    · simp only [QueueState.register, htail, Function.update_self]
    · intro u hu
      simp only [QueueState.register, htail, Function.update_of_ne hu, and_self]
  · rw [List.concat_eq_append] at h ht hlength ⊢
    have htail : m.queue.waitingTail = some last := by rw [h.tail_eq, List.getLast?_concat]
    have hlast : last ≠ t := fun heq => ht (heq ▸ List.mem_append_right _ List.mem_cons_self)
    have hfront : ∀ c ∈ front, c ≠ last ∧ c ≠ t := by
      intro c hc
      have hnodup := h.chain.nodup
      rw [List.nodup_append] at hnodup
      exact ⟨fun heq => hnodup.2.2 c hc last (by simp) heq,
        fun heq => ht (heq ▸ List.mem_append_left _ hc)⟩
    refine ⟨⟨?_, ?_, ?_⟩, ?_, ?_, ?_⟩
    · simp only [QueueState.register, htail]
      refine h.chain.push ?_ ?_ fun c hc => ?_
      · simp [nodeLink]
      · simp [nodeLink, Function.update_of_ne hlast.symm]
      · simp only [nodeLink, Function.update_of_ne (hfront c hc).1,
          Function.update_of_ne (hfront c hc).2]
    · simp only [QueueState.register, htail, List.getLast?_concat]
    · simp only [QueueState.register, htail]
      rw [hlength, ← count_succ, ← h.count_eq]
    · constructor <;> simp only [QueueState.register, htail]
    · simp only [QueueState.register, htail, Function.update_of_ne hlast.symm,
        Function.update_self]
    · intro u hu
      by_cases hul : u = last
      · subst hul
        simp only [QueueState.register, htail, Function.update_self, Function.update_of_ne hu,
          and_self]
      · simp only [QueueState.register, htail, Function.update_of_ne hul,
          Function.update_of_ne hu, and_self]

/-- The clean-up after a wake-up changes nothing: the thread's node has
already left the list. -/
theorem WaitersHold.cleanUp_eq (h : WaitersHold m waiters) (ht : t ∉ waiters) :
    cleanUp m t = m := by
  have hhead : m.queue.waitingHead ≠ some t := by
    rw [h.chain.first_eq]
    exact fun heq => ht (List.mem_of_head? heq)
  have htail : m.queue.waitingTail ≠ some t := by
    rw [h.tail_eq]
    exact fun heq => ht (List.mem_of_getLast? heq)
  simp only [cleanUp, if_neg hhead, if_neg htail]

/-- The loop of `dequeue` sleeps on a queue it takes for empty and otherwise
takes the first item. -/
theorem ItemsHold.takeOrSleep [DecidableEq Addr] (h : ItemsHold m serial pending cells)
    (t : Tid) :
    (m.queue.count = 0 ∧ takeOrSleep m t = some (none, register m t)) ∨
      ∃ a item n rest m' others, pending = (item, n) :: rest ∧
        takeOrSleep m t = some (some (a, item), m') ∧ serial a = n ∧ SameWaiters m m' ∧
        m'.queue.visitedCount = m.queue.visitedCount + 1 ∧ ItemsHold m' serial rest others := by
  by_cases hcount : m.queue.count = 0
  · refine .inl ⟨hcount, ?_⟩
    rw [QueueState.takeOrSleep, if_pos hcount]
  · obtain ⟨⟨item, n⟩, rest, rfl⟩ := List.exists_cons_of_ne_nil (h.pending_ne_nil hcount)
    obtain ⟨a, m', others, hremove, _, hserial, hwaiters, hvisited, hrest⟩ := h.removeFirst
    refine .inr ⟨a, item, n, rest, m', others, rfl, ?_, hserial, hwaiters, hvisited, hrest⟩
    rw [QueueState.takeOrSleep, if_neg hcount, hremove, Option.map_some]

end Waiters

end OSCourse.QueueLists
