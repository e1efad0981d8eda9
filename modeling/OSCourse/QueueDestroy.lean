import OSCourse.QueueMalloc
import OSCourse.QueueOrder

/-!
# The end of the queue

`destroyQueue` walks both lists and calls `free` on every cell it meets. The
cells of the item list come from `malloc`, and with the frees of `dequeue`
and `tryDequeue` each of them is freed exactly once. The cells of the
waiting list are variables of blocked threads, and an item that a thread has
allocated and not linked is in no list. So the walk releases exactly what
was allocated when nobody is registered and nobody holds such an item.
-/

namespace OSCourse.QueueDestroy

open Runs HeapSegments HeapLog QueueState QueueLists QueueLedger QueueRuns QueueOrder QueueMalloc

variable {Item Tid Addr : Type}

/-- What `free` is called on: an item, which `malloc` returned, or the
`myWaitingThread` on the stack of a thread. -/
inductive Block (Tid Addr : Type) where
  | item (a : Addr)
  | node (t : Tid)
  deriving DecidableEq

/-- The block came from `malloc`. -/
def Block.fromMalloc : Block Tid Addr → Bool
  | .item _ => true
  | .node _ => false

/-- The loop over the items, with the calls of `free` it makes; no result
when it follows a freed item or runs for longer. -/
def freeItems [DecidableEq Addr] :
    ℕ → Memory Item Tid Addr → Option (List (Block Tid Addr) × Memory Item Tid Addr)
  | 0, _ => none
  | fuel + 1, m =>
    match m.queue.head with
    | none => some ([], m)
    | some a =>
      match m.items a with
      | none => none
      | some cell =>
        (freeItems fuel { m with
          queue := { m.queue with head := cell.next }
          items := Function.update m.items a none }).map fun r => (.item a :: r.1, r.2)

/-- The loop over the waiting threads. -/
def freeWaiting :
    ℕ → Memory Item Tid Addr → Option (List (Block Tid Addr) × Memory Item Tid Addr)
  | 0, _ => none
  | fuel + 1, m =>
    match m.queue.waitingHead with
    | none => some ([], m)
    | some t =>
      (freeWaiting fuel { m with
        queue := { m.queue with waitingHead := (m.nodes t).next } }).map fun r =>
          (.node t :: r.1, r.2)

/-- `destroyQueue`, between taking and destroying the mutex. -/
def destroyQueue [DecidableEq Addr] (fuel : ℕ) (m : Memory Item Tid Addr) :
    Option (List (Block Tid Addr) × Memory Item Tid Addr) :=
  (freeItems fuel m).bind fun r => (freeWaiting fuel r.2).map fun r' => (r.1 ++ r'.1, r'.2)

/-- A call of `free`, as an entry of the heap's log. -/
def Block.log : Block Tid Addr → List (HeapLog.Action Addr)
  | .item a => [.free a]
  | .node _ => []

/-- The walk ends, frees each item of the queue once and nothing that did not
come from `malloc`, and in the whole history every block that was allocated was
freed exactly once, before its address was used again. -/
def ReleasesAll [DecidableEq Addr] (labels : List (SplitLabel Item Tid Addr))
    (w : SplitState Item Tid Addr) : Prop :=
  ∃ freed m', (∃ enough, ∀ fuel, enough ≤ fuel →
      destroyQueue fuel w.state.mem = some (freed, m')) ∧
    (∀ block ∈ freed, block.fromMalloc = true) ∧ freed.Nodup ∧
    (∀ a, .item a ∈ freed ↔ (w.state.mem.items a).isSome = true) ∧ (∀ a, m'.items a = none) ∧
    ∀ a, ∃ n, about a (heapLog labels ++ freed.flatMap Block.log) =
      (List.replicate n (life a)).flatten

variable {m : Memory Item Tid Addr} {cells : List Addr} {waiters : List Tid}

/-- The loop over the waiting threads frees their nodes. -/
theorem freeWaiting_eq (h : Chain (nodeLink m) m.queue.waitingHead waiters) {fuel : ℕ}
    (hfuel : waiters.length < fuel) :
    freeWaiting fuel m =
      some (waiters.map .node, { m with queue := { m.queue with waitingHead := none } }) := by
  induction waiters generalizing m fuel with
  | nil =>
    obtain ⟨left, rfl⟩ : ∃ left, fuel = left + 1 := ⟨fuel - 1, by omega⟩
    have hhead : m.queue.waitingHead = none := h
    simp only [freeWaiting, hhead]
    rw [← hhead]
    rfl
  | cons t waiters ih =>
    rw [List.length_cons] at hfuel
    obtain ⟨left, rfl⟩ : ∃ left, fuel = left + 1 := ⟨fuel - 1, by omega⟩
    have hhead : m.queue.waitingHead = some t := h.1
    obtain ⟨next, hnext, hchain⟩ := h.pop
    obtain rfl : (m.nodes t).next = next := by simpa [nodeLink] using hnext
    have hrest := ih (m := { m with queue := { m.queue with waitingHead := (m.nodes t).next } })
      hchain (show waiters.length < left by omega)
    simp only [freeWaiting, hhead, hrest, Option.map_some, List.map_cons]

section Items

variable [DecidableEq Addr]

/-- The loop over the items frees exactly the cells of the list. -/
theorem freeItems_eq (h : Chain (itemLink m) m.queue.head cells) {fuel : ℕ}
    (hfuel : cells.length < fuel) :
    ∃ items, freeItems fuel m = some (cells.map .item, { m with
        queue := { m.queue with head := none }, items := items }) ∧
      ∀ a, items a = if a ∈ cells then none else m.items a := by
  induction cells generalizing m fuel with
  | nil =>
    obtain ⟨left, rfl⟩ : ∃ left, fuel = left + 1 := ⟨fuel - 1, by omega⟩
    have hhead : m.queue.head = none := h
    refine ⟨m.items, ?_, by simp⟩
    simp only [freeItems, hhead]
    rw [← hhead]
    rfl
  | cons a cells ih =>
    rw [List.length_cons] at hfuel
    obtain ⟨left, rfl⟩ : ∃ left, fuel = left + 1 := ⟨fuel - 1, by omega⟩
    have hhead : m.queue.head = some a := h.1
    have hnodup := List.nodup_cons.mp h.nodup
    obtain ⟨next, hnext, hchain⟩ := h.pop
    obtain ⟨cell, hcell, rfl⟩ := Option.map_eq_some_iff.mp hnext
    obtain ⟨items, hrest, hitems⟩ := ih (m := { m with
        queue := { m.queue with head := cell.next }, items := Function.update m.items a none })
      (hchain.congr fun c hc => by
        have hne : c ≠ a := fun heq => hnodup.1 (heq ▸ hc)
        simp only [itemLink, Function.update_of_ne hne])
      (show cells.length < left by omega)
    refine ⟨items, ?_, fun b => ?_⟩
    · simp only [freeItems, hhead, hcell, hrest, Option.map_some, List.map_cons]
    · rw [hitems]
      by_cases hb : b = a
      · subst hb
        simp
      · simp [hb]

/-- What `destroyQueue` does to the two lists. -/
theorem destroyQueue_eq (hitems : Chain (itemLink m) m.queue.head cells)
    (hwaiters : Chain (nodeLink m) m.queue.waitingHead waiters) :
    ∃ m', (∀ fuel, cells.length + waiters.length + 1 ≤ fuel → destroyQueue fuel m =
        some (cells.map .item ++ waiters.map .node, m')) ∧
      ∀ a, m'.items a = if a ∈ cells then none else m.items a := by
  obtain ⟨items, -, hfreed⟩ := freeItems_eq hitems (Nat.lt_succ_self _)
  refine ⟨{ m with
    queue := { m.queue with head := none, waitingHead := none }, items := items }, ?_, hfreed⟩
  intro fuel hfuel
  obtain ⟨items', hfree, hfreed'⟩ := freeItems_eq hitems (show cells.length < fuel by omega)
  obtain rfl : items' = items := funext fun a => (hfreed' a).trans (hfreed a).symm
  have hwalk := freeWaiting_eq (m := { m with
    queue := { m.queue with head := none }, items := items' }) hwaiters
    (show waiters.length < fuel by omega)
  simp only [destroyQueue, hfree, Option.bind_some, hwalk, Option.map_some]

end Items

/-- Where a thread is registered, its stack is passed to `free`. -/
theorem not_releasesAll [DecidableEq Addr] {labels : List (SplitLabel Item Tid Addr)}
    {w : SplitState Item Tid Addr}
    (hitems : Chain (itemLink w.state.mem) w.state.mem.queue.head cells)
    (hwaiters : Chain (nodeLink w.state.mem) w.state.mem.queue.waitingHead waiters)
    (hne : waiters ≠ []) : ¬ReleasesAll labels w := by
  rintro ⟨freed, m', ⟨enough, hends⟩, hmalloc, -⟩
  obtain ⟨m'', hdestroy, -⟩ := destroyQueue_eq hitems hwaiters
  have hfreed := hends (enough + (cells.length + waiters.length + 1)) (Nat.le_add_right ..)
  rw [hdestroy _ (Nat.le_add_left ..)] at hfreed
  cases hfreed
  obtain ⟨t, rest, rfl⟩ := List.exists_cons_of_ne_nil hne
  cases hmalloc (.node t) (by simp)

/-- The log of the walk over the items. -/
theorem log_items (cells : List Addr) :
    (cells.map (.item : Addr → Block Tid Addr)).flatMap Block.log = cells.map .free := by
  induction cells with
  | nil => rfl
  | cons a cells ih =>
    rw [List.map_cons, List.map_cons, List.flatMap_cons, ih]
    rfl

section Runs

variable [DecidableEq Tid] {program : Tid → List (Call Item)} {nodes : Tid → WaitingThread Tid}
  {labels : List (SplitLabel Item Tid HeapAddress)} {w : SplitState Item Tid HeapAddress}

/-- `destroyQueue` releases exactly what was allocated if and only if no thread is
registered in the waiting list and none is in `enqueue` between its `malloc` and its
section. -/
theorem releases_all_iff (run : Run SplitStep (splitStart program nodes) labels w) :
    ReleasesAll labels w ↔
      w.state.mem.queue.waitingHead = none ∧ ∀ t, w.newItem t = none := by
  obtain ⟨hsections, hheld⟩ := split_run run
  obtain ⟨-, hrep⟩ := queue_simulates hsections fun before middle _ _ _ hrep => by
    obtain ⟨cells, hitems⟩ := hrep.items
    rw [← hitems.length_eq]
    exact length_lt_of_nodup hitems.chain.nodup
  obtain ⟨cells, hitems⟩ := hrep.items
  obtain ⟨m', hdestroy, hleft⟩ := destroyQueue_eq hitems.chain hrep.calls.list.chain
  obtain ⟨live, hlog, hlive⟩ := split_log run
  have hlinked : ∀ a ∈ cells, live a = true := fun a ha =>
    (hlive a).mpr (.inl ((hitems.live a).mpr ha))
  obtain ⟨live', hfrees, hlive'⟩ := replay_frees hitems.chain.nodup hlinked
  have hwhole := replay_append hlog hfrees
  rw [hrep.calls.list.chain.first_eq_none]
  constructor
  · intro hreleases
    have hnone : (ledger (sections labels)).waiters.map Prod.fst = [] := by_contra fun hne =>
      not_releasesAll hitems.chain hrep.calls.list.chain hne hreleases
    refine ⟨hnone, fun t => Option.eq_none_iff_forall_ne_some.mpr fun a ha => ?_⟩
    obtain ⟨freed, m'', ⟨enough, hends⟩, -, -, -, -, hlives⟩ := hreleases
    have hfreed := hends (enough + (cells.length + 0 + 1)) (Nat.le_add_right ..)
    rw [hnone, List.map_nil, List.append_nil, List.length_nil] at hdestroy
    rw [hdestroy _ (Nat.le_add_left ..)] at hfreed
    cases hfreed
    obtain ⟨n, hn⟩ := hlives a
    rw [log_items] at hn
    refine not_balanced hwhole ((hlive' a).mpr ⟨(hlive a).mpr (.inr ⟨t, ha⟩), fun hmem => ?_⟩) n hn
    have hlinked := (hitems.live a).mpr hmem
    rw [hheld.apart t a ha] at hlinked
    cases hlinked
  · rintro ⟨hnone, hempty⟩
    rw [hnone, List.map_nil, List.append_nil, List.length_nil] at hdestroy
    refine ⟨cells.map .item, m', ⟨_, hdestroy⟩, ?_, ?_, ?_, ?_, fun a => ?_⟩
    · intro block hblock
      obtain ⟨a, -, rfl⟩ := List.mem_map.mp hblock
      rfl
    · exact hitems.chain.nodup.map fun a b hab => Block.item.inj hab
    · intro a
      rw [hitems.live]
      simp
    · intro a
      rw [hleft]
      by_cases ha : a ∈ cells
      · rw [if_pos ha]
      · rw [if_neg ha, ← Option.not_isSome_iff_eq_none, hitems.live]
        exact ha
    · have hdead : live' = fun _ => false := by
        funext b
        rw [← Bool.not_eq_true, hlive', hlive]
        rintro ⟨hlinked | ⟨t, ht⟩, hout⟩
        · exact hout ((hitems.live b).mp hlinked)
        · rw [hempty t] at ht
          cases ht
      rw [log_items]
      rw [hdead] at hwhole
      exact replay_balanced hwhole a

end Runs

/-- One thread dequeues, another enqueues twice. -/
def leftoverProgram (t : Fin 2) : List (Call ℕ) :=
  if t = 0 then [.dequeue] else [.enqueue 7, .enqueue 8]

/-- The first thread is blocked in `dequeue`. -/
def blocked : List (SplitLabel ℕ (Fin 2) HeapAddress) := [] ++ [.locked (.slept 0 0) none]

/-- The second thread has allocated its first item. -/
def allocated : List (SplitLabel ℕ (Fin 2) HeapAddress) := [] ++ [.malloc 1 ⟨16, by decide⟩]

/-- One item was returned, another one is left over. -/
def leftover : List (SplitLabel ℕ (Fin 2) HeapAddress) :=
  [] ++ [.malloc 1 ⟨16, by decide⟩] ++ [.locked (.enqueued 1 7 0 none) none] ++
    [.malloc 1 ⟨32, by decide⟩] ++ [.locked (.enqueued 1 8 1 none) none] ++
      [.locked (.dequeued 0 2 false 7 0) (some ⟨16, by decide⟩)]

theorem blocked_run : ∃ w : SplitState ℕ (Fin 2) HeapAddress,
    Run SplitStep (splitStart leftoverProgram fun _ => ⟨none, false⟩) blocked w ∧
      w.state.mem.queue.waitingHead = some 0 ∧
        ∃ m', destroyQueue 2 w.state.mem = some ([.node 0], m') := by
  refine ⟨_, .snoc .nil (.other (.call 0 ⟨16, by decide⟩)
    ⟨rfl, by decide, by simp [splitStart, start, leftoverProgram]⟩ ?_ rfl), rfl, _, rfl⟩
  rintro t a item rest ⟨⟩ hprogram
  simp [splitStart, start, leftoverProgram] at hprogram

theorem allocated_run : ∃ w : SplitState ℕ (Fin 2) HeapAddress,
    Run SplitStep (splitStart leftoverProgram fun _ => ⟨none, false⟩) allocated w ∧
      w.newItem 1 = some ⟨16, by decide⟩ :=
  ⟨_, .snoc .nil (.malloc rfl rfl rfl rfl nofun), rfl⟩

theorem leftover_run : ∃ w : SplitState ℕ (Fin 2) HeapAddress,
    Run SplitStep (splitStart leftoverProgram fun _ => ⟨none, false⟩) leftover w ∧
      w.state.mem.queue.waitingHead = none ∧ ∀ t, w.newItem t = none := by
  have first : Run SplitStep (splitStart leftoverProgram fun _ => ⟨none, false⟩) allocated _ :=
    .snoc .nil (.malloc rfl rfl rfl rfl nofun)
  have second : Run SplitStep _ (allocated ++ [.locked (.enqueued 1 7 0 none) none]) _ :=
    first.snoc (.link 1 ⟨16, by decide⟩ rfl rfl rfl)
  have third : Run SplitStep _ (allocated ++ [.locked (.enqueued 1 7 0 none) none] ++
      [.malloc 1 ⟨32, by decide⟩]) _ := second.snoc (.malloc rfl rfl rfl rfl (by decide))
  have fourth : Run SplitStep _ (allocated ++ [.locked (.enqueued 1 7 0 none) none] ++
      [.malloc 1 ⟨32, by decide⟩] ++ [.locked (.enqueued 1 8 1 none) none]) _ :=
    third.snoc (.link 1 ⟨32, by decide⟩ rfl rfl rfl)
  have fifth : Run SplitStep _ leftover _ :=
    fourth.snoc (.other (.call 0 ⟨48, by decide⟩) ⟨rfl, by decide, by
      simp [splitStart, start, leftoverProgram]⟩ (by
        rintro t a item rest ⟨⟩ hprogram
        simp [splitStart, start, leftoverProgram] at hprogram) rfl)
  exact ⟨_, fifth, rfl, by decide⟩

/-- With a thread blocked in `dequeue`, its stack is passed to `free`. -/
theorem releases_all_fails : ∃ w : SplitState ℕ (Fin 2) HeapAddress,
    Run SplitStep (splitStart leftoverProgram fun _ => ⟨none, false⟩) blocked w ∧
      (∃ m', destroyQueue 2 w.state.mem = some ([.node 0], m')) ∧ ¬ReleasesAll blocked w := by
  obtain ⟨w, run, hhead, hdestroy⟩ := blocked_run
  obtain ⟨-, hrep⟩ := represents_of_few (split_run run).1 (by decide)
  obtain ⟨cells, hitems⟩ := hrep.items
  have hwaiters := hrep.calls.list.chain
  refine ⟨w, run, hdestroy, not_releasesAll hitems.chain hwaiters fun hnone => ?_⟩
  rw [hwaiters.first_eq_none.mpr hnone] at hhead
  cases hhead

/-- A blocked thread, an item that is not linked yet, and one that is left over. -/
theorem releases_all_iff_each : ∃ w w' w'' : SplitState ℕ (Fin 2) HeapAddress,
    ¬ReleasesAll blocked w ∧ ¬ReleasesAll allocated w' ∧ ReleasesAll leftover w'' := by
  obtain ⟨w, run, hhead, -⟩ := blocked_run
  obtain ⟨w', run', hheld⟩ := allocated_run
  obtain ⟨w'', run'', hempty⟩ := leftover_run
  refine ⟨w, w', w'', fun hreleases => ?_, fun hreleases => ?_, (releases_all_iff run'').mpr hempty⟩
  · rw [((releases_all_iff run).mp hreleases).1] at hhead
    cases hhead
  · rw [((releases_all_iff run').mp hreleases).2] at hheld
    cases hheld

end OSCourse.QueueDestroy
