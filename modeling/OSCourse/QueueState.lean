import OSCourse.Runs
import OSCourse.HeapSegments

/-!
# The shared queue and its threads

The queue keeps a linked list of items from `malloc` and a linked list of
waiting threads whose nodes live on the stacks of those threads. Every
section between taking and releasing the mutex is one atomic step; a
`cnd_wait` ends a section, and a thread whose wait is over, by a signal or
spuriously, later takes the mutex again. A dereference of null or of a
freed item has no result. The serial numbers of items, the step counter
and the starts of calls record history and decide nothing.
-/

namespace OSCourse.QueueState

variable {Item Tid Addr : Type}

/-- `QueueItem`. -/
structure QueueItem (Item Addr : Type) where
  /-- The caller's pointer. -/
  data : Item
  /-- The item behind this one. -/
  next : Option Addr

/-- `WaitingThread`; its condition variable is the owner's entry in `asleep`. -/
structure WaitingThread (Tid : Type) where
  /-- The thread that registered after this one. -/
  next : Option Tid
  /-- Cleared by the enqueue that wakes the thread. -/
  isWaiting : Bool

/-- `Queue`, without its mutex. -/
structure Queue (Tid Addr : Type) where
  /-- First item. -/
  head : Option Addr
  /-- Last item. -/
  tail : Option Addr
  /-- Items in the queue. -/
  count : BitVec 64
  /-- Items that have passed through. -/
  visitedCount : BitVec 64
  /-- First waiting thread. -/
  waitingHead : Option Tid
  /-- Last waiting thread. -/
  waitingTail : Option Tid
  /-- Threads in the waiting list. -/
  waitingCount : BitVec 64

/-- What the mutex guards, with the memory it points into. -/
structure Memory (Item Tid Addr : Type) where
  /-- The global `queue`. -/
  queue : Queue Tid Addr
  /-- Live items of the heap. -/
  items : Addr → Option (QueueItem Item Addr)
  /-- The `myWaitingThread` on the stack of each thread. -/
  nodes : Tid → WaitingThread Tid
  /-- Threads blocked on the condition variable of their own node. -/
  asleep : Tid → Bool

/-- `initQueue`. -/
def initQueue : Queue Tid Addr := ⟨none, none, 0, 0, none, none, 0⟩

/-- `size`. -/
def size (m : Memory Item Tid Addr) : BitVec 64 := m.queue.count

/-- `visited`. -/
def visited (m : Memory Item Tid Addr) : BitVec 64 := m.queue.visitedCount

/-- `waiting`. -/
def waiting (m : Memory Item Tid Addr) : BitVec 64 := m.queue.waitingCount

section Functions

variable [DecidableEq Tid] [DecidableEq Addr]

/-- The item part of `enqueue`: allocate, and link behind the last item. -/
def linkItem (m : Memory Item Tid Addr) (newItem : Addr) (item : Item) :
    Option (Memory Item Tid Addr) :=
  let items := Function.update m.items newItem (some ⟨item, none⟩)
  match m.queue.tail with
  | none =>
    some { m with
      items := items
      queue := { m.queue with
        head := some newItem, tail := some newItem, count := m.queue.count + 1 } }
  | some last =>
    match items last with
    | none => none
    | some cell =>
      some { m with
        items := Function.update items last (some { cell with next := some newItem })
        queue := { m.queue with tail := some newItem, count := m.queue.count + 1 } }

/-- The wake-up part of `enqueue`: unlink the first waiting thread, mark it
and signal its condition variable. -/
def wakeFirst (m : Memory Item Tid Addr) : Memory Item Tid Addr :=
  match m.queue.waitingHead with
  | none => m
  | some t =>
    let next := (m.nodes t).next
    { m with
      queue := { m.queue with
        waitingHead := next
        waitingTail := if next = none then none else m.queue.waitingTail
        waitingCount := m.queue.waitingCount - 1 }
      nodes := Function.update m.nodes t ⟨next, false⟩
      asleep := Function.update m.asleep t false }

/-- `enqueue`, with the address that `malloc` returned. -/
def enqueue (m : Memory Item Tid Addr) (newItem : Addr) (item : Item) :
    Option (Memory Item Tid Addr) :=
  (linkItem m newItem item).map wakeFirst

/-- The registration in `dequeue`, up to and including the start of its
`cnd_wait`. -/
def register (m : Memory Item Tid Addr) (t : Tid) : Memory Item Tid Addr :=
  let nodes := Function.update m.nodes t ⟨none, true⟩
  match m.queue.waitingTail with
  | none =>
    { m with
      queue := { m.queue with
        waitingHead := some t, waitingTail := some t, waitingCount := m.queue.waitingCount + 1 }
      nodes := nodes
      asleep := Function.update m.asleep t true }
  | some last =>
    { m with
      queue := { m.queue with waitingTail := some t, waitingCount := m.queue.waitingCount + 1 }
      nodes := Function.update nodes last { nodes last with next := some t }
      asleep := Function.update m.asleep t true }

/-- The clean-up in `dequeue` after the wait. -/
def cleanUp (m : Memory Item Tid Addr) (t : Tid) : Memory Item Tid Addr :=
  let head := if m.queue.waitingHead = some t then (m.nodes t).next else m.queue.waitingHead
  let tail := if m.queue.waitingTail = some t then none else m.queue.waitingTail
  { m with queue := { m.queue with waitingHead := head, waitingTail := tail } }

/-- The removal from the front, alike in `dequeue` and `tryDequeue`: the
item's address and data, and the memory after its `free`. -/
def removeFirst (m : Memory Item Tid Addr) : Option (Addr × Item × Memory Item Tid Addr) :=
  match m.queue.head with
  | none => none
  | some a =>
    match m.items a with
    | none => none
    | some cell =>
      some (a, cell.data, { m with
        queue := { m.queue with
          head := cell.next
          tail := if cell.next = none then none else m.queue.tail
          count := m.queue.count - 1
          visitedCount := m.queue.visitedCount + 1 }
        items := Function.update m.items a none })

/-- The loop `while (queue.count == 0)` of `dequeue` up to its next
`cnd_wait`, or to the removal behind it. -/
def takeOrSleep (m : Memory Item Tid Addr) (t : Tid) :
    Option (Option (Addr × Item) × Memory Item Tid Addr) :=
  if m.queue.count = 0 then some (none, register m t)
  else (removeFirst m).map fun r => (some (r.1, r.2.1), r.2.2)

/-- `tryDequeue`. -/
def tryDequeue (m : Memory Item Tid Addr) :
    Option (Option (Addr × Item) × Memory Item Tid Addr) :=
  if m.queue.count = 0 then some (none, m)
  else (removeFirst m).map fun r => (some (r.1, r.2.1), r.2.2)

end Functions

/-- One call of a thread's program. -/
inductive Call (Item : Type) where
  | enqueue (item : Item)
  | dequeue
  | tryDequeue

/-- The whole system: the shared memory, where each thread is, and history. -/
structure State (Item Tid Addr : Type) where
  /-- What the mutex guards. -/
  mem : Memory Item Tid Addr
  /-- Calls each thread has not begun. -/
  program : Tid → List (Call Item)
  /-- Threads inside the wait loop of `dequeue`. -/
  inDequeue : Tid → Bool
  /-- Steps taken. -/
  clock : ℕ
  /-- The step at which the waiting call of a thread began. -/
  started : Tid → ℕ
  /-- Items enqueued. -/
  inserted : ℕ
  /-- Which of them a live item is. -/
  serial : Addr → ℕ

/-- The state after `initQueue`, with the threads' programs. -/
def start (program : Tid → List (Call Item)) (nodes : Tid → WaitingThread Tid) :
    State Item Tid Addr where
  mem := ⟨initQueue, fun _ => none, nodes, fun _ => false⟩
  program := program
  inDequeue := fun _ => false
  clock := 0
  started := fun _ => 0
  inserted := 0
  serial := fun _ => 0

/-- What the scheduler can let happen. -/
inductive Action (Tid Addr : Type) where
  /-- A thread begins its next call; `malloc` would return this address. -/
  | call (t : Tid) (newItem : Addr)
  /-- A thread that is awake inside `cnd_wait` takes the mutex. -/
  | resume (t : Tid)
  /-- A spurious wake-up ends the blocking of a thread. -/
  | stir (t : Tid)

/-- What a step did. Calls are named by the step at which they began, items
by their serial number. -/
inductive Event (Item Tid : Type) where
  /-- An item was inserted; the call it woke, if any. -/
  | enqueued (t : Tid) (item : Item) (serial : ℕ) (woke : Option (Tid × ℕ))
  /-- A `dequeue` call began, found no item and registered. -/
  | slept (t : Tid) (began : ℕ)
  /-- A woken `dequeue` call found no item and registered again. -/
  | sleptOver (t : Tid) (began : ℕ)
  /-- A `dequeue` call returned; `waited` when it had registered. -/
  | dequeued (t : Tid) (began : ℕ) (waited : Bool) (item : Item) (serial : ℕ)
  /-- A `tryDequeue` call returned. -/
  | tried (t : Tid) (began : ℕ) (result : Option (Item × ℕ))
  /-- A spurious wake-up. -/
  | stirred (t : Tid)
  /-- A thread went back to wait after a spurious wake-up. -/
  | sleptAgain (t : Tid)

section Steps

variable [DecidableEq Tid] [DecidableEq Addr]

/-- Whether the scheduler can let this happen now; `malloc` succeeds with an
address that is not in use. -/
def Ready (s : State Item Tid Addr) : Action Tid Addr → Prop
  | .call t newItem =>
    s.inDequeue t = false ∧ s.program t ≠ [] ∧
      (∀ item rest, s.program t = .enqueue item :: rest → (s.mem.items newItem).isNone)
  | .resume t => s.inDequeue t = true ∧ s.mem.asleep t = false
  | .stir t => s.inDequeue t = true ∧ s.mem.asleep t = true

/-- The next call of a thread. -/
def beginCall (s : State Item Tid Addr) (t : Tid) (newItem : Addr) :
    Option (State Item Tid Addr × Event Item Tid) :=
  match s.program t with
  | [] => none
  | c :: rest =>
    let s' := { s with clock := s.clock + 1, program := Function.update s.program t rest }
    match c with
    | .enqueue item =>
      (enqueue s.mem newItem item).map fun mem =>
        ({ s' with
            mem := mem
            inserted := s.inserted + 1
            serial := Function.update s.serial newItem s.inserted },
          .enqueued t item s.inserted (s.mem.queue.waitingHead.map fun u => (u, s.started u)))
    | .dequeue =>
      (takeOrSleep s.mem t).map fun r =>
        match r.1 with
        | none =>
          ({ s' with
              mem := r.2
              inDequeue := Function.update s.inDequeue t true
              started := Function.update s.started t s.clock }, .slept t s.clock)
        | some (a, item) =>
          ({ s' with mem := r.2 }, .dequeued t s.clock false item (s.serial a))
    | .tryDequeue =>
      (tryDequeue s.mem).map fun r =>
        ({ s' with mem := r.2 },
          .tried t s.clock (r.1.map fun found => (found.2, s.serial found.1)))

/-- A thread takes the mutex after its `cnd_wait`. -/
def resumeCall (s : State Item Tid Addr) (t : Tid) :
    Option (State Item Tid Addr × Event Item Tid) :=
  if (s.mem.nodes t).isWaiting then
    some ({ s with
      clock := s.clock + 1
      mem := { s.mem with asleep := Function.update s.mem.asleep t true } }, .sleptAgain t)
  else
    (takeOrSleep (cleanUp s.mem t) t).map fun r =>
      match r.1 with
      | none => ({ s with clock := s.clock + 1, mem := r.2 }, .sleptOver t (s.started t))
      | some (a, item) =>
        ({ s with
            clock := s.clock + 1
            mem := r.2
            inDequeue := Function.update s.inDequeue t false },
          .dequeued t (s.started t) true item (s.serial a))

/-- The effect of an action; none when a null or freed pointer is followed. -/
def perform (s : State Item Tid Addr) :
    Action Tid Addr → Option (State Item Tid Addr × Event Item Tid)
  | .call t newItem => beginCall s t newItem
  | .resume t => resumeCall s t
  | .stir t =>
    some ({ s with
      clock := s.clock + 1
      mem := { s.mem with asleep := Function.update s.mem.asleep t false } }, .stirred t)

/-- One atomic step of some thread. -/
def Step (s : State Item Tid Addr) (e : Event Item Tid) (s' : State Item Tid Addr) : Prop :=
  ∃ action, Ready s action ∧ perform s action = some (s', e)

end Steps

end OSCourse.QueueState
