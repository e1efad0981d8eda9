import OSCourse.QueueDestroy
import OSCourse.QueueSpins

/-!
# Tests one after the other

A test program runs several tests on the one queue: `initQueue`, threads, joins
and `destroyQueue`, and then the next test. What a test leaves in the memory is
a tail that points to a freed item, a counter, and marks on the stacks of
threads that are gone. The next test sees none of it, so everything that holds
of a queue after its first `initQueue` holds in every test.
-/

namespace OSCourse.QueueTests

open Runs HeapSegments QueueState QueueLists QueueLedger QueueRuns QueuePrograms QueueProgress
  QueueDestroy QueueSpins

variable {Item Tid Addr : Type}

/-- The threads of a test: their programs, and the items they get in loops. -/
structure Test (Item Tid : Type) where
  program : Tid → List (Call Item)
  left : Tid → ℕ

/-- A test runs and others are to come, or `main` has returned. -/
inductive Session (Item Tid Addr : Type) where
  | running (now : Spinning Item Tid Addr) (todo : List (Test Item Tid))
  | ended (mem : Memory Item Tid Addr)

/-- A step of a thread, or `destroyQueue` with the calls of `free` it makes. -/
inductive Label (Item Tid Addr : Type) where
  | thread (e : Event Item Tid)
  | destroy (freed : List (Block Tid Addr))

/-- `initQueue` in a memory, and new threads; their stacks hold anything. -/
def begin (m : Memory Item Tid Addr) (nodes : Tid → WaitingThread Tid) (test : Test Item Tid) :
    Spinning Item Tid Addr :=
  ⟨{ start test.program nodes with mem := ⟨initQueue, m.items, nodes, fun _ => false⟩ }, test.left⟩

/-- The next test, or the end of `main`. -/
def next (m : Memory Item Tid Addr) (nodes : Tid → WaitingThread Tid) :
    List (Test Item Tid) → Session Item Tid Addr
  | [] => .ended m
  | test :: todo => .running (begin m nodes test) todo

section Tests

variable [DecidableEq Tid] [DecidableEq Addr]

/-- A thread of the test takes a step, or all have been joined, and `destroyQueue`
and the begin of the next test follow. -/
inductive TestStep : Session Item Tid Addr → Label Item Tid Addr → Session Item Tid Addr → Prop
  | thread {now now' : Spinning Item Tid Addr} {todo : List (Test Item Tid)} {e : Event Item Tid}
      (hstep : SpinStep now e now') :
      TestStep (.running now todo) (.thread e) (.running now' todo)
  | destroy {now : Spinning Item Tid Addr} {todo : List (Test Item Tid)}
      {freed : List (Block Tid Addr)} {m' : Memory Item Tid Addr} (hjoined : Done now)
      (hdestroy : ∃ enough, ∀ fuel, enough ≤ fuel →
        destroyQueue fuel now.state.mem = some (freed, m'))
      (nodes : Tid → WaitingThread Tid) :
      TestStep (.running now todo) (.destroy freed) (next m' nodes todo)

variable [Fintype Tid]

/-- The threads of the test produce, consume, in loops or not, or supply
themselves, and the counter of the queue has room for their items. -/
structure Test.Suited (test : Test Item Tid) : Prop where
  tries : ∀ t, ∀ c ∈ test.program t, tries c = false
  few : ∑ t, (test.program t).countP enqueues < 2 ^ 64
  roles : ∃ producers consumers : Finset Tid,
    Roles (asked test.program test.left) producers consumers

/-- The events of the test that runs, after one more step. -/
def recorded (events : List (Event Item Tid)) : Label Item Tid Addr → List (Event Item Tid)
  | .thread e => events ++ [e]
  | .destroy _ => []

/-- The events of the test that runs: those since the last `destroyQueue`. -/
def current (labels : List (Label Item Tid Addr)) : List (Event Item Tid) :=
  labels.foldl recorded []

/-- The test that runs is as it were the first, with these events, and `main`
leaves no item. -/
def Follows (tests : List (Test Item Tid)) (events : List (Event Item Tid)) :
    Session Item Tid Addr → Prop
  | .running now todo => ∃ test nodes, (test :: todo) <:+ tests ∧
      Run SpinStep ⟨start test.program nodes, test.left⟩ events now
  | .ended m => ∀ a, m.items a = none

variable {program : Tid → List (Call Item)} {left : Tid → ℕ} {nodes : Tid → WaitingThread Tid}
  {events : List (Event Item Tid)} {now : Spinning Item Tid Addr} {w w' : Session Item Tid Addr}
  {tests todo : List (Test Item Tid)} {m m' : Memory Item Tid Addr} {label : Label Item Tid Addr}
  {labels : List (Label Item Tid Addr)} {freed : List (Block Tid Addr)} {test : Test Item Tid}

/-- After the joins `destroyQueue` frees the items that are left, each once,
and nothing else. -/
theorem destroy_done (h : Hindsight program left nodes events now)
    (hfew : ∑ t, (program t).countP enqueues < 2 ^ 64) (hdone : Done now) :
    ∃ (cells : List Addr) (m' : Memory Item Tid Addr), (∀ fuel, cells.length + 1 ≤ fuel →
        destroyQueue fuel now.state.mem = some (cells.map .item, m')) ∧ cells.Nodup ∧
      (∀ a, a ∈ cells ↔ (now.state.mem.items a).isSome = true) ∧ ∀ a, m'.items a = none := by
  obtain ⟨-, hrep, -⟩ := h.represents hfew
  obtain ⟨cells, hitems⟩ := hrep.items
  have hwaiters : (ledger events).waiters = [] := by
    refine List.eq_nil_iff_forall_not_mem.mpr ?_
    rintro ⟨t, n⟩ hmem
    have hin := ((hrep.calls.waiting_iff t n).mp hmem).1
    rw [(hdone.1 t).2] at hin
    cases hin
  obtain ⟨m', hdestroy, hleft⟩ := destroyQueue_eq hitems.chain hrep.calls.list.chain
  rw [hwaiters, List.map_nil, List.map_nil, List.append_nil, List.length_nil] at hdestroy
  refine ⟨cells, m', hdestroy, hitems.chain.nodup, fun a => (hitems.live a).symm, fun a => ?_⟩
  rw [hleft]
  by_cases ha : a ∈ cells
  · rw [if_pos ha]
  · rw [if_neg ha, ← Option.not_isSome_iff_eq_none, hitems.live]
    exact ha

/-- What such a `destroyQueue` has done, whatever fuel it got. -/
theorem destroyed (h : Hindsight program left nodes events now)
    (hfew : ∑ t, (program t).countP enqueues < 2 ^ 64) (hdone : Done now)
    (hdestroy : ∃ enough, ∀ fuel, enough ≤ fuel →
      destroyQueue fuel now.state.mem = some (freed, m')) :
    (∀ block ∈ freed, block.fromMalloc = true) ∧ freed.Nodup ∧
      (∀ a, .item a ∈ freed ↔ (now.state.mem.items a).isSome = true) ∧ ∀ a, m'.items a = none := by
  obtain ⟨cells, m'', hcells, hnodup, hlive, hnone⟩ := destroy_done h hfew hdone
  obtain ⟨enough, hfreed⟩ := hdestroy
  have hsame := hfreed (enough + (cells.length + 1)) (Nat.le_add_right ..)
  rw [hcells _ (Nat.le_add_left ..)] at hsame
  cases hsame
  refine ⟨fun block hblock => ?_, hnodup.map fun a b hab => Block.item.inj hab, fun a => ?_, hnone⟩
  · obtain ⟨a, -, rfl⟩ := List.mem_map.mp hblock
    rfl
  · rw [← hlive]
    simp

omit [DecidableEq Tid] [DecidableEq Addr] [Fintype Tid] in
/-- In a memory without items `initQueue` begins anew. -/
theorem begin_eq (hm : ∀ a, m.items a = none) (nodes : Tid → WaitingThread Tid)
    (test : Test Item Tid) : begin m nodes test = ⟨start test.program nodes, test.left⟩ := by
  have hitems : m.items = fun _ => none := funext hm
  rw [begin, hitems]
  rfl

omit [Fintype Tid] in
/-- The next test is as it were the first. -/
theorem follows_next (hm : ∀ a, m.items a = none) (nodes : Tid → WaitingThread Tid)
    (htodo : todo <:+ tests) : Follows tests [] (next m nodes todo) := by
  cases todo with
  | nil => exact hm
  | cons test todo =>
    refine ⟨test, nodes, htodo, ?_⟩
    rw [begin_eq hm]
    exact .nil

/-- The step lemma. -/
theorem Follows.step (hsuited : ∀ test ∈ tests, test.Suited) (h : Follows tests events w)
    (hstep : TestStep w label w') : Follows tests (recorded events label) w' := by
  cases hstep with
  | thread hstep =>
    obtain ⟨test, nodes, htodo, run⟩ := h
    exact ⟨test, nodes, htodo, run.snoc hstep⟩
  | destroy hjoined hdestroy nodes' =>
    obtain ⟨test, nodes, htodo, run⟩ := h
    have hsuit := hsuited test (htodo.subset List.mem_cons_self)
    obtain ⟨-, -, -, hnone⟩ :=
      destroyed (run_hindsight hsuit.tries run) hsuit.few hjoined hdestroy
    exact follows_next hnone nodes' ((List.suffix_cons ..).trans htodo)

/-- The run lemma. -/
theorem run_follows (hsuited : ∀ test ∈ tests, test.Suited) (hm : ∀ a, m.items a = none)
    (run : Run TestStep (next m nodes tests) labels w) : Follows tests (current labels) w := by
  induction run with
  | nil => exact follows_next hm nodes (List.suffix_refl tests)
  | snoc _ hlast ih =>
    rw [current, List.foldl_concat]
    exact ih.step hsuited hlast

omit [Fintype Tid] in
/-- A run of the threads is a part of a run of the tests. -/
theorem run_threads {now' : Spinning Item Tid Addr} (run : Run SpinStep now events now')
    (todo : List (Test Item Tid)) :
    Run TestStep (.running now todo) (events.map .thread) (.running now' todo) := by
  induction run with
  | nil => exact .nil
  | snoc _ hlast ih =>
    rw [List.map_append]
    exact ih.snoc (.thread hlast)

variable [Infinite Addr]

/-- A test can come to its `destroyQueue`, which leaves no item. -/
theorem test_ends (hsuit : test.Suited)
    (run : Run SpinStep ⟨start test.program nodes, test.left⟩ events now)
    (todo : List (Test Item Tid)) (nodes' : Tid → WaitingThread Tid) :
    ∃ labels m', Run TestStep (.running now todo) labels (next m' nodes' todo) ∧
      ∀ a, m'.items a = none := by
  obtain ⟨producers, consumers, hroles⟩ := hsuit.roles
  obtain ⟨more, final, hmore, hdone⟩ := run_to_done hroles hsuit.tries hsuit.few run
  obtain ⟨cells, m', hdestroy, -, -, hnone⟩ :=
    destroy_done (run_hindsight hsuit.tries (run.trans hmore)) hsuit.few hdone
  exact ⟨_, m', (run_threads hmore todo).snoc (.destroy hdone ⟨_, hdestroy⟩ nodes'), hnone⟩

/-- The tests can come to an end, one after the other. -/
theorem tests_end (hsuited : ∀ test ∈ todo, test.Suited) (hm : ∀ a, m.items a = none)
    (nodes : Tid → WaitingThread Tid) :
    ∃ labels m', Run TestStep (next m nodes todo) labels (.ended m') := by
  induction todo generalizing m with
  | nil => exact ⟨[], m, .nil⟩
  | cons test todo ih =>
    have hstart : Run SpinStep (begin m nodes test) [] (begin m nodes test) := .nil
    rw [begin_eq hm] at hstart
    obtain ⟨labels, m', run, hm'⟩ :=
      test_ends (hsuited test List.mem_cons_self) hstart todo nodes
    obtain ⟨more, m'', run'⟩ := ih (fun test htest => hsuited test (List.mem_cons_of_mem _ htest)) hm'
    rw [← begin_eq hm] at run
    exact ⟨labels ++ more, m'', run.trans run'⟩

/-- Tests whose threads produce, consume, in loops or not, or supply themselves
do not disturb each other: in every run the events of each test are as it were
the first on a new queue, each `destroyQueue` frees exactly the items that are left, each once,
as long as `main` has not returned a step can happen that is of use, every run can
be continued until it has returned, and then no item is left in the memory. -/
theorem tests_finish (hsuited : ∀ test ∈ tests, test.Suited) (hm : ∀ a, m.items a = none)
    (run : Run TestStep (next m nodes tests) labels (w : Session Item Tid Addr)) :
    Follows tests (current labels) w ∧
      (∀ now todo freed w', w = .running now todo → TestStep w (.destroy freed) w' →
        (∀ block ∈ freed, block.fromMalloc = true) ∧ freed.Nodup ∧
          ∀ a, .item a ∈ freed ↔ (now.state.mem.items a).isSome = true) ∧
      ((∀ label w', TestStep w label w' → ∃ e, label = .thread e ∧ useful e = false) →
        ∃ m', w = .ended m') ∧
      ∃ more m', Run TestStep (next m nodes tests) (labels ++ more) (.ended m') ∧
        ∀ a, m'.items a = none := by
  have hfollows := run_follows hsuited hm run
  have hend : ∃ more m', Run TestStep w more (.ended m') := by
    cases w with
    | ended m' => exact ⟨[], m', .nil⟩
    | running now todo =>
      obtain ⟨test, nodes', htodo, run'⟩ := hfollows
      have hsuit := hsuited test (htodo.subset List.mem_cons_self)
      obtain ⟨first, m', hfirst, hm'⟩ := test_ends hsuit run' todo nodes'
      obtain ⟨second, m'', hsecond⟩ := tests_end
        (fun test htest => hsuited test (htodo.subset (List.mem_cons_of_mem _ htest))) hm' nodes'
      exact ⟨first ++ second, m'', hfirst.trans hsecond⟩
  refine ⟨hfollows, ?_, fun hstuck => ?_, ?_⟩
  · rintro now todo freed w' rfl hstep
    obtain ⟨test, nodes', htodo, run'⟩ := hfollows
    have hsuit := hsuited test (htodo.subset List.mem_cons_self)
    cases hstep with
    | destroy hjoined hdestroy =>
      obtain ⟨hmalloc, hnodup, hleft, -⟩ :=
        destroyed (run_hindsight hsuit.tries run') hsuit.few hjoined hdestroy
      exact ⟨hmalloc, hnodup, hleft⟩
  · cases w with
    | ended m' => exact ⟨m', rfl⟩
    | running now todo =>
      obtain ⟨test, nodes', htodo, run'⟩ := hfollows
      have hsuit := hsuited test (htodo.subset List.mem_cons_self)
      obtain ⟨producers, consumers, hroles⟩ := hsuit.roles
      have hstalled : Stalled now := by
        intro e now' hstep
        obtain ⟨e', heq, huseful⟩ := hstuck _ _ (.thread hstep)
        cases heq
        exact huseful
      have hdone := done_of_stalled hroles hsuit.tries hsuit.few run' hstalled
      obtain ⟨cells, m', hdestroy, -⟩ :=
        destroy_done (run_hindsight hsuit.tries run') hsuit.few hdone
      obtain ⟨e, heq, -⟩ := hstuck _ _ (.destroy hdone ⟨_, hdestroy⟩ nodes')
      cases heq
  · obtain ⟨more, m', hmore⟩ := hend
    exact ⟨more, m', run.trans hmore, run_follows hsuited hm (run.trans hmore)⟩

end Tests

section TestQueue

/-- `NUM_THREADS`. -/
def numThreads : ℕ := 10

/-- `NUM_ITEMS`. -/
def numItems : ℕ := 1000

/-- The threads of a test: two arrays of them. -/
abbrev Thread : Type := Bool × Fin numThreads

/-- `producer_thread`. -/
def producerThread : List (Call ℕ) := (List.range numItems).map .enqueue

/-- `consumer_thread`. -/
def consumerThread : List (Call ℕ) := List.replicate numItems .dequeue

/-- The items of `try_consumer_thread`. -/
def tryConsumerThread : ℕ := numItems

/-- `mixed_thread`. -/
def mixedThread : List (Call ℕ) :=
  (List.range (numItems / 2)).flatMap fun i => [.enqueue i, .dequeue]

/-- `limited_consumer_thread`. -/
def limitedConsumerThread (maxItems : ℕ) : List (Call ℕ) := List.replicate maxItems .dequeue

/-- `basic_test`. -/
def basicTest : Test ℕ Thread where
  program := fun t =>
    if t.2.val = 0 then if t.1 then consumerThread else producerThread else []
  left := fun _ => 0

/-- `concurrent_test`. -/
def concurrentTest : Test ℕ Thread where
  program := fun t => if t.1 then consumerThread else producerThread
  left := fun _ => 0

/-- `try_dequeue_test`. -/
def tryDequeueTest : Test ℕ Thread where
  program := fun t => if t.1 then [] else producerThread
  left := fun t => if t.1 then tryConsumerThread else 0

/-- `mixed_operations_test`. -/
def mixedOperationsTest : Test ℕ Thread where
  program := fun t => if t.1 then [] else mixedThread
  left := fun _ => 0

/-- `edge_case_test`, whose item is enqueued by `main`. -/
def edgeCaseTest : Test ℕ Thread where
  program := fun t =>
    if t.2.val = 0 then if t.1 then limitedConsumerThread 1 else [.enqueue 42] else []
  left := fun _ => 0

/-- The tests of `main`. -/
def testQueue : List (Test ℕ Thread) :=
  [basicTest, concurrentTest, tryDequeueTest, mixedOperationsTest, edgeCaseTest]

@[simp] theorem countP_producerThread (p : Call ℕ → Bool) :
    producerThread.countP p = (List.range numItems).countP fun i => p (.enqueue i) := by
  rw [producerThread, List.countP_map]
  rfl

@[simp] theorem countP_consumerThread (p : Call ℕ → Bool) :
    consumerThread.countP p = if p .dequeue then numItems else 0 :=
  List.countP_replicate

/-- A thread that enqueues each item before its `dequeue` supplies itself. -/
theorem selfSupplied_mixed (items : List ℕ) :
    SelfSupplied (items.flatMap fun i => [Call.enqueue i, .dequeue]) := by
  induction items with
  | nil =>
    intro before after h
    exact absurd h.symm (List.append_ne_nil_of_right_ne_nil _ (List.cons_ne_nil _ _))
  | cons i items ih =>
    intro before after h
    rw [List.flatMap_cons] at h
    cases before with
    | nil => cases h
    | cons c before =>
      cases before with
      | nil =>
        cases h
        exact Nat.zero_lt_one
      | cons d before =>
        have hcons : Call.enqueue i :: .dequeue :: items.flatMap (fun i => [.enqueue i, .dequeue]) =
          c :: d :: (before ++ .dequeue :: after) := h
        obtain ⟨hc, hrest⟩ := List.cons.inj hcons
        obtain ⟨hd, hrest⟩ := List.cons.inj hrest
        have hlt := ih before after hrest
        subst hc hd
        simp only [List.countP_cons, dequeues, enqueues, Bool.false_eq_true, if_true, if_false]
        omega

theorem enqueues_mixed (items : List ℕ) :
    (items.flatMap fun i => [Call.enqueue i, .dequeue]).countP enqueues = items.length := by
  induction items with
  | nil => rfl
  | cons i items ih =>
    rw [List.flatMap_cons, List.countP_append, ih, List.length_cons]
    exact Nat.add_comm 1 _

/-- The threads call `tryDequeue` in loops only. -/
theorem tries_threads (c : Call ℕ) (h : c ∈ producerThread ∨ c ∈ consumerThread ∨
    c ∈ mixedThread ∨ c ∈ limitedConsumerThread 1) : tries c = false := by
  rcases h with h | h | h | h
  · obtain ⟨i, -, rfl⟩ := List.mem_map.mp h
    rfl
  · rw [List.eq_of_mem_replicate h]
    rfl
  · obtain ⟨i, -, hc⟩ := List.mem_flatMap.mp h
    rcases List.mem_pair.mp hc with rfl | rfl <;> rfl
  · rw [List.eq_of_mem_replicate h]
    rfl

/-- Loops enqueue nothing. -/
theorem enqueues_asked (program : Thread → List (Call ℕ)) (left : Thread → ℕ) (t : Thread) :
    (asked program left t).countP enqueues = (program t).countP enqueues := by
  simp only [asked, List.countP_append, List.countP_replicate, enqueues, Bool.false_eq_true,
    if_false, Nat.add_zero]

/-- Threads in two arrays, one of producers and one of consumers. -/
theorem suited_pairs {test : Test ℕ Thread}
    (htries : ∀ t, ∀ c ∈ test.program t, tries c = false)
    (hproduce : ∀ i, (asked test.program test.left (false, i)).countP dequeues = 0)
    (hconsume : ∀ i, (test.program (true, i)).countP enqueues = 0)
    (henough : ∀ i, (asked test.program test.left (true, i)).countP dequeues ≤
      (test.program (false, i)).countP enqueues)
    (hfew : ∀ i, (test.program (false, i)).countP enqueues ≤ numItems) : test.Suited where
  tries := htries
  few := by
    have hsum := Finset.sum_le_card_nsmul Finset.univ _ numItems fun i _ => hfew i
    rw [Fintype.sum_prod_type, Fintype.sum_bool, Finset.sum_eq_zero fun i _ => hconsume i,
      Nat.zero_add]
    refine lt_of_le_of_lt hsum ?_
    rw [Finset.card_univ, Fintype.card_fin]
    decide
  roles := by
    refine ⟨Finset.univ.filter fun t => t.1 = false, Finset.univ.filter fun t => t.1 = true,
      ⟨?_, ?_, ?_, ?_⟩⟩
    · rintro ⟨b, i⟩ hmem
      obtain rfl : b = false := (Finset.mem_filter.mp hmem).2
      exact hproduce i
    · rintro ⟨b, i⟩ hmem
      obtain rfl : b = true := (Finset.mem_filter.mp hmem).2
      rw [enqueues_asked]
      exact hconsume i
    · rintro ⟨b, i⟩ hproducer hconsumer
      cases b with
      | false => exact (hproducer (Finset.mem_filter.mpr ⟨Finset.mem_univ _, rfl⟩)).elim
      | true => exact (hconsumer (Finset.mem_filter.mpr ⟨Finset.mem_univ _, rfl⟩)).elim
    · simp only [Finset.sum_filter, Fintype.sum_prod_type, Fintype.sum_bool, enqueues_asked,
        Bool.true_eq_false, Bool.false_eq_true, if_true, if_false, Finset.sum_const_zero,
        Nat.add_zero, Nat.zero_add]
      exact Finset.sum_le_sum fun i _ => henough i

theorem basicTest_suited : basicTest.Suited := by
  refine suited_pairs (fun t c hc => tries_threads c ?_) (fun i => ?_) (fun i => ?_) (fun i => ?_)
    fun i => ?_
  · dsimp only [basicTest] at hc
    split_ifs at hc
    · exact .inr (.inl hc)
    · exact .inl hc
    · cases hc
  · by_cases hi : i.val = 0 <;> simp [basicTest, asked, hi, dequeues]
  · by_cases hi : i.val = 0 <;> simp [basicTest, hi, enqueues]
  · by_cases hi : i.val = 0 <;> simp [basicTest, asked, hi, dequeues, enqueues]
  · by_cases hi : i.val = 0 <;> simp [basicTest, hi, enqueues]

theorem concurrentTest_suited : concurrentTest.Suited := by
  refine suited_pairs (fun t c hc => tries_threads c ?_) (fun i => ?_) (fun i => ?_) (fun i => ?_)
    fun i => ?_
  · dsimp only [concurrentTest] at hc
    split_ifs at hc
    · exact .inr (.inl hc)
    · exact .inl hc
  · simp [concurrentTest, asked, dequeues]
  · simp [concurrentTest, enqueues]
  · simp [concurrentTest, asked, dequeues, enqueues]
  · simp [concurrentTest, enqueues]

theorem tryDequeueTest_suited : tryDequeueTest.Suited := by
  refine suited_pairs (fun t c hc => tries_threads c ?_) (fun i => ?_) (fun i => ?_) (fun i => ?_)
    fun i => ?_
  · dsimp only [tryDequeueTest] at hc
    split_ifs at hc
    · cases hc
    · exact .inl hc
  · simp [tryDequeueTest, asked, dequeues]
  · simp [tryDequeueTest]
  · simp [tryDequeueTest, asked, dequeues, enqueues, tryConsumerThread, List.countP_replicate]
  · simp [tryDequeueTest, enqueues]

theorem edgeCaseTest_suited : edgeCaseTest.Suited := by
  refine suited_pairs (fun t c hc => ?_) (fun i => ?_) (fun i => ?_) (fun i => ?_) fun i => ?_
  · dsimp only [edgeCaseTest] at hc
    split_ifs at hc
    · exact tries_threads c (.inr (.inr (.inr hc)))
    · rw [List.mem_singleton.mp hc]
      rfl
    · cases hc
  · by_cases hi : i.val = 0 <;> simp [edgeCaseTest, asked, hi, dequeues]
  · by_cases hi : i.val = 0 <;> simp [edgeCaseTest, limitedConsumerThread, hi, enqueues]
  · by_cases hi : i.val = 0 <;>
      simp [edgeCaseTest, limitedConsumerThread, asked, hi, dequeues, enqueues]
  · by_cases hi : i.val = 0 <;> simp [edgeCaseTest, hi, enqueues, numItems]

theorem mixedOperationsTest_suited : mixedOperationsTest.Suited where
  tries := fun t c hc => by
    dsimp only [mixedOperationsTest] at hc
    split_ifs at hc
    · cases hc
    · exact tries_threads c (.inr (.inr (.inl hc)))
  few := by
    have hone : ∀ t ∈ Finset.univ, (mixedOperationsTest.program t).countP enqueues ≤ numItems := by
      rintro ⟨b, i⟩ -
      cases b with
      | false =>
        simp only [mixedOperationsTest, Bool.false_eq_true, if_false, mixedThread, enqueues_mixed,
          List.length_range]
        exact Nat.div_le_self numItems 2
      | true => exact Nat.zero_le _
    refine lt_of_le_of_lt (Finset.sum_le_card_nsmul Finset.univ _ numItems hone) ?_
    rw [Finset.card_univ, Fintype.card_prod, Fintype.card_bool, Fintype.card_fin]
    decide
  roles := by
    refine ⟨∅, ∅, ⟨fun t ht => ?_, fun t ht => ?_, fun t _ _ => ?_, le_refl 0⟩⟩
    · cases Finset.notMem_empty t ht
    · cases Finset.notMem_empty t ht
    · rw [asked, mixedOperationsTest, List.replicate_zero, List.append_nil]
      dsimp only
      split
      · exact selfSupplied_mixed []
      · exact selfSupplied_mixed _

/-- The threads of every test are in such roles. -/
theorem testQueue_suited : ∀ test ∈ testQueue, test.Suited := by
  simp only [testQueue, List.forall_mem_cons, List.not_mem_nil, false_implies, implies_true,
    and_true]
  exact ⟨basicTest_suited, concurrentTest_suited, tryDequeueTest_suited, mixedOperationsTest_suited,
    edgeCaseTest_suited⟩

/-- `main` of the test program, from its first `initQueue` on, can return. -/
theorem tests_finish_testQueue :
    ∃ (labels : List (Label ℕ Thread ℕ)) (m : Memory ℕ Thread ℕ), Run TestStep
      (next ⟨initQueue, fun _ => none, fun _ => ⟨none, false⟩, fun _ => false⟩
        (fun _ => ⟨none, false⟩) testQueue) ([] ++ labels) (.ended m) := by
  have run : Run TestStep (next (⟨initQueue, fun _ => none, fun _ => ⟨none, false⟩,
    fun _ => false⟩ : Memory ℕ Thread ℕ) (fun _ => ⟨none, false⟩) testQueue) [] _ := .nil
  obtain ⟨-, -, -, labels, m, run', -⟩ := tests_finish testQueue_suited (fun _ => rfl) run
  exact ⟨labels, m, run'⟩

end TestQueue

end OSCourse.QueueTests
