import Mathlib.Data.Set.Card
import OSCourse.QueueLedger

/-!
# Runs of the queue: conservation of items and no lost wake-up

Every run of any number of threads books a run of the abstract ledger, as
long as fewer than `2 ^ 64` items are in the queue. The two results of this
module are facts about ledgers, read off the memory through the
representation: items leave in the order of their insertion and none is lost
or duplicated, and nobody stays registered beside an item that no woken call
is going to look at.
-/

namespace OSCourse.QueueRuns

open Runs HeapSegments QueueState QueueLists QueueLedger

variable {Item Tid Addr : Type}

/-- Items inserted, in order. -/
def enqueuedItems (events : List (Event Item Tid)) : List Item :=
  (events.filterMap inserted).map Prod.fst

/-- Items returned by `dequeue` and `tryDequeue`, in order of removal. -/
def returnedItems (events : List (Event Item Tid)) : List Item :=
  (events.filterMap removed).map Prod.fst

/-- The event is an `enqueue` call. -/
def isEnqueue : Event Item Tid → Bool
  | .enqueued .. => true
  | _ => false

/-- The event is the begin of a `dequeue` call. -/
def beginsDequeue : Event Item Tid → Bool
  | .slept .. => true
  | .dequeued _ _ waited _ _ => !waited
  | _ => false

/-- The event is the return of a `dequeue` call. -/
def endsDequeue : Event Item Tid → Bool
  | .dequeued .. => true
  | _ => false

/-- The event is a `tryDequeue` call. -/
def isTry : Event Item Tid → Bool
  | .tried .. => true
  | _ => false

/-- Threads whose `isWaiting` an enqueue has cleared and that have not taken
the mutex since. -/
def signalled (s : State Item Tid Addr) : Set Tid :=
  {t | s.inDequeue t = true ∧ (s.mem.nodes t).isWaiting = false}

/-- The queue after a history, as a first-in first-out list of items. -/
structure Conserved (events : List (Event Item Tid)) (s : State Item Tid Addr)
    (cells : List Addr) (items : List Item) [DecidableEq Tid] [DecidableEq Addr] : Prop where
  /-- The cells from `queue.head` on. -/
  chain : Chain (itemLink s.mem) s.mem.queue.head cells
  /-- They hold the items. -/
  content : cells.map (fun a => (s.mem.items a).map QueueItem.data) = items.map some
  /-- Nothing was lost, duplicated or reordered. -/
  order : returnedItems events ++ items = enqueuedItems events
  size_eq : (size s.mem).toNat = items.length
  visited_eq : (visited s.mem).toNat = (returnedItems events).length
  head_null : s.mem.queue.head = none ↔ items = []
  tail_null : s.mem.queue.tail = none ↔ items = []
  count_zero : size s.mem = 0 ↔ items = []
  tail_last : s.mem.queue.tail = cells.getLast?
  /-- No step follows a null or freed pointer. -/
  safe : ∀ action, Ready s action → ∃ s' e, perform s action = some (s', e)
  /-- No step removes from an empty list. -/
  removes : ∀ e s', Step s e s' → removed e ≠ none → items ≠ []
  /-- `tryDequeue` fails exactly on an empty list, and then changes nothing. -/
  tries : ∀ t began result s', Step s (.tried t began result) s' →
    (result = none ↔ items = []) ∧ (result = none → s'.mem = s.mem)

/-- A thread can begin a call, or go on after a wake-up by an enqueue; a
spurious wake-up and the return to the wait after it do not count. -/
def CanMove (s : State Item Tid Addr) (t : Tid) : Prop :=
  (s.inDequeue t = false ∧ s.program t ≠ []) ∨
    (s.inDequeue t = true ∧ s.mem.asleep t = false ∧ (s.mem.nodes t).isWaiting = false)

/-- Every insertion is an `enqueue` call. -/
theorem length_inserted (events : List (Event Item Tid)) :
    (events.filterMap inserted).length = events.countP isEnqueue := by
  rw [List.length_filterMap_eq_countP]
  refine List.countP_congr fun e _ => ?_
  cases e <;> simp [inserted, isEnqueue]

/-- Without `tryDequeue`, every removal is the return of a `dequeue`. -/
theorem length_removed {events : List (Event Item Tid)} (h : ∀ e ∈ events, isTry e = false) :
    (events.filterMap removed).length = events.countP endsDequeue := by
  rw [List.length_filterMap_eq_countP]
  refine List.countP_congr fun e he => ?_
  have hcall := h e he
  cases e with
  | tried t began result => simp [isTry] at hcall
  | _ => simp [removed, endsDequeue]

section LedgerFacts

variable [DecidableEq Tid] {L L' : Ledger Item Tid} {events : List (Event Item Tid)}
  {e : Event Item Tid}

/-- What one event does to the items. -/
theorem record_items (h : L.Allows e) :
    (L.record e).returned = L.returned ++ (removed e).toList ∧
      (L.record e).returned ++ (L.record e).pending =
        L.returned ++ L.pending ++ (inserted e).toList := by
  cases e with
  | enqueued t item serial woke => simp [Ledger.record, removed, inserted]
  | dequeued t began waited item serial =>
    obtain ⟨rest, hrest⟩ := List.head?_eq_some_iff.mp h.1
    simp [Ledger.record, removed, inserted, hrest]
  | tried t began result =>
    cases result with
    | none => simp [Ledger.record, removed, inserted]
    | some found =>
      obtain ⟨rest, hrest⟩ := List.head?_eq_some_iff.mp h.1.symm
      simp [Ledger.record, removed, inserted, hrest]
  | slept | sleptOver | stirred | sleptAgain => simp [Ledger.record, removed, inserted]

/-- Returned and pending items together are the inserted ones, in order. -/
theorem run_items (run : Run LedgerStep Ledger.empty events L) :
    L.returned = events.filterMap removed ∧
      L.returned ++ L.pending = events.filterMap inserted := by
  induction run with
  | nil => exact ⟨rfl, rfl⟩
  | @snoc labels middle label final _ hlast ih =>
    obtain ⟨hallows, rfl⟩ := hlast
    obtain ⟨hreturned, hall⟩ := record_items hallows
    constructor
    · rw [hreturned, ih.1, List.filterMap_append]
      cases hlabel : removed label <;> simp [hlabel]
    · rw [hall, ih.2, List.filterMap_append]
      cases hlabel : inserted label <;> simp [hlabel]

/-- One event keeps the registered calls apart from items nobody was woken
for. -/
theorem record_woken (h : L.Allows e)
    (hkept : L.waiters ≠ [] → L.pending.length ≤ L.woken.length) :
    (L.record e).waiters ≠ [] → (L.record e).pending.length ≤ (L.record e).woken.length := by
  cases e with
  | enqueued t item serial woke =>
    simp only [Ledger.record, List.length_append, List.length_singleton]
    intro htail
    cases hwaiters : L.waiters with
    | nil => simp [hwaiters] at htail
    | cons first rest =>
      have hle := hkept (by simp [hwaiters])
      simpa using hle
  | slept t began =>
    simp only [Ledger.record, h.1, List.length_nil, Nat.zero_le, implies_true]
  | sleptOver t began =>
    simp only [Ledger.record, h.1, List.length_nil, Nat.zero_le, implies_true]
  | dequeued t began waited item serial =>
    intro hwaiters
    have hle := hkept hwaiters
    simp only [Ledger.record, List.length_tail]
    cases waited with
    | false => simp only [Bool.false_eq_true, if_false]; omega
    | true =>
      have hmem : (t, began) ∈ L.woken := by simpa using h.2
      have hlength := List.length_erase_of_mem hmem
      simp only [if_true]
      omega
  | tried t began result =>
    intro hwaiters
    cases result with
    | none => exact hkept hwaiters
    | some found =>
      have hle := hkept hwaiters
      simp only [Ledger.record, List.length_tail]
      omega
  | stirred | sleptAgain => exact hkept

/-- While a call stays registered there are at most as many items as woken
calls. -/
theorem run_woken (run : Run LedgerStep Ledger.empty events L) :
    L.waiters ≠ [] → L.pending.length ≤ L.woken.length := by
  induction run with
  | nil => exact fun hne => absurd rfl hne
  | snoc _ hlast ih =>
    obtain ⟨hallows, rfl⟩ := hlast
    exact record_woken hallows ih

/-- Every call of `dequeue` has returned, is registered or was woken. -/
theorem run_calls (run : Run LedgerStep Ledger.empty events L) :
    events.countP beginsDequeue =
      events.countP endsDequeue + L.waiters.length + L.woken.length := by
  induction run with
  | nil => rfl
  | @snoc labels middle label final _ hlast ih =>
    obtain ⟨hallows, rfl⟩ := hlast
    rw [List.countP_append, List.countP_append, ih]
    cases label with
    | enqueued t item serial woke =>
      cases hwaiters : middle.waiters with
      | nil => simp [Ledger.record, beginsDequeue, endsDequeue, hwaiters]
      | cons first rest =>
        simp [Ledger.record, beginsDequeue, endsDequeue, hwaiters]
        omega
    | slept t began =>
      simp [Ledger.record, beginsDequeue, endsDequeue]
      omega
    | sleptOver t began =>
      have hlength := List.length_erase_of_mem hallows.2
      have hpos := List.length_pos_of_mem hallows.2
      simp [Ledger.record, beginsDequeue, endsDequeue]
      omega
    | dequeued t began waited item serial =>
      cases waited with
      | false =>
        simp [Ledger.record, beginsDequeue, endsDequeue]
        omega
      | true =>
        have hmem : (t, began) ∈ middle.woken := by simpa using hallows.2
        have hlength := List.length_erase_of_mem hmem
        have hpos := List.length_pos_of_mem hmem
        simp [Ledger.record, beginsDequeue, endsDequeue]
        omega
    | tried t began result => cases result <;> simp [Ledger.record, beginsDequeue, endsDequeue]
    | stirred | sleptAgain => simp [Ledger.record, beginsDequeue, endsDequeue]

/-- With no woken call left, nobody is registered or nothing is pending. -/
theorem run_still (run : Run LedgerStep Ledger.empty events L) (hwoken : L.woken = []) :
    L.waiters = [] ∨ L.pending = [] := by
  by_cases hwaiters : L.waiters = []
  · exact .inl hwaiters
  · have hle := run_woken run hwaiters
    rw [hwoken] at hle
    exact .inr (List.length_eq_zero_iff.mp (Nat.le_zero.mp hle))

/-- With no woken call left and without `tryDequeue`, as many items were
handed over as there were calls of both kinds. -/
theorem run_handovers (run : Run LedgerStep Ledger.empty events L) (hwoken : L.woken = [])
    (htries : ∀ e ∈ events, isTry e = false) :
    events.countP endsDequeue = min (events.countP isEnqueue) (events.countP beginsDequeue) ∧
      events.countP endsDequeue + L.pending.length = events.countP isEnqueue ∧
      events.countP endsDequeue + L.waiters.length = events.countP beginsDequeue := by
  obtain ⟨hreturned, hall⟩ := run_items run
  have hitems := congrArg List.length hall
  rw [List.length_append, hreturned, length_removed htries, length_inserted] at hitems
  have hcalls := run_calls run
  rw [hwoken, List.length_nil] at hcalls
  have hempty : L.waiters.length = 0 ∨ L.pending.length = 0 := by
    simpa using run_still run hwoken
  omega

end LedgerFacts

section Representation

variable {s : State Item Tid Addr}

/-- Without a thread that can move, no woken call is left. -/
theorem woken_of_still {L : Ledger Item Tid} (hrep : Represents s L)
    (hstill : ∀ t, ¬CanMove s t) : L.woken = [] := by
  refine List.eq_nil_iff_forall_not_mem.mpr ?_
  rintro ⟨t, n⟩ hmem
  obtain ⟨hin, hflag, _⟩ := (hrep.calls.woken_iff t n).mp hmem
  exact hstill t (.inr ⟨hin, hrep.calls.awake t n hmem, hflag⟩)

/-- A waiting thread is in the list of registered calls. -/
theorem registered {L : Ledger Item Tid} (hrep : Represents s L) {t : Tid}
    (hin : s.inDequeue t = true) (hflag : (s.mem.nodes t).isWaiting = true) : L.waiters ≠ [] :=
  List.ne_nil_of_mem ((hrep.calls.waiting_iff t (s.started t)).mpr ⟨hin, hflag, rfl⟩)

/-- With nobody registered or woken, no thread is inside `dequeue`. -/
theorem idle {L : Ledger Item Tid} (hrep : Represents s L) (hwaiters : L.waiters = [])
    (hwoken : L.woken = []) (t : Tid) : s.inDequeue t = false := by
  cases hin : s.inDequeue t with
  | false => rfl
  | true =>
    cases hflag : (s.mem.nodes t).isWaiting with
    | true => exact absurd hwaiters (registered hrep hin hflag)
    | false =>
      have hmem := (hrep.calls.woken_iff t (s.started t)).mpr ⟨hin, hflag, rfl⟩
      rw [hwoken] at hmem
      cases hmem

/-- The signalled threads are those of the woken calls. -/
theorem ncard_signalled [DecidableEq Tid] {L : Ledger Item Tid} (hrep : Represents s L) :
    (signalled s).ncard = L.woken.length := by
  have hset : signalled s = ↑(L.woken.map Prod.fst).toFinset := by
    ext t
    simp only [signalled, Set.mem_ofPred_eq, List.coe_toFinset, List.mem_map, Prod.exists]
    constructor
    · rintro ⟨hin, hflag⟩
      exact ⟨t, s.started t, (hrep.calls.woken_iff _ _).mpr ⟨hin, hflag, rfl⟩, rfl⟩
    · rintro ⟨u, n, hmem, rfl⟩
      obtain ⟨hin, hflag, _⟩ := (hrep.calls.woken_iff u n).mp hmem
      exact ⟨hin, hflag⟩
  have hnodup : (L.woken.map Prod.fst).Nodup := by
    refine List.Nodup.map_on ?_ hrep.calls.woken_nodup
    rintro ⟨t, n⟩ hn ⟨u, k⟩ hk (rfl : t = u)
    rw [← ((hrep.calls.woken_iff t n).mp hn).2.2, ((hrep.calls.woken_iff t k).mp hk).2.2]
  rw [hset, Set.ncard_coe_finset, List.toFinset_card_of_nodup hnodup, List.length_map]

end Representation

section Simulation

variable [DecidableEq Tid] [DecidableEq Addr]
variable {program : Tid → List (Call Item)} {nodes : Tid → WaitingThread Tid}
  {events : List (Event Item Tid)} {s : State Item Tid Addr}

/-- The program refines the ledger: as long as the counter has room, every
run books a run of the abstract queue and represents its ledger. -/
theorem queue_simulates (run : Run Step (start program nodes) events s)
    (hroom : ∀ before (middle : State Item Tid Addr), before <+: events →
      Run Step (start program nodes) before middle →
      Run LedgerStep Ledger.empty before (ledger before) →
      Represents middle (ledger before) →
      (ledger before).pending.length < 2 ^ 64) :
    Run LedgerStep Ledger.empty events (ledger events) ∧ Represents s (ledger events) := by
  induction run with
  | nil => exact ⟨.nil, start_represents program nodes⟩
  | @snoc labels middle label final run hlast ih =>
    obtain ⟨hrun, hrep⟩ := ih fun before state hbefore =>
      hroom before state (hbefore.trans (List.prefix_append labels [label]))
    obtain ⟨action, hready, hperform⟩ := hlast
    have hbound := hroom labels middle (List.prefix_append labels [label]) run hrun hrep
    obtain ⟨s', e, hresult, hallows, hnext⟩ := hrep.perform hbound hready
    rw [hperform] at hresult
    cases hresult
    rw [ledger_snoc]
    exact ⟨hrun.snoc ⟨hallows, rfl⟩, hnext⟩

/-- Fewer than `2 ^ 64` insertions leave room in the counter. -/
theorem represents_of_few (run : Run Step (start program nodes) events s)
    (hfew : (enqueuedItems events).length < 2 ^ 64) :
    Run LedgerStep Ledger.empty events (ledger events) ∧ Represents s (ledger events) := by
  refine queue_simulates run fun before middle hbefore _ hrun _ => ?_
  have hitems := congrArg List.length (run_items hrun).2
  have hlength := (hbefore.filterMap inserted).length_le
  rw [List.length_append] at hitems
  rw [enqueuedItems, List.length_map] at hfew
  omega

/-- A `tryDequeue` that returns false has touched nothing. -/
theorem tried_none_mem {t : Tid} {began : ℕ} {s' : State Item Tid Addr}
    (h : Step s (.tried t began none) s') : s'.mem = s.mem := by
  obtain ⟨action, _, hperform⟩ := h
  cases action with
  | call u newItem =>
    simp only [perform, beginCall] at hperform
    split at hperform
    · cases hperform
    · rename_i c rest _
      cases c with
      | enqueue item =>
        obtain ⟨mem, _, heq⟩ := Option.map_eq_some_iff.mp hperform
        cases heq
      | dequeue =>
        obtain ⟨⟨found, mem⟩, _, heq⟩ := Option.map_eq_some_iff.mp hperform
        cases found <;> cases heq
      | tryDequeue =>
        obtain ⟨⟨found, mem⟩, htry, heq⟩ := Option.map_eq_some_iff.mp hperform
        cases found with
        | some pair => cases heq
        | none =>
          cases heq
          rw [tryDequeue] at htry
          split at htry
          · cases htry
            rfl
          · obtain ⟨r, _, hr⟩ := Option.map_eq_some_iff.mp htry
            cases hr
  | resume u =>
    simp only [perform, resumeCall] at hperform
    split at hperform
    · cases hperform
    · obtain ⟨⟨found, mem⟩, _, heq⟩ := Option.map_eq_some_iff.mp hperform
      cases found <;> cases heq
  | stir u => cases hperform

/-- A step of a represented state is one the ledger allows. -/
theorem allows_of_step {L : Ledger Item Tid} {e : Event Item Tid} {s' : State Item Tid Addr}
    (hrep : Represents s L) (hbound : L.pending.length < 2 ^ 64) (h : Step s e s') :
    L.Allows e := by
  obtain ⟨action, hready, hperform⟩ := h
  obtain ⟨_, _, hresult, hallows, _⟩ := hrep.perform hbound hready
  rw [hperform] at hresult
  cases hresult
  exact hallows

/-- Conservation: in every reachable state of every interleaving of any
number of threads, the items returned followed by the items linked from
`queue.head` are the items enqueued, and the counters and pointers say so. -/
theorem items_conserved (run : Run Step (start program nodes) events s)
    (hfew : (enqueuedItems events).length < 2 ^ 64) :
    ∃ cells items, Conserved events s cells items := by
  obtain ⟨hrun, hrep⟩ := represents_of_few run hfew
  obtain ⟨cells, hitems⟩ := hrep.items
  obtain ⟨hreturned, hall⟩ := run_items hrun
  have horder : returnedItems events ++ (ledger events).pending.map Prod.fst =
      enqueuedItems events := by
    rw [returnedItems, enqueuedItems, ← hreturned, ← hall, List.map_append]
  have hlengths := congrArg List.length horder
  rw [List.length_append, List.length_map] at hlengths
  have hbound : (ledger events).pending.length < 2 ^ 64 := by omega
  have hnil : (ledger events).pending.map Prod.fst = [] ↔ (ledger events).pending = [] :=
    List.map_eq_nil_iff
  refine ⟨cells, (ledger events).pending.map Prod.fst, ?_⟩
  exact
    { chain := hitems.chain
      content := by
        have hcontent := congrArg (List.map (Option.map Prod.fst)) hitems.content
        simpa [Function.comp_def] using hcontent
      order := horder
      size_eq := by
        rw [size, hitems.count_eq, BitVec.toNat_ofNat, Nat.mod_eq_of_lt hbound, List.length_map]
      visited_eq := by
        have hreturnedItems : (returnedItems events).length = (ledger events).returned.length := by
          rw [returnedItems, List.length_map, hreturned]
        rw [visited, hrep.visited_eq, BitVec.toNat_ofNat, Nat.mod_eq_of_lt (by omega),
          hreturnedItems]
      head_null := hitems.head_none.trans hnil.symm
      tail_null := hitems.tail_none.trans hnil.symm
      count_zero := (hitems.count_zero hbound).trans hnil.symm
      tail_last := hitems.tail_eq
      safe := fun action hready => by
        obtain ⟨s', e, hperform, _⟩ := hrep.perform hbound hready
        exact ⟨s', e, hperform⟩
      removes := fun e s' hstep hremoved hempty => by
        have hallows := allows_of_step hrep hbound hstep
        rw [hnil] at hempty
        cases e with
        | dequeued t began waited item serial => simpa [hempty] using hallows.1
        | tried t began result =>
          rw [hallows.1, hempty] at hremoved
          exact hremoved rfl
        | _ => exact hremoved rfl
      tries := fun t began result s' hstep => by
        have hallows := allows_of_step hrep hbound hstep
        refine ⟨?_, fun hnone => tried_none_mem (hnone ▸ hstep)⟩
        rw [hnil, hallows.1, List.head?_eq_none_iff] }

/-- No lost wake-up: beside a registered thread there are at most as many
items as signalled threads, so when nothing but spurious wake-ups can happen
either nobody waits or nothing is there, and without `tryDequeue` the
counters are those of as many hand-overs as possible. -/
theorem no_lost_wakeup (run : Run Step (start program nodes) events s)
    (hfew : (enqueuedItems events).length < 2 ^ 64) :
    (∀ t, s.inDequeue t = true → (s.mem.nodes t).isWaiting = true →
      (size s.mem).toNat ≤ (signalled s).ncard) ∧
    ((∀ t, ¬CanMove s t) →
      ((∀ t, s.inDequeue t = false) ∨ (s.mem.queue.head = none ∧ size s.mem = 0)) ∧
      ((∀ e ∈ events, isTry e = false) → ∀ N M, events.countP isEnqueue = N →
        events.countP beginsDequeue = M →
          events.countP endsDequeue = min N M ∧ (size s.mem).toNat = N - min N M ∧
          (visited s.mem).toNat = min N M ∧ waiting s.mem = BitVec.ofNat 64 (M - min N M) ∧
          (M < 2 ^ 64 → (waiting s.mem).toNat = M - min N M))) := by
  obtain ⟨hrun, hrep⟩ := represents_of_few run hfew
  obtain ⟨cells, hitems⟩ := hrep.items
  obtain ⟨hreturned, hall⟩ := run_items hrun
  have hlengths := congrArg List.length hall
  rw [List.length_append] at hlengths
  rw [enqueuedItems, List.length_map] at hfew
  have hbound : (ledger events).pending.length < 2 ^ 64 := by omega
  have hsize : (size s.mem).toNat = (ledger events).pending.length := by
    rw [size, hitems.count_eq, BitVec.toNat_ofNat, Nat.mod_eq_of_lt hbound]
  refine ⟨fun t hin hflag => ?_, fun hstill => ⟨?_, ?_⟩⟩
  · rw [hsize, ncard_signalled hrep]
    exact run_woken hrun (registered hrep hin hflag)
  · have hwoken := woken_of_still hrep hstill
    rcases run_still hrun hwoken with hwaiters | hpending
    · exact .inl (idle hrep hwaiters hwoken)
    · exact .inr ⟨hitems.head_none.mpr hpending, (hitems.count_zero hbound).mpr hpending⟩
  · rintro htries N M rfl rfl
    obtain ⟨hmin, hleft, hregistered⟩ :=
      run_handovers hrun (woken_of_still hrep hstill) htries
    have hvisited : (visited s.mem).toNat = events.countP endsDequeue := by
      rw [visited, hrep.visited_eq, BitVec.toNat_ofNat, Nat.mod_eq_of_lt (by omega), hreturned,
        length_removed htries]
    have hwaiting : waiting s.mem = BitVec.ofNat 64 (events.countP beginsDequeue -
        min (events.countP isEnqueue) (events.countP beginsDequeue)) := by
      rw [waiting, hrep.calls.list.count_eq, List.length_map]
      congr 1
      omega
    refine ⟨hmin, by omega, by omega, hwaiting, fun hM => ?_⟩
    rw [hwaiting, BitVec.toNat_ofNat]
    exact Nat.mod_eq_of_lt (by omega)

end Simulation

/-- Two threads are numbered from 0. -/
instance twoThreads : NeZero 2 := ⟨by decide⟩

/-- And three. -/
instance threeThreads : NeZero 3 := ⟨by decide⟩

/-- One thread dequeues, another enqueues. -/
def handoverProgram (t : Fin 2) : List (Call ℕ) :=
  if t = 0 then [.dequeue] else [.enqueue 7]

/-- The first thread sleeps, is woken by the second and takes the item. -/
def handover : List (Event ℕ (Fin 2)) :=
  [] ++ [.slept 0 0] ++ [.enqueued 1 7 0 (some (0, 0))] ++ [.dequeued 0 0 true 7 0]

/-- The hand-over can happen, and then nothing is left to do. -/
theorem handover_run : ∃ s : State ℕ (Fin 2) ℕ,
    Run Step (start handoverProgram fun _ => ⟨none, false⟩) handover s ∧
      ∀ t, s.inDequeue t = false ∧ s.program t = [] := by
  refine ⟨_, .snoc (.snoc (.snoc .nil
    ⟨.call 0 0, ⟨rfl, by decide, by simp [start]⟩, rfl⟩)
    ⟨.call 1 0, ⟨rfl, by decide, fun _ _ _ => rfl⟩, rfl⟩)
    ⟨.resume 0, ⟨rfl, rfl⟩, rfl⟩, ?_⟩
  exact Fin.forall_fin_two.mpr ⟨⟨rfl, rfl⟩, rfl, rfl⟩

/-- Conservation in the hand-over: the one item has passed through. -/
theorem items_conserved_handover : ∃ s : State ℕ (Fin 2) ℕ,
    Run Step (start handoverProgram fun _ => ⟨none, false⟩) handover s ∧
      (visited s.mem).toNat = 1 := by
  obtain ⟨s, run, -⟩ := handover_run
  obtain ⟨cells, items, hconserved⟩ := items_conserved run (by decide)
  exact ⟨s, run, hconserved.visited_eq⟩

/-- No wake-up is lost in the hand-over: nobody is left in `dequeue`. -/
theorem no_lost_wakeup_handover : ∃ s : State ℕ (Fin 2) ℕ,
    Run Step (start handoverProgram fun _ => ⟨none, false⟩) handover s ∧
      (waiting s.mem).toNat = 0 := by
  obtain ⟨s, run, hdone⟩ := handover_run
  have hstill : ∀ t, ¬CanMove s t := fun t => by simp [CanMove, hdone t]
  obtain ⟨-, hquiet⟩ := no_lost_wakeup run (by decide)
  obtain ⟨-, -, -, -, hwaiting⟩ := (hquiet hstill).2 (by decide) 1 1 rfl rfl
  exact ⟨s, run, hwaiting (by decide)⟩

end OSCourse.QueueRuns
