import OSCourse.QueueLists

/-!
# The queue as a ledger of items and calls

A ledger keeps what the queue is for: the items that wait, the items that
were returned, the calls registered in order and the calls that were woken
and have not gone on, also in order. It says which events may come next and
how each one is booked. The memory of the program represents a ledger, every
enabled step of a thread has a result, and that result is an event the
ledger allows and books. Nothing below this module looks at pointers.
-/

namespace OSCourse.QueueLedger

open Runs HeapSegments QueueState QueueLists

variable {Item Tid Addr : Type}

/-- The abstract state of the queue. -/
structure Ledger (Item Tid : Type) where
  /-- Items inserted and not removed, with their serial numbers. -/
  pending : List (Item × ℕ)
  /-- Items removed, in the order of removal. -/
  returned : List (Item × ℕ)
  /-- Calls registered and not woken: the thread and when the call began. -/
  waiters : List (Tid × ℕ)
  /-- Calls woken that have not taken the mutex since, in the order of waking. -/
  woken : List (Tid × ℕ)
  /-- Events booked. -/
  clock : ℕ

/-- Nothing has happened. -/
def Ledger.empty : Ledger Item Tid := ⟨[], [], [], [], 0⟩

/-- The item an event inserts. -/
def inserted : Event Item Tid → Option (Item × ℕ)
  | .enqueued _ item serial _ => some (item, serial)
  | _ => none

/-- The item an event removes. -/
def removed : Event Item Tid → Option (Item × ℕ)
  | .dequeued _ _ _ item serial => some (item, serial)
  | .tried _ _ result => result
  | _ => none

/-- Which events may come next. -/
def Ledger.Allows (L : Ledger Item Tid) : Event Item Tid → Prop
  | .enqueued _ _ serial woke =>
    serial = L.returned.length + L.pending.length ∧ woke = L.waiters.head?
  | .slept t began =>
    L.pending = [] ∧ began = L.clock ∧ ∀ n, (t, n) ∉ L.waiters ∧ (t, n) ∉ L.woken
  | .sleptOver t began => L.pending = [] ∧ (t, began) ∈ L.woken
  | .dequeued t began waited item serial =>
    L.pending.head? = some (item, serial) ∧
      if waited then (t, began) ∈ L.woken else began = L.clock
  | .tried _ began result => result = L.pending.head? ∧ began = L.clock
  | .stirred _ => True
  | .sleptAgain _ => True

section Records

variable [DecidableEq Tid]

/-- How an event is booked. -/
def Ledger.record (L : Ledger Item Tid) : Event Item Tid → Ledger Item Tid
  | .enqueued _ item serial _ =>
    { L with
      pending := L.pending ++ [(item, serial)]
      waiters := L.waiters.tail
      woken := L.woken ++ L.waiters.head?.toList
      clock := L.clock + 1 }
  | .slept t began => { L with waiters := L.waiters ++ [(t, began)], clock := L.clock + 1 }
  | .sleptOver t began =>
    { L with
      waiters := L.waiters ++ [(t, began)]
      woken := L.woken.erase (t, began)
      clock := L.clock + 1 }
  | .dequeued t began waited item serial =>
    { L with
      pending := L.pending.tail
      returned := L.returned ++ [(item, serial)]
      woken := if waited then L.woken.erase (t, began) else L.woken
      clock := L.clock + 1 }
  | .tried _ _ (some found) =>
    { L with
      pending := L.pending.tail
      returned := L.returned ++ [found]
      clock := L.clock + 1 }
  | .tried _ _ none => { L with clock := L.clock + 1 }
  | .stirred _ => { L with clock := L.clock + 1 }
  | .sleptAgain _ => { L with clock := L.clock + 1 }

/-- One event of the abstract queue. -/
def LedgerStep (L : Ledger Item Tid) (e : Event Item Tid) (L' : Ledger Item Tid) : Prop :=
  L.Allows e ∧ L' = L.record e

/-- The ledger after a history. -/
def ledger (events : List (Event Item Tid)) : Ledger Item Tid :=
  events.foldl Ledger.record Ledger.empty

/-- The ledger books one event after the other. -/
theorem ledger_snoc (events : List (Event Item Tid)) (e : Event Item Tid) :
    ledger (events ++ [e]) = (ledger events).record e := by
  rw [ledger, List.foldl_append, List.foldl_cons, List.foldl_nil, ledger]

/-- A run of the abstract queue ends in the ledger of its history. -/
theorem run_ledger {events : List (Event Item Tid)} {L : Ledger Item Tid}
    (run : Run LedgerStep Ledger.empty events L) : L = ledger events := by
  induction run with
  | nil => rfl
  | snoc _ hlast ih => rw [ledger_snoc, ← ih, hlast.2]

end Records

/-- Which calls the threads are in, as the ledger tells them. -/
structure CallsHold (m : Memory Item Tid Addr) (inDequeue : Tid → Bool) (started : Tid → ℕ)
    (waiters woken : List (Tid × ℕ)) : Prop where
  list : WaitersHold m (waiters.map Prod.fst)
  waiting_iff : ∀ t n, (t, n) ∈ waiters ↔
    inDequeue t = true ∧ (m.nodes t).isWaiting = true ∧ started t = n
  woken_iff : ∀ t n, (t, n) ∈ woken ↔
    inDequeue t = true ∧ (m.nodes t).isWaiting = false ∧ started t = n
  woken_nodup : woken.Nodup
  awake : ∀ t n, (t, n) ∈ woken → m.asleep t = false

/-- The memory and the threads are in the state of a ledger. -/
structure Represents (s : State Item Tid Addr) (L : Ledger Item Tid) : Prop where
  items : ∃ cells, ItemsHold s.mem s.serial L.pending cells
  visited_eq : s.mem.queue.visitedCount = BitVec.ofNat 64 L.returned.length
  calls : CallsHold s.mem s.inDequeue s.started L.waiters L.woken
  inserted_eq : s.inserted = L.returned.length + L.pending.length
  clock_eq : s.clock = L.clock

section Calls

variable {m m' : Memory Item Tid Addr} {inDequeue : Tid → Bool} {started : Tid → ℕ}
  {waiters woken : List (Tid × ℕ)} {t u : Tid} {k n : ℕ}

theorem CallsHold.congr (h : CallsHold m inDequeue started waiters woken)
    (hsame : SameWaiters m m') : CallsHold m' inDequeue started waiters woken where
  list := h.list.congr hsame
  waiting_iff := by rw [hsame.nodes_eq]; exact h.waiting_iff
  woken_iff := by rw [hsame.nodes_eq]; exact h.woken_iff
  woken_nodup := h.woken_nodup
  awake := by rw [hsame.asleep_eq]; exact h.awake

/-- A thread without the waiting flag has no node in the waiting list. -/
theorem CallsHold.not_waiting (h : CallsHold m inDequeue started waiters woken)
    (ht : ¬(inDequeue t = true ∧ (m.nodes t).isWaiting = true)) : t ∉ waiters.map Prod.fst := by
  intro hmem
  obtain ⟨⟨u, n⟩, hn, rfl⟩ := List.mem_map.mp hmem
  obtain ⟨hin, hflag, _⟩ := (h.waiting_iff u n).mp hn
  exact ht ⟨hin, hflag⟩

variable [DecidableEq Tid]

/-- The first registered call moves to the woken ones. -/
theorem CallsHold.wakeFirst (h : CallsHold m inDequeue started waiters woken) :
    CallsHold (wakeFirst m) inDequeue started waiters.tail (woken ++ waiters.head?.toList) ∧
      SameItems m (wakeFirst m) := by
  rcases waiters with _ | ⟨⟨t, n⟩, waiters⟩
  · rw [wakeFirst_nil h.list]
    exact ⟨by simpa using h, ⟨rfl, rfl, rfl, rfl, rfl⟩⟩
  · obtain ⟨hlist, hitems, hflag, hasleep, hothers⟩ := h.list.wakeFirst
    obtain ⟨hin, hwaiting, hstarted⟩ := (h.waiting_iff t n).mp List.mem_cons_self
    have hnodup := List.nodup_cons.mp h.list.chain.nodup
    have hnot : ∀ k, (t, k) ∉ waiters := fun k hk =>
      hnodup.1 (List.mem_map.mpr ⟨(t, k), hk, rfl⟩)
    have hnotWoken : ∀ k, (t, k) ∉ woken := by
      intro k hk
      rw [h.woken_iff, hwaiting] at hk
      simp at hk
    refine ⟨⟨hlist, ?_, ?_, ?_, ?_⟩, hitems⟩
    · intro u k
      rw [List.tail_cons]
      by_cases hu : u = t
      · subst hu
        simp [hflag, hnot k]
      · rw [(hothers u hu).1, ← h.waiting_iff]
        simp [hu]
    · intro u k
      simp only [List.head?_cons, Option.toList_some, List.mem_append, List.mem_singleton,
        Prod.mk.injEq]
      by_cases hu : u = t
      · subst hu
        simp [hflag, hin, hnotWoken k, hstarted, eq_comm]
      · rw [(hothers u hu).1, ← h.woken_iff]
        simp [hu]
    · rw [List.head?_cons, Option.toList_some, List.nodup_append]
      refine ⟨h.woken_nodup, by simp, ?_⟩
      rintro ⟨u, k⟩ hk _ hmem rfl
      obtain ⟨rfl, rfl⟩ : u = t ∧ k = n := by simpa using hmem
      exact hnotWoken k hk
    · intro u k hk
      by_cases hu : u = t
      · rw [hu, hasleep]
      · rw [(hothers u hu).2]
        simp only [List.head?_cons, Option.toList_some, List.mem_append, List.mem_singleton,
          Prod.mk.injEq, hu, false_and, or_false] at hk
        exact h.awake u k hk

/-- A call that begins to wait becomes the last of the registered ones. -/
theorem CallsHold.registerNew (h : CallsHold m inDequeue started waiters woken)
    (ht : inDequeue t = false) (n : ℕ) :
    CallsHold (register m t) (Function.update inDequeue t true) (Function.update started t n)
        (waiters ++ [(t, n)]) woken ∧
      SameItems m (register m t) := by
  have hnew : t ∉ waiters.map Prod.fst := h.not_waiting (by simp [ht])
  obtain ⟨hlist, hitems, hflag, hothers⟩ := h.list.register hnew
  have hnot : ∀ k, (t, k) ∉ waiters := fun k hk => hnew (List.mem_map.mpr ⟨(t, k), hk, rfl⟩)
  have hnotWoken : ∀ k, (t, k) ∉ woken := by
    intro k hk
    rw [h.woken_iff, ht] at hk
    simp at hk
  refine ⟨⟨by simpa using hlist, ?_, ?_, h.woken_nodup, ?_⟩, hitems⟩
  · intro u k
    simp only [List.mem_append, List.mem_singleton, Prod.mk.injEq]
    by_cases hu : u = t
    · subst hu
      simp [hnot k, hflag, eq_comm]
    · rw [Function.update_of_ne hu, Function.update_of_ne hu, (hothers u hu).1, ← h.waiting_iff]
      simp [hu]
  · intro u k
    by_cases hu : u = t
    · subst hu
      simp [hnotWoken k, hflag]
    · rw [Function.update_of_ne hu, Function.update_of_ne hu, (hothers u hu).1, ← h.woken_iff]
  · intro u k hk
    have hu : u ≠ t := fun heq => hnotWoken k (heq ▸ hk)
    rw [(hothers u hu).2]
    exact h.awake u k hk

/-- A woken call that found nothing registers again, behind the others. -/
theorem CallsHold.registerAgain (h : CallsHold m inDequeue started waiters woken)
    (ht : (t, n) ∈ woken) :
    CallsHold (register m t) inDequeue started (waiters ++ [(t, n)]) (woken.erase (t, n)) ∧
      SameItems m (register m t) := by
  obtain ⟨hin, hwas, hstarted⟩ := (h.woken_iff t n).mp ht
  have hnew : t ∉ waiters.map Prod.fst := h.not_waiting (by simp [hwas])
  obtain ⟨hlist, hitems, hflag, hothers⟩ := h.list.register hnew
  have hnot : ∀ k, (t, k) ∉ waiters := fun k hk => hnew (List.mem_map.mpr ⟨(t, k), hk, rfl⟩)
  have honly : ∀ k, (t, k) ∈ woken → k = n := by
    intro k hk
    rw [← ((h.woken_iff t k).mp hk).2.2, hstarted]
  have herase : ∀ u k, (u, k) ∈ woken.erase (t, n) ↔ (u, k) ∈ woken ∧ u ≠ t := by
    intro u k
    rw [h.woken_nodup.mem_erase_iff, and_comm]
    refine and_congr_right fun hk => not_congr ?_
    rw [Prod.mk.injEq]
    exact ⟨And.left, fun hu => ⟨hu, honly k (hu ▸ hk)⟩⟩
  refine ⟨⟨by simpa using hlist, ?_, ?_, h.woken_nodup.erase _, ?_⟩, hitems⟩
  · intro u k
    simp only [List.mem_append, List.mem_singleton, Prod.mk.injEq]
    by_cases hu : u = t
    · subst hu
      simp [hnot k, hflag, hin, hstarted, eq_comm]
    · rw [(hothers u hu).1, ← h.waiting_iff]
      simp [hu]
  · intro u k
    rw [herase]
    by_cases hu : u = t
    · subst hu
      simp [hflag]
    · rw [(hothers u hu).1, ← h.woken_iff]
      simp [hu]
  · intro u k hk
    obtain ⟨hk, hu⟩ := (herase u k).mp hk
    rw [(hothers u hu).2]
    exact h.awake u k hk

/-- A woken call that returns is no longer among the calls. -/
theorem CallsHold.leave (h : CallsHold m inDequeue started waiters woken)
    (ht : (t, n) ∈ woken) :
    CallsHold m (Function.update inDequeue t false) started waiters (woken.erase (t, n)) := by
  obtain ⟨hin, hwas, hstarted⟩ := (h.woken_iff t n).mp ht
  have honly : ∀ k, (t, k) ∈ woken → k = n := by
    intro k hk
    rw [← ((h.woken_iff t k).mp hk).2.2, hstarted]
  refine ⟨h.list, ?_, ?_, h.woken_nodup.erase _, fun u k hk =>
    h.awake u k (List.mem_of_mem_erase hk)⟩
  · intro u k
    rw [h.waiting_iff]
    by_cases hu : u = t
    · subst hu
      simp [hwas]
    · rw [Function.update_of_ne hu]
  · intro u k
    rw [h.woken_nodup.mem_erase_iff]
    by_cases hu : u = t
    · subst hu
      simp only [ne_eq, Prod.mk.injEq, true_and, Function.update_self, Bool.false_eq_true,
        false_and, iff_false, not_and]
      exact fun hne hk => hne (honly k hk)
    · rw [Function.update_of_ne hu, h.woken_iff]
      simp [hu]

/-- Waking spuriously, or going back to wait afterwards, is no business of a
call that was not woken. -/
theorem CallsHold.setAsleep (h : CallsHold m inDequeue started waiters woken) (b : Bool)
    (ht : b = true → ∀ n, (t, n) ∉ woken) :
    CallsHold { m with asleep := Function.update m.asleep t b } inDequeue started waiters
      woken := by
  refine ⟨⟨h.list.chain, h.list.tail_eq, h.list.count_eq⟩, h.waiting_iff, h.woken_iff,
    h.woken_nodup, fun u k hk => ?_⟩
  by_cases hu : u = t
  · subst hu
    cases b with
    | false => exact Function.update_self ..
    | true => exact absurd hk (ht rfl k)
  · exact (Function.update_of_ne hu ..).trans (h.awake u k hk)

end Calls

section Simulation

variable {s : State Item Tid Addr} {L : Ledger Item Tid} {t : Tid} {newItem : Addr}

/-- The queue after `initQueue` represents the empty ledger. -/
theorem start_represents (program : Tid → List (Call Item)) (nodes : Tid → WaitingThread Tid) :
    Represents (start program nodes : State Item Tid Addr) Ledger.empty where
  items := ⟨[], rfl, rfl, by simp [start], rfl, rfl⟩
  visited_eq := rfl
  calls :=
    { list := ⟨rfl, rfl, rfl⟩
      waiting_iff := by simp [start, Ledger.empty]
      woken_iff := by simp [start, Ledger.empty]
      woken_nodup := List.nodup_nil
      awake := by simp [Ledger.empty] }
  inserted_eq := rfl
  clock_eq := rfl

/-- One more item has passed through. -/
theorem Represents.visited_succ (h : Represents s L) (found : Item × ℕ) :
    s.mem.queue.visitedCount + 1 = BitVec.ofNat 64 (L.returned ++ [found]).length := by
  rw [h.visited_eq, count_succ, List.length_append, List.length_singleton]

/-- Moving the first pending item to the returned ones keeps their number. -/
theorem Represents.inserted_move (h : Represents s L) {item : Item} {n : ℕ}
    {rest : List (Item × ℕ)} (hpending : L.pending = (item, n) :: rest) :
    s.inserted = (L.returned ++ [(item, n)]).length + L.pending.tail.length := by
  rw [h.inserted_eq, hpending]
  simp only [List.length_cons, List.length_append, List.tail_cons, List.length_nil]
  omega

variable [DecidableEq Tid] [DecidableEq Addr]

/-- A call of `enqueue`. -/
theorem Represents.callEnqueue (h : Represents s L) {item : Item} {rest : List (Call Item)}
    (hprogram : s.program t = .enqueue item :: rest) (hfresh : s.mem.items newItem = none) :
    ∃ s' e, beginCall s t newItem = some (s', e) ∧ L.Allows e ∧ Represents s' (L.record e) := by
  obtain ⟨cells, hitems⟩ := h.items
  obtain ⟨linked, hlink, hwaiters, hvisited, hlinked⟩ := hitems.linkItem hfresh item s.inserted
  obtain ⟨hcalls, hsame⟩ := (h.calls.congr hwaiters).wakeFirst
  have hbegin : beginCall s t newItem = some (
      { s with
        clock := s.clock + 1
        program := Function.update s.program t rest
        mem := wakeFirst linked
        inserted := s.inserted + 1
        serial := Function.update s.serial newItem s.inserted },
      .enqueued t item s.inserted (s.mem.queue.waitingHead.map fun u => (u, s.started u))) := by
    simp only [beginCall, hprogram, enqueue, hlink, Option.map_some]
  have hwoke : (s.mem.queue.waitingHead.map fun u => (u, s.started u)) = L.waiters.head? := by
    rw [h.calls.list.chain.first_eq, List.head?_map, Option.map_map]
    cases hhead : L.waiters.head? with
    | none => rfl
    | some call =>
      have hstarted := ((h.calls.waiting_iff call.1 call.2).mp (List.mem_of_head? hhead)).2.2
      simp only [Option.map_some, Function.comp_apply, hstarted]
  refine ⟨_, _, hbegin, ⟨h.inserted_eq, hwoke⟩, ⟨_, hlinked.congr hsame⟩, ?_, hcalls, ?_, ?_⟩
  · rw [Ledger.record, hsame.visited_eq, hvisited, h.visited_eq]
  · simp only [Ledger.record, List.length_append, List.length_singleton, h.inserted_eq]
    omega
  · rw [Ledger.record, h.clock_eq]

/-- A call of `dequeue`. -/
theorem Represents.callDequeue (h : Represents s L) {rest : List (Call Item)}
    (hprogram : s.program t = .dequeue :: rest) (ht : s.inDequeue t = false) :
    ∃ s' e, beginCall s t newItem = some (s', e) ∧
      (L.pending.length < 2 ^ 64 → L.Allows e) ∧ Represents s' (L.record e) := by
  obtain ⟨cells, hitems⟩ := h.items
  rcases hitems.takeOrSleep t with
    ⟨hcount, htake⟩ |
    ⟨a, item, n, pending, m', others, hpending, htake, rfl, hsame, hvisited, hrest⟩
  · have hbegin : beginCall s t newItem = some (
        { s with
          clock := s.clock + 1
          program := Function.update s.program t rest
          mem := register s.mem t
          inDequeue := Function.update s.inDequeue t true
          started := Function.update s.started t s.clock }, .slept t s.clock) := by
      simp only [beginCall, hprogram, htake, Option.map_some]
    obtain ⟨hcalls, hsame⟩ := h.calls.registerNew ht s.clock
    refine ⟨_, _, hbegin, fun hbound => ⟨(hitems.count_zero hbound).mp hcount, h.clock_eq,
      fun n => ?_⟩, ⟨_, hitems.congr hsame⟩, ?_, hcalls, h.inserted_eq, ?_⟩
    · rw [h.calls.waiting_iff, h.calls.woken_iff, ht]
      simp
    · rw [Ledger.record, hsame.visited_eq, h.visited_eq]
    · rw [Ledger.record, h.clock_eq]
  · have hbegin : beginCall s t newItem = some (
        { s with
          clock := s.clock + 1
          program := Function.update s.program t rest
          mem := m' }, .dequeued t s.clock false item (s.serial a)) := by
      simp only [beginCall, hprogram, htake, Option.map_some]
    refine ⟨_, _, hbegin, fun _ => ⟨by rw [hpending, List.head?_cons], h.clock_eq⟩,
      ⟨others, ?_⟩, ?_, h.calls.congr hsame, h.inserted_move hpending, ?_⟩
    · rw [Ledger.record, hpending]
      exact hrest
    · exact hvisited.trans (h.visited_succ _)
    · rw [Ledger.record, h.clock_eq]

/-- A call of `tryDequeue`. -/
theorem Represents.callTryDequeue (h : Represents s L) {rest : List (Call Item)}
    (hprogram : s.program t = .tryDequeue :: rest) :
    ∃ s' e, beginCall s t newItem = some (s', e) ∧
      (L.pending.length < 2 ^ 64 → L.Allows e) ∧ Represents s' (L.record e) := by
  obtain ⟨cells, hitems⟩ := h.items
  rcases hitems.tryDequeue with
    ⟨hcount, htry⟩ |
    ⟨a, item, n, pending, m', others, hpending, htry, rfl, hsame, hvisited, hrest⟩
  · have hbegin : beginCall s t newItem = some (
        { s with clock := s.clock + 1, program := Function.update s.program t rest },
        .tried t s.clock none) := by
      simp only [beginCall, hprogram, htry, Option.map_some, Option.map_none]
    refine ⟨_, _, hbegin, fun hbound => ⟨?_, h.clock_eq⟩, ⟨cells, hitems⟩, h.visited_eq, h.calls,
      h.inserted_eq, ?_⟩
    · rw [(hitems.count_zero hbound).mp hcount, List.head?_nil]
    rw [Ledger.record, h.clock_eq]
  · have hbegin : beginCall s t newItem = some (
        { s with
          clock := s.clock + 1
          program := Function.update s.program t rest
          mem := m' }, .tried t s.clock (some (item, s.serial a))) := by
      simp only [beginCall, hprogram, htry, Option.map_some]
    refine ⟨_, _, hbegin, fun _ => ⟨by rw [hpending, List.head?_cons], h.clock_eq⟩,
      ⟨others, ?_⟩, ?_, h.calls.congr hsame, h.inserted_move hpending, ?_⟩
    · rw [Ledger.record, hpending]
      exact hrest
    · exact hvisited.trans (h.visited_succ _)
    · rw [Ledger.record, h.clock_eq]

/-- A thread goes on after its `cnd_wait`. -/
theorem Represents.resume (h : Represents s L) (ht : s.inDequeue t = true) :
    ∃ s' e, resumeCall s t = some (s', e) ∧ (L.pending.length < 2 ^ 64 → L.Allows e) ∧
      Represents s' (L.record e) := by
  obtain ⟨cells, hitems⟩ := h.items
  cases hflag : (s.mem.nodes t).isWaiting with
  | true =>
    have hresume : resumeCall s t = some ({ s with
        clock := s.clock + 1
        mem := { s.mem with asleep := Function.update s.mem.asleep t true } },
        .sleptAgain t) := by
      simp only [resumeCall, hflag, if_true]
    refine ⟨_, _, hresume, fun _ => trivial, ⟨cells, hitems.congr ⟨rfl, rfl, rfl, rfl, rfl⟩⟩,
      h.visited_eq, h.calls.setAsleep true fun _ n => ?_, h.inserted_eq, ?_⟩
    · rw [h.calls.woken_iff, hflag]
      simp
    · rw [Ledger.record, h.clock_eq]
  | false =>
    have hwoken : (t, s.started t) ∈ L.woken := (h.calls.woken_iff _ _).mpr ⟨ht, hflag, rfl⟩
    have hclean : cleanUp s.mem t = s.mem :=
      h.calls.list.cleanUp_eq (h.calls.not_waiting (by simp [hflag]))
    rcases hitems.takeOrSleep t with
      ⟨hcount, htake⟩ |
      ⟨a, item, n, pending, m', others, hpending, htake, rfl, hsame, hvisited, hrest⟩
    · have hresume : resumeCall s t = some (
          { s with clock := s.clock + 1, mem := register s.mem t },
          .sleptOver t (s.started t)) := by
        simp only [resumeCall, hflag, hclean, htake, Option.map_some, Bool.false_eq_true, if_false]
      obtain ⟨hcalls, hsame⟩ := h.calls.registerAgain hwoken
      refine ⟨_, _, hresume, fun hbound => ⟨(hitems.count_zero hbound).mp hcount, hwoken⟩,
        ⟨_, hitems.congr hsame⟩, ?_, hcalls, h.inserted_eq, ?_⟩
      · rw [Ledger.record, hsame.visited_eq, h.visited_eq]
      · rw [Ledger.record, h.clock_eq]
    · have hresume : resumeCall s t = some (
          { s with
            clock := s.clock + 1
            mem := m'
            inDequeue := Function.update s.inDequeue t false },
          .dequeued t (s.started t) true item (s.serial a)) := by
        simp only [resumeCall, hflag, hclean, htake, Option.map_some, Bool.false_eq_true, if_false]
      refine ⟨_, _, hresume, fun _ => ⟨by rw [hpending, List.head?_cons], hwoken⟩,
        ⟨others, ?_⟩, ?_, (h.calls.congr hsame).leave hwoken, h.inserted_move hpending, ?_⟩
      · rw [Ledger.record, hpending]
        exact hrest
      · exact hvisited.trans (h.visited_succ _)
      · rw [Ledger.record, h.clock_eq]

/-- The step lemma: whatever the scheduler lets happen has a result, no null
or freed pointer is followed, the ledger books the event, and it allows it as
long as the item counter has room. -/
theorem Represents.advance (h : Represents s L) {action : Action Tid Addr}
    (hready : Ready s action) :
    ∃ s' e, perform s action = some (s', e) ∧ (L.pending.length < 2 ^ 64 → L.Allows e) ∧
      Represents s' (L.record e) := by
  cases action with
  | call t newItem =>
    obtain ⟨ht, hprogram, hfresh⟩ := hready
    obtain ⟨c, rest, hcall⟩ := List.exists_cons_of_ne_nil hprogram
    cases c with
    | enqueue item =>
      obtain ⟨s', e, hbegin, hallows, hnext⟩ :=
        h.callEnqueue hcall (by simpa using hfresh item rest hcall)
      exact ⟨s', e, hbegin, fun _ => hallows, hnext⟩
    | dequeue => exact h.callDequeue hcall ht
    | tryDequeue => exact h.callTryDequeue hcall
  | resume t => exact h.resume hready.1
  | stir t =>
    obtain ⟨cells, hitems⟩ := h.items
    refine ⟨_, _, rfl, fun _ => trivial, ⟨cells, hitems.congr ⟨rfl, rfl, rfl, rfl, rfl⟩⟩,
      h.visited_eq, h.calls.setAsleep false (by simp), h.inserted_eq, ?_⟩
    rw [Ledger.record, h.clock_eq]

/-- With room in the counter, what happens is what the ledger allows. -/
theorem Represents.perform (h : Represents s L) (hbound : L.pending.length < 2 ^ 64)
    {action : Action Tid Addr} (hready : Ready s action) :
    ∃ s' e, perform s action = some (s', e) ∧ L.Allows e ∧ Represents s' (L.record e) := by
  obtain ⟨s', e, hperform, hallows, hnext⟩ := h.advance hready
  exact ⟨s', e, hperform, hallows hbound, hnext⟩

end Simulation

end OSCourse.QueueLedger
