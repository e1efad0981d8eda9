import OSCourse.QueueRuns

/-!
# The waiting list of the queue

The nodes of the waiting list live on the stacks of blocked threads. In
every reachable state the list holds exactly the threads inside the loop of
`dequeue` whose flag is set, each one once and in the order in which they
last registered, and no pointer of the queue leads anywhere else. Neither
the number of items nor the number of threads is bounded here.
-/

namespace OSCourse.QueueWaiting

open Runs HeapSegments QueueState QueueLists QueueLedger

variable {Item Tid Addr : Type}

/-- The nodes that the pointers of the queue lead to. -/
inductive Reaches (m : Memory Item Tid Addr) : Tid → Prop
  /-- From `waitingHead`. -/
  | head {t : Tid} (h : m.queue.waitingHead = some t) : Reaches m t
  /-- From `waitingTail`. -/
  | tail {t : Tid} (h : m.queue.waitingTail = some t) : Reaches m t
  /-- From the `next` field of a node. -/
  | next {t u : Tid} (h : Reaches m u) (hnext : (m.nodes u).next = some t) : Reaches m t

/-- A chain is closed under its links. -/
theorem mem_of_next {m : Memory Item Tid Addr} {waiters : List Tid} {t u : Tid}
    {first : Option Tid} (h : Chain (nodeLink m) first waiters) (hu : u ∈ waiters)
    (hnext : (m.nodes u).next = some t) : t ∈ waiters := by
  induction waiters generalizing first with
  | nil => simp at hu
  | cons v waiters ih =>
    obtain ⟨_, next, hlink, hrest⟩ := h
    rcases List.mem_cons.mp hu with rfl | hmem
    · have hfirst : next = some t := by simpa [nodeLink, hnext, eq_comm] using hlink
      rw [hrest.first_eq] at hfirst
      exact List.mem_cons_of_mem _ (List.mem_of_head? hfirst)
    · exact List.mem_cons_of_mem _ (ih hrest hmem)

/-- Every cell of a chain is reached when its first cell is. -/
theorem reaches_of_chain {m : Memory Item Tid Addr} {waiters : List Tid} {t : Tid}
    {first : Option Tid} (h : Chain (nodeLink m) first waiters)
    (hfirst : ∀ u, first = some u → Reaches m u) (ht : t ∈ waiters) : Reaches m t := by
  induction waiters generalizing first with
  | nil => simp at ht
  | cons v waiters ih =>
    obtain ⟨hv, next, hlink, hrest⟩ := h
    rcases List.mem_cons.mp ht with rfl | hmem
    · exact hfirst _ hv
    · refine ih hrest (fun u hu => (hfirst v hv).next ?_) hmem
      simpa [nodeLink, hu] using hlink

/-- The pointers of the queue lead to the nodes of the waiting list only. -/
theorem reaches_iff {m : Memory Item Tid Addr} {waiters : List Tid} (h : WaitersHold m waiters)
    (t : Tid) : Reaches m t ↔ t ∈ waiters := by
  constructor
  · intro hreach
    induction hreach with
    | head hhead =>
      rw [h.chain.first_eq] at hhead
      exact List.mem_of_head? hhead
    | tail htail =>
      rw [h.tail_eq] at htail
      exact List.mem_of_getLast? htail
    | next _ hnext ih => exact mem_of_next h.chain ih hnext
  · exact reaches_of_chain h.chain fun u hu => .head hu

section Registrations

variable [DecidableEq Tid]

/-- The events that put a thread's node into the waiting list. -/
def registers (t : Tid) : Event Item Tid → Bool
  | .slept u _ => decide (t = u)
  | .sleptOver u _ => decide (t = u)
  | _ => false

/-- The place in the history, counted from one, of the latest registration
of a thread; zero when it never registered. -/
def lastRegistration (events : List (Event Item Tid)) (t : Tid) : ℕ :=
  events.length - events.reverse.findIdx (registers t)

variable {events : List (Event Item Tid)} {e : Event Item Tid} {t : Tid}

/-- No registration is later than the history. -/
theorem lastRegistration_le : lastRegistration events t ≤ events.length := Nat.sub_le _ _

/-- A registration is the latest one of its thread. -/
theorem lastRegistration_registered (h : registers t e = true) :
    lastRegistration (events ++ [e]) t = events.length + 1 := by
  simp [lastRegistration, List.findIdx_cons, h]

/-- Other events leave the latest registration where it was. -/
theorem lastRegistration_other (h : registers t e = false) :
    lastRegistration (events ++ [e]) t = lastRegistration events t := by
  simp [lastRegistration, List.findIdx_cons, h]

/-- An event registers one thread, behind the others, or it registers nobody
and at most takes the first thread out. -/
theorem record_waiters (L : Ledger Item Tid) (e : Event Item Tid) :
    (∃ t began, (∀ u, registers u e = decide (u = t)) ∧
      (L.record e).waiters = L.waiters ++ [(t, began)]) ∨
    (∀ u, registers u e = false) ∧ (L.record e).waiters.Sublist L.waiters := by
  cases e with
  | enqueued t item serial woke => exact .inr ⟨fun _ => rfl, List.tail_sublist _⟩
  | slept t began => exact .inl ⟨t, began, fun _ => rfl, rfl⟩
  | sleptOver t began => exact .inl ⟨t, began, fun _ => rfl, rfl⟩
  | tried t began result => cases result <;> exact .inr ⟨fun _ => rfl, List.Sublist.refl _⟩
  | dequeued | stirred | sleptAgain => exact .inr ⟨fun _ => rfl, List.Sublist.refl _⟩

/-- The threads of a list have registered, and in the order of the list. -/
structure InOrder (events : List (Event Item Tid)) (waiters : List Tid) : Prop where
  registered : ∀ t ∈ waiters, 0 < lastRegistration events t
  ordered : waiters.Pairwise fun t u => lastRegistration events t < lastRegistration events u

/-- An event that registers nobody keeps the order of what is left. -/
theorem InOrder.sublist {waiters rest : List Tid} (h : InOrder events waiters)
    (hsub : rest.Sublist waiters) (hother : ∀ u, registers u e = false) :
    InOrder (events ++ [e]) rest where
  registered t ht := by
    rw [lastRegistration_other (hother t)]
    exact h.registered t (hsub.subset ht)
  ordered := by
    refine (h.ordered.sublist hsub).imp fun {u v} hlt => ?_
    rw [lastRegistration_other (hother u), lastRegistration_other (hother v)]
    exact hlt

/-- A thread that registers becomes the last one in the order. -/
theorem InOrder.push {waiters : List Tid} (h : InOrder events waiters) (ht : t ∉ waiters)
    (hregisters : ∀ u, registers u e = decide (u = t)) :
    InOrder (events ++ [e]) (waiters ++ [t]) := by
  have hlast : lastRegistration (events ++ [e]) t = events.length + 1 :=
    lastRegistration_registered (by simp [hregisters])
  have hold : ∀ u ∈ waiters, lastRegistration (events ++ [e]) u = lastRegistration events u := by
    intro u hu
    refine lastRegistration_other ?_
    rw [hregisters, decide_eq_false_iff_not]
    exact fun heq => ht (heq ▸ hu)
  constructor
  · intro u hu
    rcases List.mem_append.mp hu with hu | hu
    · rw [hold u hu]
      exact h.registered u hu
    · rw [List.mem_singleton.mp hu, hlast]
      omega
  · rw [List.pairwise_append]
    refine ⟨h.ordered.imp_of_mem fun {u v} hu hv hlt => ?_, List.pairwise_singleton _ _, ?_⟩
    · rwa [hold u hu, hold v hv]
    · intro u hu v hv
      have hle : lastRegistration events u ≤ events.length := lastRegistration_le
      rw [hold u hu, List.mem_singleton.mp hv, hlast]
      omega

end Registrations

/-- The whole claim of the waiting list about one state: what the list holds,
what the redundant fields say, and what can be reached. -/
structure Waiting [DecidableEq Tid] (events : List (Event Item Tid)) (s : State Item Tid Addr)
    (waiters : List Tid) : Prop where
  chain : Chain (nodeLink s.mem) s.mem.queue.waitingHead waiters
  nodup : waiters.Nodup
  mem_iff : ∀ t, t ∈ waiters ↔ s.inDequeue t = true ∧ (s.mem.nodes t).isWaiting = true
  order : InOrder events waiters
  tail_last : s.mem.queue.waitingTail = waiters.getLast?
  head_null : s.mem.queue.waitingHead = none ↔ waiters = []
  tail_null : s.mem.queue.waitingTail = none ↔ waiters = []
  count_eq : waiting s.mem = BitVec.ofNat 64 waiters.length
  count_exact : waiters.length < 2 ^ 64 → (waiting s.mem).toNat = waiters.length
  reaches_iff : ∀ t, Reaches s.mem t ↔ s.inDequeue t = true ∧ (s.mem.nodes t).isWaiting = true
  cleanUp_eq : ∀ t, s.inDequeue t = true → (s.mem.nodes t).isWaiting = false →
    cleanUp s.mem t = s.mem

section Simulation

variable [DecidableEq Tid] [DecidableEq Addr]
variable {program : Tid → List (Call Item)} {nodes : Tid → WaitingThread Tid}
  {events : List (Event Item Tid)} {s : State Item Tid Addr}

/-- Every reachable state represents the ledger of its history, whether or
not the item counter has wrapped. -/
theorem represents_of_run (run : Run Step (start program nodes) events s) :
    Represents s (ledger events) := by
  induction run with
  | nil => exact start_represents program nodes
  | snoc _ hlast ih =>
    obtain ⟨action, hready, hperform⟩ := hlast
    obtain ⟨s', e, hresult, -, hnext⟩ := ih.advance hready
    rw [hperform] at hresult
    cases hresult
    rw [ledger_snoc]
    exact hnext

/-- The registered calls of every history stand in the order of their latest
registration. -/
theorem inOrder_of_run (run : Run Step (start program nodes) events s) :
    InOrder events ((ledger events).waiters.map Prod.fst) := by
  induction run with
  | nil => exact ⟨by simp [ledger, Ledger.empty], by simp [ledger, Ledger.empty]⟩
  | @snoc labels middle label final run hlast ih =>
    have hnodup := (represents_of_run (run.snoc hlast)).calls.list.chain.nodup
    rw [ledger_snoc] at hnodup ⊢
    rcases record_waiters (ledger labels) label with ⟨t, began, hregisters, hwaiters⟩ | ⟨hno, hsub⟩
    · rw [hwaiters, List.map_append, List.map_singleton] at hnodup ⊢
      refine ih.push (fun hmem => ?_) hregisters
      exact (List.nodup_append.mp hnodup).2.2 t hmem t (by simp) rfl
    · exact ih.sublist (hsub.map Prod.fst) hno

/-- In every reachable state of every interleaving the waiting list is what
its fields say, and nothing else is reachable from the queue. -/
theorem waiting_list (run : Run Step (start program nodes) events s) :
    ∃ waiters, Waiting events s waiters := by
  have hcalls := (represents_of_run run).calls
  have hmem : ∀ t, t ∈ (ledger events).waiters.map Prod.fst ↔
      s.inDequeue t = true ∧ (s.mem.nodes t).isWaiting = true := by
    intro t
    rw [List.mem_map]
    constructor
    · rintro ⟨⟨u, n⟩, hn, rfl⟩
      obtain ⟨hin, hflag, _⟩ := (hcalls.waiting_iff u n).mp hn
      exact ⟨hin, hflag⟩
    · rintro ⟨hin, hflag⟩
      exact ⟨(t, s.started t), (hcalls.waiting_iff _ _).mpr ⟨hin, hflag, rfl⟩, rfl⟩
  refine ⟨(ledger events).waiters.map Prod.fst, ?_⟩
  exact
    { chain := hcalls.list.chain
      nodup := hcalls.list.chain.nodup
      mem_iff := hmem
      order := inOrder_of_run run
      tail_last := hcalls.list.tail_eq
      head_null := hcalls.list.chain.first_eq_none
      tail_null := by rw [hcalls.list.tail_eq, List.getLast?_eq_none_iff]
      count_eq := hcalls.list.count_eq
      count_exact := fun hfew => by
        rw [waiting, hcalls.list.count_eq, BitVec.toNat_ofNat, Nat.mod_eq_of_lt hfew]
      reaches_iff := fun t => by rw [reaches_iff hcalls.list, hmem]
      cleanUp_eq := fun t _ hflag => hcalls.list.cleanUp_eq (by simp [hmem, hflag]) }

end Simulation

/-- Two threads dequeue; a third enqueues and takes the item back. -/
def overtakenProgram (t : Fin 3) : List (Call ℕ) :=
  if t = 2 then [.enqueue 7, .tryDequeue] else [.dequeue]

/-- The first thread is woken for an item that is gone when it resumes, and
registers again behind the second. -/
def overtaken : List (Event ℕ (Fin 3)) :=
  [] ++ [.slept 0 0] ++ [.slept 1 1] ++ [.enqueued 2 7 0 (some (0, 0))] ++
    [.tried 2 3 (some (7, 0))] ++ [.sleptOver 0 0]

/-- The waiting list after a second registration in the same call. -/
theorem waiting_list_overtaken : ∃ s : State ℕ (Fin 3) ℕ,
    Run Step (start overtakenProgram fun _ => ⟨none, false⟩) overtaken s ∧
      (∃ waiters, Waiting overtaken s waiters) ∧
      s.mem.queue.waitingHead = some 1 ∧ s.mem.queue.waitingTail = some 0 := by
  have run : ∃ s : State ℕ (Fin 3) ℕ,
      Run Step (start overtakenProgram fun _ => ⟨none, false⟩) overtaken s ∧
      s.mem.queue.waitingHead = some 1 ∧ s.mem.queue.waitingTail = some 0 := by
    refine ⟨_, .snoc (.snoc (.snoc (.snoc (.snoc .nil
      ⟨.call 0 0, ⟨rfl, by decide, by simp [start, overtakenProgram]⟩, rfl⟩)
      ⟨.call 1 0, ⟨rfl, by decide, by simp [start, overtakenProgram]⟩, rfl⟩)
      ⟨.call 2 0, ⟨rfl, by decide, fun _ _ _ => rfl⟩, rfl⟩)
      ⟨.call 2 1, ⟨rfl, by decide, fun _ _ _ => rfl⟩, rfl⟩)
      ⟨.resume 0, ⟨rfl, rfl⟩, rfl⟩, rfl, rfl⟩
  obtain ⟨s, run, hhead, htail⟩ := run
  exact ⟨s, run, waiting_list run, hhead, htail⟩

end OSCourse.QueueWaiting
