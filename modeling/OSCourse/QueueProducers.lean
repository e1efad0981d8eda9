import OSCourse.QueueOrder
import OSCourse.QueuePrograms

/-!
# The items of each producer

The serial numbers say which thread an item comes from. Whatever the other
threads do, the items of one thread leave the queue in the order of its
program and none is passed over, and each thread that removes items gets
those of any one producer in that order.
-/

namespace OSCourse.QueueProducers

open Runs QueueState QueueLedger QueueRuns QueueOrder QueuePrograms

variable {Item Tid Addr : Type}

/-- The item a call inserts. -/
def itemOf : Call Item → Option Item
  | .enqueue item => some item
  | _ => none

section Threads

variable [DecidableEq Tid]

/-- The items that a thread has inserted, in the order of its calls. -/
def sentBy (t : Tid) (events : List (Event Item Tid)) : List (Item × ℕ) :=
  (own t events).filterMap inserted

/-- The item is one of a thread's. -/
def isFrom (t : Tid) (events : List (Event Item Tid)) (found : Item × ℕ) : Bool :=
  (sentBy t events).map Prod.snd |>.contains found.2

/-- The items of a thread that have left the queue, in the order of removal. -/
def deliveredFrom (t : Tid) (events : List (Event Item Tid)) : List Item :=
  ((events.filterMap removed).filter (isFrom t events)).map Prod.fst

/-- The items of a thread that another thread has removed, in the order of removal. -/
def takenFrom (t taker : Tid) (events : List (Event Item Tid)) : List Item :=
  (((own taker events).filterMap removed).filter (isFrom t events)).map Prod.fst

variable {events : List (Event Item Tid)} {L : Ledger Item Tid} {t taker : Tid}

omit [DecidableEq Tid] in
/-- An `enqueue` call inserts its own item. -/
theorem inserted_callOf (e : Event Item Tid) :
    (inserted e).map Prod.fst = (callOf e).bind itemOf := by
  cases e with
  | dequeued t began waited item n => cases waited <;> rfl
  | _ => rfl

/-- A thread has inserted the items of the calls it has begun. -/
theorem sentBy_begun (t : Tid) (events : List (Event Item Tid)) :
    (sentBy t events).map Prod.fst = (begun t events).filterMap itemOf := by
  rw [sentBy, begun, List.map_filterMap, List.filterMap_filterMap]
  exact congrArg (fun f => (own t events).filterMap f) (funext inserted_callOf)

omit [DecidableEq Tid] in
/-- Insertions with different numbers are told apart by them. -/
theorem eq_of_serial (hserials : ((events.filterMap inserted).map Prod.snd).Nodup)
    {e e' : Event Item Tid} (he : e ∈ events) (he' : e' ∈ events) {found found' : Item × ℕ}
    (hfound : inserted e = some found) (hfound' : inserted e' = some found')
    (hsame : found.2 = found'.2) : e = e' := by
  rw [List.map_filterMap, List.Nodup, List.pairwise_filterMap] at hserials
  have hsymmetric : Std.Symm fun e e' : Event Item Tid =>
      ∀ n, Option.map Prod.snd (inserted e) = some n →
        ∀ n', Option.map Prod.snd (inserted e') = some n' → n ≠ n' :=
    ⟨fun _ _ h n hn n' hn' => (h n' hn' n hn).symm⟩
  by_contra hne
  have hdiffers := hserials.forall he he' hne found.2 (by rw [hfound]; rfl) found'.2
    (by rw [hfound']; rfl)
  exact hdiffers hsame

/-- With different numbers, an inserted item is a thread's own exactly if the
thread inserted it. -/
theorem isFrom_iff (hserials : ((events.filterMap inserted).map Prod.snd).Nodup)
    {e : Event Item Tid} (he : e ∈ events) {found : Item × ℕ} (hfound : inserted e = some found) :
    isFrom t events found = true ↔ threadOf e = t := by
  rw [isFrom, List.contains_iff_mem, List.mem_map]
  constructor
  · rintro ⟨found', hmem, hsame⟩
    obtain ⟨e', he', hfound'⟩ := List.mem_filterMap.mp hmem
    obtain ⟨hmem', hthread⟩ := List.mem_filter.mp he'
    have heq := eq_of_serial hserials he hmem' hfound hfound' hsame.symm
    rw [heq]
    exact of_decide_eq_true hthread
  · intro hthread
    refine ⟨found, List.mem_filterMap.mpr ⟨e, List.mem_filter.mpr ⟨he, ?_⟩, hfound⟩, rfl⟩
    exact decide_eq_true hthread

/-- The inserted items that are a thread's own are those it has inserted. -/
theorem filter_inserted (hserials : ((events.filterMap inserted).map Prod.snd).Nodup) :
    (events.filterMap inserted).filter (isFrom t events) = sentBy t events := by
  rw [sentBy, own, List.filter_filterMap, List.filterMap_filter]
  refine List.filterMap_congr fun e he => ?_
  cases hfound : inserted e with
  | none => simp
  | some found =>
    have hiff := isFrom_iff (t := t) hserials he hfound
    by_cases hthread : threadOf e = t
    · simp [hthread, hiff.mpr hthread]
    · have hnot : isFrom t events found = false := by
        rw [← Bool.not_eq_true, hiff]
        exact hthread
      simp [hthread, hnot]

/-- A thread's items that have left the queue, then those still in it, are all
that it has inserted. -/
theorem delivered_append (run : Run LedgerStep Ledger.empty events L) :
    deliveredFrom t events ++ (L.pending.filter (isFrom t events)).map Prod.fst =
      (begun t events).filterMap itemOf := by
  obtain ⟨hreturned, hitems⟩ := run_items run
  have hserials : ((events.filterMap inserted).map Prod.snd).Nodup := by
    rw [← hitems, run_serials run]
    exact List.nodup_range
  rw [deliveredFrom, ← hreturned, ← List.map_append, ← List.filter_append, hitems,
    filter_inserted hserials, sentBy_begun]

/-- What one thread has removed is part of what was removed. -/
theorem taken_sublist (t taker : Tid) (events : List (Event Item Tid)) :
    (takenFrom t taker events).Sublist (deliveredFrom t events) :=
  (((List.filter_sublist (p := fun e => threadOf e = taker)).filterMap removed).filter
    (isFrom t events)).map Prod.fst

end Threads

section Order

variable [DecidableEq Tid] [DecidableEq Addr] {program : Tid → List (Call Item)}
  {nodes : Tid → WaitingThread Tid} {events : List (Event Item Tid)} {s : State Item Tid Addr}

/-- In every run of any number of threads the items of one thread leave the
queue in the order of its program, none is passed over, and each thread that
removes items gets those of one producer in that order; once a producer has
made all its calls and the queue is empty, all its items have been handed
over. -/
theorem producer_order (run : Run Step (start program nodes) events s)
    (hfew : (enqueuedItems events).length < 2 ^ 64) (t : Tid) :
    deliveredFrom t events <+: (program t).filterMap itemOf ∧
      (∀ taker, (takenFrom t taker events).Sublist (deliveredFrom t events)) ∧
      (s.program t = [] → s.mem.queue.head = none →
        deliveredFrom t events = (program t).filterMap itemOf) := by
  obtain ⟨hrun, hrep⟩ := represents_of_few run hfew
  have hall := delivered_append (t := t) hrun
  have hprogram := run_program run t
  refine ⟨?_, fun taker => taken_sublist t taker events, fun hdone hempty => ?_⟩
  · rw [hprogram, List.filterMap_append, ← hall, List.append_assoc]
    exact List.prefix_append _ _
  · obtain ⟨cells, hitems⟩ := hrep.items
    rw [hitems.head_none.mp hempty, List.filter_nil, List.map_nil, List.append_nil] at hall
    rw [hprogram, hdone, List.append_nil]
    exact hall

end Order

/-- The hand-over delivers the one item of its producer. -/
theorem producer_order_handover : ∃ s : State ℕ (Fin 2) ℕ,
    Run Step (start handoverProgram fun _ => ⟨none, false⟩) handover s ∧
      deliveredFrom 1 handover <+: [7] ∧ takenFrom 1 0 handover = [7] := by
  obtain ⟨s, run, -⟩ := handover_run
  exact ⟨s, run, (producer_order run (by decide) 1).1, by decide⟩

end OSCourse.QueueProducers
