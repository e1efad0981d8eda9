import Mathlib.Algebra.BigOperators.Group.Finset.Basic
import Mathlib.Data.Fintype.Basic
import OSCourse.QueueRuns

/-!
# The calls of each thread

Every event belongs to one thread. The calls that a thread has begun in a
history are a prefix of its program, and a `dequeue` call that has begun has
returned or is the last call of a thread inside `dequeue`. Counted over all
threads these are the calls of the history.
-/

namespace OSCourse.QueuePrograms

open Runs QueueState QueueLedger QueueRuns

variable {Item Tid Addr : Type}

/-- The thread an event belongs to. -/
def threadOf : Event Item Tid → Tid
  | .enqueued t _ _ _ => t
  | .slept t _ => t
  | .sleptOver t _ => t
  | .dequeued t _ _ _ _ => t
  | .tried t _ _ => t
  | .stirred t => t
  | .sleptAgain t => t

/-- The call an event begins. -/
def callOf : Event Item Tid → Option (Call Item)
  | .enqueued _ item _ _ => some (.enqueue item)
  | .slept _ _ => some .dequeue
  | .dequeued _ _ false _ _ => some .dequeue
  | .tried _ _ _ => some .tryDequeue
  | _ => none

/-- The call is an `enqueue`. -/
def enqueues : Call Item → Bool
  | .enqueue _ => true
  | _ => false

/-- The call is a `dequeue`. -/
def dequeues : Call Item → Bool
  | .dequeue => true
  | _ => false

/-- The call is a `tryDequeue`. -/
def tries : Call Item → Bool
  | .tryDequeue => true
  | _ => false

section Threads

variable [DecidableEq Tid]

/-- The events of a thread. -/
def own (t : Tid) (events : List (Event Item Tid)) : List (Event Item Tid) :=
  events.filter fun e => threadOf e = t

/-- The calls a thread has begun. -/
def begun (t : Tid) (events : List (Event Item Tid)) : List (Call Item) :=
  (own t events).filterMap callOf

variable {e : Event Item Tid} {events : List (Event Item Tid)} {t : Tid}

/-- An event of a thread is the last of its own. -/
theorem own_self (events : List (Event Item Tid)) (e : Event Item Tid) :
    own (threadOf e) (events ++ [e]) = own (threadOf e) events ++ [e] := by
  rw [own, List.filter_append, List.filter_cons_of_pos (by simp)]
  rfl

/-- It is none of the others' own. -/
theorem own_other (h : t ≠ threadOf e) : own t (events ++ [e]) = own t events := by
  rw [own, List.filter_append, List.filter_cons_of_neg (by simpa using Ne.symm h)]
  exact List.append_nil _

theorem begun_self (events : List (Event Item Tid)) (e : Event Item Tid) :
    begun (threadOf e) (events ++ [e]) = begun (threadOf e) events ++ (callOf e).toList := by
  rw [begun, own_self, List.filterMap_append]
  cases h : callOf e <;> simp [begun, h]

theorem begun_other (h : t ≠ threadOf e) : begun t (events ++ [e]) = begun t events := by
  rw [begun, own_other h]
  rfl

/-- Counting the events of each thread counts them all. -/
theorem sum_own [Fintype Tid] (p : Event Item Tid → Bool) (events : List (Event Item Tid)) :
    ∑ t, (own t events).countP p = events.countP p := by
  induction events using List.reverseRecOn with
  | nil => simp [own]
  | append_singleton events e ih =>
    rw [List.countP_append, ← ih, ← Finset.add_sum_erase _ _ (Finset.mem_univ (threadOf e)),
      ← Finset.add_sum_erase _ _ (Finset.mem_univ (threadOf e)), own_self, List.countP_append]
    have hothers : ∑ t ∈ Finset.univ.erase (threadOf e), (own t (events ++ [e])).countP p =
        ∑ t ∈ Finset.univ.erase (threadOf e), (own t events).countP p :=
      Finset.sum_congr rfl fun t ht => by rw [own_other (Finset.ne_of_mem_erase ht)]
    rw [hothers]
    omega

/-- The calls of `enqueue` that a thread has begun are its events of that kind. -/
theorem countP_enqueues (t : Tid) (events : List (Event Item Tid)) :
    (begun t events).countP enqueues = (own t events).countP isEnqueue := by
  have hkind : ∀ e : Event Item Tid, ((callOf e).map enqueues).getD false = isEnqueue e := by
    intro e
    cases e with
    | dequeued t began waited item n => cases waited <;> rfl
    | _ => rfl
  rw [begun, List.countP_filterMap]
  exact congrArg (fun f => (own t events).countP f) (funext hkind)

end Threads

/-- The thread of an event was inside `dequeue` before it. -/
def wasInside : Event Item Tid → Bool
  | .sleptOver _ _ => true
  | .dequeued _ _ waited _ _ => waited
  | .stirred _ => true
  | .sleptAgain _ => true
  | _ => false

/-- It is inside `dequeue` after it. -/
def staysInside : Event Item Tid → Bool
  | .slept _ _ => true
  | .sleptOver _ _ => true
  | .stirred _ => true
  | .sleptAgain _ => true
  | _ => false

/-- What a step does to the programs and to who is inside `dequeue`. -/
structure Moves (s : State Item Tid Addr) (e : Event Item Tid) (s' : State Item Tid Addr) :
    Prop where
  program : s.program (threadOf e) = (callOf e).toList ++ s'.program (threadOf e)
  was : s.inDequeue (threadOf e) = wasInside e
  stays : s'.inDequeue (threadOf e) = staysInside e
  others : ∀ t, t ≠ threadOf e → s'.program t = s.program t ∧ s'.inDequeue t = s.inDequeue t

section Steps

variable [DecidableEq Tid] [DecidableEq Addr]
variable {s s' : State Item Tid Addr} {e : Event Item Tid} {events : List (Event Item Tid)}
  {program : Tid → List (Call Item)} {nodes : Tid → WaitingThread Tid}

/-- The begin of a call. -/
theorem moves_begin {t : Tid} {newItem : Addr} (hout : s.inDequeue t = false)
    (h : beginCall s t newItem = some (s', e)) : Moves s e s' := by
  unfold beginCall at h
  split at h
  · cases h
  · next c rest hprogram =>
    have hupdate : s.program t = [c] ++ Function.update s.program t rest t := by
      rw [Function.update_self]
      exact hprogram
    have hrest : ∀ u, u ≠ t → Function.update s.program t rest u = s.program u :=
      fun u hu => Function.update_of_ne hu _ _
    dsimp only at h
    split at h
    · obtain ⟨m, hm, hresult⟩ := Option.map_eq_some_iff.mp h
      cases hresult
      exact ⟨hupdate, hout, hout, fun u hu => ⟨hrest u hu, rfl⟩⟩
    · obtain ⟨⟨found, m⟩, hm, hresult⟩ := Option.map_eq_some_iff.mp h
      cases found with
      | none =>
        cases hresult
        exact ⟨hupdate, hout, Function.update_self _ _ _,
          fun u hu => ⟨hrest u hu, Function.update_of_ne hu _ _⟩⟩
      | some found =>
        cases hresult
        exact ⟨hupdate, hout, hout, fun u hu => ⟨hrest u hu, rfl⟩⟩
    · obtain ⟨⟨found, m⟩, hm, hresult⟩ := Option.map_eq_some_iff.mp h
      cases hresult
      exact ⟨hupdate, hout, hout, fun u hu => ⟨hrest u hu, rfl⟩⟩

/-- The end of a wait. -/
theorem moves_resume {t : Tid} (hin : s.inDequeue t = true)
    (h : resumeCall s t = some (s', e)) : Moves s e s' := by
  unfold resumeCall at h
  split at h
  · cases h
    exact ⟨rfl, hin, hin, fun u hu => ⟨rfl, rfl⟩⟩
  · obtain ⟨⟨found, m⟩, hm, hresult⟩ := Option.map_eq_some_iff.mp h
    cases found with
    | none =>
      cases hresult
      exact ⟨rfl, hin, hin, fun u hu => ⟨rfl, rfl⟩⟩
    | some found =>
      cases hresult
      exact ⟨rfl, hin, Function.update_self _ _ _,
        fun u hu => ⟨rfl, Function.update_of_ne hu _ _⟩⟩

/-- Every step is about one thread. -/
theorem moves_of_step (h : Step s e s') : Moves s e s' := by
  obtain ⟨action, hready, hperform⟩ := h
  cases action with
  | call t newItem => exact moves_begin hready.1 hperform
  | resume t => exact moves_resume hready.1 hperform
  | stir t =>
    cases hperform
    exact ⟨rfl, hready.1, hready.1, fun u hu => ⟨rfl, rfl⟩⟩

/-- A thread has begun its calls in the order of its program. -/
theorem run_program (run : Run Step (start program nodes) events s) (t : Tid) :
    program t = begun t events ++ s.program t := by
  induction run with
  | nil => rfl
  | @snoc events s e s' run hstep ih =>
    have hmoves := moves_of_step hstep
    by_cases ht : t = threadOf e
    · subst ht
      rw [begun_self, List.append_assoc, ← hmoves.program]
      exact ih
    · rw [begun_other ht, (hmoves.others t ht).1]
      exact ih

omit [DecidableEq Tid] in
/-- A `dequeue` call that begins or that was going on returns or goes on. -/
theorem dequeues_balance (e : Event Item Tid) :
    (callOf e).toList.countP dequeues + (if wasInside e = true then 1 else 0) =
      [e].countP endsDequeue + (if staysInside e = true then 1 else 0) := by
  cases e with
  | dequeued t began waited item n => cases waited <;> rfl
  | _ => rfl

omit [DecidableEq Tid] in
/-- A thread is inside the `dequeue` it has just begun, or still inside. -/
theorem stays_cases (h : staysInside e = true) :
    callOf e = some .dequeue ∨ callOf e = none ∧ wasInside e = true := by
  cases e with
  | slept t began => exact .inl rfl
  | sleptOver t began => exact .inr ⟨rfl, rfl⟩
  | stirred t => exact .inr ⟨rfl, rfl⟩
  | sleptAgain t => exact .inr ⟨rfl, rfl⟩
  | _ => cases h

/-- The `dequeue` calls of a thread have returned, except for the one it is
inside of, and that is its last call. -/
theorem run_inside (run : Run Step (start program nodes) events s) (t : Tid) :
    (begun t events).countP dequeues =
        (own t events).countP endsDequeue + (if s.inDequeue t = true then 1 else 0) ∧
      (s.inDequeue t = true → ∃ calls, begun t events = calls ++ [.dequeue]) := by
  induction run with
  | nil => exact ⟨rfl, fun h => by cases h⟩
  | @snoc events s e s' run hstep ih =>
    have hmoves := moves_of_step hstep
    by_cases ht : t = threadOf e
    · subst ht
      rw [begun_self, own_self, List.countP_append, List.countP_append, hmoves.stays]
      rw [hmoves.was] at ih
      obtain ⟨hcount, hlast⟩ := ih
      refine ⟨?_, fun hstays => ?_⟩
      · have hbalance := dequeues_balance e
        omega
      · rcases stays_cases hstays with hcall | ⟨hcall, hwas⟩
        · exact ⟨begun (threadOf e) events, by rw [hcall]; rfl⟩
        · rw [hcall, Option.toList_none, List.append_nil]
          exact hlast hwas
    · rw [begun_other ht, own_other ht, (hmoves.others t ht).2]
      exact ih

end Steps

end OSCourse.QueuePrograms
