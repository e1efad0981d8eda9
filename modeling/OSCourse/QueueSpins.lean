import OSCourse.QueueProgress

/-!
# Loops around `tryDequeue`

A thread that does not want to sleep calls `tryDequeue` until it has got an
item. How often it calls is up to the scheduler, so such a thread has its
program in hindsight only. Its loops ask for as many items as `dequeue` calls
would, and they never block, so whether all threads get their items is the
same matter of counting.
-/

namespace OSCourse.QueueSpins

open Runs QueueState QueueLedger QueueRuns QueuePrograms QueueProgress

variable {Item Tid Addr : Type}

/-- The threads, and how many items each still has to get in loops around
`tryDequeue` behind its program. -/
structure Spinning (Item Tid Addr : Type) where
  state : State Item Tid Addr
  left : Tid → ℕ

/-- The event is a `tryDequeue` that got an item. -/
def got : Event Item Tid → Bool
  | .tried _ _ (some _) => true
  | _ => false

/-- The event is a `tryDequeue` that got none. -/
def missed : Event Item Tid → Bool
  | .tried _ _ none => true
  | _ => false

/-- The event is no part of a spurious wake-up, and no round for nothing. -/
def useful (e : Event Item Tid) : Bool := progress e && !missed e

/-- A program, and its loops as if they were `dequeue` calls. -/
def asked (program : Tid → List (Call Item)) (left : Tid → ℕ) (t : Tid) : List (Call Item) :=
  program t ++ List.replicate (left t) .dequeue

/-- Every thread has done all its calls and got all its items. -/
def Done (w : Spinning Item Tid Addr) : Prop := Finished w.state ∧ ∀ t, w.left t = 0

section Loops

variable [DecidableEq Tid]

/-- One `tryDequeue` of a thread. -/
def oneTry (t u : Tid) : List (Call Item) := if u = t then [.tryDequeue] else []

/-- What is left after a round. -/
def leftAfter (left : Tid → ℕ) (t : Tid) : Option (Item × ℕ) → Tid → ℕ
  | none => left
  | some _ => Function.update left t (left t - 1)

variable [DecidableEq Addr]

/-- A step of a program, or a round of a loop. -/
inductive SpinStep (w : Spinning Item Tid Addr) :
    Event Item Tid → Spinning Item Tid Addr → Prop
  | program {e : Event Item Tid} {s' : State Item Tid Addr} (hstep : Step w.state e s') :
      SpinStep w e ⟨s', w.left⟩
  | spin {t : Tid} {began : ℕ} {result : Option (Item × ℕ)} {s' : State Item Tid Addr}
      (hend : w.state.program t = []) (hleft : 0 < w.left t)
      (hstep : Step (extend w.state (oneTry t)) (.tried t began result) s') :
      SpinStep w (.tried t began result) ⟨s', leftAfter w.left t result⟩

/-- Nothing can happen but spurious wake-ups and rounds for nothing. -/
def Stalled (w : Spinning Item Tid Addr) : Prop := ∀ e w', SpinStep w e w' → useful e = false

/-- What a run is in hindsight: one of programs with the `tryDequeue` calls that
were made. -/
structure Hindsight (program : Tid → List (Call Item)) (left : Tid → ℕ)
    (nodes : Tid → WaitingThread Tid) (events : List (Event Item Tid))
    (w : Spinning Item Tid Addr) : Prop where
  run : Run Step (start (fun t => program t ++
    List.replicate ((own t events).countP isTry) .tryDequeue) nodes) events w.state
  /-- The programs themselves have no such call. -/
  calls : ∀ t, ∀ c ∈ w.state.program t, tries c = false
  /-- A thread has begun its loops only behind its program. -/
  spun : ∀ t, (own t events).countP isTry ≠ 0 →
    w.state.program t = [] ∧ w.state.inDequeue t = false
  gone : ∀ t, w.left t + (own t events).countP got = left t

variable {program : Tid → List (Call Item)} {left : Tid → ℕ} {nodes : Tid → WaitingThread Tid}
  {events : List (Event Item Tid)} {w w' : Spinning Item Tid Addr} {s s' : State Item Tid Addr}
  {e : Event Item Tid} {t : Tid} {L : Ledger Item Tid}

omit [DecidableEq Tid] [DecidableEq Addr] in
/-- Only a `tryDequeue` gets an item in a loop, or none. -/
theorem got_isTry (h : isTry e = false) : got e = false ∧ missed e = false := by
  cases e with
  | tried t began result => cases h
  | _ => exact ⟨rfl, rfl⟩

omit [DecidableEq Addr] in
/-- Events of another kind do not count. -/
theorem countP_own_snoc {p : Event Item Tid → Bool} (h : p e = false) (t : Tid)
    (events : List (Event Item Tid)) :
    (own t (events ++ [e])).countP p = (own t events).countP p := by
  by_cases ht : t = threadOf e
  · subst ht
    rw [own_self, List.countP_append, List.countP_singleton, h, if_neg Bool.false_ne_true]
    rfl
  · rw [own_other ht]

omit [DecidableEq Addr] in
/-- A thread that has called `tryDequeue` once more. -/
theorem countP_own_self {p : Event Item Tid → Bool} (ht : threadOf e = t) (h : p e = true)
    (events : List (Event Item Tid)) :
    (own t (events ++ [e])).countP p = (own t events).countP p + 1 := by
  subst ht
  rw [own_self, List.countP_append, List.countP_singleton, if_pos h]

omit [DecidableEq Tid] [DecidableEq Addr] in
/-- A program without `tryDequeue` does not call it. -/
theorem not_isTry (hmoves : Moves s e s') (hcalls : ∀ t, ∀ c ∈ s.program t, tries c = false) :
    isTry e = false := by
  cases e with
  | tried t began result =>
    have hprogram : s.program t = .tryDequeue :: s'.program t := hmoves.program
    have hcall := hcalls t .tryDequeue (by rw [hprogram]; exact List.mem_cons_self)
    cases hcall
  | _ => rfl

omit [DecidableEq Tid] [DecidableEq Addr] in
/-- A thread at the end of its program and outside `dequeue` does not move. -/
theorem not_moved (hmoves : Moves s e s') (hend : s.program (threadOf e) = [])
    (hout : s.inDequeue (threadOf e) = false) : False := by
  have hprogram := hmoves.program
  rw [hend] at hprogram
  have hcall := (List.append_eq_nil_iff.mp hprogram.symm).1
  have hwas := hmoves.was
  rw [hout] at hwas
  cases e with
  | dequeued t began waited item n =>
    cases waited with
    | false => cases hcall
    | true => cases hwas
  | enqueued t item n woke => cases hcall
  | slept t began => cases hcall
  | tried t began result => cases hcall
  | sleptOver t began => cases hwas
  | stirred t => cases hwas
  | sleptAgain t => cases hwas

/-- A step of a program. -/
theorem Hindsight.program_step (h : Hindsight program left nodes events w)
    (hstep : Step w.state e s') : Hindsight program left nodes (events ++ [e]) ⟨s', w.left⟩ := by
  have hmoves := moves_of_step hstep
  have htry := not_isTry hmoves h.calls
  have hcount : ∀ t, (own t (events ++ [e])).countP isTry = (own t events).countP isTry :=
    fun t => countP_own_snoc htry t events
  refine ⟨?_, fun t c hc => ?_, fun t ht => ?_, fun t => ?_⟩
  · simp only [hcount]
    exact h.run.snoc hstep
  · by_cases ht : t = threadOf e
    · subst ht
      refine h.calls (threadOf e) c ?_
      rw [hmoves.program]
      exact List.mem_append_right _ hc
    · exact h.calls t c ((hmoves.others t ht).1 ▸ hc)
  · rw [hcount] at ht
    obtain ⟨hend, hout⟩ := h.spun t ht
    by_cases ht : t = threadOf e
    · subst ht
      exact (not_moved hmoves hend hout).elim
    · exact ⟨(hmoves.others t ht).1.trans hend, (hmoves.others t ht).2.trans hout⟩
  · rw [countP_own_snoc (got_isTry htry).1]
    exact h.gone t

/-- A round of a loop is a call of a longer program. -/
theorem Hindsight.spin_step (h : Hindsight program left nodes events w) {began : ℕ}
    {result : Option (Item × ℕ)} (hend : w.state.program t = []) (hleft : 0 < w.left t)
    (hstep : Step (extend w.state (oneTry t)) (.tried t began result) s') :
    Hindsight program left nodes (events ++ [.tried t began result])
      ⟨s', leftAfter w.left t result⟩ := by
  have hmoves := moves_of_step hstep
  have hself : s'.program t = [] := by
    have hprogram := hmoves.program
    simp only [threadOf, extend, oneTry, hend, if_true, List.nil_append, callOf,
      Option.toList_some] at hprogram
    exact List.self_eq_append_right.mp hprogram
  have hothers : ∀ u, u ≠ t → s'.program u = w.state.program u := by
    intro u hu
    rw [(hmoves.others u hu).1]
    simp only [extend, oneTry, if_neg hu, List.append_nil]
  refine ⟨?_, fun u c hc => ?_, fun u hu => ?_, fun u => ?_⟩
  · have hprogram : (fun u => program u ++
        List.replicate ((own u (events ++ [.tried t began result])).countP isTry) .tryDequeue) =
        fun u => (program u ++ List.replicate ((own u events).countP isTry) .tryDequeue) ++
          oneTry t u := by
      funext u
      by_cases hu : u = t
      · subst hu
        have hcount : (own u (events ++ [.tried u began result])).countP isTry =
            (own u events).countP isTry + 1 :=
          countP_own_self (e := .tried u began result) rfl rfl events
        rw [hcount, List.replicate_succ', oneTry, if_pos rfl, List.append_assoc]
      · rw [own_other hu, oneTry, if_neg hu, List.append_nil]
    rw [hprogram]
    exact (run_extend h.run (oneTry t)).snoc hstep
  · by_cases hu : u = t
    · subst hu
      rw [hself] at hc
      cases hc
    · rw [hothers u hu] at hc
      exact h.calls u c hc
  · by_cases hu' : u = t
    · subst hu'
      exact ⟨hself, hmoves.stays⟩
    · rw [own_other hu'] at hu
      obtain ⟨hdone, hout⟩ := h.spun u hu
      exact ⟨(hothers u hu').trans hdone, (hmoves.others u hu').2.trans hout⟩
  · cases result with
    | none =>
      rw [countP_own_snoc rfl]
      exact h.gone u
    | some found =>
      by_cases hu : u = t
      · subst hu
        have hcount : (own u (events ++ [.tried u began (some found)])).countP got =
            (own u events).countP got + 1 :=
          countP_own_self (e := .tried u began (some found)) rfl rfl events
        have hgone := h.gone u
        dsimp only [leftAfter]
        rw [hcount, Function.update_self]
        omega
      · dsimp only [leftAfter]
        rw [own_other hu, Function.update_of_ne hu]
        exact h.gone u

/-- Every run has its programs in hindsight. -/
theorem run_hindsight (htries : ∀ t, ∀ c ∈ program t, tries c = false)
    (run : Run SpinStep ⟨start program nodes, left⟩ events w) :
    Hindsight program left nodes events w := by
  induction run with
  | nil =>
    refine ⟨?_, htries, fun t ht => absurd rfl ht, fun t => rfl⟩
    have hnone : program = fun t => program t ++
        List.replicate ((own t ([] : List (Event Item Tid))).countP isTry) .tryDequeue :=
      funext fun t => (List.append_nil (program t)).symm
    rw [← hnone]
    exact .nil
  | snoc _ hlast ih =>
    cases hlast with
    | program hstep => exact ih.program_step hstep
    | spin hend hleft hstep => exact ih.spin_step hend hleft hstep

omit [DecidableEq Tid] [DecidableEq Addr] in
/-- Items leave by `dequeue` or in a loop. -/
theorem length_removed_got (events : List (Event Item Tid)) :
    (events.filterMap removed).length = events.countP endsDequeue + events.countP got := by
  induction events with
  | nil => rfl
  | cons e events ih =>
    have hone : (removed e).toList.length =
        (if endsDequeue e = true then 1 else 0) + if got e = true then 1 else 0 := by
      cases e with
      | tried t began result => cases result <;> rfl
      | _ => rfl
    rw [List.countP_cons, List.countP_cons, List.filterMap_cons]
    cases hremoved : removed e with
    | none =>
      rw [hremoved, Option.toList_none, List.length_nil] at hone
      dsimp only
      omega
    | some found =>
      rw [hremoved, Option.toList_some, List.length_singleton] at hone
      rw [List.length_cons]
      omega

omit [DecidableEq Tid] [DecidableEq Addr] in
/-- More calls behind the programs are no business of the ledger. -/
theorem represents_extend (h : Represents s L) (rest : Tid → List (Call Item)) :
    Represents (extend s rest) L :=
  ⟨h.items, h.visited_eq, h.calls, h.inserted_eq, h.clock_eq⟩

section Counting

variable [Fintype Tid]

/-- In hindsight nothing more is enqueued. -/
theorem Hindsight.represents (h : Hindsight program left nodes events w)
    (hfew : ∑ t, (program t).countP enqueues < 2 ^ 64) :
    Run LedgerStep Ledger.empty events (ledger events) ∧ Represents w.state (ledger events) ∧
      (ledger events).pending.length < 2 ^ 64 := by
  refine represents_of_programs h.run ?_
  simpa only [List.countP_append, List.countP_replicate, enqueues, Bool.false_eq_true, if_false,
    Nat.add_zero] using hfew

/-- What is left to do in the programs and in the loops. -/
def spinWork (w : Spinning Item Tid Addr) (L : Ledger Item Tid) : ℕ :=
  workLeft w.state L + ∑ t, w.left t

omit [DecidableEq Addr] in
/-- One call more. -/
theorem sum_oneTry (s : State Item Tid Addr) (t : Tid) :
    ∑ u, weight ((extend s (oneTry t)).program u) = ∑ u, weight (s.program u) + 1 := by
  have hone : ∀ u, weight (oneTry t u : List (Call Item)) = if u = t then 1 else 0 := by
    intro u
    unfold oneTry
    split <;> rfl
  simp only [extend, weight_append, Finset.sum_add_distrib, hone, Finset.sum_ite_eq',
    Finset.mem_univ, if_true]

/-- One item less. -/
theorem sum_leftAfter (hleft : 0 < left t) (began : ℕ) (result : Option (Item × ℕ)) :
    ∑ u, leftAfter left t result u +
        (if got (.tried t began result : Event Item Tid) = true then 1 else 0) = ∑ u, left u := by
  cases result with
  | none => rfl
  | some found =>
    rw [← Finset.add_sum_erase _ _ (Finset.mem_univ t),
      ← Finset.add_sum_erase _ left (Finset.mem_univ t)]
    have hothers : ∑ u ∈ Finset.univ.erase t, leftAfter left t (some found) u =
        ∑ u ∈ Finset.univ.erase t, left u :=
      Finset.sum_congr rfl fun u hu => Function.update_of_ne (Finset.ne_of_mem_erase hu) _ _
    rw [hothers, leftAfter, Function.update_self, got, if_pos rfl]
    omega

/-- Every step but the rounds for nothing and those of spurious wake-ups leaves less to
do, and no step more. -/
theorem spinWork_step (hrep : Represents w.state L) (hbound : L.pending.length < 2 ^ 64)
    (hstep : SpinStep w e w') :
    spinWork w' (L.record e) + (if useful e = true then 1 else 0) ≤ spinWork w L := by
  unfold spinWork
  cases hstep with
  | program hstep =>
    have hless := workLeft_step (moves_of_step hstep) (allows_of_step hrep hbound hstep)
    have huseful : (if useful e = true then 1 else 0) ≤ if progress e = true then 1 else 0 := by
      unfold useful
      cases progress e <;> cases missed e <;> decide
    dsimp only
    omega
  | @spin t began result s' hend hleft hstep =>
    have hless := workLeft_step (moves_of_step hstep)
      (allows_of_step (represents_extend hrep (oneTry t)) hbound hstep)
    have hsum := sum_leftAfter hleft began result
    have huseful : useful (.tried t began result : Event Item Tid) = got (.tried t began result) := by
      cases result <;> rfl
    have hone : workLeft (extend w.state (oneTry t)) L = workLeft w.state L + 1 := by
      rw [workLeft, sum_oneTry, workLeft]
      omega
    have hprogress : progress (.tried t began result : Event Item Tid) = true := rfl
    rw [if_pos hprogress] at hless
    rw [huseful]
    dsimp only
    omega

/-- The programs and the loops bound the number of steps that are of any use. -/
theorem useful_le (htries : ∀ t, ∀ c ∈ program t, tries c = false)
    (hfew : ∑ t, (program t).countP enqueues < 2 ^ 64)
    (run : Run SpinStep ⟨start program nodes, left⟩ events (w : Spinning Item Tid Addr)) :
    events.countP useful + spinWork w (ledger events) ≤ ∑ t, (weight (program t) + left t) := by
  induction run with
  | nil =>
    rw [Finset.sum_add_distrib]
    exact (Nat.zero_add _).le
  | @snoc events w e w' run hlast ih =>
    obtain ⟨-, hrep, hbound⟩ := (run_hindsight htries run).represents hfew
    have hless := spinWork_step hrep hbound hlast
    rw [List.countP_append, List.countP_singleton, ledger_snoc]
    omega

variable [Infinite Addr]

/-- In a stalled state no program can go on. -/
theorem Hindsight.still (h : Hindsight program left nodes events w)
    (hfew : ∑ t, (program t).countP enqueues < 2 ^ 64) (hstalled : Stalled w) (t : Tid) :
    ¬CanMove w.state t := by
  intro hcan
  obtain ⟨-, hrep, -⟩ := h.represents hfew
  obtain ⟨e, s', hstep, hprogress⟩ := can_step hrep hcan
  have huseful := hstalled e _ (.program hstep)
  have hmissed := (got_isTry (not_isTry (moves_of_step hstep) h.calls)).2
  rw [useful, hprogress, hmissed] at huseful
  cases huseful

/-- In a stalled state a loop that goes on finds nothing. -/
theorem Hindsight.finds_nothing (h : Hindsight program left nodes events w)
    (hfew : ∑ t, (program t).countP enqueues < 2 ^ 64) (hstalled : Stalled w)
    (hend : w.state.program t = []) (hout : w.state.inDequeue t = false) (hleft : 0 < w.left t) :
    (ledger events).pending = [] := by
  obtain ⟨-, hrep, hbound⟩ := h.represents hfew
  obtain ⟨a⟩ : Nonempty Addr := inferInstance
  have hprogram : (extend w.state (oneTry t)).program t = [.tryDequeue] := by
    simp only [extend, oneTry, hend, if_true, List.nil_append]
  have hready : Ready (extend w.state (oneTry t)) (.call t a) := by
    refine ⟨hout, ?_, fun item rest hcalls => ?_⟩
    · rw [hprogram]
      exact List.cons_ne_nil _ _
    · rw [hprogram] at hcalls
      cases hcalls
  obtain ⟨s', e, hperform, hallows, -⟩ :=
    (represents_extend hrep (oneTry t)).perform hbound hready
  have hstep : Step (extend w.state (oneTry t)) e s' := ⟨.call t a, hready, hperform⟩
  simp only [perform, beginCall, hprogram] at hperform
  obtain ⟨r, -, hresult⟩ := Option.map_eq_some_iff.mp hperform
  obtain ⟨-, rfl⟩ := Prod.mk.inj hresult
  have huseful := hstalled _ _ (.spin hend hleft hstep)
  obtain ⟨hhead, -⟩ := hallows
  cases hfound : (ledger events).pending.head? with
  | none => exact List.head?_eq_none_iff.mp hfound
  | some found =>
    rw [hhead, hfound] at huseful
    cases huseful

/-- How far a thread has come: the calls it has begun, without the `dequeue` it
is inside of, or its program and the items it has got. -/
def stoppedAt (program : Tid → List (Call Item)) (events : List (Event Item Tid))
    (w : Spinning Item Tid Addr) (t : Tid) : List (Call Item) :=
  if w.state.inDequeue t = true then (begun t events).dropLast
  else program t ++ List.replicate ((own t events).countP got) .dequeue

omit [DecidableEq Addr] [Fintype Tid] [Infinite Addr] in
/-- Items got in loops are `tryDequeue` calls. -/
theorem got_le (t : Tid) (events : List (Event Item Tid)) :
    (own t events).countP got ≤ (own t events).countP isTry :=
  List.countP_mono_left fun e _ hgot => by
    by_contra hnot
    rw [(got_isTry (Bool.eq_false_iff.mpr hnot)).1] at hgot
    cases hgot

omit [Fintype Tid] [Infinite Addr] in
/-- A thread inside `dequeue` has not come to its loops. -/
theorem Hindsight.inside (h : Hindsight program left nodes events w)
    (hin : w.state.inDequeue t = true) :
    stoppedAt program events w t ++ .dequeue :: w.state.program t = program t ∧
      begun t events = stoppedAt program events w t ++ [.dequeue] ∧
        (own t events).countP got = 0 := by
  have hspun : (own t events).countP isTry = 0 := by
    by_contra hne
    have hout := (h.spun t hne).2
    rw [hin] at hout
    cases hout
  obtain ⟨calls, hcalls⟩ := (run_inside h.run t).2 hin
  have hstop : stoppedAt program events w t = calls := by
    rw [stoppedAt, if_pos hin, hcalls, List.dropLast_concat]
  have hprogram := run_program h.run t
  rw [hspun, List.replicate_zero, List.append_nil, hcalls, List.append_assoc] at hprogram
  have hgot := got_le t events
  exact ⟨by rw [hstop]; exact hprogram.symm, by rw [hstop, hcalls], by omega⟩

omit [Fintype Tid] [Infinite Addr] in
/-- A thread outside that cannot go on with its program has come to its loops. -/
theorem Hindsight.outside (h : Hindsight program left nodes events w)
    (hout : w.state.inDequeue t = false) (hend : w.state.program t = []) :
    stoppedAt program events w t ++ List.replicate (w.left t) .dequeue = asked program left t ∧
      begun t events = program t ++ List.replicate ((own t events).countP isTry) .tryDequeue := by
  have hprogram := run_program h.run t
  rw [hend, List.append_nil] at hprogram
  refine ⟨?_, hprogram.symm⟩
  rw [stoppedAt, if_neg (by simp [hout]), asked, List.append_assoc, List.replicate_append_replicate,
    Nat.add_comm, h.gone t]

omit [Fintype Tid] [Infinite Addr] in
/-- What a thread has got and put where no program can go on. -/
theorem Hindsight.stopped_counts (h : Hindsight program left nodes events w)
    (hstill : ¬CanMove w.state t) :
    (stoppedAt program events w t).countP dequeues =
        (own t events).countP endsDequeue + (own t events).countP got ∧
      (stoppedAt program events w t).countP enqueues = (own t events).countP isEnqueue := by
  have hcount := (run_inside h.run t).1
  rw [← countP_enqueues]
  cases hin : w.state.inDequeue t with
  | true =>
    obtain ⟨-, hbegun, hgot⟩ := h.inside hin
    rw [hbegun, List.countP_append, hin, if_pos rfl] at hcount
    rw [hgot, hbegun, List.countP_append]
    exact ⟨Nat.add_right_cancel hcount, rfl⟩
  | false =>
    have hend : w.state.program t = [] := by
      by_contra hprogram
      exact hstill (.inl ⟨hin, hprogram⟩)
    obtain ⟨-, hbegun⟩ := h.outside hin hend
    have hstop : stoppedAt program events w t =
        program t ++ List.replicate ((own t events).countP got) .dequeue := by
      rw [stoppedAt, if_neg (by simp [hin])]
    rw [hbegun, hin, if_neg Bool.false_ne_true] at hcount
    rw [hbegun, hstop]
    simp only [List.countP_append, List.countP_replicate, dequeues, enqueues, Bool.false_eq_true,
      if_false, if_true, and_true] at hcount ⊢
    omega

/-- A stalled state that is not done has stopped the programs with their loops. -/
theorem Hindsight.stops (h : Hindsight program left nodes events w)
    (hfew : ∑ t, (program t).countP enqueues < 2 ^ 64) (hstalled : Stalled w) (hnot : ¬Done w) :
    Stops (asked program left) (stoppedAt program events w) := by
  obtain ⟨hrun, hrep, -⟩ := h.represents hfew
  have hstill := h.still hfew hstalled
  have hend : ∀ t, w.state.inDequeue t = false → w.state.program t = [] := by
    intro t hout
    by_contra hprogram
    exact hstill t (.inl ⟨hout, hprogram⟩)
  have hpending : (ledger events).pending = [] := by
    by_cases hfinished : Finished w.state
    · obtain ⟨t, ht⟩ := not_forall.mp fun hall => hnot ⟨hfinished, hall⟩
      exact h.finds_nothing hfew hstalled (hfinished t).1 (hfinished t).2 (Nat.pos_of_ne_zero ht)
    · exact still_pending hrun hrep hstill hfinished
  refine ⟨fun t => ?_, ?_, ?_⟩
  · cases hin : w.state.inDequeue t with
    | true =>
      obtain ⟨hprogram, -, -⟩ := h.inside hin
      refine ⟨.dequeue :: w.state.program t ++ List.replicate (left t) .dequeue, ?_, fun c hc => ?_⟩
      · rw [asked, ← List.append_assoc, hprogram]
      · rw [← Option.some.inj hc]
        rfl
    | false =>
      obtain ⟨hasked, -⟩ := h.outside hin (hend t hin)
      refine ⟨_, hasked.symm, fun c hc => ?_⟩
      rw [List.eq_of_mem_replicate (List.mem_of_mem_head? hc)]
      rfl
  · by_contra hall
    have hsame : ∀ t, stoppedAt program events w t = asked program left t := by
      intro t
      by_contra hne
      exact hall ⟨t, hne⟩
    have hout : ∀ t, w.state.inDequeue t = false := by
      intro t
      cases hin : w.state.inDequeue t with
      | false => rfl
      | true =>
        obtain ⟨hprogram, -, -⟩ := h.inside hin
        have hlength := congrArg List.length hprogram
        rw [hsame t, asked, List.length_append, List.length_append, List.length_cons] at hlength
        omega
    refine hnot ⟨fun t => ⟨hend t (hout t), hout t⟩, fun t => ?_⟩
    obtain ⟨hasked, -⟩ := h.outside (hout t) (hend t (hout t))
    have hlength := congrArg List.length hasked
    rw [hsame t, List.length_append, List.length_replicate] at hlength
    omega
  · rw [Finset.sum_congr rfl fun t _ => (h.stopped_counts (hstill t)).1,
      Finset.sum_congr rfl fun t _ => (h.stopped_counts (hstill t)).2, Finset.sum_add_distrib,
      sum_own, sum_own, sum_own]
    obtain ⟨hreturned, hall⟩ := run_items hrun
    rw [hpending, List.append_nil, hreturned] at hall
    rw [← length_removed_got, hall, length_inserted]

/-- Threads in roles are done when they stall. -/
theorem done_of_stalled {producers consumers : Finset Tid}
    (h : Roles (asked program left) producers consumers)
    (htries : ∀ t, ∀ c ∈ program t, tries c = false)
    (hfew : ∑ t, (program t).countP enqueues < 2 ^ 64)
    (run : Run SpinStep ⟨start program nodes, left⟩ events (w : Spinning Item Tid Addr))
    (hstalled : Stalled w) : Done w := by
  by_contra hnot
  exact roles_stops h ((run_hindsight htries run).stops hfew hstalled hnot)

/-- And they can always get there. -/
theorem run_to_done {producers consumers : Finset Tid}
    (h : Roles (asked program left) producers consumers)
    (htries : ∀ t, ∀ c ∈ program t, tries c = false)
    (hfew : ∑ t, (program t).countP enqueues < 2 ^ 64)
    (run : Run SpinStep ⟨start program nodes, left⟩ events (w : Spinning Item Tid Addr)) :
    ∃ more final, Run SpinStep w more final ∧ Done final := by
  have hlower : ∀ w : Spinning Item Tid Addr,
      (∃ events, Run SpinStep ⟨start program nodes, left⟩ events w) →
        (∃ e w', SpinStep w e w' ∧ useful e = true) →
          ∃ e w', SpinStep w e w' ∧
            (∃ events, Run SpinStep ⟨start program nodes, left⟩ events w') ∧
              ∑ t, weight (w'.state.program t) + (signalled w'.state).ncard + ∑ t, w'.left t <
                ∑ t, weight (w.state.program t) + (signalled w.state).ncard + ∑ t, w.left t := by
    rintro w ⟨events, run⟩ ⟨e, w', hstep, huseful⟩
    obtain ⟨-, hrep, hroom⟩ := (run_hindsight htries run).represents hfew
    obtain ⟨-, hrep', -⟩ := (run_hindsight htries (run.snoc hstep)).represents hfew
    have hless := spinWork_step hrep hroom hstep
    rw [← ledger_snoc, spinWork, spinWork, workLeft, workLeft, ← ncard_signalled hrep,
      ← ncard_signalled hrep', if_pos huseful] at hless
    exact ⟨e, w', hstep, ⟨_, run.snoc hstep⟩, by omega⟩
  obtain ⟨more, final, hmore, ⟨events', run'⟩, hstill⟩ := Run.exists_still hlower w ⟨events, run⟩
  refine ⟨more, final, hmore, done_of_stalled h htries hfew run' fun e w' hstep => ?_⟩
  exact Bool.eq_false_iff.mpr fun huseful => hstill ⟨e, w', hstep, huseful⟩

/-- Producers and consumers of as many items, where a consumer may sleep in
`dequeue` or loop around `tryDequeue`, always finish beside threads that supply
themselves: the steps that are of any use are bounded in advance, as long as a
thread is not done one of them can happen, and every run can be continued until
all calls have returned and all loops have ended. -/
theorem spins_finish {producers consumers : Finset Tid}
    (h : Roles (asked program left) producers consumers)
    (htries : ∀ t, ∀ c ∈ program t, tries c = false)
    (hfew : ∑ t, (program t).countP enqueues < 2 ^ 64)
    (run : Run SpinStep ⟨start program nodes, left⟩ events (w : Spinning Item Tid Addr)) :
    events.countP useful ≤ ∑ t, (weight (program t) + left t) ∧ (Stalled w → Done w) ∧
      ∃ more final, Run SpinStep ⟨start program nodes, left⟩ (events ++ more)
        (final : Spinning Item Tid Addr) ∧ Done final := by
  have hbound := useful_le htries hfew run
  obtain ⟨more, final, hmore, hdone⟩ := run_to_done h htries hfew run
  exact ⟨by omega, done_of_stalled h htries hfew run, more, final, run.trans hmore, hdone⟩

end Counting

end Loops

/-- One thread enqueues an item. -/
def supplier (t : Fin 2) : List (Call ℕ) := if t = 0 then [] else [.enqueue 7]

/-- The other one loops until it gets an item. -/
def looper (t : Fin 2) : ℕ := if t = 0 then 1 else 0

/-- They are a producer and a consumer. -/
theorem looper_roles : Roles (asked supplier looper) {1} {0} where
  produce := by decide
  consume := by decide
  supply := by
    have hnone : ∀ t : Fin 2, t ∈ ({1} : Finset (Fin 2)) ∨ t ∈ ({0} : Finset (Fin 2)) := by decide
    intro t hproduce hconsume
    rcases hnone t with h | h
    · exact absurd h hproduce
    · exact absurd h hconsume
  enough := by decide

/-- After a first round for nothing both finish. -/
theorem spins_finish_round : ∃ (more : List (Event ℕ (Fin 2))) (final : Spinning ℕ (Fin 2) ℕ),
    Run SpinStep ⟨start supplier fun _ => ⟨none, false⟩, looper⟩ ([] ++ [.tried 0 0 none] ++ more)
      final ∧ Done final := by
  have run : Run SpinStep
      (⟨start supplier fun _ => ⟨none, false⟩, looper⟩ : Spinning ℕ (Fin 2) ℕ)
      ([] ++ [.tried 0 0 none]) _ :=
    Run.nil.snoc (.spin rfl (by decide)
      ⟨.call 0 16, ⟨rfl, by decide, by simp [extend, start, supplier, oneTry]⟩, rfl⟩)
  exact (spins_finish looper_roles (by decide) (by decide) run).2.2

end OSCourse.QueueSpins
