import Mathlib.Algebra.Order.BigOperators.Group.Finset
import OSCourse.QueuePrograms
import OSCourse.QueueWaiting

/-!
# Progress of the threads

Spurious wake-ups aside, every step of a thread begins a call or ends a wait
that an `enqueue` has ended, so the programs bound the number of steps. A
run that has come to rest leaves threads inside `dequeue` only in front of
an empty queue, and whether that can happen is a matter of counting: it can
exactly if the programs can stop, each at its end or in front of a
`dequeue`, with as many calls of either kind behind them.
-/

namespace OSCourse.QueueProgress

open Runs HeapSegments QueueState QueueLists QueueLedger QueueRuns QueueWaiting QueuePrograms

variable {Item Tid Addr : Type}

/-- The event is no part of a spurious wake-up. -/
def progress : Event Item Tid → Bool
  | .stirred _ => false
  | .sleptAgain _ => false
  | _ => true

/-- The calls of a program, the `enqueue` calls twice. -/
def weight (calls : List (Call Item)) : ℕ := calls.length + calls.countP enqueues

theorem weight_append (xs ys : List (Call Item)) : weight (xs ++ ys) = weight xs + weight ys := by
  simp only [weight, List.length_append, List.countP_append]
  omega

/-- What is left to do: calls to begin, calls to wake, and woken calls. -/
def workLeft [Fintype Tid] (s : State Item Tid Addr) (L : Ledger Item Tid) : ℕ :=
  ∑ t, weight (s.program t) + L.woken.length

section Steps

variable [DecidableEq Tid] {s s' : State Item Tid Addr} {e : Event Item Tid} {L : Ledger Item Tid}

omit [DecidableEq Tid] in
/-- One thread's program loses the call that an event begins. -/
theorem sum_weight [Fintype Tid] (hmoves : Moves s e s') :
    ∑ t, weight (s.program t) = weight (callOf e).toList + ∑ t, weight (s'.program t) := by
  classical
  rw [← Finset.add_sum_erase _ _ (Finset.mem_univ (threadOf e)),
    ← Finset.add_sum_erase _ (fun t => weight (s'.program t)) (Finset.mem_univ (threadOf e)),
    hmoves.program, weight_append]
  have hothers : ∑ t ∈ Finset.univ.erase (threadOf e), weight (s.program t) =
      ∑ t ∈ Finset.univ.erase (threadOf e), weight (s'.program t) :=
    Finset.sum_congr rfl fun t ht => by rw [(hmoves.others t (Finset.ne_of_mem_erase ht)).1]
  rw [hothers]
  omega

/-- An event pays for itself and for the call it wakes. -/
theorem woken_step (hallows : L.Allows e) :
    (L.record e).woken.length + (if progress e = true then 1 else 0) ≤
      weight (callOf e).toList + L.woken.length := by
  cases e with
  | enqueued t item n woke =>
    have hhead : L.waiters.head?.toList.length ≤ 1 := by cases L.waiters <;> simp
    simp only [Ledger.record, List.length_append, progress, callOf, weight, Option.toList_some,
      List.length_singleton, List.countP_singleton, enqueues, if_true]
    omega
  | sleptOver t began =>
    have hmem : (t, began) ∈ L.woken := hallows.2
    have herase := List.length_erase_of_mem hmem
    have hpos := List.length_pos_of_mem hmem
    simp only [Ledger.record, progress, callOf, weight, Option.toList_none, List.length_nil,
      List.countP_nil, if_true]
    omega
  | dequeued t began waited item n =>
    cases waited with
    | false => simp [Ledger.record, progress, callOf, weight, enqueues]
    | true =>
      have hmem : (t, began) ∈ L.woken := hallows.2
      have herase := List.length_erase_of_mem hmem
      have hpos := List.length_pos_of_mem hmem
      simp only [Ledger.record, progress, callOf, weight, Option.toList_none, List.length_nil,
        List.countP_nil, if_true]
      omega
  | slept t began => simp [Ledger.record, progress, callOf, weight, enqueues]
  | tried t began result =>
    cases result with
    | none => simp [Ledger.record, progress, callOf, weight, enqueues]
    | some found => simp [Ledger.record, progress, callOf, weight, enqueues]
  | stirred t => simp [Ledger.record, progress, callOf, weight]
  | sleptAgain t => simp [Ledger.record, progress, callOf, weight]

/-- Every step that is no part of a spurious wake-up leaves less to do. -/
theorem workLeft_step [Fintype Tid] (hmoves : Moves s e s') (hallows : L.Allows e) :
    workLeft s' (L.record e) + (if progress e = true then 1 else 0) ≤ workLeft s L := by
  have hsum := sum_weight hmoves
  have hwoken := woken_step hallows
  unfold workLeft
  omega

end Steps

section Runs

variable [DecidableEq Tid] [DecidableEq Addr]
variable {s s' : State Item Tid Addr} {e : Event Item Tid} {events : List (Event Item Tid)}
  {program : Tid → List (Call Item)} {nodes : Tid → WaitingThread Tid} {L : Ledger Item Tid}

/-- No more items are enqueued than the programs enqueue. -/
theorem enqueued_le [Fintype Tid] (run : Run Step (start program nodes) events s) :
    events.countP isEnqueue ≤ ∑ t, (program t).countP enqueues := by
  rw [← sum_own]
  refine Finset.sum_le_sum fun t _ => ?_
  rw [run_program run t, List.countP_append, countP_enqueues]
  exact Nat.le_add_right _ _

/-- Programs with few `enqueue` calls keep within the item counter. -/
theorem represents_of_programs [Fintype Tid] (run : Run Step (start program nodes) events s)
    (hfew : ∑ t, (program t).countP enqueues < 2 ^ 64) :
    Run LedgerStep Ledger.empty events (ledger events) ∧ Represents s (ledger events) ∧
      (ledger events).pending.length < 2 ^ 64 := by
  have hle := enqueued_le run
  have hlength : (enqueuedItems events).length < 2 ^ 64 := by
    rw [enqueuedItems, List.length_map, length_inserted]
    omega
  obtain ⟨hrun, hrep⟩ := represents_of_few run hlength
  have hitems := congrArg List.length (run_items hrun).2
  rw [List.length_append, length_inserted] at hitems
  exact ⟨hrun, hrep, by omega⟩

/-- In every run of finitely many threads there are at most as many steps that
are no part of spurious wake-ups as the programs have calls, the `enqueue`
calls counted twice: the threads cannot keep each other busy. -/
theorem steps_bounded [Fintype Tid] (run : Run Step (start program nodes) events s)
    (hfew : ∑ t, (program t).countP enqueues < 2 ^ 64) :
    events.countP progress + workLeft s (ledger events) ≤ ∑ t, weight (program t) := by
  induction run with
  | nil => exact (Nat.zero_add _).le
  | @snoc events s e s' run hstep ih =>
    obtain ⟨-, hrep, hbound⟩ := represents_of_programs run hfew
    have hless := workLeft_step (moves_of_step hstep) (allows_of_step hrep hbound hstep)
    rw [List.countP_append, List.countP_singleton, ledger_snoc]
    omega

/-- The begin of a call is no part of a spurious wake-up. -/
theorem progress_begin {t : Tid} {newItem : Addr} (h : beginCall s t newItem = some (s', e)) :
    progress e = true := by
  unfold beginCall at h
  split at h
  · cases h
  · dsimp only at h
    split at h
    · obtain ⟨m, hm, hresult⟩ := Option.map_eq_some_iff.mp h
      cases hresult
      rfl
    · obtain ⟨⟨found, m⟩, hm, hresult⟩ := Option.map_eq_some_iff.mp h
      cases found with
      | none =>
        cases hresult
        rfl
      | some found =>
        cases hresult
        rfl
    · obtain ⟨⟨found, m⟩, hm, hresult⟩ := Option.map_eq_some_iff.mp h
      cases hresult
      rfl

/-- Nor is the end of a wait that an `enqueue` has ended. -/
theorem progress_resume {t : Tid} (hflag : (s.mem.nodes t).isWaiting = false)
    (h : resumeCall s t = some (s', e)) : progress e = true := by
  unfold resumeCall at h
  rw [hflag, if_neg Bool.false_ne_true] at h
  obtain ⟨⟨found, m⟩, hm, hresult⟩ := Option.map_eq_some_iff.mp h
  cases found with
  | none =>
    cases hresult
    rfl
  | some found =>
    cases hresult
    rfl

/-- A thread that can move has a step. -/
theorem can_step [Infinite Addr] (hrep : Represents s L) {t : Tid} (hcan : CanMove s t) :
    ∃ e s', Step s e s' ∧ progress e = true := by
  rcases hcan with ⟨hout, hprogram⟩ | ⟨hin, hawake, hflag⟩
  · obtain ⟨cells, hitems⟩ := hrep.items
    obtain ⟨newItem, hfresh⟩ := Infinite.exists_notMem_finset cells.toFinset
    have hnone : (s.mem.items newItem).isNone = true := by
      rw [Option.isNone_iff_eq_none, ← Option.not_isSome_iff_eq_none, hitems.live]
      exact fun hmem => hfresh (List.mem_toFinset.mpr hmem)
    have hready : Ready s (.call t newItem) := ⟨hout, hprogram, fun _ _ _ => hnone⟩
    obtain ⟨s', e, hperform, -⟩ := hrep.advance hready
    exact ⟨e, s', ⟨.call t newItem, hready, hperform⟩, progress_begin hperform⟩
  · have hready : Ready s (.resume t : Action Tid Addr) := ⟨hin, hawake⟩
    obtain ⟨s', e, hperform, -⟩ := hrep.advance hready
    exact ⟨e, s', ⟨.resume t, hready, hperform⟩, progress_resume hflag hperform⟩

/-- Every run can be continued until no thread can move, along steps that are
no part of spurious wake-ups and keep what such steps keep. -/
theorem comes_to_rest [Fintype Tid] [Infinite Addr]
    (run : Run Step (start program nodes) events s)
    (hfew : ∑ t, (program t).countP enqueues < 2 ^ 64) (kept : State Item Tid Addr → Prop)
    (hkept : kept s)
    (hstep : ∀ events s e s', Run Step (start program nodes) events s → kept s → Step s e s' →
      progress e = true → kept s') :
    ∃ more final, Run Step (start program nodes) (events ++ more) final ∧ kept final ∧
      ∀ t, ¬CanMove final t := by
  let inv (final : State Item Tid Addr) : Prop :=
    ∃ more, Run Step (start program nodes) (events ++ more) final ∧ kept final
  have hmove : ∀ s, inv s → (∃ t, CanMove s t) → ∃ e s', Step s e s' ∧ inv s' ∧
      ∑ t, weight (s'.program t) + (signalled s').ncard <
        ∑ t, weight (s.program t) + (signalled s).ncard := by
    rintro s ⟨more, run, hs⟩ ⟨t, hcan⟩
    obtain ⟨-, hrep, hbound⟩ := represents_of_programs run hfew
    obtain ⟨e, s', hs', hprogress⟩ := can_step hrep hcan
    have run' : Run Step (start program nodes) (events ++ more ++ [e]) s' := .snoc run hs'
    obtain ⟨-, hrep', -⟩ := represents_of_programs run' hfew
    have hless := workLeft_step (moves_of_step hs') (allows_of_step hrep hbound hs')
    rw [← ledger_snoc, workLeft, workLeft, ← ncard_signalled hrep, ← ncard_signalled hrep',
      if_pos hprogress] at hless
    rw [List.append_assoc] at run'
    exact ⟨e, s', hs', ⟨_, run', hstep _ _ _ _ run hs hs' hprogress⟩, by omega⟩
  have hinv : inv s := ⟨[], by rwa [List.append_nil], hkept⟩
  obtain ⟨-, final, -, ⟨more, run', hfinal⟩, hstill⟩ := Run.exists_still hmove s hinv
  exact ⟨more, final, run', hfinal, fun t hcan => hstill ⟨t, hcan⟩⟩

end Runs

/-- Every thread has done all its calls. -/
def Finished (s : State Item Tid Addr) : Prop := ∀ t, s.program t = [] ∧ s.inDequeue t = false

/-- The programs can stop: each thread at its end or in front of a `dequeue`,
not all at the end, with as many `dequeue` calls behind them as `enqueue`
calls. -/
structure Stops [Fintype Tid] (program stop : Tid → List (Call Item)) : Prop where
  next : ∀ t, ∃ rest, program t = stop t ++ rest ∧ ∀ c ∈ rest.head?, dequeues c = true
  unfinished : ∃ t, stop t ≠ program t
  balanced : ∑ t, (stop t).countP dequeues = ∑ t, (stop t).countP enqueues

section Stuck

variable [DecidableEq Tid] [DecidableEq Addr]
variable {s s' : State Item Tid Addr} {e : Event Item Tid} {events : List (Event Item Tid)}
  {program stop rest : Tid → List (Call Item)} {nodes : Tid → WaitingThread Tid}
  {L : Ledger Item Tid}

/-- Programs without `tryDequeue` make no such call. -/
theorem no_tries (run : Run Step (start program nodes) events s)
    (htries : ∀ t, ∀ c ∈ program t, tries c = false) : ∀ e ∈ events, isTry e = false := by
  intro e he
  cases e with
  | tried t began result =>
    have hown : Event.tried t began result ∈ own t events :=
      List.mem_filter.mpr ⟨he, decide_eq_true rfl⟩
    have hbegun : Call.tryDequeue ∈ begun t events := List.mem_filterMap.mpr ⟨_, hown, rfl⟩
    have hmem : Call.tryDequeue ∈ program t := by
      rw [run_program run t]
      exact List.mem_append_left _ hbegun
    have hnone := htries t _ hmem
    cases hnone
  | _ => rfl

omit [DecidableEq Addr] in
/-- Where no thread can move, a thread that has not finished is inside
`dequeue`, and nothing is in the queue. -/
theorem still_pending (hrun : Run LedgerStep Ledger.empty events L) (hrep : Represents s L)
    (hstill : ∀ t, ¬CanMove s t) (hunfinished : ¬Finished s) : L.pending = [] := by
  have hwoken := woken_of_still hrep hstill
  rcases run_still hrun hwoken with hwaiters | hpending
  · have hout := idle hrep hwaiters hwoken
    refine absurd (fun t => ⟨?_, hout t⟩) hunfinished
    by_contra hprogram
    exact hstill t (.inl ⟨hout t, hprogram⟩)
  · exact hpending

/-- How far a thread has come when nothing moves: the calls it has begun,
without the `dequeue` it is inside of. -/
def stoppedAt (s : State Item Tid Addr) (events : List (Event Item Tid)) (t : Tid) :
    List (Call Item) :=
  if s.inDequeue t = true then (begun t events).dropLast else begun t events

/-- A run that has come to rest unfinished has stopped the programs. -/
theorem stops_of_still [Fintype Tid] (run : Run Step (start program nodes) events s)
    (htries : ∀ t, ∀ c ∈ program t, tries c = false)
    (hfew : ∑ t, (program t).countP enqueues < 2 ^ 64) (hstill : ∀ t, ¬CanMove s t)
    (hunfinished : ¬Finished s) : Stops program (stoppedAt s events) := by
  obtain ⟨hrun, hrep, -⟩ := represents_of_programs run hfew
  have hpending := still_pending hrun hrep hstill hunfinished
  have hinside : ∀ t, s.inDequeue t = true →
      begun t events = stoppedAt s events t ++ [.dequeue] := by
    intro t hin
    obtain ⟨calls, hcalls⟩ := (run_inside run t).2 hin
    rw [stoppedAt, if_pos hin, hcalls, List.dropLast_concat]
  have houtside : ∀ t, s.inDequeue t = false →
      begun t events = stoppedAt s events t ∧ s.program t = [] := by
    intro t hout
    refine ⟨by rw [stoppedAt, if_neg (by simp [hout])], ?_⟩
    by_contra hprogram
    exact hstill t (.inl ⟨hout, hprogram⟩)
  refine ⟨fun t => ?_, ?_, ?_⟩
  · have hprogram := run_program run t
    cases hin : s.inDequeue t with
    | true =>
      refine ⟨.dequeue :: s.program t, ?_, fun c hc => ?_⟩
      · rw [hprogram, hinside t hin, List.append_assoc]
        rfl
      · rw [← Option.some.inj hc]
        rfl
    | false =>
      obtain ⟨hbegun, hdone⟩ := houtside t hin
      refine ⟨[], by rw [hprogram, hbegun, hdone], fun c hc => ?_⟩
      cases hc
  · by_contra hall
    refine hunfinished fun t => ?_
    have hstop : stoppedAt s events t = program t := by
      by_contra hne
      exact hall ⟨t, hne⟩
    have hprogram := run_program run t
    cases hin : s.inDequeue t with
    | true =>
      have hlengths := congrArg List.length hprogram
      rw [hinside t hin, hstop] at hlengths
      simp only [List.length_append, List.length_singleton] at hlengths
      omega
    | false => exact ⟨(houtside t hin).2, rfl⟩
  · have hdequeues : ∀ t, (stoppedAt s events t).countP dequeues =
        (own t events).countP endsDequeue := by
      intro t
      have hcount := (run_inside run t).1
      cases hin : s.inDequeue t with
      | true =>
        rw [hinside t hin, List.countP_append, hin, if_pos rfl] at hcount
        exact Nat.add_right_cancel hcount
      | false =>
        rw [hin, if_neg Bool.false_ne_true, (houtside t hin).1] at hcount
        exact hcount
    have henqueues : ∀ t, (stoppedAt s events t).countP enqueues =
        (own t events).countP isEnqueue := by
      intro t
      rw [← countP_enqueues]
      cases hin : s.inDequeue t with
      | true =>
        rw [hinside t hin, List.countP_append]
        rfl
      | false => rw [(houtside t hin).1]
    rw [Finset.sum_congr rfl fun t _ => hdequeues t, Finset.sum_congr rfl fun t _ => henqueues t,
      sum_own, sum_own]
    obtain ⟨-, hall, -⟩ := run_handovers hrun (woken_of_still hrep hstill) (no_tries run htries)
    rw [hpending] at hall
    exact hall

/-- The same state with more calls behind each program. -/
def extend (s : State Item Tid Addr) (rest : Tid → List (Call Item)) : State Item Tid Addr :=
  { s with program := fun t => s.program t ++ rest t }

omit [DecidableEq Addr] in
/-- More calls behind the programs stay where they are when a call begins. -/
theorem update_append (programs : Tid → List (Call Item)) (t : Tid) (calls : List (Call Item)) :
    Function.update (fun u => programs u ++ rest u) t (calls ++ rest t) =
      fun u => Function.update programs t calls u ++ rest u := by
  funext u
  by_cases hu : u = t
  · subst hu
    rw [Function.update_self, Function.update_self]
  · rw [Function.update_of_ne hu, Function.update_of_ne hu]

/-- A call begins alike with more calls behind the programs. -/
theorem beginCall_extend {t : Tid} {newItem : Addr} {c : Call Item} {calls : List (Call Item)}
    (hprogram : s.program t = c :: calls) :
    beginCall (extend s rest) t newItem =
      (beginCall s t newItem).map fun r => (extend r.1 rest, r.2) := by
  have hextended : (extend s rest).program t = c :: (calls ++ rest t) := by
    change s.program t ++ rest t = _
    rw [hprogram]
    rfl
  unfold beginCall
  rw [hprogram, hextended]
  cases c with
  | enqueue item =>
    dsimp only [extend]
    rw [update_append, Option.map_map]
    rfl
  | dequeue =>
    dsimp only [extend]
    rw [update_append, Option.map_map]
    refine congrArg (fun f => Option.map f (takeOrSleep s.mem t)) (funext fun r => ?_)
    rcases r with ⟨_ | found, m⟩ <;> rfl
  | tryDequeue =>
    dsimp only [extend]
    rw [update_append, Option.map_map]
    rfl

/-- So does a wait end. -/
theorem resumeCall_extend (t : Tid) :
    resumeCall (extend s rest) t = (resumeCall s t).map fun r => (extend r.1 rest, r.2) := by
  by_cases hflag : (s.mem.nodes t).isWaiting = true
  · simp only [resumeCall, extend, hflag, if_true, Option.map_some]
  · simp only [resumeCall, extend, hflag, Bool.false_eq_true, if_false, Option.map_map]
    refine congrArg (fun f => Option.map f (takeOrSleep (cleanUp s.mem t) t)) (funext fun r => ?_)
    rcases r with ⟨_ | found, m⟩ <;> rfl

/-- A step is a step with more calls behind the programs. -/
theorem step_extend (rest : Tid → List (Call Item)) (h : Step s e s') :
    Step (extend s rest) e (extend s' rest) := by
  obtain ⟨action, hready, hperform⟩ := h
  cases action with
  | call t newItem =>
    obtain ⟨hout, hprogram, hfresh⟩ := hready
    obtain ⟨c, calls, hcalls⟩ := List.exists_cons_of_ne_nil hprogram
    have hextended : (extend s rest).program t = c :: (calls ++ rest t) := by
      change s.program t ++ rest t = _
      rw [hcalls]
      rfl
    refine ⟨.call t newItem, ⟨hout, ?_, fun item more hmore => ?_⟩, ?_⟩
    · rw [hextended]
      exact List.cons_ne_nil _ _
    · rw [hextended] at hmore
      obtain ⟨rfl, -⟩ := List.cons.inj hmore
      exact hfresh item calls hcalls
    · rw [perform, beginCall_extend hcalls]
      exact congrArg (Option.map _) hperform
  | resume t =>
    refine ⟨.resume t, hready, ?_⟩
    rw [perform, resumeCall_extend]
    exact congrArg (Option.map _) hperform
  | stir t =>
    cases hperform
    exact ⟨.stir t, hready, rfl⟩

/-- A run is a run with more calls behind the programs. -/
theorem run_extend (run : Run Step (start stop nodes) events s)
    (rest : Tid → List (Call Item)) :
    Run Step (start (fun t => stop t ++ rest t) nodes) events (extend s rest) := by
  induction run with
  | nil => exact .nil
  | snoc run hstep ih => exact .snoc ih (step_extend rest hstep)

/-- What a step does is what the ledger allows and books. -/
theorem represents_step (hrep : Represents s L) (hbound : L.pending.length < 2 ^ 64)
    (hstep : Step s e s') : L.Allows e ∧ Represents s' (L.record e) := by
  obtain ⟨action, hready, hperform⟩ := hstep
  obtain ⟨s'', e'', hperform', hallows, hrep'⟩ := hrep.perform hbound hready
  rw [hperform] at hperform'
  cases hperform'
  exact ⟨hallows, hrep'⟩

/-- Nobody has an item or a wake-up to come, every thread that can begin a
call would begin a `dequeue`, and one thread has not finished. -/
def Starved (late : Tid) (s : State Item Tid Addr) : Prop :=
  (∃ L, Represents s L ∧ L.pending = [] ∧ L.woken = []) ∧
    (∀ t, s.inDequeue t = true ∨ ∀ c ∈ (s.program t).head?, dequeues c = true) ∧
      (s.inDequeue late = true ∨ s.program late ≠ [])

/-- Starved threads go to sleep one after the other. -/
theorem starved_step {late : Tid} (h : Starved late s) (hstep : Step s e s')
    (hprogress : progress e = true) : Starved late s' := by
  obtain ⟨⟨L, hrep, hpending, hwoken⟩, hheads, hlate⟩ := h
  have hmoves := moves_of_step hstep
  obtain ⟨hallows, hrep'⟩ :=
    represents_step hrep (by rw [hpending]; exact Nat.two_pow_pos 64) hstep
  have hnext : ∀ c, callOf e = some c → wasInside e = false → dequeues c = true := by
    intro c hc hwas
    have hprogram := hmoves.program
    rw [hc, Option.toList_some] at hprogram
    rcases hheads (threadOf e) with hin | hhead
    · rw [hmoves.was, hwas] at hin
      cases hin
    · exact hhead c (by rw [hprogram]; rfl)
  cases e with
  | slept t began =>
    refine ⟨⟨_, hrep', hpending, hwoken⟩, fun u => ?_, ?_⟩
    · by_cases hu : u = t
      · subst hu
        exact .inl hmoves.stays
      · rw [(hmoves.others u hu).1, (hmoves.others u hu).2]
        exact hheads u
    · by_cases hu : late = t
      · subst hu
        exact .inl hmoves.stays
      · rw [(hmoves.others late hu).1, (hmoves.others late hu).2]
        exact hlate
  | enqueued t item n woke =>
    have hdequeues := hnext _ rfl rfl
    cases hdequeues
  | sleptOver t began =>
    rw [Ledger.Allows, hwoken] at hallows
    cases hallows.2
  | dequeued t began waited item n =>
    rw [Ledger.Allows, hpending] at hallows
    cases hallows.1
  | tried t began result =>
    have hdequeues := hnext _ rfl rfl
    cases hdequeues
  | stirred t => cases hprogress
  | sleptAgain t => cases hprogress

/-- Programs that can stop have a run that comes to rest unfinished. -/
theorem stuck_of_stops [Fintype Tid] [Infinite Addr] (hstops : Stops program stop)
    (htries : ∀ t, ∀ c ∈ program t, tries c = false)
    (hfew : ∑ t, (program t).countP enqueues < 2 ^ 64) (nodes : Tid → WaitingThread Tid) :
    ∃ (events : List (Event Item Tid)) (s : State Item Tid Addr),
      Run Step (start program nodes) events s ∧ (∀ t, ¬CanMove s t) ∧ ¬Finished s := by
  choose rest hprogram hrest using hstops.next
  obtain rfl : program = fun t => stop t ++ rest t := funext hprogram
  obtain ⟨late, hlate⟩ := hstops.unfinished
  have hfewer : ∑ t, (stop t).countP enqueues < 2 ^ 64 := by
    refine lt_of_le_of_lt (Finset.sum_le_sum fun t _ => ?_) hfew
    rw [List.countP_append]
    exact Nat.le_add_right _ _
  have hstart : Run Step (start stop nodes : State Item Tid Addr) [] (start stop nodes) := .nil
  obtain ⟨events, s, run, -, hstill⟩ :=
    comes_to_rest hstart hfewer (fun _ => True) trivial fun _ _ _ _ _ _ _ _ => trivial
  obtain ⟨hrun, hrep, -⟩ := represents_of_programs run hfewer
  have hwoken := woken_of_still hrep hstill
  have hempty : (ledger ([] ++ events)).pending = [] := by
    by_cases hfinished : Finished s
    · have hbegun : ∀ t, begun t ([] ++ events) = stop t := by
        intro t
        rw [run_program run t, (hfinished t).1, List.append_nil]
      have hdequeues : ∀ t, (stop t).countP dequeues =
          (own t ([] ++ events)).countP endsDequeue := by
        intro t
        have hcount := (run_inside run t).1
        rw [(hfinished t).2, if_neg Bool.false_ne_true, hbegun] at hcount
        exact hcount
      have henqueues : ∀ t, (stop t).countP enqueues = (own t ([] ++ events)).countP isEnqueue := by
        intro t
        rw [← countP_enqueues, hbegun]
      have hbalanced := hstops.balanced
      rw [Finset.sum_congr rfl fun t _ => hdequeues t,
        Finset.sum_congr rfl fun t _ => henqueues t, sum_own, sum_own] at hbalanced
      have hnone : ∀ t, ∀ c ∈ stop t, tries c = false :=
        fun t c hc => htries t c (List.mem_append_left _ hc)
      obtain ⟨-, hall, -⟩ := run_handovers hrun hwoken (no_tries run hnone)
      exact List.eq_nil_of_length_eq_zero (by omega)
    · exact still_pending hrun hrep hstill hfinished
  have hstarved : Starved late (extend s rest) := by
    refine ⟨⟨_, ⟨hrep.items, hrep.visited_eq, hrep.calls, hrep.inserted_eq, hrep.clock_eq⟩,
      hempty, hwoken⟩, fun t => ?_, .inr fun hnil => ?_⟩
    · cases hin : s.inDequeue t with
      | true => exact .inl hin
      | false =>
        have hdone : s.program t = [] := by
          by_contra hprogram
          exact hstill t (.inl ⟨hin, hprogram⟩)
        refine .inr fun c hc => hrest t c ?_
        change c ∈ (s.program t ++ rest t).head? at hc
        rwa [hdone, List.nil_append] at hc
    · have hnone : rest late = [] := (List.append_eq_nil_iff.mp hnil).2
      exact hlate (by rw [hnone, List.append_nil])
  obtain ⟨more, final, run', ⟨-, -, hlate'⟩, hstill'⟩ :=
    comes_to_rest (run_extend run rest) hfew (Starved late) hstarved
      fun _ _ _ _ _ h hstep hprogress => starved_step h hstep hprogress
  refine ⟨_, final, run', hstill', fun hfinished => ?_⟩
  obtain ⟨hprogram, hout⟩ := hfinished late
  rcases hlate' with hin | hne
  · rw [hout] at hin
    cases hin
  · exact hne hprogram

/-- Programs without `tryDequeue` finish in every interleaving that runs until
no thread can move, if and only if they cannot stop: whether threads can
block each other for good is a matter of counting calls. -/
theorem finishes_iff [Fintype Tid] [Infinite Addr]
    (htries : ∀ t, ∀ c ∈ program t, tries c = false)
    (hfew : ∑ t, (program t).countP enqueues < 2 ^ 64) (nodes : Tid → WaitingThread Tid) :
    (∀ (events : List (Event Item Tid)) (s : State Item Tid Addr),
        Run Step (start program nodes) events s → (∀ t, ¬CanMove s t) → Finished s) ↔
      ¬∃ stop, Stops program stop := by
  constructor
  · rintro hall ⟨stop, hstops⟩
    have hstuck : ∃ (events : List (Event Item Tid)) (s : State Item Tid Addr),
        Run Step (start program nodes) events s ∧ (∀ t, ¬CanMove s t) ∧ ¬Finished s :=
      stuck_of_stops hstops htries hfew nodes
    obtain ⟨events, s, run, hstill, hunfinished⟩ := hstuck
    exact hunfinished (hall events s run hstill)
  · intro hnone events s run hstill
    by_contra hunfinished
    exact hnone ⟨_, stops_of_still run htries hfew hstill hunfinished⟩

/-- In front of each `dequeue` of a program there are more `enqueue` calls than
`dequeue` calls. -/
def SelfSupplied (calls : List (Call Item)) : Prop :=
  ∀ before after, calls = before ++ .dequeue :: after →
    before.countP dequeues < before.countP enqueues

omit [DecidableEq Tid] [DecidableEq Addr] in
/-- A thread that supplies itself has taken no more items than it has put. -/
theorem selfSupplied_le {calls before after : List (Call Item)} (h : SelfSupplied calls)
    (hcalls : calls = before ++ after) : before.countP dequeues ≤ before.countP enqueues := by
  induction before using List.reverseRecOn generalizing after with
  | nil => exact le_refl _
  | append_singleton before c ih =>
    have hsplit : calls = before ++ (c :: after) := by
      rw [hcalls, List.append_assoc]
      rfl
    have hle := ih hsplit
    rw [List.countP_append, List.countP_append]
    cases c with
    | enqueue item => exact Nat.le_succ_of_le hle
    | dequeue => exact h before after hsplit
    | tryDequeue => exact hle

omit [DecidableEq Tid] [DecidableEq Addr] in
/-- Where a call to come is a `dequeue`, what follows starts with it. -/
theorem rest_cases {rest : List (Call Item)} (h : ∀ c ∈ rest.head?, dequeues c = true) :
    rest = [] ∨ ∃ after, rest = .dequeue :: after := by
  cases rest with
  | nil => exact .inl rfl
  | cons c after =>
    have hc := h c rfl
    cases c with
    | dequeue => exact .inr ⟨after, rfl⟩
    | enqueue item => cases hc
    | tryDequeue => cases hc

/-- The roles that the threads of a program can have: some enqueue only, some
dequeue only, and all others supply themselves; and the first enqueue as
many items as the second dequeue. -/
structure Roles [Fintype Tid] (program : Tid → List (Call Item)) (producers consumers : Finset Tid) :
    Prop where
  produce : ∀ t ∈ producers, (program t).countP dequeues = 0
  consume : ∀ t ∈ consumers, (program t).countP enqueues = 0
  supply : ∀ t, t ∉ producers → t ∉ consumers → SelfSupplied (program t)
  enough : ∑ t ∈ consumers, (program t).countP dequeues ≤
    ∑ t ∈ producers, (program t).countP enqueues

omit [DecidableEq Addr] in
/-- Threads in such roles cannot stop. -/
theorem roles_stops [Fintype Tid] {producers consumers : Finset Tid}
    (h : Roles program producers consumers) : ¬Stops program stop := by
  rintro ⟨hnext, ⟨late, hlate⟩, hbalanced⟩
  classical
  have hthread : ∀ t, (stop t).countP dequeues +
      ((if t ∈ producers then (program t).countP enqueues else 0) +
        (if stop t = program t then 0 else 1)) ≤
      (stop t).countP enqueues + (if t ∈ consumers then (program t).countP dequeues else 0) := by
    intro t
    obtain ⟨rest, hprogram, hrest⟩ := hnext t
    have hproduce := h.produce t
    have hconsume := h.consume t
    rcases rest_cases hrest with rfl | ⟨after, rfl⟩
    · rw [List.append_nil] at hprogram
      rw [if_pos hprogram.symm, ← hprogram]
      by_cases hp : t ∈ producers
      · have hnone := hproduce hp
        rw [if_pos hp]
        omega
      · by_cases hc : t ∈ consumers
        · rw [if_neg hp, if_pos hc]
          omega
        · have hle := selfSupplied_le (h.supply t hp hc) (List.append_nil _).symm
          rw [if_neg hp, if_neg hc]
          omega
    · have hcount : (program t).countP dequeues =
          (stop t).countP dequeues + (1 + after.countP dequeues) := by
        rw [hprogram, List.countP_append, List.countP_cons_of_pos rfl]
        omega
      have hne : stop t ≠ program t := fun heq => by
        rw [← heq] at hcount
        omega
      rw [if_neg hne]
      by_cases hp : t ∈ producers
      · have hnone := hproduce hp
        omega
      · by_cases hc : t ∈ consumers
        · rw [if_neg hp, if_pos hc]
          omega
        · have hlt := h.supply t hp hc _ _ hprogram
          rw [if_neg hp, if_neg hc]
          omega
  have hsum := Finset.sum_le_sum fun t (_ : t ∈ Finset.univ) => hthread t
  rw [Finset.sum_add_distrib, Finset.sum_add_distrib, Finset.sum_add_distrib, hbalanced,
    Finset.sum_ite_mem, Finset.sum_ite_mem, Finset.univ_inter, Finset.univ_inter] at hsum
  have hpos : 1 ≤ ∑ t, if stop t = program t then 0 else 1 := by
    refine le_trans ?_ (Finset.single_le_sum (fun t _ => Nat.zero_le _) (Finset.mem_univ late))
    rw [if_neg hlate]
  have henough := h.enough
  omega

end Stuck

/-- The hand-over takes three steps, and its programs have room for three. -/
theorem steps_bounded_handover : ∃ s : State ℕ (Fin 2) ℕ,
    Run Step (start handoverProgram fun _ => ⟨none, false⟩) handover s ∧
      handover.countP progress + workLeft s (ledger handover) ≤ 3 := by
  obtain ⟨s, run, -⟩ := handover_run
  exact ⟨s, run, steps_bounded run (by decide)⟩

/-- One thread of the hand-over produces and the other consumes. -/
theorem handover_roles : Roles handoverProgram {1} {0} where
  produce := by decide
  consume := by decide
  supply := by
    have hnone : ∀ t : Fin 2, t ∈ ({1} : Finset (Fin 2)) ∨ t ∈ ({0} : Finset (Fin 2)) := by decide
    intro t hproduce hconsume
    rcases hnone t with h | h
    · exact absurd h hproduce
    · exact absurd h hconsume
  enough := by decide

/-- The criterion on the hand-over, which cannot stop. -/
theorem finishes_iff_handover :
    ((∀ (events : List (Event ℕ (Fin 2))) (s : State ℕ (Fin 2) ℕ),
        Run Step (start handoverProgram fun _ => ⟨none, false⟩) events s →
          (∀ t, ¬CanMove s t) → Finished s) ↔ ¬∃ stop, Stops handoverProgram stop) ∧
      ¬∃ stop, Stops handoverProgram stop := by
  refine ⟨finishes_iff (by decide) (by decide) _, ?_⟩
  rintro ⟨stop, hstops⟩
  exact roles_stops handover_roles hstops

end OSCourse.QueueProgress
