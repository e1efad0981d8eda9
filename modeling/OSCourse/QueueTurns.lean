import OSCourse.QueueOrder
import OSCourse.QueuePrograms
import OSCourse.QueueWaiting

/-!
# How long a call waits

Who is woken next is settled by the waiting list alone: the enqueues that
follow wake its threads one after the other. A woken call may still find
nothing, but only if another thread has taken the item that it was woken for,
so a call that sleeps again and again was overtaken as often.
-/

namespace OSCourse.QueueTurns

open Runs HeapSegments QueueState QueueLists QueueLedger QueueRuns QueueOrder QueuePrograms
  QueueWaiting

variable {Item Tid : Type}

/-- The call that an event registers. -/
def registration : Event Item Tid → Option (Tid × ℕ)
  | .slept t began => some (t, began)
  | .sleptOver t began => some (t, began)
  | _ => none

/-- The call that an enqueue wakes. -/
def wakes : Event Item Tid → Option (Tid × ℕ)
  | .enqueued _ _ _ woke => woke
  | _ => none

/-- A woken call of a thread finds no item and registers again. -/
def sleepsOver [DecidableEq Tid] (t : Tid) (began : ℕ) : Event Item Tid → Bool
  | .sleptOver u n => decide (u = t ∧ n = began)
  | _ => false

/-- Another thread takes an item. -/
def takenByOther [DecidableEq Tid] (t : Tid) (e : Event Item Tid) : Bool :=
  (removed e).isSome && decide (threadOf e ≠ t)

section Lists

variable [DecidableEq Tid] {L L' : Ledger Item Tid} {more : List (Event Item Tid)}

/-- Enqueues take from the front of the waiting list, and registrations go to
its end. -/
theorem waiters_after (run : Run LedgerStep L more L')
    (hfew : more.countP isEnqueue ≤ L.waiters.length) :
    L'.waiters = L.waiters.drop (more.countP isEnqueue) ++ more.filterMap registration := by
  induction run with
  | nil => simp
  | @snoc more middle e L' _ hstep ih =>
    obtain ⟨-, rfl⟩ := hstep
    rw [List.countP_append, List.countP_singleton] at hfew ⊢
    have hmiddle := ih (by omega)
    rw [List.filterMap_append]
    cases e with
    | enqueued t item serial woke =>
      have hone : (if isEnqueue (.enqueued t item serial woke : Event Item Tid) = true then 1 else 0)
          = 1 := if_pos rfl
      rw [hone] at hfew ⊢
      have hlt : more.countP isEnqueue < L.waiters.length := by omega
      rw [List.drop_eq_getElem_cons hlt] at hmiddle
      change middle.waiters.tail = _
      rw [hmiddle, List.cons_append, List.tail_cons]
      exact congrArg _ (List.append_nil _).symm
    | slept t began => simp [Ledger.record, hmiddle, registration, isEnqueue]
    | sleptOver t began => simp [Ledger.record, hmiddle, registration, isEnqueue]
    | dequeued t began waited item serial =>
      simp [Ledger.record, hmiddle, registration, isEnqueue]
    | tried t began result =>
      cases result <;> simp [Ledger.record, hmiddle, registration, isEnqueue]
    | stirred t => simp [Ledger.record, hmiddle, registration, isEnqueue]
    | sleptAgain t => simp [Ledger.record, hmiddle, registration, isEnqueue]

/-- The enqueues wake the calls of the waiting list in its order. -/
theorem wakes_after (run : Run LedgerStep L more L') {i : ℕ} (hi : i < L.waiters.length)
    {e : Event Item Tid} (he : (more.filter isEnqueue)[i]? = some e) : wakes e = L.waiters[i]? := by
  induction run with
  | nil => simp at he
  | @snoc more middle last L' run hstep ih =>
    obtain ⟨hallows, rfl⟩ := hstep
    rw [List.filter_append] at he
    by_cases hearlier : i < (more.filter isEnqueue).length
    · rw [List.getElem?_append_left hearlier] at he
      exact ih he
    · cases hlast : isEnqueue last with
      | false =>
        rw [List.filter_cons_of_neg (by simp [hlast]), List.filter_nil, List.append_nil] at he
        exact ih he
      | true =>
        rw [List.filter_cons_of_pos hlast, List.filter_nil] at he
        have hbound := (List.getElem?_eq_some_iff.mp he).1
        rw [List.length_append, List.length_singleton] at hbound
        have hcount : (more.filter isEnqueue).length = i := by omega
        rw [← hcount, List.getElem?_concat_length] at he
        obtain rfl : last = e := Option.some.inj he
        rw [← List.countP_eq_length_filter] at hcount
        have hwaiters := waiters_after run (by omega)
        rw [hcount, List.drop_eq_getElem_cons hi] at hwaiters
        cases last with
        | enqueued t item serial woke =>
          have hwoke : woke = middle.waiters.head? := hallows.2
          rw [wakes, hwoke, hwaiters, List.getElem?_eq_getElem hi]
          rfl
        | _ => cases hlast

/-- Whom an event wakes is woken behind it. -/
theorem mem_woken {e : Event Item Tid} {t : Tid} {began : ℕ} (hallows : L.Allows e)
    (h : wakes e = some (t, began)) : (t, began) ∈ (L.record e).woken := by
  cases e with
  | enqueued u item serial woke =>
    obtain rfl : woke = some (t, began) := h
    simp [Ledger.record, ← hallows.2]
  | _ => cases h

end Lists

section Turns

variable [DecidableEq Tid] {program : Tid → List (Call Item)} {nodes : Tid → WaitingThread Tid}
  {events more : List (Event Item Tid)} {s s' : State Item Tid HeapAddress} {t : Tid} {began : ℕ}
  {e : Event Item Tid} {L : Ledger Item Tid}

/-- A run with 64-bit addresses books a run of the ledger. -/
theorem books (run : Run Step (start program nodes) events s) :
    Run LedgerStep Ledger.empty events (ledger events) ∧ Represents s (ledger events) :=
  queue_simulates run fun before middle _ _ _ hrep => by
    obtain ⟨cells, hitems⟩ := hrep.items
    rw [← hitems.length_eq]
    exact length_lt_of_nodup hitems.chain.nodup

/-- Whoever waits is woken in turn: in every reachable state the next enqueues,
as many as there are threads in the waiting list and whatever happens between
them, wake these threads one after the other, each in the `dequeue` call in
which it waits; a thread with so many in front of it waits until then, and the
enqueue whose turn it is clears its flag and ends its sleep. -/
theorem wakes_in_turn (run : Run Step (start program nodes) events s) (next : Run Step s more s') :
    ∃ waiters, Chain (nodeLink s.mem) s.mem.queue.waitingHead waiters ∧
      ∀ i t, waiters[i]? = some t →
        (∀ e, (more.filter isEnqueue)[i]? = some e → wakes e = some (t, s.started t)) ∧
          (more.countP isEnqueue ≤ i →
            s'.inDequeue t = true ∧ (s'.mem.nodes t).isWaiting = true) ∧
          ∀ e s'', more.countP isEnqueue = i → isEnqueue e = true → Step s' e s'' →
            s''.inDequeue t = true ∧ s''.started t = s.started t ∧
              (s''.mem.nodes t).isWaiting = false ∧ s''.mem.asleep t = false := by
  obtain ⟨-, hrep⟩ := books run
  obtain ⟨hbooked, hrep'⟩ := books (run.trans next)
  obtain ⟨middle, hfirst, hrest⟩ := hbooked.split
  rw [run_ledger hfirst] at hrest
  refine ⟨(ledger events).waiters.map Prod.fst, hrep.calls.list.chain, fun i t ht => ?_⟩
  rw [List.getElem?_map, Option.map_eq_some_iff] at ht
  obtain ⟨⟨u, began⟩, hcall, rfl⟩ := ht
  have hi := (List.getElem?_eq_some_iff.mp hcall).1
  have hmem := List.mem_of_getElem? hcall
  obtain ⟨-, -, hstarted⟩ := (hrep.calls.waiting_iff u began).mp hmem
  refine ⟨fun e he => ?_, fun hfew => ?_, fun e s'' hturn henqueue hstep => ?_⟩
  · rw [wakes_after hrest hi he, hcall, hstarted]
  · have hwaiters := waiters_after hrest (by omega)
    have hleft : (u, began) ∈ (ledger (events ++ more)).waiters := by
      rw [hwaiters]
      refine List.mem_append_left _ (List.mem_of_getElem? (i := i - more.countP isEnqueue) ?_)
      rw [List.getElem?_drop, Nat.add_sub_cancel' hfew, hcall]
    obtain ⟨hin, hflag, -⟩ := (hrep'.calls.waiting_iff u began).mp hleft
    exact ⟨hin, hflag⟩
  · obtain ⟨hbooked', hrep''⟩ := books ((run.trans next).snoc hstep)
    obtain ⟨first, hfirst', hlast⟩ := hbooked'.last
    obtain rfl := run_ledger hfirst'
    have hnow : (more ++ [e]).filter isEnqueue = more.filter isEnqueue ++ [e] := by
      rw [List.filter_append, List.filter_cons_of_pos henqueue, List.filter_nil]
    have hwakes : wakes e = some (u, began) := by
      rw [wakes_after (hrest.snoc hlast) hi, hcall]
      rw [hnow, ← hturn, List.countP_eq_length_filter, List.getElem?_concat_length]
    have hwoken : (u, began) ∈ (ledger (events ++ more ++ [e])).woken := by
      rw [ledger_snoc]
      exact mem_woken hlast.1 hwakes
    obtain ⟨hin, hflag, hcalled⟩ := (hrep''.calls.woken_iff u began).mp hwoken
    exact ⟨hin, hcalled.trans hstarted.symm, hflag, hrep''.calls.awake u began hwoken⟩

/-- The begin of a call is no spurious wake-up, nor the return from one. -/
theorem event_of_begin {newItem : HeapAddress} (h : beginCall s t newItem = some (s', e)) :
    callOf e ≠ none := by
  unfold beginCall at h
  split at h
  · cases h
  · dsimp only at h
    split at h
    · obtain ⟨m, -, hresult⟩ := Option.map_eq_some_iff.mp h
      cases hresult
      simp [callOf]
    · obtain ⟨⟨found, m⟩, -, hresult⟩ := Option.map_eq_some_iff.mp h
      cases found with
      | none =>
        cases hresult
        simp [callOf]
      | some found =>
        cases hresult
        simp [callOf]
    · obtain ⟨⟨found, m⟩, -, hresult⟩ := Option.map_eq_some_iff.mp h
      cases hresult
      simp [callOf]

/-- A spurious wake-up is one of a thread that sleeps, and a thread that goes
back to wait is registered. -/
theorem waits_of_step (hstep : Step s e s') :
    (e = .stirred t → s.mem.asleep t = true) ∧
      (e = .sleptAgain t → (s.mem.nodes t).isWaiting = true) := by
  obtain ⟨action, hready, hperform⟩ := hstep
  cases action with
  | call u newItem =>
    have hcall := event_of_begin hperform
    refine ⟨fun he => ?_, fun he => ?_⟩
    · exact absurd (by rw [he]; rfl) hcall
    · exact absurd (by rw [he]; rfl) hcall
  | resume u =>
    simp only [perform, resumeCall] at hperform
    split at hperform
    · next hflag =>
      cases hperform
      refine ⟨by simp, fun he => ?_⟩
      cases he
      exact hflag
    · obtain ⟨⟨found, m⟩, -, hresult⟩ := Option.map_eq_some_iff.mp hperform
      cases found with
      | none =>
        cases hresult
        exact ⟨by simp, by simp⟩
      | some found =>
        cases hresult
        exact ⟨by simp, by simp⟩
  | stir u =>
    cases hperform
    refine ⟨fun he => ?_, by simp⟩
    cases he
    exact hready.2

/-- A woken call that stays woken has done nothing. -/
theorem rests (hrep : Represents s L) (hallows : L.Allows e) (hstep : Step s e s')
    (hwoken : (t, began) ∈ L.woken) (hstill : (t, began) ∈ (L.record e).woken) :
    threadOf e ≠ t := by
  intro ht
  obtain ⟨hin, hflag, hstarted⟩ := (hrep.calls.woken_iff t began).mp hwoken
  have hwas := (moves_of_step hstep).was
  rw [ht, hin] at hwas
  have hleft : ∀ n, (t, n) ∈ L.woken → (t, began) ∉ L.woken.erase (t, n) := by
    intro n hn
    obtain ⟨-, -, hsame⟩ := (hrep.calls.woken_iff t n).mp hn
    rw [← hsame, hstarted]
    exact fun hmem => ((hrep.calls.woken_nodup.mem_erase_iff).mp hmem).1 rfl
  cases e with
  | sleptOver u n =>
    obtain rfl : u = t := ht
    exact hleft n hallows.2 hstill
  | dequeued u n waited item serial =>
    obtain rfl : u = t := ht
    obtain rfl : true = waited := hwas
    exact hleft n hallows.2 hstill
  | stirred u =>
    obtain rfl : u = t := ht
    have hasleep := (waits_of_step (t := u) hstep).1 rfl
    rw [hrep.calls.awake u began hwoken] at hasleep
    cases hasleep
  | sleptAgain u =>
    obtain rfl : u = t := ht
    have hwaiting := (waits_of_step (t := u) hstep).2 rfl
    rw [hflag] at hwaiting
    cases hwaiting
  | _ => cases hwas

/-- A call was woken, and its thread has done nothing since. -/
def WokenSince (events : List (Event Item Tid)) (t : Tid) (began : ℕ) : Prop :=
  ∃ early late u item n, events = early ++ .enqueued u item n (some (t, began)) :: late ∧
    ∀ e ∈ late, threadOf e ≠ t

/-- Who is woken after an event was woken before, or by it. -/
theorem woken_record (hallows : L.Allows e) (hwoken : (t, began) ∈ (L.record e).woken) :
    (t, began) ∈ L.woken ∨ wakes e = some (t, began) := by
  cases e with
  | enqueued u item n woke =>
    rcases List.mem_append.mp hwoken with hold | hnew
    · exact .inl hold
    · rw [Option.mem_toList] at hnew
      exact .inr (hallows.2.trans hnew)
  | sleptOver u n => exact .inl (List.mem_of_mem_erase hwoken)
  | dequeued u n waited item serial =>
    cases waited with
    | false => exact .inl hwoken
    | true => exact .inl (List.mem_of_mem_erase hwoken)
  | tried u n result => cases result <;> exact .inl hwoken
  | _ => exact .inl hwoken

/-- Every woken call. -/
theorem run_wokenSince (run : Run Step (start program nodes) events s) (t : Tid) (began : ℕ)
    (hwoken : (t, began) ∈ (ledger events).woken) : WokenSince events t began := by
  induction run with
  | nil => cases hwoken
  | @snoc events s e s' run hstep ih =>
    obtain ⟨hbooked, -⟩ := books (run.snoc hstep)
    obtain ⟨middle, hfirst, hallows, -⟩ := hbooked.last
    rw [run_ledger hfirst] at hallows
    rw [ledger_snoc] at hwoken
    obtain ⟨-, hrep⟩ := books run
    by_cases hnew : wakes e = some (t, began)
    · cases e with
      | enqueued u item n woke =>
        obtain rfl : woke = some (t, began) := hnew
        exact ⟨events, [], u, item, n, rfl, fun e he => by cases he⟩
      | _ => cases hnew
    · have hold := (woken_record hallows hwoken).resolve_right hnew
      obtain ⟨early, late, u, item, n, rfl, hlate⟩ := ih hold
      refine ⟨early, late ++ [e], u, item, n, by simp, fun e' he' => ?_⟩
      rcases List.mem_append.mp he' with he' | he'
      · exact hlate e' he'
      · rw [List.mem_singleton.mp he']
        exact rests hrep hallows hstep hold hwoken

/-- An item that is gone was taken after it came. -/
theorem taken_since {early late : List (Event Item Tid)} {u : Tid} {item : Item}
    {n : ℕ} {woke : Option (Tid × ℕ)}
    (run : Run LedgerStep Ledger.empty (early ++ .enqueued u item n woke :: late) L)
    (hempty : L.pending = []) : ∃ e ∈ late, removed e = some (item, n) := by
  obtain ⟨hreturned, hall⟩ := run_items run
  obtain ⟨middle, hfirst, -⟩ := run.split
  obtain ⟨hreturned', hall'⟩ := run_items hfirst
  have hserials := run_serials run
  rw [hall] at hserials
  have hnodup : (((early ++ .enqueued u item n woke :: late).filterMap inserted).map
      Prod.snd).Nodup := by
    rw [hserials]
    exact List.nodup_range
  rw [hempty, List.append_nil, hreturned] at hall
  have hinserted : (early ++ .enqueued u item n woke :: late).filterMap inserted =
      early.filterMap inserted ++ (item, n) :: late.filterMap inserted := by
    rw [List.filterMap_append]
    rfl
  have hremoved : (early ++ .enqueued u item n woke :: late).filterMap removed =
      early.filterMap removed ++ late.filterMap removed := by
    rw [List.filterMap_append]
    rfl
  have hmem : (item, n) ∈ early.filterMap removed ++ late.filterMap removed := by
    rw [← hremoved, hall, hinserted]
    exact List.mem_append_right _ List.mem_cons_self
  rcases List.mem_append.mp hmem with hearly | hlate
  · have hbefore : (item, n) ∈ early.filterMap inserted := by
      rw [← hall', hreturned']
      exact List.mem_append_left _ hearly
    rw [hinserted, List.map_append, List.map_cons, List.nodup_append] at hnodup
    exact absurd rfl (hnodup.2.2 n (List.mem_map.mpr ⟨_, hbefore, rfl⟩) n List.mem_cons_self)
  · exact List.mem_filterMap.mp hlate

/-- Calls began before now. -/
theorem run_past (run : Run LedgerStep Ledger.empty events L) :
    L.clock = events.length ∧ ∀ call, call ∈ L.waiters ∨ call ∈ L.woken → call.2 < L.clock := by
  induction run with
  | nil => exact ⟨rfl, by simp [Ledger.empty]⟩
  | @snoc events middle e L _ hstep ih =>
    obtain ⟨hallows, rfl⟩ := hstep
    obtain ⟨hclock, hpast⟩ := ih
    have hnext : (middle.record e).clock = middle.clock + 1 := by
      cases e with
      | tried u n result => cases result <;> rfl
      | _ => rfl
    refine ⟨by rw [hnext, hclock, List.length_append, List.length_singleton], fun call hcall => ?_⟩
    rw [hnext]
    have hold : (call ∈ middle.waiters ∨ call ∈ middle.woken) ∨ call.2 = middle.clock := by
      rcases hcall with hwaits | hwoken
      · cases e with
        | enqueued u item n woke => exact .inl (.inl (List.mem_of_mem_tail hwaits))
        | slept u n =>
          rcases List.mem_append.mp hwaits with hwaits | hnew
          · exact .inl (.inl hwaits)
          · rw [List.mem_singleton.mp hnew]
            exact .inr hallows.2.1
        | sleptOver u n =>
          rcases List.mem_append.mp hwaits with hwaits | hnew
          · exact .inl (.inl hwaits)
          · rw [List.mem_singleton.mp hnew]
            exact .inl (.inr hallows.2)
        | tried u n result => cases result <;> exact .inl (.inl hwaits)
        | _ => exact .inl (.inl hwaits)
      · rcases woken_record hallows hwoken with hwoken | hwakes
        · exact .inl (.inr hwoken)
        · cases e with
          | enqueued u item n woke =>
            exact .inl (.inl (List.mem_of_mem_head? (hallows.2.symm.trans hwakes)))
          | _ => cases hwakes
    rcases hold with hold | hnow
    · exact (hpast call hold).trans (Nat.lt_succ_self _)
    · rw [hnow]
      exact Nat.lt_succ_self _

/-- A call sleeps again at most as often as others took items since it began,
and it has one sleep less when it has been woken and all items are gone. -/
theorem run_overtaken (run : Run Step (start program nodes) events s) (t : Tid) (began : ℕ) :
    events.countP (sleepsOver t began) ≤ (events.drop (began + 1)).countP (takenByOther t) ∧
      ((t, began) ∈ (ledger events).woken → (ledger events).pending = [] →
        events.countP (sleepsOver t began) + 1 ≤
          (events.drop (began + 1)).countP (takenByOther t)) := by
  induction run with
  | nil => exact ⟨le_refl 0, fun hwoken => by cases hwoken⟩
  | @snoc events s e s' run hstep ih =>
    obtain ⟨hbooked, -⟩ := books (run.snoc hstep)
    obtain ⟨middle, hfirst, hallows, -⟩ := hbooked.last
    have hmiddle := run_ledger hfirst
    subst hmiddle
    obtain ⟨-, hrep⟩ := books run
    obtain ⟨hclock, hpast⟩ := run_past hfirst
    have hgrows : (events.drop (began + 1)).countP (takenByOther t) ≤
        ((events ++ [e]).drop (began + 1)).countP (takenByOther t) := by
      rw [List.drop_append, List.countP_append]
      exact Nat.le_add_right _ _
    rw [List.countP_append, List.countP_singleton, ledger_snoc]
    by_cases hover : sleepsOver t began e = true
    · cases e with
      | sleptOver u n =>
        obtain ⟨rfl, rfl⟩ := of_decide_eq_true hover
        have hless := ih.2 hallows.2 hallows.1
        rw [if_pos hover]
        refine ⟨by omega, fun hwoken => ?_⟩
        exact absurd rfl (hrep.calls.woken_nodup.mem_erase_iff.mp hwoken).1
      | _ => cases hover
    · rw [if_neg hover]
      refine ⟨by omega, fun hwoken hempty => ?_⟩
      obtain ⟨hreturned, hitems⟩ := record_items hallows
      rw [hempty, List.append_nil, hreturned, List.append_assoc, List.append_cancel_left_eq]
        at hitems
      cases hremoved : removed e with
      | none =>
        rw [hremoved, Option.toList_none, eq_comm, List.append_eq_nil_iff] at hitems
        have hold := (woken_record hallows hwoken).resolve_right fun hwakes => by
          cases e with
          | enqueued u item n woke => cases hitems.2
          | _ => cases hwakes
        have hless := ih.2 hold hitems.1
        omega
      | some found =>
        have hold := (woken_record hallows hwoken).resolve_right fun hwakes => by
          cases e with
          | enqueued u item n woke => cases hremoved
          | _ => cases hwakes
        have hother := rests hrep hallows hstep hold hwoken
        have hbegan := hpast _ (.inr hold)
        have htaken : takenByOther t e = true := by
          rw [takenByOther, hremoved]
          exact decide_eq_true hother
        have hone : ((events ++ [e]).drop (began + 1)).countP (takenByOther t) =
            (events.drop (began + 1)).countP (takenByOther t) + 1 := by
          rw [List.drop_append_of_le_length (by omega), List.countP_append, List.countP_singleton,
            if_pos htaken]
        have hfewer := ih.1
        omega

/-- A call that was woken sleeps again only because another thread has taken
the very item whose enqueue woke it, while its own thread did nothing; so it
sleeps at most once more than other threads took items since it began. -/
theorem sleeps_over (run : Run Step (start program nodes) events s) (t : Tid) (began : ℕ) :
    (∀ before after, events = before ++ .sleptOver t began :: after →
      ∃ early late u item n, before = early ++ .enqueued u item n (some (t, began)) :: late ∧
        (∀ e ∈ late, threadOf e ≠ t) ∧ ∃ e ∈ late, removed e = some (item, n)) ∧
      events.countP (sleepsOver t began) ≤ (events.drop (began + 1)).countP (takenByOther t) := by
  refine ⟨fun before after hevents => ?_, (run_overtaken run t began).1⟩
  subst hevents
  rw [List.append_cons] at run
  obtain ⟨middle, hbefore, -⟩ := run.split
  obtain ⟨state, hfirst, hstep⟩ := hbefore.last
  obtain ⟨hbooked, -⟩ := books hbefore
  obtain ⟨L, hledger, hallows, -⟩ := hbooked.last
  have hmiddle := run_ledger hledger
  subst hmiddle
  obtain ⟨early, late, u, item, n, rfl, hlate⟩ := run_wokenSince hfirst t began hallows.2
  exact ⟨early, late, u, item, n, rfl, hlate, taken_since hledger hallows.1⟩

end Turns

/-- Two threads wait, and the second enqueue wakes the second of them. -/
theorem wakes_in_turn_overtaking : ∃ s s' : State ℕ (Fin 3) HeapAddress,
    Run Step (start overtakingProgram fun _ => ⟨none, false⟩) [.slept 0 0, .slept 1 1] s ∧
      Run Step s [.enqueued 2 7 0 (some (0, 0)), .enqueued 2 8 1 (some (1, 1)),
        .dequeued 1 1 true 7 0, .dequeued 0 0 true 8 1] s' ∧
      ∃ waiters, Chain (nodeLink s.mem) s.mem.queue.waitingHead waiters ∧
        ∀ t, waiters[1]? = some t → (1, 1) = (t, s.started t) := by
  obtain ⟨s', run⟩ := overtaking_run
  have hsplit : overtaking = [.slept 0 0, .slept 1 1] ++ [.enqueued 2 7 0 (some (0, 0)),
      .enqueued 2 8 1 (some (1, 1)), .dequeued 1 1 true 7 0, .dequeued 0 0 true 8 1] := rfl
  rw [hsplit] at run
  obtain ⟨s, hfirst, hrest⟩ := run.split
  obtain ⟨waiters, hchain, hturn⟩ := wakes_in_turn hfirst hrest
  exact ⟨s, s', hfirst, hrest, waiters, hchain, fun t ht =>
    Option.some.inj ((hturn 1 t ht).1 (.enqueued 2 8 1 (some (1, 1))) rfl)⟩

/-- The item of a woken call is taken, and the call sleeps again. -/
theorem sleeps_over_overtaken : ∃ s : State ℕ (Fin 3) HeapAddress,
    Run Step (start overtakenProgram fun _ => ⟨none, false⟩) overtaken s ∧
      overtaken.countP (sleepsOver 0 0) ≤ (overtaken.drop 1).countP (takenByOther 0) := by
  have run : ∃ s : State ℕ (Fin 3) HeapAddress,
      Run Step (start overtakenProgram fun _ => ⟨none, false⟩) overtaken s := by
    refine ⟨_, .snoc (.snoc (.snoc (.snoc (.snoc .nil
      ⟨.call 0 ⟨16, by decide⟩, ⟨rfl, by decide, by simp [start, overtakenProgram]⟩, rfl⟩)
      ⟨.call 1 ⟨16, by decide⟩, ⟨rfl, by decide, by simp [start, overtakenProgram]⟩, rfl⟩)
      ⟨.call 2 ⟨16, by decide⟩, ⟨rfl, by decide, fun _ _ _ => rfl⟩, rfl⟩)
      ⟨.call 2 ⟨32, by decide⟩, ⟨rfl, by decide, fun _ _ _ => rfl⟩, rfl⟩)
      ⟨.resume 0, ⟨rfl, rfl⟩, rfl⟩⟩
  obtain ⟨s, run⟩ := run
  exact ⟨s, run, (sleeps_over run 0 0).2⟩

end OSCourse.QueueTurns
