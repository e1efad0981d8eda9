import Mathlib.Order.Interval.Finset.Nat
import OSCourse.QueueRuns

/-!
# Who gets which item

The waiting list is first-in first-out, but a woken thread receives its item
only when it takes the mutex, and until then any other call may remove it.
Sleeping calls are served in the order of their registration, each with the
item that woke it, exactly in those runs where every removal beside woken
calls is made by the call woken first. Addresses are 64-bit pointers here,
so the counter never wraps, whatever the number of calls.
-/

namespace OSCourse.QueueOrder

open Runs HeapSegments QueueState QueueLists QueueLedger QueueRuns

variable {Item Tid : Type}

/-- What `malloc` can return. -/
abbrev HeapAddress := {a : BitVec 64 // a ≠ 0}

/-- The begin of a call that waited, and the serial number of its item. -/
def served : Event Item Tid → Option (ℕ × ℕ)
  | .dequeued _ began true _ serial => some (began, serial)
  | _ => none

/-- The begin of a call that returned an item, and the item's serial number. -/
def takenBy : Event Item Tid → Option (ℕ × ℕ)
  | .dequeued _ began _ _ serial => some (began, serial)
  | .tried _ began (some (_, serial)) => some (began, serial)
  | _ => none

/-- A call that was served has taken its item. -/
theorem takenBy_of_served {e : Event Item Tid} {call : ℕ × ℕ} (h : served e = some call) :
    takenBy e = some call := by
  cases e with
  | dequeued t began waited item serial =>
    cases waited with
    | false => cases h
    | true => exact h
  | _ => cases h

/-- First-in first-out service of sleeping calls. -/
structure ServedInOrder (events : List (Event Item Tid)) : Prop where
  /-- The call that registered first returns the older item. -/
  fifo : ∀ A began B began' item n item' n', .slept A began ∈ events → .slept B began' ∈ events →
    began < began' → .dequeued A began true item n ∈ events →
    .dequeued B began' true item' n' ∈ events → n < n'
  /-- No call that began after a registration takes the item that wakes the
  registered call. -/
  kept : ∀ t item n A began, .enqueued t item n (some (A, began)) ∈ events →
    ∀ e ∈ events, ∀ began', takenBy e = some (began', n) → ¬began < began'

/-- An item is removed beside woken calls only by the one woken first. -/
def TakesTurn (L : Ledger Item Tid) : Event Item Tid → Prop
  | .dequeued t began _ _ _ => ∀ first ∈ L.woken.head?, first = (t, began)
  | .tried _ _ (some _) => L.woken = []
  | _ => True

/-- Each woken call faces the item that woke it: the next item to be removed
belongs to the first woken call, and an item removed before was taken by the
call it woke. -/
structure Faces (events : List (Event Item Tid)) (woken : List (Tid × ℕ)) (gone : ℕ) : Prop where
  taken : ∀ e ∈ events, ∀ began n, takenBy e = some (began, n) → n < gone
  own : ∀ t item n A began, .enqueued t item n (some (A, began)) ∈ events →
    (n < gone ∧ ∀ e ∈ events, ∀ began', takenBy e = some (began', n) → began' = began) ∨
      (gone ≤ n ∧ woken[n - gone]? = some (A, began))
  woke : ∀ i A began, woken[i]? = some (A, began) →
    ∃ t item, .enqueued t item (gone + i) (some (A, began)) ∈ events

section FacesFacts

variable {events : List (Event Item Tid)} {woken : List (Tid × ℕ)} {gone : ℕ}
  {e : Event Item Tid}

/-- An item removed earlier keeps its only taker when another one is taken. -/
theorem keep_taker
    (htake : ∀ began n, takenBy e = some (began, n) → gone ≤ n) {n began : ℕ} (hn : n < gone)
    (hown : ∀ e ∈ events, ∀ began', takenBy e = some (began', n) → began' = began) :
    ∀ e' ∈ events ++ [e], ∀ began', takenBy e' = some (began', n) → began' = began := by
  intro e' he' began' htaken
  rcases List.mem_append.mp he' with hold | hnew
  · exact hown e' hold began' htaken
  · rw [List.mem_singleton.mp hnew] at htaken
    have hle := htake began' n htaken
    omega

/-- Events that neither take an item nor wake a call. -/
theorem Faces.idle (h : Faces events woken gone) (htaken : takenBy e = none)
    (hwoke : ∀ t item n call, e ≠ .enqueued t item n (some call)) :
    Faces (events ++ [e]) woken gone where
  taken := by
    intro e' he' began n htake
    rcases List.mem_append.mp he' with hold | hnew
    · exact h.taken e' hold began n htake
    · rw [List.mem_singleton.mp hnew, htaken] at htake
      cases htake
  own := by
    intro t item n A began hmem
    rcases List.mem_append.mp hmem with hold | hnew
    · refine (h.own t item n A began hold).imp_left fun ⟨hlt, hown⟩ => ⟨hlt, ?_⟩
      exact keep_taker (by simp [htaken]) hlt hown
    · exact absurd (List.mem_singleton.mp hnew).symm (hwoke t item n _)
  woke := by
    intro i A began hi
    obtain ⟨t, item, hmem⟩ := h.woke i A began hi
    exact ⟨t, item, List.mem_append_left _ hmem⟩

/-- An enqueue that wakes a call while every pending item has a woken call. -/
theorem Faces.wake (h : Faces events woken gone) {t A : Tid} {item : Item} {began n : ℕ}
    (hn : n = gone + woken.length) :
    Faces (events ++ [.enqueued t item n (some (A, began))]) (woken ++ [(A, began)]) gone where
  taken := by
    intro e' he' b k htake
    rcases List.mem_append.mp he' with hold | hnew
    · exact h.taken e' hold b k htake
    · rw [List.mem_singleton.mp hnew] at htake
      cases htake
  own := by
    intro t' item' k B b hmem
    rcases List.mem_append.mp hmem with hold | hnew
    · rcases h.own t' item' k B b hold with ⟨hlt, hown⟩ | ⟨hle, hfaces⟩
      · exact .inl ⟨hlt, keep_taker (by simp [takenBy]) hlt hown⟩
      · refine .inr ⟨hle, ?_⟩
        rw [List.getElem?_append_left (List.getElem?_eq_some_iff.mp hfaces).1, hfaces]
    · obtain ⟨rfl, rfl, rfl, rfl, rfl⟩ : t' = t ∧ item' = item ∧ k = n ∧ B = A ∧ b = began := by
        simpa using hnew
      refine .inr ⟨by omega, ?_⟩
      rw [hn, Nat.add_sub_cancel_left, List.getElem?_concat_length]
  woke := by
    intro i B b hi
    by_cases hlt : i < woken.length
    · rw [List.getElem?_append_left hlt] at hi
      obtain ⟨t', item', hmem⟩ := h.woke i B b hi
      exact ⟨t', item', List.mem_append_left _ hmem⟩
    · obtain ⟨hbound, hget⟩ := List.getElem?_eq_some_iff.mp hi
      rw [List.length_append, List.length_singleton] at hbound
      obtain rfl : i = woken.length := by omega
      rw [List.getElem_concat_length rfl] at hget
      cases hget
      exact ⟨t, item, List.mem_append_right _ (by rw [hn]; exact List.mem_singleton_self _)⟩

/-- A removal in turn: by the first woken call, or with no woken call. -/
theorem Faces.take (h : Faces events woken gone) {began : ℕ}
    (htaken : takenBy e = some (began, gone)) (hturn : ∀ first ∈ woken.head?, first.2 = began)
    (hwoke : ∀ t item n call, e ≠ .enqueued t item n call) :
    Faces (events ++ [e]) woken.tail (gone + 1) where
  taken := by
    intro e' he' b k htake
    rcases List.mem_append.mp he' with hold | hnew
    · exact Nat.lt_succ_of_lt (h.taken e' hold b k htake)
    · rw [List.mem_singleton.mp hnew, htaken] at htake
      cases htake
      exact Nat.lt_succ_self gone
  own := by
    intro t item n A b hmem
    rcases List.mem_append.mp hmem with hold | hnew
    · rcases h.own t item n A b hold with ⟨hlt, hown⟩ | ⟨hle, hfaces⟩
      · exact .inl ⟨Nat.lt_succ_of_lt hlt, keep_taker (by simp [htaken]) hlt hown⟩
      · rcases Nat.eq_or_lt_of_le hle with rfl | hlt
        · refine .inl ⟨Nat.lt_succ_self _, ?_⟩
          have hfirst : b = began := by
            rw [Nat.sub_self, ← List.head?_eq_getElem?] at hfaces
            exact hturn _ hfaces
          intro e' he' b' htake
          rcases List.mem_append.mp he' with hold' | hnew'
          · exact absurd (h.taken e' hold' b' _ htake) (Nat.lt_irrefl _)
          · rw [List.mem_singleton.mp hnew', htaken] at htake
            cases htake
            exact hfirst.symm
        · refine .inr ⟨hlt, ?_⟩
          rw [List.getElem?_tail, ← hfaces]
          congr 1
          omega
    · exact absurd (List.mem_singleton.mp hnew).symm (hwoke t item n _)
  woke := by
    intro i A b hi
    rw [List.getElem?_tail] at hi
    obtain ⟨t, item, hmem⟩ := h.woke (i + 1) A b hi
    refine ⟨t, item, List.mem_append_left _ ?_⟩
    rw [Nat.add_assoc, Nat.add_comm 1 i]
    exact hmem

end FacesFacts

/-- Calls in the order of their registration, the served ones first. -/
def callOrder (events : List (Event Item Tid)) (L : Ledger Item Tid) : List ℕ :=
  (events.filterMap served).map Prod.fst ++ (L.woken.map Prod.snd ++ L.waiters.map Prod.snd)

/-- What holds as long as every removal is in turn: calls are served in the
order of registration, and each woken call faces the item that woke it. -/
structure InTurn (events : List (Event Item Tid)) (L : Ledger Item Tid) : Prop where
  order : (callOrder events L).Pairwise (· < ·)
  past : ∀ b ∈ callOrder events L, b < L.clock
  ascending : ((events.filterMap served).map Prod.snd).Pairwise (· < ·)
  few : L.woken.length ≤ L.pending.length
  faces : Faces events L.woken L.returned.length

section InTurnFacts

variable {L : Ledger Item Tid} {events : List (Event Item Tid)} {e : Event Item Tid}

/-- Nothing has happened, nothing is out of turn. -/
theorem InTurn.empty : InTurn ([] : List (Event Item Tid)) Ledger.empty where
  order := List.Pairwise.nil
  past := by simp [callOrder, Ledger.empty]
  ascending := List.Pairwise.nil
  few := Nat.le_refl 0
  faces := ⟨by simp, by simp, by simp [Ledger.empty]⟩

/-- Events after which every call and every item is where it was. -/
theorem InTurn.same (h : InTurn events L) {L' : Ledger Item Tid} (hserved : served e = none)
    (hwaiting : L'.woken.map Prod.snd ++ L'.waiters.map Prod.snd =
      L.woken.map Prod.snd ++ L.waiters.map Prod.snd) (hclock : L.clock ≤ L'.clock)
    (hfew : L'.woken.length ≤ L'.pending.length)
    (hfaces : Faces (events ++ [e]) L'.woken L'.returned.length) : InTurn (events ++ [e]) L' := by
  have hsame : (events ++ [e]).filterMap served = events.filterMap served := by
    simp [hserved]
  have horder : callOrder (events ++ [e]) L' = callOrder events L := by
    rw [callOrder, hsame, hwaiting, callOrder]
  refine ⟨?_, ?_, ?_, hfew, hfaces⟩
  · rw [horder]
    exact h.order
  · rw [horder]
    exact fun b hb => Nat.lt_of_lt_of_le (h.past b hb) hclock
  · rw [hsame]
    exact h.ascending

/-- Served in turn, the sleeping calls are served in order. -/
theorem InTurn.servedInOrder (h : InTurn events L) : ServedInOrder events where
  fifo := by
    intro A began B began' item n item' n' _ _ hlt hA hB
    have hfirst : (began, n) ∈ events.filterMap served := List.mem_filterMap.mpr ⟨_, hA, rfl⟩
    have hsecond : (began', n') ∈ events.filterMap served := List.mem_filterMap.mpr ⟨_, hB, rfl⟩
    have hbegins := List.pairwise_map.mp (List.pairwise_append.mp h.order).1
    have hserials := List.pairwise_map.mp h.ascending
    obtain ⟨i, hi, hgeti⟩ := List.getElem_of_mem hfirst
    obtain ⟨j, hj, hgetj⟩ := List.getElem_of_mem hsecond
    rcases Nat.lt_trichotomy i j with hij | rfl | hji
    · have hstep := List.pairwise_iff_getElem.mp hserials i j hi hj hij
      rwa [hgeti, hgetj] at hstep
    · rw [hgeti] at hgetj
      cases hgetj
      exact absurd hlt (Nat.lt_irrefl _)
    · have hstep := List.pairwise_iff_getElem.mp hbegins j i hj hi hji
      rw [hgeti, hgetj] at hstep
      exact absurd hlt (Nat.lt_asymm hstep)
  kept := by
    intro t item n A began hmem e he began' htake
    rcases h.faces.own t item n A began hmem with ⟨_, hown⟩ | ⟨hle, _⟩
    · rw [hown e he began' htake]
      exact Nat.lt_irrefl began
    · have hlt := h.faces.taken e he began' n htake
      omega

/-- In a history still served in order, nobody younger than the first woken
call has taken the next item. -/
theorem InTurn.not_younger (h : InTurn events L) (horder : ServedInOrder (events ++ [e]))
    {A : Tid} {b began : ℕ} (hfirst : L.woken.head? = some (A, b))
    (htake : takenBy e = some (began, L.returned.length)) : ¬b < began := by
  rw [List.head?_eq_getElem?] at hfirst
  obtain ⟨t, item, hmem⟩ := h.faces.woke 0 A b hfirst
  exact horder.kept t item _ A b (List.mem_append_left _ hmem) e (by simp) began htake

/-- A part of a history served in order is served in order. -/
theorem ServedInOrder.of_snoc (h : ServedInOrder (events ++ [e])) : ServedInOrder events where
  fifo A began B began' item n item' n' hA hB hlt hA' hB' :=
    h.fifo A began B began' item n item' n' (List.mem_append_left _ hA)
      (List.mem_append_left _ hB) hlt (List.mem_append_left _ hA') (List.mem_append_left _ hB')
  kept t item n A began hmem e' he' :=
    h.kept t item n A began (List.mem_append_left _ hmem) e' (List.mem_append_left _ he')

/-- An event that leaves the history served in order is in turn. -/
theorem InTurn.takesTurn (h : InTurn events L) (hallows : L.Allows e)
    (hserial : ∀ item n, L.pending.head? = some (item, n) → n = L.returned.length)
    (horder : ServedInOrder (events ++ [e])) : TakesTurn L e := by
  have hpast : ∀ A b, L.woken.head? = some (A, b) → b < L.clock := fun A b hfirst =>
    h.past b (by
      simp only [callOrder, List.mem_append, List.mem_map]
      exact .inr (.inl ⟨(A, b), List.mem_of_head? hfirst, rfl⟩))
  cases e with
  | dequeued t began waited item n =>
    obtain ⟨hhead, hcall⟩ := hallows
    obtain rfl := hserial item n hhead
    rintro ⟨A, b⟩ hfirst
    have hyoung := h.not_younger horder hfirst rfl
    cases waited with
    | false =>
      obtain rfl : began = L.clock := by simpa using hcall
      exact absurd (hpast A b hfirst) hyoung
    | true =>
      have hmem : (t, began) ∈ L.woken := by simpa using hcall
      obtain ⟨others, hothers⟩ := List.head?_eq_some_iff.mp hfirst
      rw [hothers, List.mem_cons] at hmem
      rcases hmem with heq | hlater
      · exact heq.symm
      · have hcalls := (List.pairwise_append.mp (List.pairwise_append.mp h.order).2.1).1
        rw [hothers, List.map_cons, List.pairwise_cons] at hcalls
        exact absurd (hcalls.1 began (List.mem_map.mpr ⟨_, hlater, rfl⟩)) hyoung
  | tried t began result =>
    cases result with
    | none => trivial
    | some found =>
      obtain ⟨item, n⟩ := found
      obtain ⟨hhead, rfl⟩ := hallows
      obtain rfl := hserial item n hhead.symm
      refine List.head?_eq_none_iff.mp (Option.eq_none_iff_forall_not_mem.mpr ?_)
      rintro ⟨A, b⟩ hfirst
      exact h.not_younger horder hfirst rfl (hpast A b hfirst)
  | _ => trivial

end InTurnFacts

section Turns

variable [DecidableEq Tid]

/-- Every removal of a history is in turn. -/
def TakesTurns (events : List (Event Item Tid)) : Prop :=
  ∀ before e after, events = before ++ e :: after → TakesTurn (ledger before) e

variable {L : Ledger Item Tid} {events : List (Event Item Tid)} {e : Event Item Tid}

/-- The last event is in turn, and so are those before. -/
theorem takesTurns_snoc :
    TakesTurns (events ++ [e]) ↔ TakesTurns events ∧ TakesTurn (ledger events) e := by
  constructor
  · intro h
    refine ⟨fun before e' after heq => h before e' (after ++ [e]) ?_, h events e [] rfl⟩
    rw [heq, List.append_assoc, List.cons_append]
  · rintro ⟨hevents, hlast⟩ before e' after heq
    rcases List.eq_nil_or_concat after with rfl | ⟨front, last, rfl⟩
    · obtain ⟨rfl, hcons⟩ := List.append_inj' heq rfl
      obtain rfl : e = e' := by simpa using hcons
      exact hlast
    · rw [List.concat_eq_append, ← List.cons_append, ← List.append_assoc] at heq
      exact hevents before e' front (List.append_inj' heq rfl).1

/-- Serial numbers count the insertions. -/
theorem run_serials (run : Run LedgerStep Ledger.empty events L) :
    (L.returned ++ L.pending).map Prod.snd =
      List.range (L.returned.length + L.pending.length) := by
  induction run with
  | nil => rfl
  | @snoc labels middle label final _ hlast ih =>
    obtain ⟨hallows, rfl⟩ := hlast
    have hitems := (record_items hallows).2
    have hlengths := congrArg List.length hitems
    rw [List.length_append, List.length_append, List.length_append] at hlengths
    rw [hitems, List.map_append, ih, hlengths]
    cases label with
    | enqueued t item serial woke =>
      simp [inserted, List.range_succ, hallows.1]
    | _ => simp [inserted]

/-- The first pending item is the next one in number. -/
theorem serial_first (run : Run LedgerStep Ledger.empty events L) {item : Item} {n : ℕ}
    (hfirst : L.pending.head? = some (item, n)) : n = L.returned.length := by
  obtain ⟨rest, hrest⟩ := List.head?_eq_some_iff.mp hfirst
  have hserials := congrArg (fun l => l[L.returned.length]?) (run_serials run)
  rw [hrest] at hserials
  simpa using hserials

/-- A removal in turn. -/
theorem InTurn.dequeued (h : InTurn events L) {t : Tid} {began n : ℕ} {waited : Bool} {item : Item}
    (hallows : L.Allows (.dequeued t began waited item n)) (hn : n = L.returned.length)
    (hturn : TakesTurn L (.dequeued t began waited item n)) :
    InTurn (events ++ [.dequeued t began waited item n])
      (L.record (.dequeued t began waited item n)) := by
  obtain ⟨rest, hrest⟩ := List.head?_eq_some_iff.mp hallows.1
  have hfaces := h.faces.take (e := .dequeued t began waited item n) (by rw [hn]; rfl)
    (fun first hfirst => by rw [hturn first hfirst]) (by simp)
  cases hwoken : L.woken with
  | nil =>
    have hwaited : waited = false := by
      cases waited with
      | false => rfl
      | true => simpa [hwoken] using hallows.2
    subst hwaited
    refine h.same rfl rfl (Nat.le_succ _) ?_ ?_
    · simp [Ledger.record, hwoken]
    · simpa [Ledger.record, hwoken] using hfaces
  | cons first others =>
    obtain rfl : first = (t, began) := hturn first (by rw [hwoken]; rfl)
    have hwaited : waited = true := by
      cases waited with
      | true => rfl
      | false =>
        have hpast := h.past began (by simp [callOrder, hwoken])
        have hnow : began = L.clock := by simpa using hallows.2
        omega
    subst hwaited
    have horder : callOrder (events ++ [.dequeued t began true item n])
        (L.record (.dequeued t began true item n)) = callOrder events L := by
      simp [callOrder, Ledger.record, served, hwoken]
    refine ⟨horder ▸ h.order, fun b hb => ?_, ?_, ?_, ?_⟩
    · exact Nat.lt_succ_of_lt (h.past b (horder ▸ hb))
    · simp only [List.filterMap_append, List.map_append]
      refine List.pairwise_append.mpr ⟨h.ascending, List.pairwise_singleton _ _, ?_⟩
      intro k hk k' hk'
      obtain rfl : k' = n := by simpa [served] using hk'
      simp only [List.mem_map, List.mem_filterMap] at hk
      obtain ⟨⟨b, _⟩, ⟨e', he', hserved⟩, rfl⟩ := hk
      rw [hn]
      exact h.faces.taken e' he' b _ (takenBy_of_served hserved)
    · have hfew := h.few
      simp only [hwoken, hrest, List.length_cons] at hfew
      simpa [Ledger.record, hwoken, hrest] using hfew
    · simpa [Ledger.record, hwoken] using hfaces

/-- The step lemma: an event in turn keeps everything in turn. -/
theorem InTurn.step (h : InTurn events L) (hallows : L.Allows e)
    (hwaiters : L.waiters ≠ [] → L.pending.length ≤ L.woken.length)
    (hserial : ∀ item n, L.pending.head? = some (item, n) → n = L.returned.length)
    (hturn : TakesTurn L e) : InTurn (events ++ [e]) (L.record e) := by
  cases e with
  | enqueued t item n woke =>
    obtain ⟨hn, rfl⟩ := hallows
    have hfew := h.few
    cases hlist : L.waiters with
    | nil =>
      refine h.same rfl ?_ (Nat.le_succ _) ?_ ?_
      · simp [Ledger.record, hlist]
      · simp [Ledger.record, hlist]
        omega
      · simpa [Ledger.record, hlist] using h.faces.idle rfl (by simp)
    | cons first others =>
      have hle := hwaiters (by rw [hlist]; simp)
      refine h.same rfl ?_ (Nat.le_succ _) ?_ ?_
      · simp [Ledger.record, hlist]
      · simp [Ledger.record, hlist]
        omega
      · simpa [Ledger.record, hlist] using h.faces.wake (by omega)
  | slept t began =>
    obtain ⟨-, rfl, -⟩ := hallows
    have horder : callOrder (events ++ [.slept t L.clock]) (L.record (.slept t L.clock)) =
        callOrder events L ++ [L.clock] := by
      simp [callOrder, Ledger.record, served]
    have hserved : served (.slept t L.clock : Event Item Tid) = none := rfl
    refine ⟨?_, ?_, by simpa [hserved] using h.ascending, h.few, h.faces.idle rfl (by simp)⟩
    · rw [horder]
      refine List.pairwise_append.mpr ⟨h.order, List.pairwise_singleton _ _, ?_⟩
      intro b hb b' hb'
      rw [List.mem_singleton.mp hb']
      exact h.past b hb
    · intro b hb
      rw [horder] at hb
      rcases List.mem_append.mp hb with hold | hnew
      · exact Nat.lt_succ_of_lt (h.past b hold)
      · rw [List.mem_singleton.mp hnew]
        exact Nat.lt_succ_self _
  | sleptOver t began =>
    have hfew := h.few
    have hpos := List.length_pos_of_mem hallows.2
    rw [hallows.1, List.length_nil] at hfew
    omega
  | dequeued t began waited item n => exact h.dequeued hallows (hserial item n hallows.1) hturn
  | tried t began result =>
    cases result with
    | none =>
      exact h.same rfl rfl (Nat.le_succ _) h.few (h.faces.idle rfl (by simp))
    | some found =>
      obtain ⟨item, n⟩ := found
      have hwoken : L.woken = [] := hturn
      obtain rfl := hserial item n hallows.1.symm
      refine h.same rfl rfl (Nat.le_succ _) ?_ ?_
      · simp [Ledger.record, hwoken]
      · simpa [Ledger.record, hwoken] using
          h.faces.take (e := .tried t began (some (item, L.returned.length))) rfl
            (by simp [hwoken]) (by simp)
  | stirred t =>
    exact h.same rfl rfl (Nat.le_succ _) h.few (h.faces.idle rfl (by simp))
  | sleptAgain t =>
    exact h.same rfl rfl (Nat.le_succ _) h.few (h.faces.idle rfl (by simp))

/-- Histories in turn keep their calls in turn. -/
theorem run_inTurn (run : Run LedgerStep Ledger.empty events L) (hturns : TakesTurns events) :
    InTurn events L := by
  induction run with
  | nil => exact .empty
  | snoc run hlast ih =>
    obtain ⟨hallows, rfl⟩ := hlast
    obtain ⟨hbefore, hturn⟩ := takesTurns_snoc.mp hturns
    rw [← run_ledger run] at hturn
    exact (ih hbefore).step hallows (run_woken run) (fun item n => serial_first run) hturn

/-- Histories served in order were in turn all the time. -/
theorem run_takesTurns (run : Run LedgerStep Ledger.empty events L)
    (horder : ServedInOrder events) : TakesTurns events := by
  induction run with
  | nil =>
    intro before e after heq
    simp at heq
  | snoc run hlast ih =>
    obtain ⟨hallows, rfl⟩ := hlast
    have hbefore := ih horder.of_snoc
    refine takesTurns_snoc.mpr ⟨hbefore, ?_⟩
    rw [← run_ledger run]
    exact (run_inTurn run hbefore).takesTurn hallows (fun item n => serial_first run) horder

/-- Distinct 64-bit pointers other than null are fewer than `2 ^ 64`. -/
theorem length_lt_of_nodup {cells : List HeapAddress} (h : cells.Nodup) :
    cells.length < 2 ^ 64 := by
  have hnodup : (cells.map fun a => a.val.toNat).Nodup :=
    h.map fun a b hab => Subtype.ext (BitVec.eq_of_toNat_eq hab)
  have hsubset : (cells.map fun a => a.val.toNat).toFinset ⊆ Finset.Ico 1 (2 ^ 64) := by
    intro n hn
    obtain ⟨a, _, rfl⟩ := List.mem_map.mp (List.mem_toFinset.mp hn)
    have hpos : a.val.toNat ≠ 0 := fun hzero => a.2 (BitVec.eq_of_toNat_eq hzero)
    exact Finset.mem_Ico.mpr ⟨Nat.pos_of_ne_zero hpos, a.val.isLt⟩
  have hcard := Finset.card_le_card hsubset
  rw [List.toFinset_card_of_nodup hnodup, List.length_map, Nat.card_Ico] at hcard
  omega

variable {program : Tid → List (Call Item)} {nodes : Tid → WaitingThread Tid}
  {s : State Item Tid HeapAddress}

/-- Sleeping calls are served first-in first-out exactly in those runs where
no item is removed beside woken calls except by the one woken first. -/
theorem fifo_service_iff (run : Run Step (start program nodes) events s) :
    ServedInOrder events ↔ TakesTurns events := by
  obtain ⟨hrun, _⟩ := queue_simulates run fun before middle _ _ _ hrep => by
    obtain ⟨cells, hitems⟩ := hrep.items
    rw [← hitems.length_eq]
    exact length_lt_of_nodup hitems.chain.nodup
  exact ⟨run_takesTurns hrun, fun hturns => (run_inTurn hrun hturns).servedInOrder⟩

end Turns

/-- Two threads dequeue, a third enqueues two items. -/
def overtakingProgram (t : Fin 3) : List (Call ℕ) :=
  if t = 2 then [.enqueue 7, .enqueue 8] else [.dequeue]

/-- The thread that registered second takes the mutex first after both were
woken. -/
def overtaking : List (Event ℕ (Fin 3)) :=
  [] ++ [.slept 0 0] ++ [.slept 1 1] ++ [.enqueued 2 7 0 (some (0, 0))] ++
    [.enqueued 2 8 1 (some (1, 1))] ++ [.dequeued 1 1 true 7 0] ++ [.dequeued 0 0 true 8 1]

/-- The overtaking can happen. -/
theorem overtaking_run : ∃ s : State ℕ (Fin 3) HeapAddress,
    Run Step (start overtakingProgram fun _ => ⟨none, false⟩) overtaking s := by
  refine ⟨_, .snoc (.snoc (.snoc (.snoc (.snoc (.snoc .nil
    ⟨.call 0 ⟨16, by decide⟩, ⟨rfl, by decide, by simp [start, overtakingProgram]⟩, rfl⟩)
    ⟨.call 1 ⟨16, by decide⟩, ⟨rfl, by decide, by simp [start, overtakingProgram]⟩, rfl⟩)
    ⟨.call 2 ⟨16, by decide⟩, ⟨rfl, by decide, fun _ _ _ => rfl⟩, rfl⟩)
    ⟨.call 2 ⟨32, by decide⟩, ⟨rfl, by decide, fun _ _ _ => rfl⟩, rfl⟩)
    ⟨.resume 1, ⟨rfl, rfl⟩, rfl⟩)
    ⟨.resume 0, ⟨rfl, rfl⟩, rfl⟩⟩

/-- There the call that registered first gets the younger item. -/
theorem fifo_service_fails : ∃ s : State ℕ (Fin 3) HeapAddress,
    Run Step (start overtakingProgram fun _ => ⟨none, false⟩) overtaking s ∧
      ¬ServedInOrder overtaking := by
  obtain ⟨s, run⟩ := overtaking_run
  refine ⟨s, run, fun horder => ?_⟩
  have hlt := horder.fifo 0 0 1 1 8 1 7 0 (by simp [overtaking]) (by simp [overtaking])
    (by decide) (by simp [overtaking]) (by simp [overtaking])
  omega

/-- The criterion on the overtaking run. -/
theorem fifo_service_iff_overtaking : ∃ s : State ℕ (Fin 3) HeapAddress,
    Run Step (start overtakingProgram fun _ => ⟨none, false⟩) overtaking s ∧
      (ServedInOrder overtaking ↔ TakesTurns overtaking) := by
  obtain ⟨s, run⟩ := overtaking_run
  exact ⟨s, run, fifo_service_iff run⟩

end OSCourse.QueueOrder
