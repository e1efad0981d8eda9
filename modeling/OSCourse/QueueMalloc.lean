import OSCourse.HeapLog
import OSCourse.QueuePrograms

/-!
# The allocations of the queue

`enqueue` calls `malloc` before it takes the mutex, so other sections come
between the allocation of an item and its link. Until then only the thread
that allocated the item knows it. Every section is one of the shared queue,
and the calls of `malloc` and `free` are a log of the heap.
-/

namespace OSCourse.QueueMalloc

open Runs HeapLog QueueState QueueLedger QueuePrograms

variable {Item Tid Addr : Type}

/-- The shared queue, and the items that are allocated and not linked. -/
structure SplitState (Item Tid Addr : Type) where
  state : State Item Tid Addr
  /-- The `newItem` of a thread in `enqueue` that waits for the mutex. -/
  newItem : Tid → Option Addr

/-- A step of a thread: the `malloc` of an `enqueue`, or a section between taking and
releasing the mutex, with the item it passes to `free`. -/
inductive SplitLabel (Item Tid Addr : Type) where
  | malloc (t : Tid) (a : Addr)
  | locked (e : Event Item Tid) (freed : Option Addr)

/-- After `initQueue`, no thread has allocated anything. -/
def splitStart (program : Tid → List (Call Item)) (nodes : Tid → WaitingThread Tid) :
    SplitState Item Tid Addr := ⟨start program nodes, fun _ => none⟩

/-- What a section passes to `free`: the item at the head that it removes. -/
def freedBy (s : State Item Tid Addr) (e : Event Item Tid) : Option Addr :=
  if (removed e).isSome = true then s.mem.queue.head else none

/-- The sections of a history. -/
def sections (labels : List (SplitLabel Item Tid Addr)) : List (Event Item Tid) :=
  labels.filterMap fun label => match label with
    | .malloc _ _ => none
    | .locked e _ => some e

/-- The calls of `malloc` and `free` in a step. -/
def SplitLabel.log : SplitLabel Item Tid Addr → List (HeapLog.Action Addr)
  | .malloc _ a => [.alloc a]
  | .locked _ freed => freed.toList.map .free

/-- The calls of `malloc` and `free` in a history. -/
def heapLog (labels : List (SplitLabel Item Tid Addr)) : List (HeapLog.Action Addr) :=
  labels.flatMap SplitLabel.log

section Steps

variable [DecidableEq Tid] [DecidableEq Addr]

/-- One step of some thread, with `enqueue` in two steps. -/
inductive SplitStep (w : SplitState Item Tid Addr) :
    SplitLabel Item Tid Addr → SplitState Item Tid Addr → Prop
  /-- `malloc` succeeds with an address that is not in use. -/
  | malloc {t : Tid} {a : Addr} {item : Item} {rest : List (Call Item)}
      (hout : w.state.inDequeue t = false) (hnext : w.state.program t = .enqueue item :: rest)
      (hfirst : w.newItem t = none) (hdead : w.state.mem.items a = none)
      (hfresh : ∀ u, w.newItem u ≠ some a) :
      SplitStep w (.malloc t a) { w with newItem := Function.update w.newItem t (some a) }
  /-- The section of an `enqueue`. -/
  | link (t : Tid) (a : Addr) {item : Item} {rest : List (Call Item)} {e : Event Item Tid}
      {s' : State Item Tid Addr} (hnext : w.state.program t = .enqueue item :: rest)
      (hheld : w.newItem t = some a) (hperform : perform w.state (.call t a) = some (s', e)) :
      SplitStep w (.locked e none) ⟨s', Function.update w.newItem t none⟩
  /-- Any other section. -/
  | other (action : QueueState.Action Tid Addr) {e : Event Item Tid} {s' : State Item Tid Addr}
      (hready : Ready w.state action)
      (hother : ∀ t a item rest, action = .call t a → w.state.program t ≠ .enqueue item :: rest)
      (hperform : perform w.state action = some (s', e)) :
      SplitStep w (.locked e (freedBy w.state e)) ⟨s', w.newItem⟩

/-- An allocated item is one thread's, which is in `enqueue`, and it is not linked. -/
structure Held (w : SplitState Item Tid Addr) : Prop where
  apart : ∀ t a, w.newItem t = some a → w.state.mem.items a = none
  once : ∀ t u a, w.newItem t = some a → w.newItem u = some a → t = u
  calls : ∀ t a, w.newItem t = some a →
    w.state.inDequeue t = false ∧ ∃ item rest, w.state.program t = .enqueue item :: rest

/-- An address is that of a live block: a linked item or one that a thread holds. -/
def Live (w : SplitState Item Tid Addr) (a : Addr) : Prop :=
  (w.state.mem.items a).isSome = true ∨ ∃ t, w.newItem t = some a

variable {m m' : Memory Item Tid Addr} {s s' : State Item Tid Addr} {e : Event Item Tid}
  {t : Tid} {a b : Addr} {item : Item} {rest : List (Call Item)}
  {w w' : SplitState Item Tid Addr} {label : SplitLabel Item Tid Addr}
  {labels : List (SplitLabel Item Tid Addr)} {program : Tid → List (Call Item)}
  {nodes : Tid → WaitingThread Tid}

omit [DecidableEq Addr] in
theorem items_wakeFirst (m : Memory Item Tid Addr) : (wakeFirst m).items = m.items := by
  unfold wakeFirst
  split <;> rfl

omit [DecidableEq Addr] in
theorem items_register (m : Memory Item Tid Addr) (t : Tid) : (register m t).items = m.items := by
  unfold register
  dsimp only
  split <;> rfl

/-- An `enqueue` adds its own item to the live ones. -/
theorem items_enqueue (h : enqueue m a item = some m') (b : Addr) :
    (m'.items b).isSome = true ↔ b = a ∨ (m.items b).isSome = true := by
  obtain ⟨linked, hlink, rfl⟩ := Option.map_eq_some_iff.mp h
  rw [items_wakeFirst]
  unfold linkItem at hlink
  dsimp only at hlink
  split at hlink
  · cases hlink
    by_cases hb : b = a
    · simp [hb]
    · simp [hb]
  · next last htail =>
    split at hlink
    · cases hlink
    · next cell hcell =>
      cases hlink
      by_cases hlast : b = last
      · subst hlast
        by_cases hb : b = a
        · simp [hb]
        · rw [Function.update_of_ne hb] at hcell
          simp [hcell]
      · by_cases hb : b = a
        · subst hb
          simp [Function.update_of_ne hlast]
        · simp [Function.update_of_ne hlast, hb]

omit [DecidableEq Tid] in
/-- A removal frees the item at the head. -/
theorem items_removeFirst {r : Addr × Item × Memory Item Tid Addr} (h : removeFirst m = some r) :
    m.queue.head = some r.1 ∧ (m.items r.1).isSome = true ∧
      r.2.2.items = Function.update m.items r.1 none := by
  unfold removeFirst at h
  split at h
  · cases h
  · next hhead =>
    split at h
    · cases h
    · next hcell =>
      cases h
      exact ⟨hhead, Option.isSome_iff_exists.mpr ⟨_, hcell⟩, rfl⟩

/-- The items behind a section that frees this. -/
def Frees (m m' : Memory Item Tid Addr) (freed : Option Addr) : Prop :=
  match freed with
  | none => m'.items = m.items
  | some a => (m.items a).isSome = true ∧ m'.items = Function.update m.items a none

omit [DecidableEq Tid] in
/-- A section frees a linked item, and leaves the others. -/
theorem Frees.live_iff {freed : Option Addr} (h : Frees m m' freed) (b : Addr) :
    ((m'.items b).isSome = true ↔ (m.items b).isSome = true ∧ freed ≠ some b) ∧
      (freed = some b → (m.items b).isSome = true) := by
  cases freed with
  | none =>
    have hitems : m'.items = m.items := h
    rw [hitems]
    exact ⟨⟨fun hlive => ⟨hlive, nofun⟩, And.left⟩, nofun⟩
  | some a =>
    obtain ⟨hlive, hitems⟩ := h
    rw [hitems]
    by_cases hb : b = a
    · subst hb
      simp [hlive]
    · have hne : some a ≠ some b := fun heq => hb (Option.some.inj heq).symm
      simp [Function.update_of_ne hb, hne]

/-- The end of the loop of `dequeue` frees what it removes. -/
theorem frees_takeOrSleep {r : Option (Addr × Item) × Memory Item Tid Addr}
    (h : takeOrSleep m t = some r) :
    Frees m r.2 (if r.1.isSome = true then m.queue.head else none) := by
  unfold takeOrSleep at h
  split at h
  · cases h
    exact items_register m t
  · obtain ⟨found, hfound, rfl⟩ := Option.map_eq_some_iff.mp h
    obtain ⟨hhead, hlive, hitems⟩ := items_removeFirst hfound
    change Frees m found.2.2 m.queue.head
    rw [hhead]
    exact ⟨hlive, hitems⟩

omit [DecidableEq Tid] in
theorem frees_tryDequeue {r : Option (Addr × Item) × Memory Item Tid Addr}
    (h : tryDequeue m = some r) :
    Frees m r.2 (if r.1.isSome = true then m.queue.head else none) := by
  unfold tryDequeue at h
  split at h
  · cases h
    rfl
  · obtain ⟨found, hfound, rfl⟩ := Option.map_eq_some_iff.mp h
    obtain ⟨hhead, hlive, hitems⟩ := items_removeFirst hfound
    change Frees m found.2.2 m.queue.head
    rw [hhead]
    exact ⟨hlive, hitems⟩

/-- The thread an action is about. -/
def threadAt : QueueState.Action Tid Addr → Tid
  | .call t _ => t
  | .resume t => t
  | .stir t => t

/-- A section that is not one of `enqueue` frees what it removes. -/
theorem frees_perform {action : QueueState.Action Tid Addr}
    (hother : ∀ t a item rest, action = .call t a → s.program t ≠ .enqueue item :: rest)
    (h : perform s action = some (s', e)) :
    Frees s.mem s'.mem (freedBy s e) ∧ threadOf e = threadAt action := by
  cases action with
  | call t newItem =>
    unfold perform beginCall at h
    dsimp only at h
    split at h
    · cases h
    · next c rest hprogram =>
      cases c with
      | enqueue item => exact absurd hprogram (hother t newItem item rest rfl)
      | dequeue =>
        obtain ⟨⟨found, m⟩, hm, hresult⟩ := Option.map_eq_some_iff.mp h
        have hfrees := frees_takeOrSleep hm
        cases found with
        | none =>
          cases hresult
          exact ⟨hfrees, rfl⟩
        | some found =>
          cases hresult
          exact ⟨hfrees, rfl⟩
      | tryDequeue =>
        obtain ⟨⟨found, m⟩, hm, hresult⟩ := Option.map_eq_some_iff.mp h
        have hfrees := frees_tryDequeue hm
        cases found with
        | none =>
          cases hresult
          exact ⟨hfrees, rfl⟩
        | some found =>
          cases hresult
          exact ⟨hfrees, rfl⟩
  | resume t =>
    unfold perform resumeCall at h
    dsimp only at h
    split at h
    · cases h
      exact ⟨rfl, rfl⟩
    · obtain ⟨⟨found, m⟩, hm, hresult⟩ := Option.map_eq_some_iff.mp h
      have hfrees := frees_takeOrSleep hm
      cases found with
      | none =>
        cases hresult
        exact ⟨hfrees, rfl⟩
      | some found =>
        cases hresult
        exact ⟨hfrees, rfl⟩
  | stir t =>
    cases h
    exact ⟨rfl, rfl⟩

/-- The section of an `enqueue` links its item. -/
theorem links_perform (hnext : s.program t = .enqueue item :: rest)
    (h : perform s (.call t a) = some (s', e)) :
    threadOf e = t ∧ ∀ b, (s'.mem.items b).isSome = true ↔
      b = a ∨ (s.mem.items b).isSome = true := by
  simp only [perform, beginCall, hnext] at h
  obtain ⟨m, hm, hresult⟩ := Option.map_eq_some_iff.mp h
  cases hresult
  exact ⟨rfl, items_enqueue hm⟩

omit [DecidableEq Addr] in
/-- Who holds an item behind a `malloc`, and behind a link. -/
theorem updated_some {held : Tid → Option Addr} {u : Tid} :
    Function.update held t (some a) u = some b ↔ u = t ∧ b = a ∨ u ≠ t ∧ held u = some b := by
  by_cases hut : u = t
  · subst hut
    simp [eq_comm]
  · simp [hut]

omit [DecidableEq Addr] in
theorem updated_none {held : Tid → Option Addr} {u : Tid} :
    Function.update held t none u = some b ↔ u ≠ t ∧ held u = some b := by
  by_cases hut : u = t
  · subst hut
    simp
  · simp [hut]

omit [DecidableEq Tid] [DecidableEq Addr] in
/-- A thread that holds an item is about to link it. -/
theorem Held.ready (h : Held w) (hheld : w.newItem t = some a) : Ready w.state (.call t a) := by
  obtain ⟨hout, item, rest, hnext⟩ := h.calls t a hheld
  refine ⟨hout, ?_, fun _ _ _ => ?_⟩
  · rw [hnext]
    exact List.cons_ne_nil _ _
  · rw [h.apart t a hheld]
    rfl

/-- The threads that hold items do not notice the steps of the others. -/
theorem Held.calls_kept (h : Held w) {action : QueueState.Action Tid Addr}
    (hready : Ready w.state action) (hperform : perform w.state action = some (s', e)) {u : Tid}
    (hu : w.newItem u = some b) (hne : u ≠ threadOf e) :
    s'.inDequeue u = false ∧ ∃ item rest, s'.program u = .enqueue item :: rest := by
  obtain ⟨hprogram, hinside⟩ := (moves_of_step ⟨action, hready, hperform⟩).others u hne
  rw [hprogram, hinside]
  exact h.calls u b hu

/-- The step lemma. -/
theorem Held.step (h : Held w) (hstep : SplitStep w label w') : Held w' := by
  cases hstep with
  | @malloc t a item rest hout hnext hfirst hdead hfresh =>
    refine ⟨fun u b hu => ?_, fun u v b hu hv => ?_, fun u b hu => ?_⟩
    · rcases updated_some.mp hu with ⟨-, rfl⟩ | ⟨-, hold⟩
      · exact hdead
      · exact h.apart u b hold
    · rcases updated_some.mp hu with ⟨rfl, rfl⟩ | ⟨-, hold⟩
      · rcases updated_some.mp hv with ⟨rfl, -⟩ | ⟨-, hold'⟩
        · rfl
        · exact (hfresh v hold').elim
      · rcases updated_some.mp hv with ⟨-, rfl⟩ | ⟨-, hold'⟩
        · exact (hfresh u hold).elim
        · exact h.once u v b hold hold'
    · rcases updated_some.mp hu with ⟨rfl, -⟩ | ⟨-, hold⟩
      · exact ⟨hout, item, rest, hnext⟩
      · exact h.calls u b hold
  | @link t a item rest e s' hnext hheld hperform =>
    obtain ⟨hthread, hitems⟩ := links_perform hnext hperform
    refine ⟨fun u b hu => ?_, fun u v b hu hv => ?_, fun u b hu => ?_⟩
    · obtain ⟨hut, hold⟩ := updated_none.mp hu
      rw [← Option.not_isSome_iff_eq_none, hitems]
      rintro (rfl | hlive)
      · exact hut (h.once u t b hold hheld)
      · rw [h.apart u b hold] at hlive
        cases hlive
    · exact h.once u v b (updated_none.mp hu).2 (updated_none.mp hv).2
    · obtain ⟨hut, hold⟩ := updated_none.mp hu
      exact h.calls_kept (h.ready hheld) hperform hold (hthread ▸ hut)
  | @other action e s' hready hother hperform =>
    obtain ⟨hfrees, hthread⟩ := frees_perform hother hperform
    refine ⟨fun u b hu => ?_, h.once, fun u b hu => ?_⟩
    · rw [← Option.not_isSome_iff_eq_none, (hfrees.live_iff b).1, h.apart u b hu]
      rintro ⟨hlive, -⟩
      cases hlive
    · refine h.calls_kept hready hperform hu ?_
      rw [hthread]
      rintro rfl
      obtain ⟨hout, item, rest, hnext⟩ := h.calls _ b hu
      cases action with
      | call t newItem => exact hother t newItem item rest rfl hnext
      | resume t =>
        rw [threadAt, hready.1] at hout
        cases hout
      | stir t =>
        rw [threadAt, hready.1] at hout
        cases hout

omit [DecidableEq Tid] [DecidableEq Addr] in
/-- No thread has allocated anything at the start. -/
theorem held_start (program : Tid → List (Call Item)) (nodes : Tid → WaitingThread Tid) :
    Held (splitStart program nodes : SplitState Item Tid Addr) :=
  ⟨nofun, nofun, nofun⟩

/-- Every history without its calls of `malloc` is one of the shared queue, and what
the threads hold is apart from it. -/
theorem split_run (run : Run SplitStep (splitStart program nodes) labels w) :
    Run Step (start program nodes) (sections labels) w.state ∧ Held w := by
  induction run with
  | nil => exact ⟨.nil, held_start program nodes⟩
  | @snoc labels middle label w run hstep ih =>
    refine ⟨?_, ih.2.step hstep⟩
    rw [sections, List.filterMap_append]
    cases hstep with
    | malloc hout hnext hfirst hdead hfresh => exact (List.append_nil _).symm ▸ ih.1
    | link t a hnext hheld hperform => exact ih.1.snoc ⟨_, ih.2.ready hheld, hperform⟩
    | other action hready hother hperform => exact ih.1.snoc ⟨_, hready, hperform⟩

/-- A step allocates a dead address or frees a live one, if either. -/
theorem replay_label (h : Held w) (hstep : SplitStep w label w') {live : Addr → Bool}
    (hlive : ∀ a, live a = true ↔ Live w a) :
    ∃ live', replay live label.log = some live' ∧ ∀ a, live' a = true ↔ Live w' a := by
  cases hstep with
  | @malloc t a item rest hout hnext hfirst hdead hfresh =>
    have hfree : live a = false := by
      rw [← Bool.not_eq_true, hlive]
      rintro (hlinked | ⟨u, hu⟩)
      · rw [hdead] at hlinked
        cases hlinked
      · exact hfresh u hu
    refine ⟨_, replay_alloc hfree, fun b => ?_⟩
    have hheld : (∃ u, Function.update w.newItem t (some a) u = some b) ↔
        b = a ∨ ∃ u, w.newItem u = some b := by
      constructor
      · rintro ⟨u, hu⟩
        rcases updated_some.mp hu with ⟨-, hb⟩ | ⟨-, hold⟩
        · exact .inl hb
        · exact .inr ⟨u, hold⟩
      · rintro (rfl | ⟨u, hold⟩)
        · exact ⟨t, Function.update_self ..⟩
        · refine ⟨u, updated_some.mpr (.inr ⟨?_, hold⟩)⟩
          rintro rfl
          rw [hfirst] at hold
          cases hold
    rw [Live, hheld, or_left_comm]
    by_cases hb : b = a
    · simp [hb]
    · rw [Function.update_of_ne hb, hlive, or_iff_right hb]
      rfl
  | @link t a item rest e s' hnext hheld hperform =>
    obtain ⟨-, hitems⟩ := links_perform hnext hperform
    refine ⟨live, rfl, fun b => ?_⟩
    rw [hlive, Live, Live, hitems]
    constructor
    · rintro (hlinked | ⟨u, hu⟩)
      · exact .inl (.inr hlinked)
      · by_cases hut : u = t
        · subst hut
          exact .inl (.inl (Option.some.inj (hu.symm.trans hheld)))
        · exact .inr ⟨u, updated_none.mpr ⟨hut, hu⟩⟩
    · rintro ((rfl | hlinked) | ⟨u, hu⟩)
      · exact .inr ⟨t, hheld⟩
      · exact .inl hlinked
      · exact .inr ⟨u, (updated_none.mp hu).2⟩
  | @other action e s' hready hother hperform =>
    obtain ⟨hfrees, -⟩ := frees_perform hother hperform
    cases hfreed : freedBy w.state e with
    | none =>
      rw [hfreed] at hfrees
      refine ⟨live, rfl, fun b => ?_⟩
      rw [hlive, Live, Live, (hfrees.live_iff b).1]
      simp
    | some a =>
      rw [hfreed] at hfrees
      have hlinked := (hfrees.live_iff a).2 rfl
      refine ⟨_, replay_free ((hlive a).mpr (.inl hlinked)), fun b => ?_⟩
      by_cases hb : b = a
      · subst hb
        rw [Function.update_self]
        refine iff_of_false Bool.false_ne_true ?_
        rintro (hlive' | ⟨u, hu⟩)
        · exact ((hfrees.live_iff b).1.mp hlive').2 rfl
        · rw [h.apart u b hu] at hlinked
          cases hlinked
      · have hne : some a ≠ some b := fun heq => hb (Option.some.inj heq).symm
        rw [Function.update_of_ne hb, hlive, Live, Live, (hfrees.live_iff b).1, and_iff_left hne]

/-- The log of a history replays to the live addresses. -/
theorem split_log (run : Run SplitStep (splitStart program nodes) labels w) :
    ∃ live, replay (fun _ => false) (heapLog labels) = some live ∧
      ∀ a, live a = true ↔ Live w a := by
  induction run with
  | nil =>
    refine ⟨_, rfl, fun a => iff_of_false Bool.false_ne_true ?_⟩
    rintro (hlinked | ⟨t, ht⟩)
    · cases hlinked
    · cases ht
  | snoc run hstep ih =>
    obtain ⟨live, hlog, hlive⟩ := ih
    obtain ⟨live', hstep', hlive'⟩ := replay_label (split_run run).2 hstep hlive
    rw [heapLog, List.flatMap_append, List.flatMap_singleton]
    exact ⟨live', replay_append hlog hstep', hlive'⟩

end Steps

end OSCourse.QueueMalloc
