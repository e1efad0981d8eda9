import Mathlib.Data.List.Basic
import Mathlib.Logic.Function.Basic
import Mathlib.Tactic.Common

/-!
# Linked segments in a heap

A heap is seen only through its links: a dead cell has none, a live cell
has a possibly null successor. A segment lists the cells followed from one
pointer up to another, a chain is a segment that ends in null. Chains are
determined by their first pointer, never repeat a cell, and are kept by
every change to cells outside them; appending, removing and splicing cells
are changes of a single link.
-/

namespace OSCourse.HeapSegments

variable {A : Type*}

/-- The cells met between two pointers, every one of them live. -/
def Segment (link : A → Option (Option A)) : Option A → List A → Option A → Prop
  | first, [], last => first = last
  | first, a :: cells, last =>
    first = some a ∧ ∃ next, link a = some next ∧ Segment link next cells last

/-- A segment that ends in the null pointer. -/
abbrev Chain (link : A → Option (Option A)) (first : Option A) (cells : List A) : Prop :=
  Segment link first cells none

variable {link link' : A → Option (Option A)} {first last : Option A} {cells more : List A} {a b : A}

@[simp] theorem segment_nil : Segment link first [] last ↔ first = last := Iff.rfl

@[simp] theorem segment_cons :
    Segment link first (a :: cells) last ↔
      first = some a ∧ ∃ next, link a = some next ∧ Segment link next cells last := Iff.rfl

/-- Segments compose at an inner pointer. -/
theorem segment_append :
    Segment link first (cells ++ more) last ↔
      ∃ middle, Segment link first cells middle ∧ Segment link middle more last := by
  induction cells generalizing first with
  | nil => simp
  | cons a cells ih =>
    simp only [List.cons_append, segment_cons, ih]
    constructor
    · rintro ⟨hfirst, next, hnext, middle, hleft, hright⟩
      exact ⟨middle, ⟨hfirst, next, hnext, hleft⟩, hright⟩
    · rintro ⟨middle, ⟨hfirst, next, hnext, hleft⟩, hright⟩
      exact ⟨hfirst, next, hnext, middle, hleft, hright⟩

/-- The frame rule: links outside the listed cells do not matter. -/
theorem Segment.congr (h : Segment link first cells last)
    (hagree : ∀ c ∈ cells, link' c = link c) : Segment link' first cells last := by
  induction cells generalizing first with
  | nil => exact h
  | cons a cells ih =>
    obtain ⟨hfirst, next, hnext, hrest⟩ := h
    refine ⟨hfirst, next, ?_, ih hrest fun c hc => hagree c (List.mem_cons_of_mem a hc)⟩
    rw [hagree a List.mem_cons_self, hnext]

/-- Every listed cell is live. -/
theorem Segment.live (h : Segment link first cells last) (ha : a ∈ cells) :
    ∃ next, link a = some next := by
  induction cells generalizing first with
  | nil => simp at ha
  | cons c cells ih =>
    obtain ⟨_, next, hnext, hrest⟩ := h
    rcases List.mem_cons.mp ha with rfl | hmem
    · exact ⟨next, hnext⟩
    · exact ih hrest hmem

/-- The first pointer of a chain is its first cell, or null. -/
theorem Segment.first_eq (h : Chain link first cells) : first = cells.head? := by
  cases cells with
  | nil => exact h
  | cons a cells => exact h.1

/-- A chain starts in null exactly when it is empty. -/
theorem Segment.first_eq_none (h : Chain link first cells) : first = none ↔ cells = [] := by
  rw [h.first_eq, List.head?_eq_none_iff]

/-- The chain of a pointer is unique. -/
theorem Segment.unique (h : Chain link first cells) (h' : Chain link first more) :
    cells = more := by
  induction cells generalizing first more with
  | nil =>
    obtain rfl : first = none := h
    exact (h'.first_eq_none.mp rfl).symm
  | cons a cells ih =>
    obtain ⟨rfl, next, hnext, hrest⟩ := h
    cases more with
    | nil => cases h'
    | cons b more =>
      obtain ⟨hb, next', hnext', hrest'⟩ := h'
      cases hb
      rw [hnext] at hnext'
      cases hnext'
      rw [ih hrest hrest']

/-- A finite chain never comes back to one of its cells. -/
theorem Segment.nodup (h : Chain link first cells) : cells.Nodup := by
  induction cells generalizing first with
  | nil => exact List.nodup_nil
  | cons a cells ih =>
    obtain ⟨_, next, hnext, hrest⟩ := h
    refine List.nodup_cons.mpr ⟨fun hmem => ?_, ih hrest⟩
    obtain ⟨left, right, rfl⟩ := List.append_of_mem hmem
    obtain ⟨middle, _, hmiddle⟩ := segment_append.mp hrest
    obtain ⟨_, next', hnext', hright⟩ := hmiddle
    rw [hnext] at hnext'
    cases hnext'
    have hlengths := congrArg List.length (hrest.unique hright)
    simp only [List.length_append, List.length_cons] at hlengths
    omega

/-- The last cell of a chain points to null. -/
theorem Segment.link_last (h : Chain link first (cells ++ [a])) : link a = some none := by
  obtain ⟨_, _, _, next, hnext, hnone⟩ := segment_append.mp h
  rw [hnext, segment_nil.mp hnone]

/-- Changing the link of the last cell redirects the segment. -/
theorem Segment.redirect {target : Option A} (h : Segment link first (cells ++ [a]) last)
    (ha : link' a = some target) (hagree : ∀ c ∈ cells, link' c = link c) :
    Segment link' first (cells ++ [a]) target := by
  obtain ⟨middle, hleft, hlast, _⟩ := segment_append.mp h
  exact segment_append.mpr ⟨middle, hleft.congr hagree, hlast, target, ha, rfl⟩

/-- A new cell behind the last one: only the last link changes. -/
theorem Segment.push (h : Chain link first (cells ++ [a])) (ha : link' a = some (some b))
    (hb : link' b = some none) (hagree : ∀ c ∈ cells, link' c = link c) :
    Chain link' first (cells ++ [a] ++ [b]) :=
  segment_append.mpr ⟨some b, h.redirect ha hagree, rfl, none, hb, rfl⟩

/-- The first cell can be dropped, the rest hangs on its link. -/
theorem Segment.pop (h : Chain link first (a :: cells)) :
    ∃ next, link a = some next ∧ Chain link next cells :=
  h.2

/-- A cell placed before a chain. -/
theorem Segment.push_front (h : Chain link first cells) (hb : link' b = some first)
    (hagree : ∀ c ∈ cells, link' c = link c) : Chain link' (some b) (b :: cells) :=
  ⟨rfl, first, hb, h.congr hagree⟩

/-- A cell spliced between two neighbours of a chain. -/
theorem Segment.splice (h : Chain link first (cells ++ [a] ++ more))
    (ha : link' a = some (some b)) (hb : link' b = some more.head?)
    (hleft : ∀ c ∈ cells, link' c = link c) (hright : ∀ c ∈ more, link' c = link c) :
    Chain link' first (cells ++ [a] ++ b :: more) := by
  obtain ⟨middle, hbefore, hafter⟩ := segment_append.mp h
  refine segment_append.mpr ⟨some b, hbefore.redirect ha hleft, ?_⟩
  exact hafter.push_front (by rw [hb, hafter.first_eq]) hright

end OSCourse.HeapSegments
