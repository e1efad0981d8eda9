import Mathlib.Data.List.Induction
import Mathlib.Data.Set.Insert
import Mathlib.Logic.Function.Basic
import Mathlib.Tactic.Common

/-!
# Forests of tables in a heap

Every table of a heap has at most one owner: the root it belongs to and the
list of indices that leads there. When the children of a table are owned
by its path extended with the index, and every owned path has a parent
entry, the tables form a forest of bounded depth without sharing. Walks
from a root and owned paths are then the same thing, and a fresh table can
be planted as a root or grafted under a missing entry.
-/

namespace OSCourse.HeapForest

variable {Node Index : Type*}

/-- Who owns each table: its root and the indices followed from there. -/
abbrev Ownership (Node Index : Type*) := Node → Option (Node × List Index)

/-- An ownership that makes the tables under the roots a forest. Only tables
above the greatest depth have children; what the entries of the deepest
tables hold is of no concern here. -/
structure Forest (child : Node → Index → Option Node) (roots : Set Node) (depth : ℕ)
    (own : Ownership Node Index) : Prop where
  /-- Roots own themselves through the empty path. -/
  root_own : ∀ r ∈ roots, own r = some (r, [])
  /-- Every owner is a root, and no path is longer than the depth. -/
  short : ∀ {n r path}, own n = some (r, path) → r ∈ roots ∧ path.length ≤ depth
  /-- A child belongs to the extended path of its table. -/
  child_own : ∀ {n r path i m}, own n = some (r, path) → path.length < depth →
    child n i = some m → own m = some (r, path ++ [i])
  /-- Every longer path has an entry that leads to it. -/
  has_parent : ∀ {m r path i}, own m = some (r, path ++ [i]) →
    ∃ n, own n = some (r, path) ∧ child n i = some m
  /-- No two tables are owned alike. -/
  unique : ∀ {n m x}, own n = some x → own m = some x → n = m

/-- Follow a list of indices from a table. -/
def walk (child : Node → Index → Option Node) : Node → List Index → Option Node
  | n, [] => some n
  | n, i :: path => (child n i).bind fun m => walk child m path

variable {child child' : Node → Index → Option Node} {roots : Set Node} {depth : ℕ}
  {own : Ownership Node Index} {n m r : Node} {i : Index} {path more : List Index}

@[simp] theorem walk_nil : walk child n [] = some n := rfl

@[simp] theorem walk_cons :
    walk child n (i :: path) = (child n i).bind fun m => walk child m path := rfl

/-- A walk can be cut at any index. -/
theorem walk_append :
    walk child n (path ++ more) = (walk child n path).bind fun m => walk child m more := by
  induction path generalizing n with
  | nil => rfl
  | cons i path ih =>
    rw [List.cons_append, walk_cons, walk_cons]
    cases child n i with
    | none => rfl
    | some m => exact ih

/-- Walking from an owned table extends its owned path. -/
theorem Forest.own_of_walk (h : Forest child roots depth own) (hn : own n = some (r, path))
    (hlength : path.length + more.length ≤ depth) (hwalk : walk child n more = some m) :
    own m = some (r, path ++ more) := by
  induction more generalizing n path with
  | nil =>
    cases hwalk
    rw [List.append_nil, hn]
  | cons i more ih =>
    simp only [List.length_cons] at hlength
    rw [walk_cons] at hwalk
    obtain ⟨next, hchild, hrest⟩ := Option.bind_eq_some_iff.mp hwalk
    have hnext := h.child_own hn (by omega) hchild
    have hm := ih hnext (by simp only [List.length_append, List.length_singleton]; omega) hrest
    rw [hm, List.append_assoc, List.singleton_append]

/-- Every owned path is walked from its root. -/
theorem Forest.walk_of_own (h : Forest child roots depth own) (hm : own m = some (r, path)) :
    walk child r path = some m := by
  induction path using List.reverseRec generalizing m with
  | nil =>
    have hr := h.root_own r (h.short hm).1
    rw [walk_nil, h.unique hr hm]
  | append_singleton path i ih =>
    obtain ⟨n, hn, hchild⟩ := h.has_parent hm
    rw [walk_append, ih hn]
    simp [hchild]

/-- In a forest, walks from a root and owned paths are the same. -/
theorem Forest.walk_eq_some (h : Forest child roots depth own) (hr : r ∈ roots)
    (hlength : path.length ≤ depth) :
    walk child r path = some m ↔ own m = some (r, path) := by
  constructor
  · intro hwalk
    exact h.own_of_walk (h.root_own r hr) (by simpa using hlength) hwalk
  · exact h.walk_of_own

/-- Every beginning of an owned path is owned. -/
theorem Forest.own_beginning (h : Forest child roots depth own)
    (hm : own m = some (r, path ++ more)) : ∃ n, own n = some (r, path) := by
  induction more using List.reverseRec generalizing m with
  | nil => exact ⟨m, by rwa [List.append_nil] at hm⟩
  | append_singleton more i ih =>
    rw [← List.append_assoc] at hm
    obtain ⟨n, hn, _⟩ := h.has_parent hm
    exact ih hn

/-- Nothing is owned below a missing entry. -/
theorem Forest.not_own_below (h : Forest child roots depth own) (hn : own n = some (r, path))
    (hmissing : child n i = none) : own m ≠ some (r, path ++ i :: more) := by
  intro hm
  have hwalk := h.walk_of_own hm
  rw [walk_append, h.walk_of_own hn] at hwalk
  simp [hmissing] at hwalk

/-- Two tables above the greatest depth never share a child. -/
theorem Forest.no_sharing {n' : Node} {i' : Index} {x x' : Node × List Index}
    (h : Forest child roots depth own) (hn : own n = some x) (hn' : own n' = some x')
    (hx : x.2.length < depth) (hx' : x'.2.length < depth) (hchild : child n i = some m)
    (hchild' : child n' i' = some m) : n = n' ∧ i = i' := by
  have hown := h.child_own hn hx hchild
  have hown' := h.child_own hn' hx' hchild'
  rw [hown] at hown'
  simp only [Option.some.injEq, Prod.mk.injEq] at hown'
  obtain ⟨hroot, hpath⟩ := hown'
  obtain ⟨hfirst, hi⟩ := List.append_inj' hpath rfl
  refine ⟨h.unique hn ?_, by simpa using hi⟩
  rw [hn', ← Prod.eta x', ← Prod.eta x, hroot, hfirst]

/-- The frame rule: only entries of owned tables above the greatest depth
belong to the forest. -/
theorem Forest.congr (h : Forest child roots depth own)
    (hagree : ∀ {n r path}, own n = some (r, path) → path.length < depth →
      ∀ i, child' n i = child n i) : Forest child' roots depth own where
  root_own := h.root_own
  short := h.short
  child_own hn hlength hchild := h.child_own hn hlength (by rwa [hagree hn hlength] at hchild)
  has_parent hm := by
    obtain ⟨n, hn, hchild⟩ := h.has_parent hm
    have hlength := (h.short hm).2
    simp only [List.length_append, List.length_singleton] at hlength
    exact ⟨n, hn, by rwa [hagree hn (by omega)]⟩
  unique := h.unique

variable [DecidableEq Node]

omit [DecidableEq Node] in
/-- An owned table is another one than an unowned table. -/
theorem ne_of_own (hfresh : own m = none) {x : Node × List Index} (hn : own n = some x) :
    n ≠ m := by
  rintro rfl
  rw [hfresh] at hn
  cases hn

/-- Giving an unowned table an owner leaves the others theirs. -/
theorem own_given (hfresh : own m = none) (y : Node × List Index) {x : Node × List Index}
    (hn : own n = some x) : Function.update own m (some y) n = some x := by
  rwa [Function.update_of_ne (ne_of_own hfresh hn)]

/-- What is owned then. -/
theorem given_cases {x y : Node × List Index} (hn : Function.update own m (some y) n = some x) :
    (n = m ∧ x = y) ∨ (n ≠ m ∧ own n = some x) := by
  by_cases hnm : n = m
  · rw [hnm, Function.update_self] at hn
    exact .inl ⟨hnm, (Option.some.inj hn).symm⟩
  · rw [Function.update_of_ne hnm] at hn
    exact .inr ⟨hnm, hn⟩

/-- A fresh table without children becomes a new root. -/
theorem Forest.plant (h : Forest child roots depth own) (hfresh : own m = none)
    (hbare : ∀ i, child m i = none) :
    Forest child (insert m roots) depth (Function.update own m (some (m, []))) where
  root_own := by
    intro r hr
    rcases Set.mem_insert_iff.mp hr with rfl | hr
    · exact Function.update_self ..
    · exact own_given hfresh _ (h.root_own r hr)
  short {n r path} hn := by
    rcases given_cases hn with ⟨rfl, hx⟩ | ⟨_, hn⟩
    · cases hx
      exact ⟨Set.mem_insert _ _, Nat.zero_le _⟩
    · exact ⟨Set.mem_insert_of_mem _ (h.short hn).1, (h.short hn).2⟩
  child_own {n r path i next} hn hlength hchild := by
    rcases given_cases hn with ⟨rfl, _⟩ | ⟨_, hn⟩
    · rw [hbare] at hchild
      cases hchild
    · exact own_given hfresh _ (h.child_own hn hlength hchild)
  has_parent {next r path i} hnext := by
    rcases given_cases hnext with ⟨rfl, hx⟩ | ⟨_, hnext⟩
    · simp at hx
    · obtain ⟨n, hn, hchild⟩ := h.has_parent hnext
      exact ⟨n, own_given hfresh _ hn, hchild⟩
  unique {n n' x} hn hn' := by
    have hother : ∀ {k}, own k ≠ some (m, []) := by
      intro k hown
      have hroot := h.root_own m (h.short hown).1
      rw [hfresh] at hroot
      cases hroot
    rcases given_cases hn with ⟨rfl, rfl⟩ | ⟨_, hown⟩ <;>
      rcases given_cases hn' with ⟨rfl, hx⟩ | ⟨_, hown'⟩
    · rfl
    · exact absurd hown' hother
    · exact absurd (hx ▸ hown) hother
    · exact h.unique hown hown'

/-- A fresh table without children is grafted under a missing entry. -/
theorem Forest.graft (h : Forest child roots depth own) (hn : own n = some (r, path))
    (hlength : path.length < depth) (hmissing : child n i = none) (hfresh : own m = none)
    (hentry : child' n i = some m) (hbare : ∀ j, child' m j = none)
    (hagree : ∀ k j, k ≠ m → (k ≠ n ∨ j ≠ i) → child' k j = child k j) :
    Forest child' roots depth (Function.update own m (some (r, path ++ [i]))) := by
  have hunowned : ∀ k, own k ≠ some (r, path ++ [i]) := by
    intro k hk
    obtain ⟨n', hn', hchild⟩ := h.has_parent hk
    rw [h.unique hn' hn, hmissing] at hchild
    cases hchild
  constructor
  · intro q hq
    exact own_given hfresh _ (h.root_own q hq)
  · intro k q p hk
    rcases given_cases hk with ⟨rfl, hx⟩ | ⟨_, hk⟩
    · cases hx
      refine ⟨(h.short hn).1, ?_⟩
      simp only [List.length_append, List.length_singleton]
      omega
    · exact h.short hk
  · intro k q p j next hk hshort hchild
    rcases given_cases hk with ⟨rfl, _⟩ | ⟨hkm, hkown⟩
    · rw [hbare] at hchild
      cases hchild
    · by_cases hplace : k = n ∧ j = i
      · obtain ⟨rfl, rfl⟩ := hplace
        rw [hentry] at hchild
        cases hchild
        rw [hn] at hkown
        cases hkown
        exact Function.update_self ..
      · rw [hagree k j hkm (by tauto)] at hchild
        exact own_given hfresh _ (h.child_own hkown hshort hchild)
  · intro next q p j hnext
    rcases given_cases hnext with ⟨rfl, hx⟩ | ⟨_, hnext⟩
    · simp only [Prod.mk.injEq] at hx
      obtain ⟨rfl, hx⟩ := hx
      obtain ⟨rfl, hj⟩ := List.append_inj' hx rfl
      obtain rfl : j = i := by simpa using hj
      exact ⟨n, own_given hfresh _ hn, hentry⟩
    · obtain ⟨k, hk, hchild⟩ := h.has_parent hnext
      have hplace : k ≠ n ∨ j ≠ i := by
        by_contra hboth
        push Not at hboth
        rw [hboth.1, hboth.2, hmissing] at hchild
        cases hchild
      exact ⟨k, own_given hfresh _ hk, by rwa [hagree k j (ne_of_own hfresh hk) hplace]⟩
  · intro k k' x hk hk'
    rcases given_cases hk with ⟨rfl, rfl⟩ | ⟨_, hown⟩ <;>
      rcases given_cases hk' with ⟨rfl, hx⟩ | ⟨_, hown'⟩
    · rfl
    · exact absurd hown' (hunowned k')
    · exact absurd (hx ▸ hown) (hunowned k)
    · exact h.unique hown hown'

end OSCourse.HeapForest
