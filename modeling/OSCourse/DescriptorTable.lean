import Mathlib.Data.Nat.Find
import Mathlib.Logic.Function.Basic
import Mathlib.Tactic.Common

/-!
# Tables of file descriptors

A table gives some numbers an open object, never infinitely many, so there
is always a lowest free number. Opening an object takes that number,
`dup2` makes a second number refer to the object of a first one, and is
without effect when the two are the same. Redirecting a number to a new
object is opening it, copying it there and closing the first number, and
does what it should as long as the lowest free number is another one.
-/

namespace OSCourse.DescriptorTable

variable {Object : Type*}

/-- What the descriptors of a process refer to. -/
@[ext] structure Table (Object : Type*) where
  /-- The object of an open descriptor. -/
  entry : ℕ → Option Object
  /-- Only finitely many are open. -/
  finite : ∃ n, ∀ fd, n ≤ fd → entry fd = none

/-- Makes one descriptor refer to an object, or to nothing. -/
def Table.put (t : Table Object) (fd : ℕ) (o : Option Object) : Table Object where
  entry := Function.update t.entry fd o
  finite := by
    obtain ⟨n, hn⟩ := t.finite
    refine ⟨max n (fd + 1), fun other hother => ?_⟩
    rw [Function.update_of_ne (by omega)]
    exact hn other (by omega)

/-- The table with these first descriptors and no others. -/
def Table.ofList (objects : List (Option Object)) : Table Object where
  entry fd := objects[fd]?.join
  finite := ⟨objects.length, fun fd hfd => by rw [List.getElem?_eq_none hfd]; rfl⟩

/-- `close`; an error when the descriptor was not open. -/
def Table.close (t : Table Object) (fd : ℕ) : Table Object := t.put fd none

/-- Some descriptor is free. -/
theorem Table.exists_free (t : Table Object) : ∃ fd, (t.entry fd).isNone = true := by
  obtain ⟨n, hn⟩ := t.finite
  exact ⟨n, by rw [hn n le_rfl]; rfl⟩

/-- The number that the next open object gets. -/
def Table.lowestFree (t : Table Object) : ℕ := Nat.find t.exists_free

/-- `open` and the like: an object at the lowest free descriptor. -/
def Table.install (t : Table Object) (o : Object) : ℕ × Table Object :=
  (t.lowestFree, t.put t.lowestFree (some o))

/-- `dup2`: an error without effect when the old descriptor is not open, and
nothing to do when the two are the same. -/
def Table.dup2 (t : Table Object) (old new : ℕ) : Table Object :=
  if (t.entry old).isNone ∨ old = new then t else t.put new (t.entry old)

variable {t : Table Object} {fd fd' target : ℕ} {o o' : Option Object} {x : Object}

@[simp] theorem put_entry_self (t : Table Object) (fd : ℕ) (o : Option Object) :
    (t.put fd o).entry fd = o :=
  Function.update_self ..

theorem put_entry_of_ne (t : Table Object) {fd fd' : ℕ} (o : Option Object) (h : fd' ≠ fd) :
    (t.put fd o).entry fd' = t.entry fd' :=
  Function.update_of_ne h ..

/-- The later of two changes of one descriptor counts. -/
@[simp] theorem put_put (t : Table Object) (fd : ℕ) (o o' : Option Object) :
    (t.put fd o).put fd o' = t.put fd o' :=
  Table.ext (Function.update_idem ..)

/-- Changes of different descriptors commute. -/
theorem put_comm (t : Table Object) (h : fd ≠ fd') (o o' : Option Object) :
    (t.put fd o).put fd' o' = (t.put fd' o').put fd o :=
  Table.ext (Function.update_comm h.symm ..).symm

/-- A change to what was there is none. -/
theorem put_eq_self (h : t.entry fd = o) : t.put fd o = t :=
  Table.ext (by rw [← h]; exact Function.update_eq_self ..)

/-- The lowest free descriptor is free. -/
theorem entry_lowestFree (t : Table Object) : t.entry t.lowestFree = none :=
  Option.isNone_iff_eq_none.mp (Nat.find_spec t.exists_free)

/-- Every descriptor below it is open. -/
theorem open_of_lt (h : fd < t.lowestFree) : t.entry fd ≠ none := fun hnone =>
  Nat.find_min t.exists_free h (by rw [hnone]; rfl)

/-- It is not above any free one. -/
theorem lowestFree_le (h : t.entry fd = none) : t.lowestFree ≤ fd :=
  Nat.find_min' t.exists_free (by rw [h]; rfl)

/-- When all descriptors up to a number are open, it is above that number. -/
theorem lt_lowestFree (h : ∀ other ≤ fd, t.entry other ≠ none) : fd < t.lowestFree := by
  by_contra hle
  exact h t.lowestFree (by omega) (entry_lowestFree t)

/-- A free descriptor below which all are open is the lowest one. -/
theorem lowestFree_eq (h : t.entry fd = none) (hopen : ∀ other < fd, t.entry other ≠ none) :
    t.lowestFree = fd := by
  have hle := lowestFree_le h
  by_contra hne
  exact hopen t.lowestFree (by omega) (entry_lowestFree t)

/-- Filling the lowest free descriptor moves it up. -/
theorem lowestFree_put (t : Table Object) (x : Object) :
    t.lowestFree < (t.put t.lowestFree (some x)).lowestFree := by
  refine lt_lowestFree fun other hother => ?_
  rcases Nat.lt_or_eq_of_le hother with hlt | rfl
  · rw [put_entry_of_ne t _ (Nat.ne_of_lt hlt)]
    exact open_of_lt hlt
  · simp

/-- Closing what was put at a free descriptor. -/
theorem close_put (h : t.entry fd = none) (o : Option Object) : (t.put fd o).close fd = t := by
  rw [Table.close, put_put, put_eq_self h]

/-- Closing the first of two descriptors leaves the second. -/
theorem close_first (h : t.entry fd = none) (hne : fd ≠ fd') (o o' : Option Object) :
    ((t.put fd o).put fd' o').close fd = t.put fd' o' := by
  rw [put_comm t hne, close_put ((put_entry_of_ne t o' hne).trans h)]

/-- And closing the second leaves the first. -/
theorem close_second (h : t.entry fd' = none) (hne : fd ≠ fd') (o o' : Option Object) :
    ((t.put fd o).put fd' o').close fd' = t.put fd o :=
  close_put ((put_entry_of_ne t o hne.symm).trans h) o'

/-- Copying an object from a free descriptor elsewhere and closing the first
number puts the object there and nowhere else. -/
theorem move_put (h : t.entry fd = none) (hne : fd ≠ target) (x : Object) :
    ((t.put fd (some x)).dup2 fd target).close fd = t.put target (some x) := by
  rw [Table.dup2, put_entry_self, if_neg (by simp [hne]), put_comm t hne, Table.close, put_put]
  exact put_eq_self ((put_entry_of_ne t _ hne).trans h)

/-- Copying a descriptor to itself and closing it loses the object. -/
theorem move_self (h : t.entry fd = none) (x : Object) :
    ((t.put fd (some x)).dup2 fd fd).close fd = t := by
  rw [Table.dup2, if_pos (.inr rfl), close_put h]

end OSCourse.DescriptorTable
