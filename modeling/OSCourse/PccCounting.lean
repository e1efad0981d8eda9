import Mathlib.Algebra.BigOperators.Group.Finset.Piecewise
import Mathlib.Data.Fintype.BigOperators
import OSCourse.PccServer

/-!
# What the server has counted

After any number of received bytes the local variables of a session are
determined by the announced length and the bytes: how many are left, how
many were printable, and how often each printable character occurred. The
signedness of char does not matter, no index leaves the array, and no
counter of a session wraps around.
-/

namespace OSCourse.PccCounting

open NetworkBytes PccServer

/-- The character counted at a place of the array. -/
def charAt (i : Fin numPrintableChars) : Byte := BitVec.ofNat 8 (i.val + 32)

/-- The characters from 32 to 126. -/
def printable (c : Byte) : Bool := decide (32 ≤ c.toNat ∧ c.toNat ≤ 126)

/-- A session that has counted these bytes. -/
def counted (fileSize : BitVec 32) (body : List Byte) : Session :=
  ⟨fileSize, BitVec.ofNat 32 (body.countP printable),
    fun i => BitVec.ofNat 32 (body.count (charAt i))⟩

/-- A session of an announced length that has received these bytes. -/
def tally (n : BitVec 32) (body : List Byte) : Session :=
  counted (n - BitVec.ofNat 32 body.length) body

variable {signed : Bool} {n : BitVec 32} {body bytes : List Byte} {c : Byte}
  {i : Fin numPrintableChars}

@[simp] theorem toNat_charAt (i : Fin numPrintableChars) : (charAt i).toNat = i.val + 32 := by
  have hi : i.val < 95 := i.isLt
  rw [charAt, BitVec.toNat_ofNat]
  omega

/-- Different places count different characters. -/
theorem charAt_inj {j : Fin numPrintableChars} : charAt i = charAt j ↔ i = j := by
  constructor
  · intro h
    have hnat : (charAt i).toNat = (charAt j).toNat := by rw [h]
    rw [toNat_charAt, toNat_charAt] at hnat
    exact Fin.ext (by omega)
  · exact fun h => by rw [h]

/-- Every printable character has its place. -/
theorem printable_iff : printable c = true ↔ ∃ i, charAt i = c := by
  simp only [printable, decide_eq_true_eq]
  constructor
  · rintro ⟨hmin, hmax⟩
    have hplace : c.toNat - 32 < 95 := by omega
    refine ⟨⟨c.toNat - 32, hplace⟩, BitVec.eq_of_toNat_eq ?_⟩
    rw [toNat_charAt]
    dsimp only
    omega
  · rintro ⟨i, rfl⟩
    have hi : i.val < 95 := i.isLt
    rw [toNat_charAt]
    omega

/-- Signed or not, the comparison lets the printable characters through. -/
theorem charValue_printable (signed : Bool) (c : Byte) :
    (printableCharMin ≤ charValue signed c ∧ charValue signed c ≤ printableCharMax) ↔
      printable c = true := by
  have hc := c.isLt
  simp only [printable, decide_eq_true_eq, printableCharMin, printableCharMax, charValue]
  cases signed with
  | true =>
    simp only [if_true, BitVec.toInt_eq_toNat_cond]
    split <;> omega
  | false =>
    simp only [Bool.false_eq_true, if_false]
    omega

/-- A printable character is the same number signed and unsigned. -/
theorem charValue_eq (signed : Bool) (i : Fin numPrintableChars) :
    charValue signed (charAt i) - printableCharMin = i.val := by
  have hi : i.val < 95 := i.isLt
  simp only [charValue, printableCharMin, BitVec.toInt_eq_toNat_cond, toNat_charAt]
  cases signed with
  | true =>
    simp only [if_true]
    split <;> omega
  | false =>
    simp only [Bool.false_eq_true, if_false]
    omega

/-- Counting at a place of the array stays inside it. -/
theorem increment_eq (counters : Counters) (i : Fin numPrintableChars) :
    increment counters i.val = some (Function.update counters i (counters i + 1)) := by
  have hi : i.val < 95 := i.isLt
  have hplace : (0 : ℤ) ≤ i.val ∧ (i.val : ℤ) < numPrintableChars := by
    simp only [numPrintableChars]
    omega
  rw [increment, dif_pos hplace]
  simp only [Int.toNat_natCast, Fin.eta]

/-- One more character. -/
theorem countChar_counted (signed : Bool) (fileSize : BitVec 32) (body : List Byte) (c : Byte) :
    (counted fileSize body).countChar signed c = some (counted fileSize (body ++ [c])) := by
  rw [Session.countChar]
  by_cases hc : printable c = true
  · rw [if_pos ((charValue_printable signed c).mpr hc)]
    obtain ⟨i, rfl⟩ := printable_iff.mp hc
    rw [charValue_eq, increment_eq, Option.map_some]
    have hcount : (body ++ [charAt i]).countP printable = body.countP printable + 1 := by
      rw [List.countP_append, List.countP_singleton, if_pos hc]
    have hchars : Function.update (counted fileSize body).printableCharsLocal i
        ((counted fileSize body).printableCharsLocal i + 1) =
          (counted fileSize (body ++ [charAt i])).printableCharsLocal := by
      funext j
      simp only [counted, List.count_append, List.count_singleton]
      by_cases hj : j = i
      · subst hj
        rw [Function.update_self, if_pos (beq_self_eq_true _), BitVec.ofNat_add]
        rfl
      · rw [Function.update_of_ne hj, if_neg (by simpa [charAt_inj] using Ne.symm hj), Nat.add_zero]
    rw [hchars]
    simp only [counted, hcount, BitVec.ofNat_add]
    rfl
  · rw [if_neg fun h => hc ((charValue_printable signed c).mp h)]
    have hcount : (body ++ [c]).countP printable = body.countP printable := by
      rw [List.countP_append, List.countP_singleton, if_neg hc, Nat.add_zero]
    have hchars : ∀ j, (body ++ [c]).count (charAt j) = body.count (charAt j) := by
      intro j
      have hne : c ≠ charAt j := fun h => hc (printable_iff.mpr ⟨j, h.symm⟩)
      rw [List.count_append, List.count_singleton, if_neg (by simpa using hne), Nat.add_zero]
    simp only [counted, hcount, hchars]

/-- The loop over the buffer. -/
theorem countChars_counted (signed : Bool) (fileSize : BitVec 32) (body bytes : List Byte) :
    (counted fileSize body).countChars signed bytes = some (counted fileSize (body ++ bytes)) := by
  induction bytes generalizing body with
  | nil => rw [Session.countChars, List.append_nil]
  | cons c bytes ih =>
    rw [Session.countChars, countChar_counted, Option.bind_some, ih, List.append_assoc,
      List.singleton_append]

/-- One more `recv` of the body. -/
theorem receive_tally (signed : Bool) (n : BitVec 32) (body bytes : List Byte) :
    (tally n body).receive signed bytes = some (tally n (body ++ bytes)) := by
  rw [Session.receive, tally, countChars_counted, Option.map_some, tally, List.length_append,
    BitVec.ofNat_add, ← BitVec.sub_sub]
  rfl

/-- The first values of the local variables. -/
theorem tally_nil (n : BitVec 32) : tally n [] = ⟨n, 0, fun _ => 0⟩ := by
  simp [tally, counted]

/-- The local counters add up to the number of printable characters. -/
theorem sum_counts (body : List Byte) :
    ∑ i, body.count (charAt i) = body.countP printable := by
  induction body with
  | nil => simp
  | cons c body ih =>
    simp only [List.count_cons, List.countP_cons, Finset.sum_add_distrib, ih]
    by_cases hc : printable c = true
    · obtain ⟨i, rfl⟩ := printable_iff.mp hc
      simp [hc, charAt_inj]
    · have hne : ∀ i, c ≠ charAt i := fun i h => hc (printable_iff.mpr ⟨i, h.symm⟩)
      simp [hc, hne]

/-- As long as no more than the announced bytes came, the length left is exact. -/
theorem fileSize_tally (hbody : body.length ≤ n.toNat) :
    (tally n body).fileSize.toNat = n.toNat - body.length := by
  have hn := n.isLt
  have hlength : (BitVec.ofNat 32 body.length).toNat = body.length := by
    rw [BitVec.toNat_ofNat, Nat.mod_eq_of_lt (by omega)]
  have hle : BitVec.ofNat 32 body.length ≤ n := by rw [BitVec.le_def, hlength]; exact hbody
  rw [tally, counted]
  dsimp only
  rw [BitVec.toNat_sub_of_le hle, hlength]

/-- The count of a session does not wrap around. -/
theorem printableCount_tally (hbody : body.length ≤ n.toNat) :
    (tally n body).printableCount.toNat = body.countP printable := by
  have hn := n.isLt
  have hle : body.countP printable ≤ body.length := List.countP_le_length
  rw [tally, counted]
  dsimp only
  rw [BitVec.toNat_ofNat, Nat.mod_eq_of_lt (by omega)]

/-- Nor do its local counters. -/
theorem printableCharsLocal_tally (hbody : body.length ≤ n.toNat) (i : Fin numPrintableChars) :
    ((tally n body).printableCharsLocal i).toNat = body.count (charAt i) := by
  have hn := n.isLt
  have hle : body.count (charAt i) ≤ body.length := List.count_le_length
  rw [tally, counted]
  dsimp only
  rw [BitVec.toNat_ofNat, Nat.mod_eq_of_lt (by omega)]

/-- What is asked for is between one byte and the buffer, and never too much. -/
theorem toRead_bounds {fileSize : BitVec 32} (h : 0 < fileSize.toNat) :
    1 ≤ toRead fileSize ∧ toRead fileSize ≤ bufferSize ∧ toRead fileSize ≤ fileSize.toNat := by
  unfold toRead bufferSize
  split <;> omega

end OSCourse.PccCounting
