import Mathlib.Data.Nat.Digits.Lemmas
import Mathlib.Data.List.TakeWhile

/-!
# Decimal numbers in text

A decimal number is read as the C library reads one: blanks, a sign, digits,
and whatever follows is not looked at. The number a text stands for is
unbounded; a reader with a bounded result gives the nearest bound and says
that it did.
-/

namespace OSCourse.DecimalText

/-- White space as `isspace` has it. -/
def isSpace (c : BitVec 8) : Bool := c = 0x20 || (0x09 ≤ c && c ≤ 0x0d)

/-- A decimal digit. -/
def isDigit (c : BitVec 8) : Bool := 0x30 ≤ c && c ≤ 0x39

/-- The number that digits stand for, the most significant one first. -/
def valueOf (digits : List (BitVec 8)) : ℕ :=
  digits.foldl (fun value c => 10 * value + (c.toNat - 0x30)) 0

/-- An optional sign: whether it is a minus, and what follows. -/
def signOf : List (BitVec 8) → Bool × List (BitVec 8)
  | 0x2d :: rest => (true, rest)
  | 0x2b :: rest => (false, rest)
  | rest => (false, rest)

/-- The number at the start of a text. -/
def numberOf (text : List (BitVec 8)) : ℤ :=
  let (negative, rest) := signOf (text.dropWhile isSpace)
  let value := valueOf (rest.takeWhile isDigit)
  if negative then -value else value

/-- The bounds of a `long`. -/
def longMin : ℤ := -0x8000000000000000

def longMax : ℤ := 0x7fffffffffffffff

/-- `strtol(text, NULL, 10)`: the value, and whether `errno` is set to `ERANGE`. -/
def strtol (text : List (BitVec 8)) : ℤ × Bool :=
  if numberOf text < longMin then (longMin, true)
  else if longMax < numberOf text then (longMax, true)
  else (numberOf text, false)

/-- The nearest `long`. -/
def clamp (z : ℤ) : ℤ := if z < longMin then longMin else if longMax < z then longMax else z

/-- The digits of a number, the most significant one first. -/
def digitsOf (n : ℕ) : List (BitVec 8) :=
  if n = 0 then [0x30] else (Nat.digits 10 n).reverse.map fun d => BitVec.ofNat 8 (0x30 + d)

/-- A number as text. -/
def decimal (z : ℤ) : List (BitVec 8) :=
  if z < 0 then 0x2d :: digitsOf z.natAbs else digitsOf z.natAbs

/-- The text is a number, perhaps behind blanks and in front of something else. -/
def Spells (text : List (BitVec 8)) (z : ℤ) : Prop :=
  ∃ blanks rest, text = blanks ++ decimal z ++ rest ∧ (∀ c ∈ blanks, isSpace c = true) ∧
    ∀ c ∈ rest.head?, isDigit c = false

/-- The byte of a digit. -/
theorem toNat_digit {d : ℕ} (h : d < 10) : (BitVec.ofNat 8 (0x30 + d)).toNat = 0x30 + d := by
  rw [BitVec.toNat_ofNat]
  omega

theorem isDigit_digit {d : ℕ} (h : d < 10) : isDigit (BitVec.ofNat 8 (0x30 + d)) = true := by
  have hbyte := toNat_digit h
  simp only [isDigit, Bool.and_eq_true, decide_eq_true_eq, BitVec.le_def]
  rw [hbyte]
  constructor
  · exact Nat.le_add_right _ _
  · change 0x30 + d ≤ 0x39
    omega

/-- The digits of a number are digits. -/
theorem isDigit_digitsOf (n : ℕ) : ∀ c ∈ digitsOf n, isDigit c = true := by
  intro c hc
  unfold digitsOf at hc
  split at hc
  · rw [List.mem_singleton.mp hc]
    decide
  · obtain ⟨d, hd, rfl⟩ := List.mem_map.mp hc
    exact isDigit_digit (Nat.digits_lt_base (by decide) (List.mem_reverse.mp hd))

theorem digitsOf_ne_nil (n : ℕ) : digitsOf n ≠ [] := by
  unfold digitsOf
  split
  · exact List.cons_ne_nil _ _
  · next h =>
    intro hnil
    exact h (Nat.digits_eq_nil_iff_eq_zero.mp (List.reverse_eq_nil_iff.mp (List.map_eq_nil_iff.mp hnil)))

/-- Digits in the order of `Nat.digits` have their value. -/
theorem valueOf_reverse (digits : List ℕ) (h : ∀ d ∈ digits, d < 10) :
    valueOf (digits.reverse.map fun d => BitVec.ofNat 8 (0x30 + d)) = Nat.ofDigits 10 digits := by
  induction digits with
  | nil => rfl
  | cons d digits ih =>
    have hrest := ih fun e he => h e (List.mem_cons_of_mem _ he)
    have hbyte := toNat_digit (h d List.mem_cons_self)
    unfold valueOf at hrest ⊢
    rw [List.reverse_cons, List.map_append, List.foldl_append, hrest, Nat.ofDigits_cons]
    simp only [List.map_cons, List.map_nil, List.foldl_cons, List.foldl_nil, hbyte]
    omega

/-- The digits of a number have its value. -/
theorem valueOf_digitsOf (n : ℕ) : valueOf (digitsOf n) = n := by
  unfold digitsOf
  split
  · next h => rw [h]; rfl
  · rw [valueOf_reverse _ fun d hd => Nat.digits_lt_base (by decide) hd]
    exact Nat.ofDigits_digits 10 n

/-- The digits end where something else follows. -/
theorem takeWhile_digitsOf (n : ℕ) {rest : List (BitVec 8)}
    (hrest : ∀ c ∈ rest.head?, isDigit c = false) :
    (digitsOf n ++ rest).takeWhile isDigit = digitsOf n := by
  rw [List.takeWhile_append_of_pos (isDigit_digitsOf n)]
  cases rest with
  | nil => rw [List.takeWhile_nil, List.append_nil]
  | cons c rest =>
    rw [List.takeWhile_cons_of_neg (by simp [hrest c rfl]), List.append_nil]

/-- A digit is no blank and no sign. -/
theorem digit_plain : ∀ c : BitVec 8, isDigit c = true →
    isSpace c = false ∧ c ≠ 0x2d ∧ c ≠ 0x2b := by
  decide

/-- Digits have no sign in front. -/
theorem signOf_digit {c : BitVec 8} (h : isDigit c = true) (rest : List (BitVec 8)) :
    signOf (c :: rest) = (false, c :: rest) := by
  obtain ⟨-, hminus, hplus⟩ := digit_plain c h
  unfold signOf
  split
  · next heq => exact absurd (List.cons.inj heq).1 hminus
  · next heq => exact absurd (List.cons.inj heq).1 hplus
  · rfl

/-- A number is read back from its text, whatever blanks stand before it and
whatever follows its last digit. -/
theorem numberOf_decimal (z : ℤ) {blanks rest : List (BitVec 8)}
    (hblanks : ∀ c ∈ blanks, isSpace c = true) (hrest : ∀ c ∈ rest.head?, isDigit c = false) :
    numberOf (blanks ++ decimal z ++ rest) = z := by
  obtain ⟨first, more, hdigits⟩ := List.exists_cons_of_ne_nil (digitsOf_ne_nil z.natAbs)
  have hfirst := isDigit_digitsOf z.natAbs first (by rw [hdigits]; exact List.mem_cons_self)
  have htake := takeWhile_digitsOf z.natAbs hrest
  have hvalue := valueOf_digitsOf z.natAbs
  rw [numberOf, List.append_assoc, List.dropWhile_append_of_pos hblanks]
  by_cases hneg : z < 0
  · have hsign : (decimal z ++ rest).dropWhile isSpace = 0x2d :: (digitsOf z.natAbs ++ rest) := by
      rw [decimal, if_pos hneg]
      rfl
    rw [hsign]
    change (if true = true then -(valueOf ((digitsOf z.natAbs ++ rest).takeWhile isDigit) : ℤ)
      else _) = z
    rw [htake, hvalue, if_pos rfl]
    omega
  · obtain ⟨hspace, -, -⟩ := digit_plain first hfirst
    have hsign := signOf_digit hfirst (more ++ rest)
    have hdrop : (decimal z ++ rest).dropWhile isSpace = digitsOf z.natAbs ++ rest := by
      rw [decimal, if_neg hneg, hdigits, List.cons_append,
        List.dropWhile_cons_of_neg (by simp [hspace])]
    rw [hdrop, hdigits, List.cons_append, hsign, ← List.cons_append, ← hdigits]
    change (if false = true then _ else
      (valueOf ((digitsOf z.natAbs ++ rest).takeWhile isDigit) : ℤ)) = z
    rw [htake, hvalue, if_neg Bool.false_ne_true]
    omega

/-- A text that spells a number stands for it. -/
theorem numberOf_spells {text : List (BitVec 8)} {z : ℤ} (h : Spells text z) :
    numberOf text = z := by
  obtain ⟨blanks, rest, rfl, hblanks, hrest⟩ := h
  exact numberOf_decimal z hblanks hrest

/-- `strtol` gives the number a text stands for, or the nearest bound. -/
theorem strtol_eq (text : List (BitVec 8)) : (strtol text).1 = clamp (numberOf text) := by
  rw [strtol, clamp]
  split
  · rfl
  · split <;> rfl

/-- A range error comes with one of the two bounds. -/
theorem strtol_range {text : List (BitVec 8)} (h : (strtol text).2 = true) :
    (strtol text).1 = longMin ∨ (strtol text).1 = longMax := by
  unfold strtol at h ⊢
  split
  · exact .inl rfl
  · split
    · exact .inr rfl
    · next hlow hhigh =>
      rw [if_neg hlow, if_neg hhigh] at h
      cases h

end OSCourse.DecimalText
