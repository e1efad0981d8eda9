import Mathlib.Tactic.Common
import Mathlib.Tactic.Positivity
import Mathlib.Tactic.Ring

/-!
# Numbers and streams of bytes on a network

A number is sent as its bytes, the most significant one first; a fixed number
of bytes and the numbers they can hold determine each other. A stream keeps
everything that was put into it and how much of it has been taken out, so
that neither side sees how the other one cut it into pieces.
-/

namespace OSCourse.NetworkBytes

/-- The number whose bytes these are, most significant first. -/
def value : List (BitVec 8) → ℕ
  | [] => 0
  | b :: bytes => b.toNat * 256 ^ bytes.length + value bytes

/-- The low bytes of a number, most significant first. -/
def bigEndian : ℕ → ℕ → List (BitVec 8)
  | 0, _ => []
  | width + 1, n => BitVec.ofNat 8 (n / 256 ^ width) :: bigEndian width n

variable {width n : ℕ} {bytes : List (BitVec 8)}

@[simp] theorem length_bigEndian (width n : ℕ) : (bigEndian width n).length = width := by
  induction width with
  | zero => rfl
  | succ width ih => rw [bigEndian, List.length_cons, ih]

/-- Reading back what was written gives the number, as far as it fits. -/
theorem value_bigEndian (width n : ℕ) : value (bigEndian width n) = n % 256 ^ width := by
  induction width with
  | zero => simp [bigEndian, value, Nat.mod_one]
  | succ width ih =>
    have hsplit : n % 256 ^ (width + 1) = n % 256 ^ width + 256 ^ width * (n / 256 ^ width % 256) :=
      Nat.mod_pow_succ
    have hbyte : (BitVec.ofNat 8 (n / 256 ^ width)).toNat = n / 256 ^ width % 256 :=
      BitVec.toNat_ofNat ..
    rw [bigEndian, value, ih, length_bigEndian, hbyte, hsplit]
    ring

/-- One direction of a connection. -/
structure Stream (α : Type*) where
  /-- Everything put so far. -/
  sent : List α
  /-- How much of it has been taken. -/
  consumed : ℕ

namespace Stream

variable {α : Type*} (s : Stream α) (items : List α) (n : ℕ)

/-- Nothing was put. -/
def empty : Stream α := ⟨[], 0⟩

/-- What can still be taken. -/
def pending : List α := s.sent.drop s.consumed

/-- Puts items at the end. -/
def put : Stream α := { s with sent := s.sent ++ items }

/-- Takes items from the front. -/
def take : Stream α := { s with consumed := s.consumed + n }

@[simp] theorem sent_put : (s.put items).sent = s.sent ++ items := rfl

@[simp] theorem consumed_put : (s.put items).consumed = s.consumed := rfl

@[simp] theorem sent_take : (s.take n).sent = s.sent := rfl

@[simp] theorem consumed_take : (s.take n).consumed = s.consumed + n := rfl

end Stream

end OSCourse.NetworkBytes
