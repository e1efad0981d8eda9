import Mathlib.Data.List.Basic
import Mathlib.Tactic.Common

/-!
# The arguments of the shell

`process_arglist` drops a last word `&`, notes where each of the four
symbols stands last, and takes the branch of the first of them, in a fixed
order, that occurs at all.
-/

namespace OSCourse.ShellArglist

/-- The bytes of a word. -/
abbrev Word := List (BitVec 8)

/-- The words `&`, `|`, `<`, `>` and `>>`. -/
def ampersand : Word := [0x26]

def bar : Word := [0x7c]

def less : Word := [0x3c]

def greater : Word := [0x3e]

def greaterGreater : Word := [0x3e, 0x3e]

/-- The indices of `process_arglist`, none for -1. -/
structure Indices where
  /-- `pipe_index`. -/
  pipe : Option ℕ
  /-- `input_redirect_index`. -/
  inputRedirect : Option ℕ
  /-- `output_redirect_index`. -/
  outputRedirect : Option ℕ
  /-- `output_append_index`. -/
  outputAppend : Option ℕ

/-- One round of the loop over the words. -/
def Indices.note (indices : Indices) (i : ℕ) (word : Word) : Indices :=
  if word = bar then { indices with pipe := some i }
  else if word = less then { indices with inputRedirect := some i }
  else if word = greater then { indices with outputRedirect := some i }
  else if word = greaterGreater then { indices with outputAppend := some i }
  else indices

/-- The loop from the word with a given index on. -/
def Indices.scan (indices : Indices) : ℕ → List Word → Indices
  | _, [] => indices
  | i, word :: words => (indices.note i word).scan (i + 1) words

/-- `bg_process`. -/
def bgProcess (arglist : List Word) : Bool := arglist.getLast? = some ampersand

/-- The words that are left when a last `&` is dropped. -/
def arguments (arglist : List Word) : List Word :=
  if bgProcess arglist = true then arglist.dropLast else arglist

/-- Only a last `&` is dropped. -/
theorem mem_arguments {arglist : List Word} {word : Word} (hmem : word ∈ arglist)
    (hne : word ≠ ampersand) : word ∈ arguments arglist := by
  unfold arguments
  split_ifs with hbg
  · rcases List.eq_nil_or_concat arglist with rfl | ⟨front, last, rfl⟩
    · cases hmem
    · rw [List.concat_eq_append] at hmem hbg ⊢
      have hlast : last = ampersand := by simpa [bgProcess] using hbg
      rw [List.dropLast_concat]
      simpa [hlast, hne] using hmem
  · exact hmem

/-- The indices after the loop. -/
def indicesOf (arglist : List Word) : Indices :=
  Indices.scan ⟨none, none, none, none⟩ 0 (arguments arglist)

/-- The branches of `process_arglist`, with the index of their symbol. -/
inductive Branch where
  | pipe (index : ℕ)
  | inputRedirect (index : ℕ)
  | outputRedirect (index : ℕ)
  | outputAppend (index : ℕ)
  | plain

/-- The chain of tests behind the loop. -/
def Indices.branch (indices : Indices) : Branch :=
  match indices.pipe with
  | some i => .pipe i
  | none =>
    match indices.inputRedirect with
    | some i => .inputRedirect i
    | none =>
      match indices.outputRedirect with
      | some i => .outputRedirect i
      | none =>
        match indices.outputAppend with
        | some i => .outputAppend i
        | none => .plain

/-- The branch that `process_arglist` takes. -/
def branchOf (arglist : List Word) : Branch := (indicesOf arglist).branch

/-- The words that select a branch. -/
def IsSymbol (word : Word) : Prop :=
  word = bar ∨ word = less ∨ word = greater ∨ word = greaterGreater

instance (word : Word) : Decidable (IsSymbol word) := inferInstanceAs (Decidable (_ ∨ _))

variable {indices : Indices} {word : Word} {i : ℕ}

/-- No index is set. -/
theorem branch_eq_plain :
    indices.branch = .plain ↔ indices.pipe = none ∧ indices.inputRedirect = none ∧
      indices.outputRedirect = none ∧ indices.outputAppend = none := by
  obtain ⟨pipe, input, output, append⟩ := indices
  unfold Indices.branch
  cases pipe <;> cases input <;> cases output <;> cases append <;> simp

/-- A symbol sets its index, and no other word does. -/
theorem note_plain :
    (indices.note i word).branch = .plain ↔ indices.branch = .plain ∧ ¬IsSymbol word := by
  unfold Indices.note IsSymbol
  by_cases hbar : word = bar
  · rw [if_pos hbar, branch_eq_plain]
    simp [hbar]
  · by_cases hless : word = less
    · rw [if_neg hbar, if_pos hless, branch_eq_plain]
      simp [hless]
    · by_cases hgreater : word = greater
      · rw [if_neg hbar, if_neg hless, if_pos hgreater, branch_eq_plain]
        simp [hgreater]
      · by_cases happend : word = greaterGreater
        · rw [if_neg hbar, if_neg hless, if_neg hgreater, if_pos happend, branch_eq_plain]
          simp [happend]
        · rw [if_neg hbar, if_neg hless, if_neg hgreater, if_neg happend]
          simp [hbar, hless, hgreater, happend]

/-- The loop finds a symbol exactly when there is one. -/
theorem scan_plain {words : List Word} :
    (indices.scan i words).branch = .plain ↔
      indices.branch = .plain ∧ ∀ word ∈ words, ¬IsSymbol word := by
  induction words generalizing indices i with
  | nil => simp [Indices.scan]
  | cons word words ih =>
    unfold Indices.scan
    rw [ih, note_plain, List.forall_mem_cons, and_assoc]

/-- The last branch is taken exactly when no symbol stands among the arguments. -/
theorem branchOf_eq_plain {arglist : List Word} :
    branchOf arglist = .plain ↔ ∀ word ∈ arguments arglist, ¬IsSymbol word := by
  rw [branchOf, indicesOf, scan_plain, branch_eq_plain]
  simp

end OSCourse.ShellArglist
