import Mathlib.Data.List.TakeWhile
import OSCourse.ShellArglist

/-!
# The words of a line

`main` reads a line and cuts it at blanks with `strtok`, which hands out one
word after the other until it finds none. The array it fills holds the
words of the line in their order and a NULL behind them.
-/

namespace OSCourse.ShellTokens

open ShellArglist

/-- One byte of a line. -/
abbrev Byte := BitVec 8

/-- The delimiters `" \t\n"`. -/
def isDelimiter (c : Byte) : Bool := c = 0x20 || c = 0x09 || c = 0x0a

/-- The string in a line buffer: what stands before the first NUL byte. -/
def cString (line : List Byte) : List Byte := line.takeWhile fun c => c ≠ 0

/-- A line without NUL bytes is such a string. -/
theorem cString_eq {line : List Byte} (h : 0 ∉ line) : cString line = line := by
  refine List.takeWhile_eq_self_iff.mpr fun c hc => decide_eq_true ?_
  rintro rfl
  exact h hc

/-- One call of `strtok`: the next word, if any, and what is left behind the
delimiter that ended it. -/
def strtok (rest : List Byte) : Option Word × List Byte :=
  match rest.dropWhile isDelimiter with
  | [] => (none, [])
  | c :: more =>
    (some ((c :: more).takeWhile fun c => !isDelimiter c),
      ((c :: more).dropWhile fun c => !isDelimiter c).tail)

/-- A word leaves less of the line. -/
theorem strtok_lt {rest : List Byte} {word : Word} {left : List Byte}
    (h : strtok rest = (some word, left)) : left.length < rest.length := by
  unfold strtok at h
  have hdrop := (List.dropWhile_sublist isDelimiter (l := rest)).length_le
  cases hrest : rest.dropWhile isDelimiter with
  | nil =>
    rw [hrest] at h
    cases h
  | cons c more =>
    rw [hrest] at h hdrop
    obtain ⟨-, rfl⟩ := Prod.mk.inj h
    have hword := (List.dropWhile_sublist (fun c => !isDelimiter c) (l := c :: more)).length_le
    rw [List.length_tail]
    simp only [List.length_cons] at hdrop hword ⊢
    omega

/-- The entries of `arglist` from the next one on: the loop stores what
`strtok` returns until that is NULL. -/
def entries (rest : List Byte) : List (Option Word) :=
  match _h : strtok rest with
  | (none, _) => [none]
  | (some word, left) => some word :: entries left
termination_by rest.length
decreasing_by exact strtok_lt _h

/-- The words of a line: its nonempty parts between delimiters. -/
def wordsOf (line : List Byte) : List Word :=
  (line.splitOnP isDelimiter).filter fun word => !word.isEmpty

variable {rest word more : List Byte} {c : Byte}

/-- A delimiter in front belongs to no word. -/
theorem wordsOf_delimiter (hc : isDelimiter c = true) : wordsOf (c :: rest) = wordsOf rest := by
  simp [wordsOf, List.splitOnP_cons_eq_if_modifyHead, hc]

/-- Nor do several. -/
theorem wordsOf_dropWhile (rest : List Byte) :
    wordsOf (rest.dropWhile isDelimiter) = wordsOf rest := by
  induction rest with
  | nil => rfl
  | cons c rest ih =>
    cases hc : isDelimiter c with
    | true => rw [List.dropWhile_cons_of_pos hc, ih, wordsOf_delimiter hc]
    | false => rw [List.dropWhile_cons_of_neg (by simp [hc])]

/-- A line without delimiters is one word. -/
theorem wordsOf_single (hword : ∀ c ∈ word, isDelimiter c = false) (hne : word ≠ []) :
    wordsOf word = [word] := by
  rw [wordsOf, List.splitOnP_eq_singleton fun c hc => by simpa using hword c hc]
  simp [hne]

/-- A first word ends at its delimiter. -/
theorem wordsOf_first (hword : ∀ c ∈ word, isDelimiter c = false) (hne : word ≠ [])
    (hc : isDelimiter c = true) : wordsOf (word ++ c :: more) = word :: wordsOf more := by
  have hsingle := wordsOf_single hword hne
  rw [wordsOf] at hsingle
  rw [wordsOf, List.splitOnP_append_cons _ _ hc, List.filter_append, hsingle]
  rfl

/-- `strtok` returns the first word and leaves the others. -/
theorem strtok_eq (rest : List Byte) :
    (strtok rest = (none, []) ∧ wordsOf rest = []) ∨
      ∃ word left, strtok rest = (some word, left) ∧ wordsOf rest = word :: wordsOf left := by
  rw [← wordsOf_dropWhile rest, strtok]
  cases hrest : rest.dropWhile isDelimiter with
  | nil => exact .inl ⟨rfl, rfl⟩
  | cons c more =>
    have hc : isDelimiter c = false := by
      have hhead := List.head?_dropWhile_not isDelimiter rest
      rw [hrest] at hhead
      simpa using hhead
    have hsplit := List.takeWhile_append_dropWhile (p := fun c => !isDelimiter c) (l := c :: more)
    have hword : ∀ d ∈ (c :: more).takeWhile fun c => !isDelimiter c, isDelimiter d = false := by
      intro d hd
      simpa using List.mem_takeWhile_imp hd
    have hne : (c :: more).takeWhile (fun c => !isDelimiter c) ≠ [] := by
      rw [List.takeWhile_cons_of_pos (by simp [hc])]
      exact List.cons_ne_nil _ _
    refine .inr ⟨_, _, rfl, ?_⟩
    cases hleft : (c :: more).dropWhile fun c => !isDelimiter c with
    | nil =>
      rw [hleft, List.append_nil] at hsplit
      rw [hsplit] at hword
      rw [hsplit, wordsOf_single hword (List.cons_ne_nil _ _)]
      rfl
    | cons d left =>
      have hd : isDelimiter d = true := by
        have hhead := List.head?_dropWhile_not (fun c => !isDelimiter c) (c :: more)
        rw [hleft] at hhead
        simpa using hhead
      rw [hleft] at hsplit
      rw [List.tail_cons, ← wordsOf_first hword hne hd, hsplit]

/-- The array holds the words of the line and ends in NULL. -/
theorem entries_eq (rest : List Byte) : entries rest = (wordsOf rest).map some ++ [none] := by
  induction rest using entries.induct with
  | case1 rest left h =>
    rw [entries, h]
    rcases strtok_eq rest with ⟨_, hwords⟩ | ⟨word, left', hnext, _⟩
    · rw [hwords]
      rfl
    · rw [h] at hnext
      cases hnext
  | case2 rest word left h ih =>
    rw [entries, h]
    rcases strtok_eq rest with ⟨hnone, _⟩ | ⟨word', left', hnext, hwords⟩
    · rw [h] at hnone
      cases hnone
    · rw [h] at hnext
      cases hnext
      change some word :: entries left = _
      rw [ih, hwords]
      rfl

end OSCourse.ShellTokens
