import Mathlib.Data.List.Induction
import OSCourse.ShellProcess

/-!
# Which command a line is

The loop over the words remembers the last place of each symbol, and the
first symbol in the order `|`, `<`, `>`, `>>` that occurs decides. So the
words of a line are cut at the last occurrence of one symbol, and the plan
of the line depends on the two parts alone.
-/

namespace OSCourse.ShellPlan

open ShellArglist ShellTokens ShellProcess DescriptorTable

variable {Pid Object : Type}

/-- The symbols in the order in which the chain of tests asks for them. -/
def symbols : List Word := [bar, less, greater, greaterGreater]

/-- One symbol is asked for before another. -/
def Earlier (symbol other : Word) : Prop := List.Sublist [symbol, other] symbols

instance (symbol other : Word) : Decidable (Earlier symbol other) :=
  inferInstanceAs (Decidable (List.Sublist _ _))

/-- Words are cut at the last place of the symbol that is asked for first. -/
structure CutAt (words : List Word) (symbol : Word) (left right : List Word) : Prop where
  words_eq : words = left ++ symbol :: right
  last : symbol ∉ right
  first : ∀ other, IsSymbol other → Earlier other symbol → other ∉ words

/-- The branch of a symbol. -/
def branchAt (symbol : Word) (i : ℕ) : Branch :=
  if symbol = bar then .pipe i
  else if symbol = less then .inputRedirect i
  else if symbol = greater then .outputRedirect i
  else .outputAppend i

variable {words left right left' right' : List Word} {symbol symbol' other : Word}

/-- Of two symbols one is asked for first. -/
theorem eq_or_earlier (h : IsSymbol symbol) (h' : IsSymbol symbol') :
    symbol = symbol' ∨ Earlier symbol symbol' ∨ Earlier symbol' symbol := by
  rcases h with rfl | rfl | rfl | rfl <;> rcases h' with rfl | rfl | rfl | rfl <;> decide

/-- No symbol is asked for before itself. -/
theorem not_earlier_self (h : IsSymbol symbol) : ¬Earlier symbol symbol := by
  rcases h with rfl | rfl | rfl | rfl <;> decide

/-- None is asked for before the pipe. -/
theorem not_earlier_bar (h : IsSymbol symbol) : ¬Earlier symbol bar := by
  rcases h with rfl | rfl | rfl | rfl <;> decide

/-- Words have only one last place of a symbol. -/
theorem last_place_unique (h : left ++ symbol :: right = left' ++ symbol :: right')
    (hlast : symbol ∉ right) (hlast' : symbol ∉ right') : left = left' ∧ right = right' := by
  induction left generalizing left' with
  | nil =>
    cases left' with
    | nil => exact ⟨rfl, by simpa using h⟩
    | cons word left' =>
      obtain ⟨-, rfl⟩ := List.cons.inj h
      exact absurd (List.mem_append_right _ List.mem_cons_self) hlast
  | cons word left ih =>
    cases left' with
    | nil =>
      obtain ⟨-, rfl⟩ := List.cons.inj h
      exact absurd (List.mem_append_right _ List.mem_cons_self) hlast'
    | cons word' left' =>
      obtain ⟨rfl, hrest⟩ := List.cons.inj h
      obtain ⟨rfl, rfl⟩ := ih hrest
      exact ⟨rfl, rfl⟩

/-- The symbol at which words are cut is one of them. -/
theorem CutAt.mem (h : CutAt words symbol left right) : symbol ∈ words := by
  rw [h.words_eq]
  exact List.mem_append_right _ List.mem_cons_self

/-- So its place is. -/
theorem CutAt.lt (h : CutAt words symbol left right) : left.length < words.length := by
  rw [h.words_eq, List.length_append, List.length_cons]
  omega

/-- The words in front of the cut. -/
theorem CutAt.take (h : CutAt words symbol left right) : words.take left.length = left := by
  rw [h.words_eq, List.take_left]

/-- And those behind it. -/
theorem CutAt.drop (h : CutAt words symbol left right) :
    words.drop (left.length + 1) = right := by
  rw [h.words_eq, List.append_cons]
  exact List.drop_left' (by simp)

/-- A symbol between words without symbols is where they are cut. -/
theorem cutAt_of_single (hwords : words = left ++ symbol :: right) (hsymbol : IsSymbol symbol)
    (hnone : ∀ word ∈ left ++ right, ¬IsSymbol word) : CutAt words symbol left right where
  words_eq := hwords
  last hmem := hnone symbol (List.mem_append_right _ hmem) hsymbol
  first other hother hearlier hmem := by
    rw [hwords] at hmem
    rcases List.mem_append.mp hmem with hleft | hright
    · exact hnone other (List.mem_append_left _ hleft) hother
    · rcases List.mem_cons.mp hright with rfl | hright
      · exact not_earlier_self hother hearlier
      · exact hnone other (List.mem_append_right _ hright) hother

/-- Words are cut in one way. -/
theorem CutAt.unique (h : CutAt words symbol left right) (h' : CutAt words symbol' left' right')
    (hsymbol : IsSymbol symbol) (hsymbol' : IsSymbol symbol') :
    symbol = symbol' ∧ left = left' ∧ right = right' := by
  rcases eq_or_earlier hsymbol hsymbol' with rfl | hearlier | hearlier
  · exact ⟨rfl, last_place_unique (h.words_eq.symm.trans h'.words_eq) h.last h'.last⟩
  · exact absurd h.mem (h'.first symbol hsymbol hearlier)
  · exact absurd h'.mem (h.first symbol' hsymbol' hearlier)

/-- The loop reads one more word last. -/
theorem scan_concat (indices : Indices) (i : ℕ) (words : List Word) (word : Word) :
    indices.scan i (words ++ [word]) = (indices.scan i words).note (i + words.length) word := by
  induction words generalizing indices i with
  | nil => rfl
  | cons first words ih =>
    rw [List.cons_append, Indices.scan, ih, Indices.scan, List.length_cons]
    congr 1
    omega

/-- An index that is written for one symbol only ends at its last place. -/
theorem scan_last (field : Indices → Option ℕ) (symbol : Word)
    (hnote : ∀ (indices : Indices) i word,
      field (indices.note i word) = if word = symbol then some i else field indices)
    (hstart : field ⟨none, none, none, none⟩ = none) (words : List Word) :
    (field (Indices.scan ⟨none, none, none, none⟩ 0 words) = none ∧ symbol ∉ words) ∨
      ∃ left right, words = left ++ symbol :: right ∧ symbol ∉ right ∧
        field (Indices.scan ⟨none, none, none, none⟩ 0 words) = some left.length := by
  induction words using List.reverseRec with
  | nil => exact .inl ⟨hstart, List.not_mem_nil⟩
  | append_singleton words word ih =>
    rw [scan_concat, hnote, Nat.zero_add]
    by_cases hword : word = symbol
    · rw [if_pos hword, hword]
      exact .inr ⟨words, [], rfl, List.not_mem_nil, rfl⟩
    · rw [if_neg hword]
      rcases ih with ⟨hnone, hnot⟩ | ⟨left, right, rfl, hnot, hsome⟩
      · refine .inl ⟨hnone, ?_⟩
        simpa [hnot] using Ne.symm hword
      · refine .inr ⟨left, right ++ [word], by simp, ?_, hsome⟩
        simpa [hnot] using Ne.symm hword

theorem note_pipe (indices : Indices) (i : ℕ) (word : Word) :
    (indices.note i word).pipe = if word = bar then some i else indices.pipe := by
  unfold Indices.note
  split
  · rfl
  · split_ifs <;> rfl

theorem note_inputRedirect (indices : Indices) (i : ℕ) (word : Word) :
    (indices.note i word).inputRedirect =
      if word = less then some i else indices.inputRedirect := by
  unfold Indices.note
  split_ifs with hbar hless
  · rw [hbar] at hless
    cases hless
  all_goals rfl

theorem note_outputRedirect (indices : Indices) (i : ℕ) (word : Word) :
    (indices.note i word).outputRedirect =
      if word = greater then some i else indices.outputRedirect := by
  unfold Indices.note
  split_ifs with hbar hgreater hless hgreater'
  · rw [hbar] at hgreater
    cases hgreater
  · rfl
  · rw [hless] at hgreater'
    cases hgreater'
  all_goals rfl

theorem note_outputAppend (indices : Indices) (i : ℕ) (word : Word) :
    (indices.note i word).outputAppend =
      if word = greaterGreater then some i else indices.outputAppend := by
  unfold Indices.note
  by_cases happend : word = greaterGreater
  · subst happend
    rfl
  · rw [if_neg happend, if_neg happend]
    split_ifs <;> rfl

/-- The branch is taken at the last place of the symbol that is asked for first. -/
theorem branchOf_cases (words : List Word) :
    ((∀ word ∈ arguments words, ¬IsSymbol word) ∧ branchOf words = .plain) ∨
      ∃ symbol left right, IsSymbol symbol ∧ CutAt (arguments words) symbol left right ∧
        branchOf words = branchAt symbol left.length := by
  rw [branchOf, indicesOf]
  generalize arguments words = args
  rcases scan_last Indices.pipe bar note_pipe rfl args with
    ⟨hpipe, hbar⟩ | ⟨left, right, hargs, hlast, hpipe⟩
  · rcases scan_last Indices.inputRedirect less note_inputRedirect rfl args with
      ⟨hinput, hless⟩ | ⟨left, right, hargs, hlast, hinput⟩
    · rcases scan_last Indices.outputRedirect greater note_outputRedirect rfl args with
        ⟨houtput, hgreater⟩ | ⟨left, right, hargs, hlast, houtput⟩
      · rcases scan_last Indices.outputAppend greaterGreater note_outputAppend rfl args with
          ⟨happend, hnone⟩ | ⟨left, right, hargs, hlast, happend⟩
        · refine .inl ⟨fun word hword hsymbol => ?_, ?_⟩
          · rcases hsymbol with rfl | rfl | rfl | rfl
            · exact hbar hword
            · exact hless hword
            · exact hgreater hword
            · exact hnone hword
          · simp only [Indices.branch, hpipe, hinput, houtput, happend]
        · refine .inr ⟨_, left, right, .inr (.inr (.inr rfl)), ⟨hargs, hlast, ?_⟩, ?_⟩
          · intro other hother hearlier
            rcases hother with rfl | rfl | rfl | rfl
            · exact hbar
            · exact hless
            · exact hgreater
            · exact absurd hearlier (by decide)
          · simp only [Indices.branch, hpipe, hinput, houtput, happend]
            rfl
      · refine .inr ⟨_, left, right, .inr (.inr (.inl rfl)), ⟨hargs, hlast, ?_⟩, ?_⟩
        · intro other hother hearlier
          rcases hother with rfl | rfl | rfl | rfl
          · exact hbar
          · exact hless
          all_goals exact absurd hearlier (by decide)
        · simp only [Indices.branch, hpipe, hinput, houtput]
          rfl
    · refine .inr ⟨_, left, right, .inr (.inl rfl), ⟨hargs, hlast, ?_⟩, ?_⟩
      · intro other hother hearlier
        rcases hother with rfl | rfl | rfl | rfl
        · exact hbar
        all_goals exact absurd hearlier (by decide)
      · simp only [Indices.branch, hpipe, hinput]
        rfl
  · refine .inr ⟨_, left, right, .inl rfl, ⟨hargs, hlast, ?_⟩, ?_⟩
    · intro other hother hearlier
      rcases hother with rfl | rfl | rfl | rfl
      all_goals exact absurd hearlier (by decide)
    · simp only [Indices.branch, hpipe]
      rfl

/-- A way to cut the arguments tells the branch. -/
theorem branchOf_of_cut (hsymbol : IsSymbol symbol)
    (h : CutAt (arguments words) symbol left right) :
    branchOf words = branchAt symbol left.length := by
  rcases branchOf_cases words with ⟨hnone, _⟩ | ⟨symbol', left', right', hsymbol', h', hbranch⟩
  · exact absurd hsymbol (hnone symbol h.mem)
  · obtain ⟨rfl, rfl, rfl⟩ := h.unique h' hsymbol hsymbol'
    exact hbranch

/-- The plan of a command with these words, by its branch. -/
def planOf (k : Kernel Pid Object) (table : Table Object) (words : List Word) :
    Outcome Pid Object :=
  let args := arguments words
  match branchOf words with
  | .pipe i => pipePlan k table (args.take i) (args.drop (i + 1))
  | .inputRedirect i => redirectPlan readOnly 0 k table (args.take i) (args.drop (i + 1)).head?
  | .outputRedirect i =>
    redirectPlan createTruncate 1 k table (args.take i) (args.drop (i + 1)).head?
  | .outputAppend i =>
    redirectPlan createAppend 1 k table (args.take i) (args.drop (i + 1)).head?
  | .plain => plainPlan k table args (bgProcess words)

/-- The symbols of redirections, with the flags and the descriptor of each. -/
inductive Redirection : Word → OpenFlags → ℕ → Prop
  | input : Redirection less readOnly 0
  | output : Redirection greater createTruncate 1
  | append : Redirection greaterGreater createAppend 1

variable {k : Kernel Pid Object} {table : Table Object} {flags : OpenFlags} {target : ℕ}

theorem Redirection.isSymbol (h : Redirection symbol flags target) : IsSymbol symbol := by
  cases h with
  | input => exact .inr (.inl rfl)
  | output => exact .inr (.inr (.inl rfl))
  | append => exact .inr (.inr (.inr rfl))

theorem Redirection.ne_bar (h : Redirection symbol flags target) : symbol ≠ bar := by
  cases h <;> decide

theorem Redirection.target_cases (h : Redirection symbol flags target) :
    target = 0 ∨ target = 1 := by
  cases h with
  | input => exact .inl rfl
  | output => exact .inr rfl
  | append => exact .inr rfl

/-- The other symbol is that of the pipe. -/
theorem bar_or_redirection (h : IsSymbol symbol) :
    symbol = bar ∨ ∃ flags target, Redirection symbol flags target := by
  rcases h with rfl | rfl | rfl | rfl
  · exact .inl rfl
  · exact .inr ⟨_, _, .input⟩
  · exact .inr ⟨_, _, .output⟩
  · exact .inr ⟨_, _, .append⟩

/-- The plan of a line with a pipe. -/
theorem planOf_pipe (k : Kernel Pid Object) (table : Table Object)
    (h : CutAt (arguments words) bar left right) :
    planOf k table words = pipePlan k table left right := by
  have hbranch : branchOf words = .pipe left.length := branchOf_of_cut (.inl rfl) h
  simp only [planOf, hbranch, h.take, h.drop]

/-- The plan of a line with a redirection. -/
theorem planOf_redirect (k : Kernel Pid Object) (table : Table Object)
    (hredirection : Redirection symbol flags target)
    (h : CutAt (arguments words) symbol left right) :
    planOf k table words = redirectPlan flags target k table left right.head? := by
  have hbranch := branchOf_of_cut hredirection.isSymbol h
  cases hredirection with
  | input =>
    change branchOf words = .inputRedirect left.length at hbranch
    simp only [planOf, hbranch, h.take, h.drop]
  | output =>
    change branchOf words = .outputRedirect left.length at hbranch
    simp only [planOf, hbranch, h.take, h.drop]
  | append =>
    change branchOf words = .outputAppend left.length at hbranch
    simp only [planOf, hbranch, h.take, h.drop]

/-- The plan of a line without symbols. -/
theorem planOf_plain (k : Kernel Pid Object) (table : Table Object)
    (h : ∀ word ∈ arguments words, ¬IsSymbol word) :
    planOf k table words = plainPlan k table (arguments words) (bgProcess words) := by
  simp only [planOf, branchOf_eq_plain.mpr h]

/-- These are all lines. -/
theorem cut_cases (words : List Word) :
    (∃ left right, CutAt (arguments words) bar left right) ∨
      (∃ symbol flags target left right, Redirection symbol flags target ∧
        CutAt (arguments words) symbol left right) ∨
      ∀ word ∈ arguments words, ¬IsSymbol word := by
  rcases branchOf_cases words with ⟨hnone, _⟩ | ⟨symbol, left, right, hsymbol, h, _⟩
  · exact .inr (.inr hnone)
  · rcases bar_or_redirection hsymbol with rfl | ⟨flags, target, hredirection⟩
    · exact .inl ⟨left, right, h⟩
    · exact .inr (.inl ⟨symbol, flags, target, left, right, hredirection, h⟩)

/-- With a pipe among the arguments they are cut there. -/
theorem exists_cut_of_bar (hbar : bar ∈ arguments words) :
    ∃ left right, CutAt (arguments words) bar left right := by
  rcases branchOf_cases words with ⟨hnone, _⟩ | ⟨symbol, left, right, hsymbol, h, _⟩
  · exact absurd (.inl rfl) (hnone bar hbar)
  · rcases eq_or_earlier (.inl rfl) hsymbol with rfl | hearlier | hearlier
    · exact ⟨left, right, h⟩
    · exact absurd hbar (h.first bar (.inl rfl) hearlier)
    · exact absurd hearlier (not_earlier_bar hsymbol)

/-- `process_arglist` follows the plan, on every array that `main` passes,
and never reads outside the array. -/
theorem processArglist_eq (k : Kernel Pid Object) (table : Table Object) (words : List Word) :
    processArglist k table words.length (words.map some ++ [none]) =
      some (planOf k table words) := by
  obtain ⟨arglist, hstrip, hterminated⟩ := stripAmpersand_eq words
  have hscan : scanEntries arglist ⟨none, none, none, none⟩ 0 (arguments words).length =
      some (indicesOf words) :=
    scanEntries_eq (show Terminated arglist ([] ++ arguments words) from hterminated) _
  have hbranch : (indicesOf words).branch = branchOf words := rfl
  simp only [processArglist, hstrip, hscan, Option.bind_eq_bind, Option.bind_some, planOf, hbranch]
  rcases branchOf_cases words with ⟨_, hplain⟩ | ⟨symbol, left, right, hsymbol, h, hat⟩
  · rw [hplain]
    exact plainBranch_eq hterminated (bgProcess words)
  · rw [hat]
    rcases hsymbol with rfl | rfl | rfl | rfl
    · exact pipeBranch_eq hterminated h.lt
    · exact redirectBranch_eq hterminated h.lt readOnly 0
    · exact redirectBranch_eq hterminated h.lt createTruncate 1
    · exact redirectBranch_eq hterminated h.lt createAppend 1

/-- A round of `main` on a line with words. -/
theorem mainLoop_eq (k : Kernel Pid Object) (table : Table Object) {line : List Byte}
    (hne : wordsOf (cString line) ≠ []) :
    mainLoop k table line = some (some (planOf k table (wordsOf (cString line)))) := by
  have hcount : ((wordsOf (cString line)).map some ++ [none]).length - 1 =
      (wordsOf (cString line)).length := by simp
  have hpos : (wordsOf (cString line)).length ≠ 0 := by simpa using hne
  unfold mainLoop
  simp only [entries_eq, hcount, if_pos hpos, processArglist_eq, Option.map_some]

/-- On a line without words `process_arglist` is not called. -/
theorem mainLoop_blank (k : Kernel Pid Object) (table : Table Object) {line : List Byte}
    (hblank : wordsOf (cString line) = []) : mainLoop k table line = some none := by
  unfold mainLoop
  simp only [entries_eq, hblank, List.map_nil, List.nil_append, List.length_singleton]
  rfl

end OSCourse.ShellPlan
