import OSCourse.ShellPlan

/-!
# The commands of the shell

What the children of a line run. A line with one symbol at most starts the
programs that its words name and waits for them, but for a plain command
with `&`. The words are not checked: of other lines a child may get no
program, a symbol among its arguments, or no path to open. And a last `&`
is only honoured where there is no symbol.
-/

namespace OSCourse.ShellCommands

open ShellArglist ShellTokens ShellProcess ShellPlan DescriptorTable

variable {Pid Object : Type} {k : Kernel Pid Object} {table : Table Object} {pid1 pid2 : Pid}
  {words left right left' right' : List Word} {symbol symbol' : Word} {flags : OpenFlags}
  {target : ℕ}

/-- What a child asks the kernel for: the files to open, and the program and
its arguments. -/
def calls (child : ChildRun Pid Object) : Pid × List OpenCall × Option (Option Word × List Word) :=
  (child.pid, child.opens, child.exec.map fun exec => (exec.file, exec.argv))

/-- A pipeline runs both sides and waits for both. -/
theorem pipePlan_calls (hpipe : k.pipe ≠ none) (hfork1 : k.fork1 = some pid1)
    (hfork2 : k.fork2 = some pid2) (table : Table Object) (before after : List Word) :
    (pipePlan k table before after).code = 1 ∧
      (pipePlan k table before after).children.map calls =
        [(pid1, [], some (before.head?, before)), (pid2, [], some (after.head?, after))] ∧
      (pipePlan k table before after).waited = [pid1, pid2] := by
  unfold pipePlan
  cases hends : k.pipe with
  | none => exact absurd hends hpipe
  | some ends =>
    rw [hfork1, hfork2]
    exact ⟨rfl, rfl, rfl⟩

/-- A redirection opens its path, runs the words before its symbol and waits. -/
theorem redirectPlan_calls (hfork : k.fork1 = some pid1) (hopened : k.opened ≠ none)
    (table : Table Object) (flags : OpenFlags) (target : ℕ) (before : List Word)
    (path : Option Word) :
    (redirectPlan flags target k table before path).code = 1 ∧
      (redirectPlan flags target k table before path).children.map calls =
        [(pid1, [⟨path, flags⟩], some (before.head?, before))] ∧
      (redirectPlan flags target k table before path).waited = [pid1] := by
  unfold redirectPlan
  cases hfile : k.opened with
  | none => exact absurd hfile hopened
  | some file =>
    rw [hfork]
    exact ⟨rfl, rfl, rfl⟩

/-- Any other command runs all words, and is waited for unless it ended in `&`. -/
theorem plainPlan_calls (hfork : k.fork1 = some pid1) (table : Table Object) (words : List Word)
    (bgProcess : Bool) :
    (plainPlan k table words bgProcess).code = 1 ∧
      (plainPlan k table words bgProcess).children.map calls =
        [(pid1, [], some (words.head?, words))] ∧
      (plainPlan k table words bgProcess).waited = if bgProcess then [] else [pid1] := by
  unfold plainPlan
  rw [hfork]
  exact ⟨rfl, rfl, rfl⟩

/-- A line whose words, but for a last `&`, hold one symbol at most, when the
forks succeed, and the pipe or the file that is asked for is opened. Without
a symbol a single child runs the words, and is waited for unless `&` was
there. With `|` two children run the words on its sides, and with a
redirection one child opens the word behind it and runs those before it;
all are waited for. -/
theorem line_planned (table : Table Object) {line : List Byte} {ws : List Word} (hnul : 0 ∉ line)
    (hfork : k.fork1 = some pid1) (hws : arguments (wordsOf line) = ws) (hne : ws ≠ []) :
    ∃ outcome, mainLoop k table line = some (some outcome) ∧
      ((∀ word ∈ ws, ¬IsSymbol word) →
        outcome.code = 1 ∧ outcome.children.map calls = [(pid1, [], some (ws.head?, ws))] ∧
          outcome.waited = if (wordsOf line).getLast? = some ampersand then [] else [pid1]) ∧
      (∀ before after, ws = before ++ bar :: after →
        (∀ word ∈ before ++ after, ¬IsSymbol word) → k.pipe ≠ none → k.fork2 = some pid2 →
          outcome.code = 1 ∧
            outcome.children.map calls =
              [(pid1, [], some (before.head?, before)), (pid2, [], some (after.head?, after))] ∧
            outcome.waited = [pid1, pid2]) ∧
      ∀ symbol flags target, Redirection symbol flags target →
        ∀ before path, ws = before ++ symbol :: [path] →
          (∀ word ∈ before ++ [path], ¬IsSymbol word) → k.opened ≠ none →
            outcome.code = 1 ∧
              outcome.children.map calls =
                [(pid1, [⟨some path, flags⟩], some (before.head?, before))] ∧
              outcome.waited = [pid1] := by
  have hline : cString line = line := cString_eq hnul
  have hwords : wordsOf (cString line) ≠ [] := by
    intro hnil
    rw [hline] at hnil
    rw [hnil] at hws
    exact hne hws.symm
  refine ⟨_, mainLoop_eq k table hwords, ?_, ?_, ?_⟩
  · intro hnone
    rw [hline, planOf_plain k table (by rw [hws]; exact hnone), hws]
    have hplan := plainPlan_calls hfork table ws (bgProcess (wordsOf line))
    simpa [bgProcess] using hplan
  · intro before after hcut hnone hpipe hfork2
    have hat : CutAt (arguments (wordsOf line)) bar before after := by
      rw [hws]
      exact cutAt_of_single hcut (.inl rfl) hnone
    rw [hline, planOf_pipe k table hat]
    exact pipePlan_calls hpipe hfork hfork2 table before after
  · intro symbol flags target hredirection before path hcut hnone hopened
    have hat : CutAt (arguments (wordsOf line)) symbol before [path] := by
      rw [hws]
      exact cutAt_of_single hcut hredirection.isSymbol hnone
    rw [hline, planOf_redirect k table hredirection hat]
    exact redirectPlan_calls hfork hopened table flags target before (some path)

/-- On `ls | wc`, when the kernel gives the pipe and the processes 1 and 2. -/
theorem line_planned_pipeline :
    ∃ outcome, mainLoop granting standard [0x6c, 0x73, 0x20, 0x7c, 0x20, 0x77, 0x63, 0x0a] =
        some (some outcome) ∧
      outcome.children.map calls =
        [(1, [], some (some [0x6c, 0x73], [[0x6c, 0x73]])),
          (2, [], some (some [0x77, 0x63], [[0x77, 0x63]]))] ∧
      outcome.waited = [1, 2] := by
  have hnul : (0 : Byte) ∉ [0x6c, 0x73, 0x20, 0x7c, 0x20, 0x77, 0x63, 0x0a] := by decide
  have hfork : granting.fork1 = some 1 := rfl
  have hws : arguments (wordsOf [0x6c, 0x73, 0x20, 0x7c, 0x20, 0x77, 0x63, 0x0a]) =
      [[0x6c, 0x73], bar, [0x77, 0x63]] := by decide
  obtain ⟨outcome, hline, -, hpipe, -⟩ := line_planned standard hnul hfork hws (by decide)
  have hplan := hpipe [[0x6c, 0x73]] [[0x77, 0x63]] rfl (by decide) (by decide) rfl
  exact ⟨outcome, hline, hplan.2⟩

/-- The kernel refuses nothing. -/
structure Succeeds (k : Kernel Pid Object) : Prop where
  pipe : k.pipe ≠ none
  fork1 : k.fork1 ≠ none
  fork2 : k.fork2 ≠ none
  opened : k.opened ≠ none

/-- All `execvp` calls get a program and no symbol, and all `open` calls a path. -/
def WellFormedCalls (outcome : Outcome Pid Object) : Prop :=
  ∀ child ∈ outcome.children,
    (∀ exec ∈ child.exec, exec.file ≠ none ∧ ∀ word ∈ exec.argv, ¬IsSymbol word) ∧
      ∀ call ∈ child.opens, call.path ≠ none

/-- Words that make a program and its arguments. -/
def Runnable (words : List Word) : Prop := words ≠ [] ∧ ∀ word ∈ words, ¬IsSymbol word

/-- There are arguments, there are words on both sides of the first symbol
among them, and the symbols behind it are asked for later than it, none of
them behind `|`. -/
def Correct (args : List Word) : Prop :=
  args ≠ [] ∧ ∀ left symbol right, args = left ++ symbol :: right → IsSymbol symbol →
    (∀ word ∈ left, ¬IsSymbol word) →
      left ≠ [] ∧ right ≠ [] ∧
        ∀ word ∈ right, IsSymbol word → symbol ≠ bar ∧ Earlier symbol word

/-- Words with a symbol have a first one. -/
theorem exists_first_symbol (hmem : symbol ∈ words) (hsymbol : IsSymbol symbol) :
    ∃ left first right, words = left ++ first :: right ∧ IsSymbol first ∧
      ∀ word ∈ left, ¬IsSymbol word := by
  induction words with
  | nil => cases hmem
  | cons word words ih =>
    by_cases hword : IsSymbol word
    · exact ⟨[], word, words, rfl, hword, by simp⟩
    · rcases List.mem_cons.mp hmem with rfl | hmem
      · exact absurd hsymbol hword
      · obtain ⟨left, first, right, rfl, hfirst, hleft⟩ := ih hmem
        exact ⟨word :: left, first, right, rfl, hfirst, List.forall_mem_cons.mpr ⟨hword, hleft⟩⟩

/-- And only one. -/
theorem first_symbol_unique (h : left ++ symbol :: right = left' ++ symbol' :: right')
    (hsymbol : IsSymbol symbol) (hsymbol' : IsSymbol symbol')
    (hleft : ∀ word ∈ left, ¬IsSymbol word) (hleft' : ∀ word ∈ left', ¬IsSymbol word) :
    left = left' ∧ symbol = symbol' ∧ right = right' := by
  induction left generalizing left' with
  | nil =>
    cases left' with
    | nil => exact ⟨rfl, List.cons.inj h⟩
    | cons word left' =>
      obtain ⟨rfl, -⟩ := List.cons.inj h
      exact absurd hsymbol (hleft' _ List.mem_cons_self)
  | cons word left ih =>
    cases left' with
    | nil =>
      obtain ⟨rfl, -⟩ := List.cons.inj h
      exact absurd hsymbol' (hleft _ List.mem_cons_self)
    | cons word' left' =>
      obtain ⟨rfl, hrest⟩ := List.cons.inj h
      obtain ⟨rfl, hsame⟩ := ih hrest (List.forall_mem_cons.mp hleft).2
        (List.forall_mem_cons.mp hleft').2
      exact ⟨rfl, hsame⟩

/-- Whether arguments are correct, told by the place where they are cut. -/
theorem correct_iff_of_cut (h : CutAt words symbol left right) (hsymbol : IsSymbol symbol) :
    Correct words ↔
      Runnable left ∧ right ≠ [] ∧ (symbol = bar → ∀ word ∈ right, ¬IsSymbol word) := by
  constructor
  · rintro ⟨-, hcorrect⟩
    obtain ⟨before, first, after, hwords, hfirst, hbefore⟩ := exists_first_symbol h.mem hsymbol
    obtain ⟨hne, hne', hlater⟩ := hcorrect before first after hwords hfirst hbefore
    have hmem : first ∈ words := by rw [hwords]; simp
    have hbehind : symbol ∉ after := fun hin =>
      h.first first hfirst (hlater symbol hin hsymbol).2 hmem
    have hsame : symbol = first := by
      have hin := h.mem
      rw [hwords] at hin
      rcases List.mem_append.mp hin with hin | hin
      · exact absurd hsymbol (hbefore symbol hin)
      · exact (List.mem_cons.mp hin).resolve_right hbehind
    subst hsame
    obtain ⟨rfl, rfl⟩ := last_place_unique (hwords.symm.trans h.words_eq) hbehind h.last
    refine ⟨⟨hne, hbefore⟩, hne', fun hbar word hword hin => ?_⟩
    exact (hlater word hword hin).1 hbar
  · rintro ⟨⟨hne, hleft⟩, hne', hpipe⟩
    refine ⟨by rw [h.words_eq]; simp, fun before first after hwords hfirst hbefore => ?_⟩
    obtain ⟨rfl, rfl, rfl⟩ :=
      first_symbol_unique (h.words_eq.symm.trans hwords) hsymbol hfirst hleft hbefore
    refine ⟨hne, hne', fun word hword hin => ⟨fun hbar => hpipe hbar word hword hin, ?_⟩⟩
    have hmem : word ∈ words := by rw [h.words_eq]; simp [hword]
    rcases eq_or_earlier hsymbol hin with rfl | hearlier | hearlier
    · exact absurd hword h.last
    · exact hearlier
    · exact absurd hmem (h.first word hin hearlier)

/-- Without symbols there only have to be arguments. -/
theorem correct_iff_of_plain (hnone : ∀ word ∈ words, ¬IsSymbol word) :
    Correct words ↔ Runnable words := by
  refine ⟨fun h => ⟨h.1, hnone⟩, fun h => ⟨h.1, ?_⟩⟩
  intro left symbol right hwords hsymbol
  exact absurd hsymbol (hnone symbol (by rw [hwords]; simp))

/-- A program with its arguments makes a well-formed call. -/
theorem Runnable.head? (h : Runnable words) : words.head? ≠ none := by
  rw [Ne, List.head?_eq_none_iff]
  exact h.1

/-- The calls of a pipeline between two programs are well formed. -/
theorem pipePlan_wellFormed (k : Kernel Pid Object) (table : Table Object)
    (hleft : Runnable left) (hright : Runnable right) :
    WellFormedCalls (pipePlan k table left right) := by
  have hfirst := hleft.head?
  have hsecond := hright.head?
  unfold pipePlan
  cases k.pipe with
  | none => simp [WellFormedCalls]
  | some ends =>
    cases k.fork1 with
    | none => simp [WellFormedCalls]
    | some pid1 =>
      cases k.fork2 with
      | none => simpa [WellFormedCalls, hleft.1] using hleft.2
      | some pid2 => simpa [WellFormedCalls, hleft.1, hright.1] using ⟨hleft.2, hright.2⟩

/-- When nothing is refused, only those. -/
theorem runnable_of_pipePlan (hk : Succeeds k)
    (h : WellFormedCalls (pipePlan k table left right)) : Runnable left ∧ Runnable right := by
  obtain ⟨pid1, hfork1⟩ := Option.ne_none_iff_exists'.mp hk.fork1
  obtain ⟨pid2, hfork2⟩ := Option.ne_none_iff_exists'.mp hk.fork2
  unfold pipePlan at h
  cases hpipe : k.pipe with
  | none => exact absurd hpipe hk.pipe
  | some ends =>
    rw [hpipe, hfork1, hfork2] at h
    have hfirst := (h _ List.mem_cons_self).1 _ rfl
    have hsecond := (h _ (List.mem_cons_of_mem _ List.mem_cons_self)).1 _ rfl
    simp only [ne_eq, List.head?_eq_none_iff] at hfirst hsecond
    exact ⟨hfirst, hsecond⟩

/-- The calls of a redirection of a program to a path are well formed. -/
theorem redirectPlan_wellFormed (flags : OpenFlags) (target : ℕ) (k : Kernel Pid Object)
    (table : Table Object) (hleft : Runnable left) (hright : right ≠ []) :
    WellFormedCalls (redirectPlan flags target k table left right.head?) := by
  unfold redirectPlan
  cases k.fork1 with
  | none => simp [WellFormedCalls]
  | some pid =>
    cases k.opened with
    | none => simpa [WellFormedCalls] using hright
    | some file => simpa [WellFormedCalls, hleft.1, hright] using hleft.2

/-- When nothing is refused, only those. -/
theorem runnable_of_redirectPlan (hk : Succeeds k)
    (h : WellFormedCalls (redirectPlan flags target k table left right.head?)) :
    Runnable left ∧ right ≠ [] := by
  obtain ⟨pid, hfork⟩ := Option.ne_none_iff_exists'.mp hk.fork1
  unfold redirectPlan at h
  cases hopened : k.opened with
  | none => exact absurd hopened hk.opened
  | some file =>
    rw [hfork, hopened] at h
    have hchild := h _ List.mem_cons_self
    have hexec := hchild.1 _ rfl
    have hopen := hchild.2 _ List.mem_cons_self
    simp only [ne_eq, List.head?_eq_none_iff] at hexec hopen
    exact ⟨hexec, hopen⟩

/-- The call of a plain command is well formed when it is a program. -/
theorem plainPlan_wellFormed (k : Kernel Pid Object) (table : Table Object) (bgProcess : Bool)
    (h : Runnable words) : WellFormedCalls (plainPlan k table words bgProcess) := by
  unfold plainPlan
  cases k.fork1 with
  | none => simp [WellFormedCalls]
  | some pid => simpa [WellFormedCalls, h.1] using h.2

/-- When nothing is refused, only then. -/
theorem runnable_of_plainPlan {bgProcess : Bool} (hk : Succeeds k)
    (h : WellFormedCalls (plainPlan k table words bgProcess)) : Runnable words := by
  obtain ⟨pid, hfork⟩ := Option.ne_none_iff_exists'.mp hk.fork1
  unfold plainPlan at h
  rw [hfork] at h
  have hexec := (h _ List.mem_cons_self).1 _ rfl
  simp only [ne_eq, List.head?_eq_none_iff] at hexec
  exact hexec

/-- The calls of a correct line are well formed, whatever the kernel answers. -/
theorem planOf_wellFormed (k : Kernel Pid Object) (table : Table Object)
    (h : Correct (arguments words)) : WellFormedCalls (planOf k table words) := by
  rcases cut_cases words with
    ⟨left, right, hcut⟩ | ⟨symbol, flags, target, left, right, hredirection, hcut⟩ | hnone
  · obtain ⟨hleft, hne, hright⟩ := (correct_iff_of_cut hcut (.inl rfl)).mp h
    rw [planOf_pipe k table hcut]
    exact pipePlan_wellFormed k table hleft ⟨hne, hright rfl⟩
  · obtain ⟨hleft, hne, -⟩ := (correct_iff_of_cut hcut hredirection.isSymbol).mp h
    rw [planOf_redirect k table hredirection hcut]
    exact redirectPlan_wellFormed flags target k table hleft hne
  · rw [planOf_plain k table hnone]
    exact plainPlan_wellFormed k table _ ((correct_iff_of_plain hnone).mp h)

/-- When nothing is refused, only correct lines have well-formed calls. -/
theorem correct_of_planOf (hk : Succeeds k)
    (h : WellFormedCalls (planOf k table words)) : Correct (arguments words) := by
  rcases cut_cases words with
    ⟨left, right, hcut⟩ | ⟨symbol, flags, target, left, right, hredirection, hcut⟩ | hnone
  · rw [planOf_pipe k table hcut] at h
    obtain ⟨hleft, hright⟩ := runnable_of_pipePlan hk h
    exact (correct_iff_of_cut hcut (.inl rfl)).mpr ⟨hleft, hright.1, fun _ => hright.2⟩
  · rw [planOf_redirect k table hredirection hcut] at h
    obtain ⟨hleft, hright⟩ := runnable_of_redirectPlan hk h
    refine (correct_iff_of_cut hcut hredirection.isSymbol).mpr ⟨hleft, hright, fun hbar => ?_⟩
    exact absurd hbar hredirection.ne_bar
  · rw [planOf_plain k table hnone] at h
    exact (correct_iff_of_plain hnone).mpr (runnable_of_plainPlan hk h)

/-- On every line for which `process_arglist` is called: the calls of a
correct line are well formed, and those of other lines are not, when the
kernel refuses nothing. -/
theorem line_wellFormed (k : Kernel Pid Object) (table : Table Object) {line : List Byte}
    (hne : wordsOf (cString line) ≠ []) :
    ∃ outcome, mainLoop k table line = some (some outcome) ∧
      (Correct (arguments (wordsOf (cString line))) → WellFormedCalls outcome) ∧
      (Succeeds k → WellFormedCalls outcome → Correct (arguments (wordsOf (cString line)))) :=
  ⟨_, mainLoop_eq k table hne, planOf_wellFormed k table, correct_of_planOf⟩

/-- The line `ls | wc` is correct. -/
theorem line_wellFormed_pipeline :
    ∃ outcome, mainLoop granting standard [0x6c, 0x73, 0x20, 0x7c, 0x20, 0x77, 0x63, 0x0a] =
        some (some outcome) ∧ WellFormedCalls outcome := by
  have hne : wordsOf (cString [0x6c, 0x73, 0x20, 0x7c, 0x20, 0x77, 0x63, 0x0a]) ≠ [] := by decide
  obtain ⟨outcome, hline, hcorrect, -⟩ := line_wellFormed granting standard hne
  have hcut : CutAt (arguments (wordsOf (cString [0x6c, 0x73, 0x20, 0x7c, 0x20, 0x77, 0x63, 0x0a])))
      bar [[0x6c, 0x73]] [[0x77, 0x63]] := cutAt_of_single (by decide) (.inl rfl) (by decide)
  have hrunnable : Runnable [[0x6c, 0x73]] := ⟨by decide, by decide⟩
  have hlineCorrect := (correct_iff_of_cut hcut (.inl rfl)).mpr
    ⟨hrunnable, by decide, fun _ => by decide⟩
  exact ⟨outcome, hline, hcorrect hlineCorrect⟩

/-- Of `ls |` the second child gets no program. -/
theorem line_not_wellFormed :
    ∃ outcome, mainLoop granting standard [0x6c, 0x73, 0x20, 0x7c, 0x0a] =
        some (some outcome) ∧ ¬WellFormedCalls outcome := by
  have hne : wordsOf (cString [0x6c, 0x73, 0x20, 0x7c, 0x0a]) ≠ [] := by decide
  refine ⟨_, mainLoop_eq _ _ hne, fun h => ?_⟩
  have hcut : CutAt (arguments (wordsOf (cString [0x6c, 0x73, 0x20, 0x7c, 0x0a]))) bar
      [[0x6c, 0x73]] [] := cutAt_of_single (by decide) (.inl rfl) (by decide)
  rw [planOf_pipe _ _ hcut] at h
  exact (h _ (List.mem_cons_of_mem _ List.mem_cons_self)).1 _ rfl |>.1 rfl

/-- Nothing is waited for, and no child gets the last word. -/
def InBackground (words : List Word) (outcome : Outcome Pid Object) : Prop :=
  outcome.waited = [] ∧
    ∀ child ∈ outcome.children, ∀ exec ∈ child.exec, exec.argv <:+: words.dropLast

/-- A branch ends early, for want of a pipe or of a process. -/
def Refused (k : Kernel Pid Object) : Branch → Prop
  | .pipe _ => k.pipe = none ∨ k.fork1 = none ∨ k.fork2 = none
  | _ => k.fork1 = none

/-- The words on the left of a cut. -/
theorem CutAt.left_infix (h : CutAt words symbol left right) : left <:+: words :=
  ⟨[], symbol :: right, by rw [h.words_eq, List.nil_append]⟩

/-- And on the right. -/
theorem CutAt.right_infix (h : CutAt words symbol left right) : right <:+: words :=
  ⟨left ++ [symbol], [], by rw [h.words_eq, List.append_nil, List.append_assoc]; rfl⟩

/-- A pipeline waits unless it ends early. -/
theorem pipePlan_waited (k : Kernel Pid Object) (table : Table Object) (left right : List Word) :
    (pipePlan k table left right).waited = [] ↔
      k.pipe = none ∨ k.fork1 = none ∨ k.fork2 = none := by
  unfold pipePlan
  cases k.pipe with
  | none => simp
  | some ends =>
    cases k.fork1 with
    | none => simp
    | some pid1 => cases k.fork2 <;> simp

/-- So does a redirection. -/
theorem redirectPlan_waited (flags : OpenFlags) (target : ℕ) (k : Kernel Pid Object)
    (table : Table Object) (left : List Word) (path : Option Word) :
    (redirectPlan flags target k table left path).waited = [] ↔ k.fork1 = none := by
  unfold redirectPlan
  cases k.fork1 with
  | none => simp
  | some pid => cases k.opened <;> simp

/-- A plain command with `&` never waits. -/
theorem plainPlan_waited (k : Kernel Pid Object) (table : Table Object) (words : List Word) :
    (plainPlan k table words true).waited = [] := by
  unfold plainPlan
  cases k.fork1 <;> rfl

/-- A child gets arguments that stand together on the line. -/
theorem planOf_argv (k : Kernel Pid Object) (table : Table Object) (words : List Word) :
    ∀ child ∈ (planOf k table words).children, ∀ exec ∈ child.exec,
      exec.argv <:+: arguments words := by
  rcases cut_cases words with
    ⟨left, right, hcut⟩ | ⟨symbol, flags, target, left, right, hredirection, hcut⟩ | hnone
  · have hleft := CutAt.left_infix hcut
    have hright := CutAt.right_infix hcut
    rw [planOf_pipe k table hcut, pipePlan]
    cases k.pipe with
    | none => simp
    | some ends =>
      cases k.fork1 with
      | none => simp
      | some pid1 => cases k.fork2 <;> simp [hleft, hright]
  · have hleft := CutAt.left_infix hcut
    rw [planOf_redirect k table hredirection hcut, redirectPlan]
    cases k.fork1 with
    | none => simp
    | some pid => cases k.opened <;> simp [hleft]
  · rw [planOf_plain k table hnone, plainPlan]
    cases k.fork1 <;> simp

/-- A command with `&` runs in the background if and only if no symbol
stands before the `&`, or its branch ends early. -/
theorem background_iff (k : Kernel Pid Object) (table : Table Object) {words : List Word}
    (hlast : words.getLast? = some ampersand) :
    ∃ outcome, processArglist k table words.length (words.map some ++ [none]) = some outcome ∧
      (InBackground words outcome ↔
        (∀ word ∈ words.dropLast, ¬IsSymbol word) ∨ Refused k (branchOf words)) := by
  have hbg : bgProcess words = true := by simp [bgProcess, hlast]
  have harguments : arguments words = words.dropLast := by rw [arguments, if_pos hbg]
  have hargv := planOf_argv k table words
  rw [harguments] at hargv
  refine ⟨_, processArglist_eq k table words, ?_⟩
  rw [InBackground, and_iff_left hargv, ← harguments]
  rcases cut_cases words with
    ⟨left, right, hcut⟩ | ⟨symbol, flags, target, left, right, hredirection, hcut⟩ | hnone
  · have hsome : ¬∀ word ∈ arguments words, ¬IsSymbol word := fun h => h bar hcut.mem (.inl rfl)
    have hbranch : branchOf words = .pipe left.length := branchOf_of_cut (.inl rfl) hcut
    rw [planOf_pipe k table hcut, pipePlan_waited, or_iff_right hsome, hbranch]
    rfl
  · have hsome : ¬∀ word ∈ arguments words, ¬IsSymbol word := fun h =>
      h symbol hcut.mem hredirection.isSymbol
    have hbranch := branchOf_of_cut hredirection.isSymbol hcut
    rw [planOf_redirect k table hredirection hcut, redirectPlan_waited, or_iff_right hsome, hbranch]
    cases hredirection <;> rfl
  · rw [planOf_plain k table hnone, hbg, plainPlan_waited]
    exact iff_of_true rfl (.inl hnone)

/-- The words `sleep`, `5` and `&`. -/
theorem background_iff_sleep :
    ∃ outcome, processArglist granting standard 3
        [some [0x73, 0x6c, 0x65, 0x65, 0x70], some [0x35], some ampersand, none] = some outcome ∧
      InBackground [[0x73, 0x6c, 0x65, 0x65, 0x70], [0x35], ampersand] outcome := by
  have hlast : List.getLast? [[0x73, 0x6c, 0x65, 0x65, 0x70], [0x35], ampersand] =
      some ampersand := rfl
  obtain ⟨outcome, hcall, hiff⟩ := background_iff granting standard hlast
  exact ⟨outcome, hcall, hiff.mpr (.inl (by decide))⟩

/-- The shell waits for the child of `sleep 5 > f &`. -/
theorem background_fails :
    ∃ outcome, processArglist granting standard 5
        [some [0x73, 0x6c, 0x65, 0x65, 0x70], some [0x35], some greater, some [0x66],
          some ampersand, none] = some outcome ∧
      ¬InBackground [[0x73, 0x6c, 0x65, 0x65, 0x70], [0x35], greater, [0x66], ampersand]
        outcome := by
  have hcut : CutAt (arguments [[0x73, 0x6c, 0x65, 0x65, 0x70], [0x35], greater, [0x66], ampersand])
      greater [[0x73, 0x6c, 0x65, 0x65, 0x70], [0x35]] [[0x66]] :=
    cutAt_of_single (by decide) (.inr (.inr (.inl rfl))) (by decide)
  refine ⟨_, processArglist_eq _ _
    [[0x73, 0x6c, 0x65, 0x65, 0x70], [0x35], greater, [0x66], ampersand], fun h => ?_⟩
  rw [planOf_redirect _ _ .output hcut] at h
  exact List.cons_ne_nil _ _ h.1

end OSCourse.ShellCommands
