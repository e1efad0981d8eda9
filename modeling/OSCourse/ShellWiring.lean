import OSCourse.ShellPlan

/-!
# How the shell wires its children

The descriptors of the children at their `execvp`, and those of the shell
when `process_arglist` returns, for any table in which descriptor 0 is open.
The two ends of a pipe then never land on the descriptors that they are
copied to, but the file of a redirection may, and is closed.
-/

namespace OSCourse.ShellWiring

open ShellArglist ShellTokens ShellProcess ShellPlan DescriptorTable

variable {Pid Object : Type} {k : Kernel Pid Object} {table : Table Object} {words : List Word}
  {fd0 fd1 : ℕ} {readEnd writeEnd : Object} {pid pid1 pid2 : Pid}

/-- With descriptor 0 open, new objects get other numbers. -/
theorem lowestFree_pos (h0 : table.entry 0 ≠ none) : 0 < table.lowestFree := by
  refine lt_lowestFree fun other hother => ?_
  rw [Nat.le_zero.mp hother]
  exact h0

/-- The first child writes to the pipe and holds nothing else of it. -/
theorem firstTable_eq (h0 : table.entry fd0 = none) (h1 : table.entry fd1 = none)
    (hne : fd0 ≠ fd1) (hstdout : fd1 ≠ 1) (hdup : k.dup2First = true) :
    firstTable k ((table.put fd0 (some readEnd)).put fd1 (some writeEnd)) (fd0, fd1) =
      table.put 1 (some writeEnd) := by
  unfold firstTable ShellProcess.dup2
  rw [if_pos hdup, close_first h0 hne, move_put h1 hstdout]

/-- The second child reads from it and holds nothing else of it. -/
theorem secondTable_eq (h0 : table.entry fd0 = none) (h1 : table.entry fd1 = none)
    (hne : fd0 ≠ fd1) (hstdin : fd0 ≠ 0) (hdup : k.dup2Second = true) :
    secondTable k ((table.put fd0 (some readEnd)).put fd1 (some writeEnd)) (fd0, fd1) =
      table.put 0 (some readEnd) := by
  unfold secondTable ShellProcess.dup2
  rw [if_pos hdup, close_second h1 hne, move_put h0 hstdin]

/-- The two sides of a pipeline when nothing is refused. -/
theorem pipePlan_wired (h0 : table.entry 0 ≠ none) (hpipe : k.pipe = some (readEnd, writeEnd))
    (hfork1 : k.fork1 = some pid1) (hfork2 : k.fork2 = some pid2) (hdup1 : k.dup2First = true)
    (hdup2 : k.dup2Second = true) (left right : List Word) :
    pipePlan k table left right =
      ⟨1, [⟨pid1, [], some ⟨left.head?, left, table.put 1 (some writeEnd)⟩⟩,
        ⟨pid2, [], some ⟨right.head?, right, table.put 0 (some readEnd)⟩⟩], [pid1, pid2],
        table⟩ := by
  have hpos := lowestFree_pos h0
  have hlt := lowestFree_put table readEnd
  have hfree := entry_lowestFree (table.put table.lowestFree (some readEnd))
  simp only [pipePlan, hpipe, hfork1, hfork2, Table.install]
  generalize (table.put table.lowestFree (some readEnd)).lowestFree = fd1 at hlt hfree ⊢
  rw [put_entry_of_ne table _ (by omega)] at hfree
  have hread := entry_lowestFree table
  rw [firstTable_eq hread hfree (by omega) (by omega) hdup1,
    secondTable_eq hread hfree (by omega) (by omega) hdup2,
    close_first hread (by omega), close_put hfree]

/-- A command with `|`, when the kernel refuses nothing and both ends of the
pipe are new: the first child has the descriptors of the shell but for the
write end at descriptor 1, the second has them but for the read end at
descriptor 0, and the shell has its own again. So the write end is open at
descriptor 1 of the first child alone. -/
theorem pipeline_wired (h0 : table.entry 0 ≠ none) (hbar : bar ∈ words)
    (hpipe : k.pipe = some (readEnd, writeEnd)) (hfork1 : k.fork1 = some pid1)
    (hfork2 : k.fork2 = some pid2) (hdup1 : k.dup2First = true) (hdup2 : k.dup2Second = true)
    (hends : readEnd ≠ writeEnd) (hnew : ∀ fd, table.entry fd ≠ some writeEnd) :
    ∃ outcome exec1 exec2,
      processArglist k table words.length (words.map some ++ [none]) = some outcome ∧
        outcome.children = [⟨pid1, [], some exec1⟩, ⟨pid2, [], some exec2⟩] ∧
        exec1.table = table.put 1 (some writeEnd) ∧ exec2.table = table.put 0 (some readEnd) ∧
        outcome.table = table ∧
        (∀ fd, exec1.table.entry fd = some writeEnd ↔ fd = 1) ∧
        (∀ fd, exec2.table.entry fd ≠ some writeEnd) ∧
        ∀ fd, outcome.table.entry fd ≠ some writeEnd := by
  obtain ⟨left, right, hcut⟩ := exists_cut_of_bar (mem_arguments hbar (by decide))
  refine ⟨_, ⟨left.head?, left, table.put 1 (some writeEnd)⟩,
    ⟨right.head?, right, table.put 0 (some readEnd)⟩, processArglist_eq k table words, ?_⟩
  rw [planOf_pipe k table hcut, pipePlan_wired h0 hpipe hfork1 hfork2 hdup1 hdup2]
  refine ⟨rfl, rfl, rfl, rfl, fun fd => ?_, fun fd => ?_, hnew⟩
  · by_cases hfd : fd = 1
    · simp [hfd]
    · simpa [hfd, put_entry_of_ne table _ hfd] using hnew fd
  · by_cases hfd : fd = 0
    · simpa [hfd] using hends
    · simpa [put_entry_of_ne table _ hfd] using hnew fd

/-- On `ls | wc` with the standard descriptors. -/
theorem pipeline_wired_standard :
    ∃ outcome exec1 exec2,
      processArglist granting standard 3
          [some [0x6c, 0x73], some bar, some [0x77, 0x63], none] = some outcome ∧
        outcome.children = [⟨1, [], some exec1⟩, ⟨2, [], some exec2⟩] ∧
        exec1.table = standard.put 1 (some 4) ∧ exec2.table = standard.put 0 (some 3) ∧
        outcome.table = standard := by
  have hbar : bar ∈ [[0x6c, 0x73], bar, [0x77, 0x63]] := by decide
  have hnew : ∀ fd, standard.entry fd ≠ some 4 := by
    intro fd
    rcases fd with _ | _ | _ | fd
    · decide
    · decide
    · decide
    · simp [standard, Table.ofList]
  obtain ⟨outcome, exec1, exec2, hcall, hchildren, hfirst, hsecond, htable, -⟩ :=
    pipeline_wired (show standard.entry 0 ≠ none by decide) hbar (show granting.pipe = _ from rfl)
      rfl rfl rfl rfl (by decide) hnew
  exact ⟨outcome, exec1, exec2, hcall, hchildren, hfirst, hsecond, htable⟩

/-- The descriptor that a branch replaces. -/
def targetOf : Branch → Option ℕ
  | .inputRedirect _ => some 0
  | .outputRedirect _ => some 1
  | .outputAppend _ => some 1
  | _ => none

/-- Such a branch is that of a redirection. -/
theorem exists_redirection {target : ℕ} (htarget : targetOf (branchOf words) = some target) :
    ∃ symbol flags left right, Redirection symbol flags target ∧
      CutAt (arguments words) symbol left right := by
  rcases branchOf_cases words with ⟨_, hplain⟩ | ⟨symbol, left, right, hsymbol, hcut, hbranch⟩
  · rw [hplain] at htarget
    cases htarget
  · rw [hbranch] at htarget
    rcases hsymbol with rfl | rfl | rfl | rfl
    · cases htarget
    · cases htarget
      exact ⟨_, _, left, right, .input, hcut⟩
    · cases htarget
      exact ⟨_, _, left, right, .output, hcut⟩
    · cases htarget
      exact ⟨_, _, left, right, .append, hcut⟩

/-- The child of a redirection has the file at the descriptor that is
replaced and nowhere else, and all else is as in the shell. -/
structure Wired (table : Table Object) (target : ℕ) (file : Object) (exec : ExecCall Object)
    (outcome : Outcome Pid Object) : Prop where
  replaced : exec.table.entry target = some file
  others : ∀ fd, fd ≠ target → exec.table.entry fd = table.entry fd
  shell : outcome.table = table

/-- The descriptors of the child of a redirection when nothing is refused. -/
def redirected (table : Table Object) (target : ℕ) (file : Object) : Table Object :=
  (((table.put table.lowestFree (some file)).dup2 table.lowestFree target).close table.lowestFree)

/-- They are right unless the file was opened at the descriptor it is for. -/
theorem redirected_iff (table : Table Object) (target : ℕ) (file : Object) :
    ((redirected table target file).entry target = some file ∧
      ∀ fd, fd ≠ target → (redirected table target file).entry fd = table.entry fd) ↔
      table.lowestFree ≠ target := by
  have hfree := entry_lowestFree table
  unfold redirected
  by_cases hsame : table.lowestFree = target
  · rw [hsame] at hfree ⊢
    rw [move_self hfree, hfree]
    simp
  · rw [move_put hfree hsame]
    refine iff_of_true ⟨put_entry_self _ _ _, fun fd hfd => ?_⟩ hsame
    exact put_entry_of_ne table _ hfd

/-- With descriptor 0 open that happens to descriptor 1 when it is closed. -/
theorem lowestFree_ne_iff (h0 : table.entry 0 ≠ none) {target : ℕ}
    (htarget : target = 0 ∨ target = 1) :
    table.lowestFree ≠ target ↔ target = 0 ∨ table.entry 1 ≠ none := by
  have hpos := lowestFree_pos h0
  rcases htarget with rfl | rfl
  · exact iff_of_true (by omega) (.inl rfl)
  · constructor
    · intro hne
      refine .inr fun hnone => ?_
      have hle := lowestFree_le hnone
      omega
    · rintro (hzero | hopen) heq
      · omega
      · rw [← heq] at hopen
        exact hopen (entry_lowestFree table)

/-- The child of a redirection when nothing is refused. -/
theorem redirectPlan_wired {file : Object} (hfork : k.fork1 = some pid)
    (hopen : k.opened = some file) (hdup : k.dup2First = true) (flags : OpenFlags) (target : ℕ)
    (table : Table Object) (left : List Word) (path : Option Word) :
    redirectPlan flags target k table left path =
      ⟨1, [⟨pid, [⟨path, flags⟩], some ⟨left.head?, left, redirected table target file⟩⟩], [pid],
        table⟩ := by
  simp only [redirectPlan, hfork, hopen, Table.install, ShellProcess.dup2, hdup, if_true,
    redirected]

/-- A command with a redirection, when the kernel refuses nothing: its child
is wired as it should be if and only if descriptor 0 is replaced or
descriptor 1 was open. -/
theorem redirection_wired_iff {target : ℕ} {file : Object} (h0 : table.entry 0 ≠ none)
    (htarget : targetOf (branchOf words) = some target) (hfork : k.fork1 = some pid)
    (hopen : k.opened = some file) (hdup : k.dup2First = true) :
    ∃ outcome opens exec,
      processArglist k table words.length (words.map some ++ [none]) = some outcome ∧
        outcome.children = [⟨pid, opens, some exec⟩] ∧
        (Wired table target file exec outcome ↔ target = 0 ∨ table.entry 1 ≠ none) := by
  obtain ⟨symbol, flags, left, right, hredirection, hcut⟩ := exists_redirection htarget
  refine ⟨_, [⟨right.head?, flags⟩], ⟨left.head?, left, redirected table target file⟩,
    processArglist_eq k table words, ?_⟩
  rw [planOf_redirect k table hredirection hcut, redirectPlan_wired hfork hopen hdup,
    ← lowestFree_ne_iff h0 hredirection.target_cases, ← redirected_iff table target file]
  exact ⟨rfl, fun h => ⟨h.replaced, h.others⟩, fun h => ⟨h.1, h.2, rfl⟩⟩

/-- On `ls > f` with the standard descriptors. -/
theorem redirection_wired_iff_standard :
    ∃ outcome opens exec,
      processArglist granting standard 3 [some [0x6c, 0x73], some greater, some [0x66], none] =
          some outcome ∧
        outcome.children = [⟨1, opens, some exec⟩] ∧ Wired standard 1 5 exec outcome := by
  have h0 : standard.entry 0 ≠ none := by decide
  have htarget : targetOf (branchOf [[0x6c, 0x73], greater, [0x66]]) = some 1 := by decide
  obtain ⟨outcome, opens, exec, hcall, hchildren, hiff⟩ :=
    redirection_wired_iff h0 htarget (show granting.fork1 = _ from rfl) rfl rfl
  exact ⟨outcome, opens, exec, hcall, hchildren, hiff.mpr (.inr (by decide))⟩

/-- When descriptor 1 of the shell is closed, the child of `ls > f` runs
without it. -/
theorem redirection_not_wired :
    ∃ outcome opens exec,
      processArglist granting (Table.ofList [some 0, none, some 2]) 3
          [some [0x6c, 0x73], some greater, some [0x66], none] = some outcome ∧
        outcome.children = [⟨1, opens, some exec⟩] ∧
        exec.table.entry 1 = none ∧
        ¬Wired (Table.ofList [some 0, none, some 2]) 1 5 exec outcome := by
  have hcut : CutAt (arguments [[0x6c, 0x73], greater, [0x66]]) greater [[0x6c, 0x73]] [[0x66]] :=
    cutAt_of_single (by decide) (.inr (.inr (.inl rfl))) (by decide)
  have hfree : (Table.ofList [some 0, none, some 2]).lowestFree = 1 := lowestFree_eq rfl (by decide)
  have hlost : (redirected (Table.ofList [some 0, none, some 2]) 1 5).entry 1 = none := by
    rw [redirected, hfree, move_self rfl]
    rfl
  refine ⟨_, [⟨some [0x66], createTruncate⟩],
    ⟨some [0x6c, 0x73], [[0x6c, 0x73]], redirected (Table.ofList [some 0, none, some 2]) 1 5⟩,
    processArglist_eq _ _ [[0x6c, 0x73], greater, [0x66]], ?_⟩
  rw [planOf_redirect _ _ .output hcut, redirectPlan_wired rfl rfl rfl]
  refine ⟨rfl, hlost, fun h => ?_⟩
  rw [h.replaced] at hlost
  cases hlost

end OSCourse.ShellWiring
