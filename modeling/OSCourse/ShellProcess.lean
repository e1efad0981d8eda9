import OSCourse.DescriptorTable
import OSCourse.ShellTokens

/-!
# What `process_arglist` starts

One call of `process_arglist` on the array that `main` filled, with what the
kernel answers to it: it overwrites entries of the array, forks children
that work on copies of the array and of the descriptor table, and waits.
Of an array that holds its words in front of a NULL each branch starts
exactly the words before its symbol, or behind it.
-/

namespace OSCourse.ShellProcess

open ShellArglist ShellTokens DescriptorTable

variable {Pid Object : Type}

/-- `arglist`: its entries, where NULL is none. -/
abbrev Arglist := List (Option Word)

/-- The flags and the mode of an `open`. -/
structure OpenFlags where
  /-- `O_WRONLY` instead of `O_RDONLY`. -/
  write : Bool
  /-- `O_CREAT`. -/
  create : Bool
  /-- `O_TRUNC`. -/
  truncate : Bool
  /-- `O_APPEND`. -/
  append : Bool
  /-- The mode of a created file. -/
  mode : ℕ
deriving DecidableEq

/-- `O_RDONLY`. -/
def readOnly : OpenFlags := ⟨false, false, false, false, 0⟩

/-- `O_WRONLY | O_CREAT | O_TRUNC, 0644`. -/
def createTruncate : OpenFlags := ⟨true, true, true, false, 0o644⟩

/-- `O_WRONLY | O_CREAT | O_APPEND, 0644`. -/
def createAppend : OpenFlags := ⟨true, true, false, true, 0o644⟩

/-- What the kernel answers during one call. -/
structure Kernel (Pid Object : Type) where
  /-- `pipe`: the read end and the write end, or an error. -/
  pipe : Option (Object × Object)
  /-- The first `fork`, in the shell; none for -1. -/
  fork1 : Option Pid
  /-- The second one. -/
  fork2 : Option Pid
  /-- `open` in a child: the open file, or an error. -/
  opened : Option Object
  /-- Whether `dup2` in the first child succeeds. -/
  dup2First : Bool
  /-- And in the second. -/
  dup2Second : Bool

/-- A kernel that refuses nothing, with numbers for processes and objects. -/
def granting : Kernel ℕ ℕ := ⟨some (3, 4), some 1, some 2, some 5, true, true⟩

/-- A shell with its three standard descriptors. -/
def standard : Table ℕ := Table.ofList [some 0, some 1, some 2]

/-- A call of `open`. -/
structure OpenCall where
  path : Option Word
  flags : OpenFlags

/-- A call of `execvp`, with the descriptors at that moment. -/
structure ExecCall (Object : Type) where
  file : Option Word
  argv : List Word
  table : Table Object

/-- What a child does: it opens files, and then calls `execvp` or exits. -/
structure ChildRun (Pid Object : Type) where
  pid : Pid
  opens : List OpenCall
  exec : Option (ExecCall Object)

/-- What a call of `process_arglist` did when it returns. -/
structure Outcome (Pid Object : Type) where
  /-- The return value. -/
  code : ℕ
  /-- The children, in the order of their forks. -/
  children : List (ChildRun Pid Object)
  /-- The children that `waitpid` was called for. -/
  waited : List Pid
  /-- The descriptors of the shell. -/
  table : Table Object

/-- The strings that a callee finds from an entry on, up to the first NULL;
none when it would leave the array. -/
def argvOf : Arglist → Option (List Word)
  | [] => none
  | none :: _ => some []
  | some word :: rest => (argvOf rest).map (word :: ·)

/-- `execvp(arglist[start], &arglist[start])`. -/
def execCall (arglist : Arglist) (start : ℕ) (table : Table Object) : Option (ExecCall Object) := do
  let file ← arglist[start]?
  let argv ← argvOf (arglist.drop start)
  some ⟨file, argv, table⟩

/-- A `dup2` that may fail. -/
def dup2 (success : Bool) (table : Table Object) (old new : ℕ) : Table Object :=
  if success then table.dup2 old new else table

/-- The test for a last `&`, which is taken out: `bg_process`, `count` and the array. -/
def stripAmpersand (count : ℕ) (arglist : Arglist) : Option (Bool × ℕ × Arglist) :=
  if 0 < count then
    match arglist[count - 1]? with
    | some (some word) =>
      if word = ampersand then some (true, count - 1, arglist.set (count - 1) none)
      else some (false, count, arglist)
    | _ => none
  else some (false, count, arglist)

/-- The loop over the entries, from an index on and as many as are left. -/
def scanEntries (arglist : Arglist) (indices : Indices) : ℕ → ℕ → Option Indices
  | _, 0 => some indices
  | i, left + 1 =>
    match arglist[i]? with
    | some (some word) => scanEntries arglist (indices.note i word) (i + 1) left
    | _ => none

/-- The descriptors of the first child of a pipeline at its `execvp`. -/
def firstTable (k : Kernel Pid Object) (table : Table Object) (pipefd : ℕ × ℕ) : Table Object :=
  (dup2 k.dup2First (table.close pipefd.1) pipefd.2 1).close pipefd.2

/-- The descriptors of the second child. -/
def secondTable (k : Kernel Pid Object) (table : Table Object) (pipefd : ℕ × ℕ) : Table Object :=
  (dup2 k.dup2Second (table.close pipefd.2) pipefd.1 0).close pipefd.1

/-- The branch of the pipe. -/
def pipeBranch (k : Kernel Pid Object) (table : Table Object) (arglist : Arglist)
    (pipeIndex : ℕ) : Option (Outcome Pid Object) :=
  match k.pipe with
  | none => some ⟨0, [], [], table⟩
  | some (readEnd, writeEnd) =>
    let (fd0, table) := table.install readEnd
    let (fd1, table) := table.install writeEnd
    match k.fork1 with
    | none => some ⟨0, [], [], table⟩
    | some pid1 => do
      let exec1 ← execCall (arglist.set pipeIndex none) 0 (firstTable k table (fd0, fd1))
      match k.fork2 with
      | none => some ⟨0, [⟨pid1, [], some exec1⟩], [], table⟩
      | some pid2 => do
        let exec2 ← execCall arglist (pipeIndex + 1) (secondTable k table (fd0, fd1))
        some ⟨1, [⟨pid1, [], some exec1⟩, ⟨pid2, [], some exec2⟩], [pid1, pid2],
          (table.close fd0).close fd1⟩

/-- The branches of a redirection, alike but for the index, the flags of
`open` and the descriptor that is replaced. -/
def redirectBranch (flags : OpenFlags) (target : ℕ) (k : Kernel Pid Object) (table : Table Object)
    (arglist : Arglist) (index : ℕ) : Option (Outcome Pid Object) :=
  match k.fork1 with
  | none => some ⟨0, [], [], table⟩
  | some pid => do
    let path ← arglist[index + 1]?
    match k.opened with
    | none => some ⟨1, [⟨pid, [⟨path, flags⟩], none⟩], [pid], table⟩
    | some file => do
      let (fd, child) := table.install file
      let exec ← execCall (arglist.set index none) 0 ((dup2 k.dup2First child fd target).close fd)
      some ⟨1, [⟨pid, [⟨path, flags⟩], some exec⟩], [pid], table⟩

/-- The branch of `<`. -/
def inputBranch (k : Kernel Pid Object) (table : Table Object) (arglist : Arglist)
    (inputRedirectIndex : ℕ) : Option (Outcome Pid Object) :=
  redirectBranch readOnly 0 k table arglist inputRedirectIndex

/-- The branch of `>`. -/
def outputBranch (k : Kernel Pid Object) (table : Table Object) (arglist : Arglist)
    (outputRedirectIndex : ℕ) : Option (Outcome Pid Object) :=
  redirectBranch createTruncate 1 k table arglist outputRedirectIndex

/-- The branch of `>>`. -/
def appendBranch (k : Kernel Pid Object) (table : Table Object) (arglist : Arglist)
    (outputAppendIndex : ℕ) : Option (Outcome Pid Object) :=
  redirectBranch createAppend 1 k table arglist outputAppendIndex

/-- The branch of all other commands, the only one that asks for `bg_process`. -/
def plainBranch (k : Kernel Pid Object) (table : Table Object) (arglist : Arglist)
    (bgProcess : Bool) : Option (Outcome Pid Object) :=
  match k.fork1 with
  | none => some ⟨0, [], [], table⟩
  | some pid => do
    let exec ← execCall arglist 0 table
    some ⟨1, [⟨pid, [], some exec⟩], if bgProcess then [] else [pid], table⟩

/-- `process_arglist`; none when an entry outside the array or a NULL is read. -/
def processArglist (k : Kernel Pid Object) (table : Table Object) (count : ℕ)
    (arglist : Arglist) : Option (Outcome Pid Object) := do
  let (bgProcess, count, arglist) ← stripAmpersand count arglist
  let indices ← scanEntries arglist ⟨none, none, none, none⟩ 0 count
  match indices.branch with
  | .pipe index => pipeBranch k table arglist index
  | .inputRedirect index => inputBranch k table arglist index
  | .outputRedirect index => outputBranch k table arglist index
  | .outputAppend index => appendBranch k table arglist index
  | .plain => plainBranch k table arglist bgProcess

/-- One round of the loop of `main` on a line: a call of `process_arglist`,
unless the line has no word. -/
def mainLoop (k : Kernel Pid Object) (table : Table Object) (line : List Byte) :
    Option (Option (Outcome Pid Object)) :=
  let arglist := entries (cString line)
  let count := arglist.length - 1
  if count ≠ 0 then (processArglist k table count arglist).map some else some none

/-- An array that holds some words in front of its first NULL. -/
def Terminated (arglist : Arglist) (words : List Word) : Prop :=
  ∃ rest, arglist = words.map some ++ none :: rest

variable {arglist : Arglist} {words left right : List Word} {i : ℕ} {table : Table Object}
  {k : Kernel Pid Object}

/-- A callee finds the words in front of the NULL. -/
theorem Terminated.argvOf (h : Terminated arglist words) : argvOf arglist = some words := by
  obtain ⟨rest, rfl⟩ := h
  induction words with
  | nil => rfl
  | cons word words ih =>
    rw [List.map_cons, List.cons_append, ShellProcess.argvOf, ih]
    rfl

/-- An entry up to the NULL. -/
theorem Terminated.entry (h : Terminated arglist words) (hi : i ≤ words.length) :
    arglist[i]? = some words[i]? := by
  obtain ⟨rest, rfl⟩ := h
  rcases Nat.lt_or_eq_of_le hi with hlt | rfl
  · rw [List.getElem?_append_left (by simpa using hlt), List.getElem?_map,
      List.getElem?_eq_getElem hlt, Option.map_some]
  · rw [List.getElem?_append_right (by simp)]
    simp

/-- From a later entry on the array holds the later words. -/
theorem Terminated.drop (h : Terminated arglist words) (hi : i ≤ words.length) :
    Terminated (arglist.drop i) (words.drop i) := by
  obtain ⟨rest, rfl⟩ := h
  refine ⟨rest, ?_⟩
  rw [List.drop_append_of_le_length (by simpa using hi), List.map_drop]

/-- Overwriting an entry with NULL ends the words there. -/
theorem Terminated.set (h : Terminated arglist words) (hi : i < words.length) :
    Terminated (arglist.set i none) (words.take i) := by
  obtain ⟨rest, rfl⟩ := h
  refine ⟨(words.drop (i + 1)).map some ++ none :: rest, ?_⟩
  rw [List.set_append_left _ _ (by simpa using hi),
    List.set_eq_take_append_cons_drop, if_pos (by simpa using hi), List.map_take, List.map_drop,
    List.append_assoc, List.cons_append]

/-- `execvp` on such an array: the first of the words as the program and all
of them as its arguments. -/
theorem Terminated.execCall (h : Terminated arglist words) (hi : i ≤ words.length)
    (table : Table Object) :
    execCall arglist i table = some ⟨(words.drop i).head?, words.drop i, table⟩ := by
  rw [ShellProcess.execCall, h.entry hi, (h.drop hi).argvOf, List.head?_drop]
  rfl

/-- The array that `main` passes. -/
theorem terminated_main (words : List Word) : Terminated (words.map some ++ [none]) words :=
  ⟨[], rfl⟩

/-- After the test for `&` the array holds the arguments, and their number is
the count. -/
theorem stripAmpersand_eq (words : List Word) :
    ∃ arglist, stripAmpersand words.length (words.map some ++ [none]) =
        some (bgProcess words, (arguments words).length, arglist) ∧
      Terminated arglist (arguments words) := by
  have hmain := terminated_main words
  rcases List.eq_nil_or_concat words with rfl | ⟨front, last, rfl⟩
  · exact ⟨[none], rfl, hmain⟩
  · rw [List.concat_eq_append] at hmain ⊢
    have hentry := hmain.entry (i := front.length) (by simp)
    rw [List.getElem?_concat_length] at hentry
    have hcount : (front ++ [last]).length - 1 = front.length := by simp
    have hpos : 0 < (front ++ [last]).length := by simp
    unfold stripAmpersand
    rw [if_pos hpos, hcount, hentry]
    dsimp only
    by_cases hlast : last = ampersand
    · have hbg : bgProcess (front ++ [last]) = true := by simp [bgProcess, hlast]
      have harguments : arguments (front ++ [last]) = front := by simp [arguments, hbg]
      have hset := hmain.set (i := front.length) (by simp)
      rw [List.take_left] at hset
      rw [if_pos hlast, hbg, harguments]
      exact ⟨_, rfl, hset⟩
    · have hbg : bgProcess (front ++ [last]) = false := by simp [bgProcess, hlast]
      have harguments : arguments (front ++ [last]) = front ++ [last] := by simp [arguments, hbg]
      rw [if_neg hlast, hbg, harguments]
      exact ⟨_, rfl, hmain⟩

/-- The loop over the entries reads the words and nothing else. -/
theorem scanEntries_eq (h : Terminated arglist (left ++ right)) (indices : Indices) :
    scanEntries arglist indices left.length right.length =
      some (indices.scan left.length right) := by
  induction right generalizing left indices with
  | nil => rfl
  | cons word right ih =>
    have hentry := h.entry (i := left.length) (by simp)
    rw [List.getElem?_append_right (Nat.le_refl _), Nat.sub_self, List.getElem?_cons_zero] at hentry
    have hmoved : Terminated arglist ((left ++ [word]) ++ right) := by simpa using h
    have hnext := ih hmoved (indices.note left.length word)
    rw [List.length_append, List.length_singleton] at hnext
    rw [List.length_cons, scanEntries, hentry]
    exact hnext

/-- The calls of a pipeline on the words of its two sides. -/
def pipePlan (k : Kernel Pid Object) (table : Table Object) (before after : List Word) :
    Outcome Pid Object :=
  match k.pipe with
  | none => ⟨0, [], [], table⟩
  | some (readEnd, writeEnd) =>
    let (fd0, table) := table.install readEnd
    let (fd1, table) := table.install writeEnd
    let first := firstTable k table (fd0, fd1)
    let second := secondTable k table (fd0, fd1)
    match k.fork1 with
    | none => ⟨0, [], [], table⟩
    | some pid1 =>
      match k.fork2 with
      | none => ⟨0, [⟨pid1, [], some ⟨before.head?, before, first⟩⟩], [], table⟩
      | some pid2 =>
        ⟨1, [⟨pid1, [], some ⟨before.head?, before, first⟩⟩,
          ⟨pid2, [], some ⟨after.head?, after, second⟩⟩], [pid1, pid2], (table.close fd0).close fd1⟩

/-- The calls of a redirection on the words before its symbol and the one behind it. -/
def redirectPlan (flags : OpenFlags) (target : ℕ) (k : Kernel Pid Object) (table : Table Object)
    (before : List Word) (path : Option Word) : Outcome Pid Object :=
  match k.fork1 with
  | none => ⟨0, [], [], table⟩
  | some pid =>
    match k.opened with
    | none => ⟨1, [⟨pid, [⟨path, flags⟩], none⟩], [pid], table⟩
    | some file =>
      let (fd, child) := table.install file
      ⟨1, [⟨pid, [⟨path, flags⟩],
        some ⟨before.head?, before, (dup2 k.dup2First child fd target).close fd⟩⟩], [pid], table⟩

/-- The calls of any other command. -/
def plainPlan (k : Kernel Pid Object) (table : Table Object) (words : List Word)
    (bgProcess : Bool) : Outcome Pid Object :=
  match k.fork1 with
  | none => ⟨0, [], [], table⟩
  | some pid =>
    ⟨1, [⟨pid, [], some ⟨words.head?, words, table⟩⟩], if bgProcess then [] else [pid], table⟩

/-- The pipe branch calls what its plan says. -/
theorem pipeBranch_eq (h : Terminated arglist words) (hi : i < words.length) :
    pipeBranch k table arglist i =
      some (pipePlan k table (words.take i) (words.drop (i + 1))) := by
  unfold pipeBranch pipePlan
  cases k.pipe with
  | none => rfl
  | some ends =>
    cases k.fork1 with
    | none => rfl
    | some pid1 =>
      have hfirst := fun t : Table Object => (h.set hi).execCall (Nat.zero_le _) t
      have hsecond := fun t : Table Object => h.execCall (i := i + 1) (by omega) t
      cases k.fork2 with
      | none => simp only [hfirst, List.drop_zero, Option.bind_eq_bind, Option.bind_some]
      | some pid2 =>
        simp only [hfirst, hsecond, List.drop_zero, Option.bind_eq_bind, Option.bind_some]

/-- So does a branch of redirection. -/
theorem redirectBranch_eq (h : Terminated arglist words) (hi : i < words.length)
    (flags : OpenFlags) (target : ℕ) :
    redirectBranch flags target k table arglist i =
      some (redirectPlan flags target k table (words.take i) (words.drop (i + 1)).head?) := by
  unfold redirectBranch redirectPlan
  cases k.fork1 with
  | none => rfl
  | some pid =>
    have hpath : arglist[i + 1]? = some (words.drop (i + 1)).head? := by
      rw [List.head?_drop]
      exact h.entry (by omega)
    cases k.opened with
    | none => simp only [hpath, Option.bind_eq_bind, Option.bind_some]
    | some file =>
      have hexec := fun t : Table Object => (h.set hi).execCall (Nat.zero_le _) t
      simp only [hpath, hexec, List.drop_zero, Option.bind_eq_bind, Option.bind_some]

/-- And the last branch. -/
theorem plainBranch_eq (h : Terminated arglist words) (bgProcess : Bool) :
    plainBranch k table arglist bgProcess = some (plainPlan k table words bgProcess) := by
  unfold plainBranch plainPlan
  cases k.fork1 with
  | none => rfl
  | some pid =>
    have hexec := h.execCall (Nat.zero_le _) table
    simp only [hexec, List.drop_zero, Option.bind_eq_bind, Option.bind_some]

end OSCourse.ShellProcess
