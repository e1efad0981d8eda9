import OSCourse.ShellPlan
import OSCourse.ShellWiring

/-!
# A whole session of the shell

`main` prepares the signals and then reads line after line, until the input
ends, a call of `process_arglist` fails, or there is no memory for the words.
Every line is carried out as if it were the first: the shell has its own
descriptors again whenever it goes on. It may lose two of them to a pipe, but
only in its last round. The lines are those that `getline` returns, which are
the lines of an input as long as nobody but the shell moves its offset.
-/

namespace OSCourse.ShellSession

open ShellArglist ShellTokens DescriptorTable ShellProcess ShellPlan ShellWiring

variable {Pid Object : Type}

/-- The newline that ends a line. -/
def newline : Byte := 0x0a

/-- `getline`: the next line with its newline, which the last line may lack,
and what is left of the input; none at its end. -/
def getline : List Byte → Option (List Byte × List Byte)
  | [] => none
  | c :: rest =>
    if c = newline then some ([c], rest)
    else
      match getline rest with
      | none => some ([c], [])
      | some (line, left) => some (c :: line, left)

/-- The lines that `getline` returns of an input of its own, one call after the
other. -/
def linesOf : List Byte → List (List Byte)
  | [] => []
  | c :: rest =>
    if c = newline then [c] :: linesOf rest
    else
      match linesOf rest with
      | [] => [[c]]
      | line :: lines => (c :: line) :: lines

/-- They are those of calls in a row. -/
theorem linesOf_eq (input : List Byte) :
    linesOf input =
      match getline input with
      | none => []
      | some (line, left) => line :: linesOf left := by
  induction input with
  | nil => rfl
  | cons c rest ih =>
    rw [linesOf, getline]
    by_cases hc : c = newline
    · rw [if_pos hc, if_pos hc]
    · rw [if_neg hc, if_neg hc, ih]
      cases getline rest with
      | none => rfl
      | some next => rfl

/-- Nothing of the input is lost between lines. -/
theorem linesOf_flatten (input : List Byte) : (linesOf input).flatten = input := by
  induction input with
  | nil => rfl
  | cons c rest ih =>
    rw [linesOf]
    by_cases hc : c = newline
    · rw [if_pos hc, List.flatten_cons, ih]
      rfl
    · rw [if_neg hc]
      cases hlines : linesOf rest with
      | nil =>
        rw [hlines] at ih
        rw [← ih]
        rfl
      | cons line lines =>
        rw [hlines] at ih
        rw [← ih]
        rfl

/-- Behind a newline the next line starts. -/
theorem linesOf_append (first second : List Byte) :
    linesOf (first ++ newline :: second) = linesOf (first ++ [newline]) ++ linesOf second := by
  induction first with
  | nil => rfl
  | cons c first ih =>
    rw [List.cons_append, List.cons_append, linesOf, linesOf]
    by_cases hc : c = newline
    · rw [if_pos hc, if_pos hc, ih]
      rfl
    · rw [if_neg hc, if_neg hc, ih]
      cases hlines : linesOf (first ++ [newline]) with
      | nil =>
        have hflat := linesOf_flatten (first ++ [newline])
        rw [hlines] at hflat
        simp at hflat
      | cons line lines => rfl

/-- `prepare`, by whether the two calls of `sigaction` succeed. -/
def prepare (sigchld sigint : Bool) : ℕ :=
  if sigchld = false then 1 else if sigint = false then 1 else 0

/-- `finalize`. -/
def finalize : ℕ := 0

/-- What the system answers in one round. -/
structure Round (Pid Object : Type) where
  /-- Whether `malloc` and `realloc` find memory for the words. -/
  memory : Bool
  /-- And the answers to `process_arglist`. -/
  kernel : Kernel Pid Object

/-- What the shell did when it has exited. -/
structure Ending (Pid Object : Type) where
  /-- The exit status. -/
  status : ℕ
  /-- The calls of `process_arglist`, in order. -/
  outcomes : List (Outcome Pid Object)
  /-- The descriptors at the end. -/
  table : Table Object

/-- Behind the loop of `main`. -/
def leave (outcomes : List (Outcome Pid Object)) (table : Table Object) : Ending Pid Object :=
  ⟨if finalize ≠ 0 then 1 else 0, outcomes, table⟩

/-- The loop of `main` from the n-th round on, with the lines that are left. -/
def loop (round : ℕ → Round Pid Object) (table : Table Object) :
    ℕ → List (List Byte) → Option (Ending Pid Object)
  | _, [] => some (leave [] table)
  | n, line :: lines =>
    if (round n).memory = false then some ⟨1, [], table⟩
    else
      match mainLoop (round n).kernel table line with
      | none => none
      | some none => loop round table (n + 1) lines
      | some (some outcome) =>
        if outcome.code = 0 then some (leave [outcome] outcome.table)
        else
          (loop round outcome.table (n + 1) lines).map fun ending =>
            { ending with outcomes := outcome :: ending.outcomes }

/-- `main` on the lines that its calls of `getline` return before the one that
returns -1; none when `process_arglist` reads outside its array. -/
def shellMain (sigchld sigint : Bool) (round : ℕ → Round Pid Object) (table : Table Object)
    (lines : List (List Byte)) : Option (Ending Pid Object) :=
  if prepare sigchld sigint ≠ 0 then some ⟨1, [], table⟩
  else loop round table 0 lines

/-- The lines in front of the first one for which there is no memory. -/
def supplied (round : ℕ → Round Pid Object) : ℕ → List (List Byte) → List (List Byte)
  | _, [] => []
  | n, line :: lines =>
    if (round n).memory = false then [] else line :: supplied round (n + 1) lines

/-- What each line with words would do as the first line of a session. -/
def plans (round : ℕ → Round Pid Object) (table : Table Object) :
    ℕ → List (List Byte) → List (Outcome Pid Object)
  | _, [] => []
  | n, line :: lines =>
    if wordsOf (cString line) = [] then plans round table (n + 1) lines
    else
      planOf (round n).kernel table (wordsOf (cString line)) :: plans round table (n + 1) lines

/-- The outcomes up to the first failure. -/
def reached : List (Outcome Pid Object) → List (Outcome Pid Object)
  | [] => []
  | outcome :: outcomes => if outcome.code = 0 then [outcome] else outcome :: reached outcomes

/-- Without a failure all outcomes are reached. -/
theorem reached_eq {outcomes : List (Outcome Pid Object)}
    (h : ∀ outcome ∈ reached outcomes, outcome.code ≠ 0) : reached outcomes = outcomes := by
  induction outcomes with
  | nil => rfl
  | cons outcome outcomes ih =>
    rw [reached] at h ⊢
    by_cases hcode : outcome.code = 0
    · rw [if_pos hcode] at h
      exact absurd hcode (h outcome (List.mem_singleton_self _))
    · rw [if_neg hcode] at h ⊢
      rw [ih fun o ho => h o (List.mem_cons_of_mem _ ho)]

/-- A pipe is left open in a table. -/
def Leaks (table left : Table Object) : Prop :=
  ∃ readEnd writeEnd, left = ((table.install readEnd).2.install writeEnd).2

section Rounds

variable {k : Kernel Pid Object} {table : Table Object} {words : List Word}

/-- A pipeline that succeeds closes both ends again; one that fails has opened
no pipe or leaves it open. -/
theorem pipePlan_table (k : Kernel Pid Object) (table : Table Object) (before after : List Word) :
    ((pipePlan k table before after).code ≠ 0 → (pipePlan k table before after).table = table) ∧
      ((pipePlan k table before after).table = table ∨
        Leaks table (pipePlan k table before after).table) := by
  unfold pipePlan
  cases k.pipe with
  | none => exact ⟨fun _ => rfl, .inl rfl⟩
  | some ends =>
    have hleaks : Leaks table ((table.install ends.1).2.install ends.2).2 := ⟨_, _, rfl⟩
    cases k.fork1 with
    | none => exact ⟨fun h => absurd rfl h, .inr hleaks⟩
    | some pid1 =>
      cases k.fork2 with
      | none => exact ⟨fun h => absurd rfl h, .inr hleaks⟩
      | some pid2 =>
        have hfirst := entry_lowestFree table
        have hne := lowestFree_put table ends.1
        have hsecond := entry_lowestFree (table.put table.lowestFree (some ends.1))
        have hclosed : (((table.install ends.1).2.install ends.2).2.close
            (table.install ends.1).1).close
              ((table.install ends.1).2.install ends.2).1 = table := by
          change (((table.put table.lowestFree (some ends.1)).put
            (table.put table.lowestFree (some ends.1)).lowestFree (some ends.2)).close
              table.lowestFree).close (table.put table.lowestFree (some ends.1)).lowestFree = table
          rw [close_first hfirst hne.ne]
          refine close_put ?_ _
          rwa [put_entry_of_ne table _ hne.ne'] at hsecond
        exact ⟨fun _ => hclosed, .inl hclosed⟩

/-- The branches of redirections open nothing in the shell. -/
theorem redirectPlan_table (flags : OpenFlags) (target : ℕ) (k : Kernel Pid Object)
    (table : Table Object) (before : List Word) (path : Option Word) :
    (redirectPlan flags target k table before path).table = table := by
  unfold redirectPlan
  cases k.fork1 with
  | none => rfl
  | some pid => cases k.opened <;> rfl

/-- Nor does a plain command. -/
theorem plainPlan_table (k : Kernel Pid Object) (table : Table Object) (words : List Word)
    (bgProcess : Bool) : (plainPlan k table words bgProcess).table = table := by
  unfold plainPlan
  cases k.fork1 <;> rfl

/-- A round after which the shell goes on leaves its descriptors as they were,
and any other leaves at most a pipe open. -/
theorem planOf_table (k : Kernel Pid Object) (table : Table Object) (words : List Word) :
    ((planOf k table words).code ≠ 0 → (planOf k table words).table = table) ∧
      ((planOf k table words).table = table ∨ Leaks table (planOf k table words).table) := by
  rcases cut_cases words with ⟨left, right, h⟩ | ⟨symbol, flags, target, left, right, hred, h⟩ | h
  · rw [planOf_pipe k table h]
    exact pipePlan_table k table left right
  · rw [planOf_redirect k table hred h]
    exact ⟨fun _ => redirectPlan_table .., .inl (redirectPlan_table ..)⟩
  · rw [planOf_plain k table h]
    exact ⟨fun _ => plainPlan_table .., .inl (plainPlan_table ..)⟩

end Rounds

section Sessions

variable {round : ℕ → Round Pid Object} {table : Table Object}

/-- What is known of the shell when it has exited, by the lines that were left. -/
structure Ended (round : ℕ → Round Pid Object) (table : Table Object) (n : ℕ)
    (lines : List (List Byte)) (ending : Ending Pid Object) : Prop where
  /-- Every line was carried out with the descriptors of the beginning. -/
  outcomes_eq : ending.outcomes = reached (plans round table n (supplied round n lines))
  /-- The exit status tells only of missing memory. -/
  status_zero : ending.status = 0 ↔
    supplied round n lines = lines ∨ ∃ outcome ∈ ending.outcomes, outcome.code = 0
  status_le : ending.status ≤ 1
  /-- The descriptors are those of the beginning, but for the pipe of a last
  round that failed. -/
  table_eq : ending.table = table ∨
    (∃ outcome ∈ ending.outcomes.getLast?, outcome.code = 0) ∧ Leaks table ending.table

/-- The loop ends so. -/
theorem loop_ended (round : ℕ → Round Pid Object) (table : Table Object) (n : ℕ)
    (lines : List (List Byte)) :
    ∃ ending, loop round table n lines = some ending ∧ Ended round table n lines ending := by
  induction lines generalizing n with
  | nil =>
    exact ⟨_, rfl, ⟨rfl, ⟨fun _ => .inl rfl, fun _ => rfl⟩, Nat.zero_le 1, .inl rfl⟩⟩
  | cons line lines ih =>
    obtain ⟨ending, hloop, hended⟩ := ih (n + 1)
    unfold loop
    by_cases hmemory : (round n).memory = false
    · have hsupplied : supplied round n (line :: lines) = [] := by rw [supplied, if_pos hmemory]
      rw [if_pos hmemory]
      refine ⟨_, rfl, ⟨by rw [hsupplied]; rfl, ?_, le_refl 1, .inl rfl⟩⟩
      rw [hsupplied]
      simp
    have hsupplied : supplied round n (line :: lines) = line :: supplied round (n + 1) lines := by
      rw [supplied, if_neg hmemory]
    rw [if_neg hmemory]
    by_cases hblank : wordsOf (cString line) = []
    · rw [mainLoop_blank _ _ hblank]
      refine ⟨ending, hloop, ⟨?_, ?_, hended.status_le, hended.table_eq⟩⟩
      · rw [hsupplied, plans, if_pos hblank]
        exact hended.outcomes_eq
      · rw [hsupplied, hended.status_zero, List.cons_inj_right]
    · rw [mainLoop_eq _ _ hblank]
      obtain ⟨hkept, hleft⟩ := planOf_table (round n).kernel table (wordsOf (cString line))
      have hplans : plans round table n (line :: supplied round (n + 1) lines) =
          planOf (round n).kernel table (wordsOf (cString line)) ::
            plans round table (n + 1) (supplied round (n + 1) lines) := by
        rw [plans, if_neg hblank]
      generalize planOf (round n).kernel table (wordsOf (cString line)) = outcome at *
      dsimp only
      by_cases hcode : outcome.code = 0
      · rw [if_pos hcode]
        refine ⟨_, rfl, ⟨?_, ?_, Nat.zero_le 1, ?_⟩⟩
        · rw [hsupplied, hplans, reached, if_pos hcode]
          rfl
        · exact ⟨fun _ => .inr ⟨outcome, List.mem_singleton_self _, hcode⟩, fun _ => rfl⟩
        · exact hleft.imp_right fun h => ⟨⟨outcome, rfl, hcode⟩, h⟩
      · rw [if_neg hcode, hkept hcode, hloop]
        refine ⟨_, rfl, ⟨?_, ?_, hended.status_le, ?_⟩⟩
        · rw [hsupplied, hplans, reached, if_neg hcode, ← hended.outcomes_eq]
        · rw [hsupplied, hended.status_zero, List.cons_inj_right]
          simp [hcode]
        · refine hended.table_eq.imp_right fun h => ⟨?_, h.2⟩
          obtain ⟨outcome', hlast, hcode'⟩ := h.1
          refine ⟨outcome', ?_, hcode'⟩
          dsimp only
          rw [List.getLast?_cons, Option.mem_def.mp hlast]
          rfl

/-- Lines that are all carried out and go well leave the shell where it began. -/
theorem loop_append {n : ℕ} {xs ys : List (List Byte)} (hsupplied : supplied round n xs = xs)
    (hwell : ∀ outcome ∈ plans round table n xs, outcome.code ≠ 0) :
    loop round table n (xs ++ ys) =
      (loop round table (n + xs.length) ys).map fun ending =>
        { ending with outcomes := plans round table n xs ++ ending.outcomes } := by
  induction xs generalizing n with
  | nil => simp [plans]
  | cons line lines ih =>
    rw [supplied] at hsupplied
    by_cases hmemory : (round n).memory = false
    · rw [if_pos hmemory] at hsupplied
      cases hsupplied
    rw [if_neg hmemory, List.cons_inj_right] at hsupplied
    have hlength : n + (line :: lines).length = n + 1 + lines.length := by
      rw [List.length_cons]
      omega
    rw [List.cons_append, loop, if_neg hmemory, hlength]
    rw [plans] at hwell ⊢
    by_cases hblank : wordsOf (cString line) = []
    · rw [if_pos hblank] at hwell ⊢
      rw [mainLoop_blank _ _ hblank]
      exact ih hsupplied hwell
    · rw [if_neg hblank] at hwell ⊢
      rw [mainLoop_eq _ _ hblank]
      have hcode := hwell _ List.mem_cons_self
      obtain ⟨hkept, -⟩ := planOf_table (round n).kernel table (wordsOf (cString line))
      dsimp only
      rw [if_neg hcode, hkept hcode, ih hsupplied fun o ho => hwell o (List.mem_cons_of_mem _ ho),
        Option.map_map]
      rfl

/-- The rounds can be counted from anywhere. -/
theorem loop_shift (round : ℕ → Round Pid Object) (table : Table Object) (m n : ℕ)
    (lines : List (List Byte)) :
    loop (fun i => round (i + m)) table n lines = loop round table (n + m) lines := by
  induction lines generalizing n table with
  | nil => rfl
  | cons line lines ih =>
    have hnext : n + 1 + m = n + m + 1 := by omega
    simp only [loop, ih, hnext]

/-- What the first lines make the shell do is what it does before the others,
which are carried out as in a shell of its own: as long as there is memory and no
round of the first lines fails, a session on both in a row is one session
after the other. The lines of two inputs in a row are those of the first one and
then those of the second, if the first one ends in a newline. -/
theorem session_append {xs ys : List (List Byte)} {round : ℕ → Round Pid Object}
    {table : Table Object} {ending : Ending Pid Object}
    (hfirst : shellMain true true round table xs = some ending)
    (hsupplied : supplied round 0 xs = xs) (hwell : ∀ outcome ∈ ending.outcomes, outcome.code ≠ 0) :
    (shellMain true true round table (xs ++ ys) =
      (shellMain true true (fun n => round (n + xs.length)) table ys).map fun later =>
        { later with outcomes := ending.outcomes ++ later.outcomes }) ∧
      ∀ first second, xs = linesOf (first ++ [newline]) → ys = linesOf second →
        xs ++ ys = linesOf (first ++ newline :: second) := by
  obtain ⟨ending', hloop, hended⟩ := loop_ended round table 0 xs
  obtain rfl : ending' = ending := Option.some.inj (hloop.symm.trans hfirst)
  have hplans : ending'.outcomes = plans round table 0 xs := by
    have houtcomes := hended.outcomes_eq
    rw [hsupplied] at houtcomes
    rw [houtcomes] at hwell ⊢
    exact reached_eq hwell
  constructor
  · change loop round table 0 (xs ++ ys) = _
    rw [loop_append hsupplied (by rwa [← hplans]), hplans]
    exact congrArg _ (loop_shift round table _ 0 _).symm
  · rintro first second rfl rfl
    exact (linesOf_append first second).symm

end Sessions

/-- The line `ls` twice, and each as a session of its own. -/
theorem session_append_twice :
    ∃ ending, shellMain true true (fun _ => ⟨true, granting⟩) standard [[0x6c, 0x73, 0x0a]] =
        some ending ∧ ending.outcomes.length = 1 ∧
      shellMain true true (fun _ => ⟨true, granting⟩) standard
          (linesOf [0x6c, 0x73, 0x0a, 0x6c, 0x73]) =
        (shellMain true true (fun _ => ⟨true, granting⟩) standard [[0x6c, 0x73]]).map fun later =>
          { later with outcomes := ending.outcomes ++ later.outcomes } := by
  obtain ⟨ending, hmain, hended⟩ :=
    loop_ended (fun _ => ⟨true, granting⟩) standard 0 [[0x6c, 0x73, 0x0a]]
  have hwords : wordsOf (cString [0x6c, 0x73, 0x0a]) = [[0x6c, 0x73]] := by decide
  have hcode : (planOf granting standard [[0x6c, 0x73]]).code ≠ 0 := by
    rw [planOf_plain _ _ (by decide)]
    exact Nat.one_ne_zero
  have houtcomes : ending.outcomes = [planOf granting standard [[0x6c, 0x73]]] := by
    rw [hended.outcomes_eq]
    change reached (plans _ _ _ [[0x6c, 0x73, 0x0a]]) = _
    rw [plans, hwords, if_neg (by decide), reached, if_neg hcode]
    rfl
  have hwell : ∀ outcome ∈ ending.outcomes, outcome.code ≠ 0 := by
    rw [houtcomes]
    intro outcome hmem
    rwa [List.mem_singleton.mp hmem]
  have hfirst : shellMain true true (fun _ => ⟨true, granting⟩) standard [[0x6c, 0x73, 0x0a]] =
      some ending := hmain
  obtain ⟨happend, hlines⟩ :
      (shellMain true true (fun _ => ⟨true, granting⟩) standard
          ([[0x6c, 0x73, 0x0a]] ++ [[0x6c, 0x73]]) =
        (shellMain true true (fun _ => ⟨true, granting⟩) standard [[0x6c, 0x73]]).map fun later =>
          { later with outcomes := ending.outcomes ++ later.outcomes }) ∧ _ :=
    session_append hfirst rfl hwell
  refine ⟨ending, hfirst, by rw [houtcomes]; rfl, ?_⟩
  rw [← happend, hlines [0x6c, 0x73] [0x6c, 0x73] rfl rfl]
  rfl

end OSCourse.ShellSession
