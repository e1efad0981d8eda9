import Mathlib.Data.List.Nodup
import OSCourse.ShellChildren

/-!
# No zombie is forgotten and every wait is for all children

The zombies ring the bell of SIGCHLD: an exit raises the pending bit, the
handler lowers it and looks until no zombie is left. Reaping happens once
to a child, by the handler or by the shell. A call that waits owes the
numbers of its children to the `waitpid` calls ahead of it, and a number is
paid when `waitpid` collects its child or finds that it was reaped.
-/

namespace OSCourse.ShellReaping

open Runs Doorbell ShellArglist ShellChildren

variable {Pid : Type} {s s' : State Pid} {e : Event Pid} {events : List (Event Pid)}

/-- The zombies and their notice. -/
def bellOf (s : State Pid) : Bell ℕ :=
  ⟨{i | ∃ pid, s.children[i]? = some ⟨pid, .zombie⟩}, s.pending, s.handler⟩

/-- Reaping a zombie takes it from those that wait. -/
theorem bellOf_reaped {i : ℕ} {pid : Pid} (hchild : s.children[i]? = some ⟨pid, .zombie⟩)
    (point : Point Pid) :
    bellOf { s.mark i pid .reaped with point := point } =
      { bellOf s with waiting := (bellOf s).waiting \ {i} } := by
  have hwaiting : {j | ∃ p, (s.mark i pid .reaped).children[j]? = some ⟨p, .zombie⟩} =
      (bellOf s).waiting \ {i} := by
    ext j
    simp only [State.mark, get_set hchild, bellOf, Set.mem_ofPred_eq, Set.mem_sdiff,
      Set.mem_singleton_iff]
    by_cases hji : j = i
    · simp [hji]
    · simp [hji]
  rw [← hwaiting]
  rfl

/-- An exit adds a zombie and raises the signal. -/
theorem bellOf_died {i : ℕ} {pid : Pid} (hchild : s.children[i]? = some ⟨pid, .running⟩) :
    bellOf { s.mark i pid .zombie with pending := true } =
      { bellOf s with waiting := insert i (bellOf s).waiting, raised := true } := by
  have hwaiting : {j | ∃ p, (s.mark i pid .zombie).children[j]? = some ⟨p, .zombie⟩} =
      insert i (bellOf s).waiting := by
    ext j
    simp only [State.mark, get_set hchild, bellOf, Set.mem_ofPred_eq, Set.mem_insert_iff]
    by_cases hji : j = i
    · simp [hji]
    · simp [hji]
  rw [← hwaiting]
  rfl

/-- A new child is no zombie. -/
theorem bellOf_born (pid : Pid) (point : Point Pid) :
    bellOf { s with children := s.children ++ [⟨pid, .running⟩], point := point } = bellOf s := by
  have hwaiting : {i | ∃ p, (s.children ++ [⟨pid, .running⟩])[i]? = some ⟨p, .zombie⟩} =
      (bellOf s).waiting := by
    ext i
    simp only [Set.mem_ofPred_eq, bellOf]
    refine exists_congr fun p => ?_
    rw [List.getElem?_append]
    split
    · rfl
    · rename_i hi
      rw [List.getElem?_eq_none (Nat.le_of_not_lt hi)]
      cases h : i - s.children.length with
      | zero => simp
      | succ k => simp
  unfold bellOf
  rw [hwaiting]
  rfl

/-- A step of the system is a move of the bell. -/
theorem bellOf_step (hstep : Step s e s') : Move (bellOf s) (bellOf s') := by
  cases hstep with
  | fork pid next hpoint hhandler hpid =>
    rw [bellOf_born pid (next pid)]
    exact .silent
  | waitpid pid pids i hpoint hhandler hchild =>
    rw [bellOf_reaped hchild]
    exact .collect i
  | exit pid i hpoint hchild =>
    rw [bellOf_died hchild]
    exact .arrive i
  | deliver hpoint hpending hhandler => exact .start hpending
  | collect pid i hhandler hchild =>
    have hsame : bellOf (s.mark i pid .reaped) =
        { bellOf s with waiting := (bellOf s).waiting \ {i} } := bellOf_reaped hchild s.point
    rw [hsame]
    exact .collect i
  | drained hhandler hnone =>
    refine .drained ?_
    rw [Set.eq_empty_iff_forall_notMem]
    intro i hi
    obtain ⟨pid, hchild⟩ := hi
    exact hnone _ (List.mem_of_getElem? hchild) rfl
  | leave hhandler => exact .leave hhandler
  | _ => exact .silent

/-- The children that were taken out of the process table, in order. -/
def reaps (events : List (Event Pid)) : List ℕ := events.filterMap reap

/-- The process table of every run keeps the numbers of living children apart. -/
theorem run_distinct (run : Run Step start events s) : Distinct s.children := by
  induction run with
  | nil =>
    intro i j c d hi
    simp [start] at hi
  | snoc _ hlast ih => exact hlast.change.distinct ih

/-- A child is taken out once, and is reaped from then on. -/
theorem run_reaps (run : Run Step start events s) :
    (reaps events).Nodup ∧ ∀ i ∈ reaps events, ∃ pid, s.children[i]? = some ⟨pid, .reaped⟩ := by
  induction run with
  | nil => exact ⟨List.nodup_nil, by simp [reaps]⟩
  | @snoc labels middle label final _ hlast ih =>
    obtain ⟨hnodup, hreaped⟩ := ih
    have hkeep : ∀ i ∈ reaps labels, ∃ pid, final.children[i]? = some ⟨pid, .reaped⟩ := by
      intro i hi
      obtain ⟨pid, hchild⟩ := hreaped i hi
      exact ⟨pid, hlast.change.keeps_reaped hchild⟩
    have hsplit : reaps (labels ++ [label]) = reaps labels ++ (reap label).toList := by
      cases hreap : reap label <;> simp [reaps, hreap]
    have hchange := hlast.change
    rw [hsplit]
    generalize reap label = r at hchange
    generalize hafter : final.children = after at hchange hkeep
    cases hchange with
    | reaped pid i hchild =>
      have hnew : i ∉ reaps labels := by
        intro hi
        obtain ⟨pid', hchild'⟩ := hreaped i hi
        rw [hchild] at hchild'
        cases hchild'
      refine ⟨?_, fun j hj => ?_⟩
      · rw [Option.toList_some, List.nodup_append]
        refine ⟨hnodup, List.nodup_singleton i, fun j hj k hk heq => hnew ?_⟩
        rw [← List.mem_singleton.mp hk, ← heq]
        exact hj
      · rcases List.mem_append.mp hj with hj | hj
        · exact hkeep j hj
        · obtain rfl : j = i := by simpa using hj
          exact ⟨pid, by rw [get_set hchild, if_pos rfl]⟩
    | same => exact ⟨by simpa using hnodup, by simpa using hkeep⟩
    | born pid hpid => exact ⟨by simpa using hnodup, by simpa using hkeep⟩
    | died pid i hchild => exact ⟨by simpa using hnodup, by simpa using hkeep⟩

/-- The shell is in a call of `process_arglist` that waits for its children. -/
def Attends : Point Pid → Prop
  | .getline => False
  | .fork background => background = false
  | .printf => False
  | .exited => False
  | _ => True

/-- The numbers for which a `waitpid` is still to come. -/
def owedBy : Point Pid → List Pid
  | .forkSecond pid1 => [pid1]
  | .waitpid pid pids => pid :: pids
  | _ => []

/-- A call that waits, when every child from the n-th on is reaped or owed. -/
structure InCall (n : ℕ) (s : State Pid) : Prop where
  attends : Attends s.point
  paid : ∀ (i : ℕ) (c : Child Pid), n ≤ i → s.children[i]? = some c →
    c.status = .reaped ∨ c.pid ∈ owedBy s.point

/-- A fork adds its child to those owed. -/
theorem forked_owed {point : Point Pid} {next : Pid → Point Pid} (h : point.forked = some next)
    (hattends : Attends point) (pid : Pid) :
    Attends (next pid) ∧ ∀ p, p ∈ owedBy point ∨ p = pid → p ∈ owedBy (next pid) := by
  cases point with
  | forkFirst =>
    cases h
    exact ⟨trivial, by simp [owedBy]⟩
  | forkSecond pid1 =>
    cases h
    exact ⟨trivial, by simp [owedBy, waits]⟩
  | fork background =>
    obtain rfl : background = false := hattends
    cases h
    exact ⟨trivial, by simp [owedBy, waits]⟩
  | _ => cases h

/-- Behind a `waitpid` the rest is owed. -/
theorem waits_owed (pids : List Pid) : Attends (waits pids) ∧ owedBy (waits pids) = pids := by
  cases pids with
  | nil => exact ⟨trivial, rfl⟩
  | cons pid pids => exact ⟨trivial, rfl⟩

/-- A child that changed its status in a step that leaves the shell where it is. -/
theorem InCall.set {n i : ℕ} {pid : Pid} {old new : Status} (h : InCall n s)
    (hchild : s.children[i]? = some ⟨pid, old⟩) (hold : old ≠ .reaped)
    (hpoint : s'.point = s.point) (hchildren : s'.children = s.children.set i ⟨pid, new⟩) :
    InCall n s' where
  attends := by
    rw [hpoint]
    exact h.attends
  paid j c hj hget := by
    rw [hchildren, get_set hchild] at hget
    rw [hpoint]
    by_cases hji : j = i
    · rw [if_pos hji] at hget
      cases hget
      exact .inr ((h.paid j ⟨pid, old⟩ hj (by rw [hji, hchild])).resolve_left hold)
    · rw [if_neg hji] at hget
      exact h.paid j c hj hget

/-- A step inside the call keeps what is owed in order. -/
theorem InCall.step {n : ℕ} (h : InCall n s) (hdistinct : Distinct s.children)
    (hstep : Step s e s') (hreturns : ∀ code, e ≠ .returns code) (hfork : e ≠ .fork none) :
    InCall n s' := by
  have hattends := h.attends
  cases hstep with
  | line words hpoint hhandler =>
    rw [hpoint] at hattends
    cases hattends
  | eof hpoint hhandler =>
    rw [hpoint] at hattends
    cases hattends
  | pipe success hpoint hhandler =>
    have hpaid := h.paid
    rw [hpoint] at hpaid
    cases success with
    | false => exact ⟨trivial, hpaid⟩
    | true => exact ⟨trivial, hpaid⟩
  | fork pid next hpoint hhandler hpid =>
    obtain ⟨hnext, howed⟩ := forked_owed hpoint hattends pid
    refine ⟨hnext, fun i c hi hget => ?_⟩
    rw [List.getElem?_append] at hget
    split at hget
    · exact (h.paid i c hi hget).imp_right fun hmem => howed _ (.inl hmem)
    · obtain rfl : c = ⟨pid, .running⟩ := List.mem_singleton.mp (List.mem_of_getElem? hget)
      exact .inr (howed pid (.inr rfl))
  | forkFails hpoint hhandler => exact absurd rfl hfork
  | waitpid pid pids i hpoint hhandler hchild =>
    have hpaid := h.paid
    rw [hpoint] at hpaid
    refine ⟨(waits_owed pids).1, fun j c hj hget => ?_⟩
    simp only [State.mark, get_set hchild] at hget
    rw [(waits_owed pids).2]
    by_cases hji : j = i
    · rw [if_pos hji] at hget
      cases hget
      exact .inl rfl
    · rw [if_neg hji] at hget
      by_cases hreaped : c.status = .reaped
      · exact .inl hreaped
      · rcases List.mem_cons.mp ((hpaid j c hj hget).resolve_left hreaped) with heq | hmem
        · exact absurd (hdistinct j i c _ hget hchild hreaped (by simp) heq) hji
        · exact .inr hmem
  | noChild pid pids hpoint hhandler hreaped =>
    have hpaid := h.paid
    rw [hpoint] at hpaid
    refine ⟨(waits_owed pids).1, fun j c hj hget => ?_⟩
    rw [(waits_owed pids).2]
    rcases hpaid j c hj hget with hdone | hmem
    · exact .inl hdone
    · rcases List.mem_cons.mp hmem with heq | hmem
      · exact .inl (hreaped c (List.mem_of_getElem? hget) heq)
      · exact .inr hmem
  | printf hpoint hhandler =>
    rw [hpoint] at hattends
    cases hattends
  | returns code hpoint hhandler => exact absurd rfl (hreturns code)
  | exit pid i hpoint hchild => exact h.set hchild (by simp) rfl rfl
  | deliver hpoint hpending hhandler => exact ⟨hattends, h.paid⟩
  | collect pid i hhandler hchild => exact h.set hchild (by simp) rfl rfl
  | drained hhandler hnone => exact ⟨hattends, h.paid⟩
  | leave hhandler => exact ⟨hattends, h.paid⟩

/-- What is owed stays in order up to the return of the call. -/
theorem InCall.run {n : ℕ} (h : InCall n s) (hdistinct : Distinct s.children)
    (run : Run Step s events s') (hreturns : ∀ code, .returns code ∉ events)
    (hfork : .fork none ∉ events) : InCall n s' ∧ Distinct s'.children := by
  induction run with
  | nil => exact ⟨h, hdistinct⟩
  | @snoc labels middle label final _ hlast ih =>
    simp only [List.mem_append, List.mem_singleton, not_or] at hreturns hfork
    obtain ⟨hin, hapart⟩ := ih (fun code => (hreturns code).1) hfork.1
    exact ⟨hin.step hapart hlast (fun code heq => (hreturns code).2 heq.symm) (Ne.symm hfork.2),
      hlast.change.distinct hapart⟩

/-- A pipeline, a redirection or a command in the foreground: a symbol stands
among the arguments, or no `&` behind them. -/
def Foreground (words : List Word) : Prop :=
  words ≠ [] ∧ ((∃ word ∈ arguments words, IsSymbol word) ∨ bgProcess words = false)

/-- Such a line leads into a call that waits. -/
theorem enter_attends {words : List Word} (h : Foreground words) :
    Attends (enter words : Point Pid) := by
  unfold enter
  rw [if_neg h.1]
  cases hbranch : branchOf words with
  | plain =>
    have hnone := branchOf_eq_plain.mp hbranch
    rcases h.2 with ⟨word, hmem, hsymbol⟩ | hforeground
    · exact absurd hsymbol (hnone word hmem)
    · exact hforeground
  | pipe index => trivial
  | _ => rfl

/-- After every run a zombie has its signal pending or the handler looking
for it, no child was reaped twice, and a call from here that waits returns
only when every child it forked is reaped. -/
theorem children_reaped (run : Run Step start events s) :
    (∀ (i : ℕ) (pid : Pid), s.children[i]? = some ⟨pid, .zombie⟩ →
        s.pending = true ∨ s.handler = .looking) ∧
      (reaps events).Nodup ∧
      ∀ words s₁ during s₂ code s₃, Foreground words → Step s (.line words) s₁ →
        Run Step s₁ during s₂ → (∀ code, .returns code ∉ during) → .fork none ∉ during →
        Step s₂ (.returns code) s₃ →
        ∀ (i : ℕ) (c : Child Pid), s.children.length ≤ i → s₂.children[i]? = some c →
          c.status = .reaped := by
  refine ⟨fun i pid hchild => ?_, (run_reaps run).1, ?_⟩
  · have hstart : Covered (bellOf (start : State Pid)) := by
      intro j hj
      obtain ⟨pid', hchild'⟩ := hj
      cases hchild'
    exact run_covered bellOf hstart (fun _ _ _ => bellOf_step) run i ⟨pid, hchild⟩
  · intro words s₁ during s₂ code s₃ hforeground hline hduring hreturns hfork hlast i c hi hget
    have hattends : Attends (enter words : Point Pid) := enter_attends hforeground
    have hdistinct := run_distinct run
    have hentered : InCall s.children.length s₁ ∧ Distinct s₁.children := by
      cases hline with
      | line _ hpoint hhandler =>
        refine ⟨⟨hattends, fun j d hj hd => ?_⟩, hdistinct⟩
        rw [List.getElem?_eq_none hj] at hd
        cases hd
    obtain ⟨hin, _⟩ := hentered.1.run hentered.2 hduring hreturns hfork
    have hpaid := hin.paid i c hi hget
    cases hlast with
    | returns _ hpoint hhandler =>
      rw [hpoint] at hpaid
      simpa [owedBy] using hpaid

/-- A command in the background. -/
def background : List (Event ℕ) :=
  [] ++ [.line [[0x73], ampersand]] ++ [.fork (some 7)] ++ [.printf] ++ [.returns 1]

/-- A pipeline forks its children; one exits before it is waited for, as
does the command in the background. -/
def forks : List (Event ℕ) :=
  [] ++ [.pipe true] ++ [.fork (some 8)] ++ [.exit 0] ++ [.exit 1] ++ [.fork (some 9)]

/-- The handler reaps both, and the shell the other child of the pipeline. -/
def collects : List (Event ℕ) :=
  [] ++ [.deliver] ++ [.collect 1] ++ [.collect 0] ++ [.drained] ++ [.leave] ++
    [.waitpid none] ++ [.exit 2] ++ [.waitpid (some 2)]

/-- The shell behind a command in the background. -/
theorem background_run :
    Run Step start background ⟨[⟨7, .running⟩], false, .idle, .getline⟩ :=
  .snoc (.snoc (.snoc (.snoc .nil (.line _ rfl rfl))
    (.fork 7 (fun _ => .printf) rfl rfl (by simp [start]))) (.printf rfl rfl))
    (.returns 1 rfl rfl)

/-- Two children are gone and the signal is pending once. -/
theorem forks_run : Run Step ⟨[⟨7, .running⟩], false, .idle, .pipe⟩ forks
    ⟨[⟨7, .zombie⟩, ⟨8, .zombie⟩, ⟨9, .running⟩], true, .idle, .waitpid 8 [9]⟩ :=
  .snoc (.snoc (.snoc (.snoc (.snoc .nil (.pipe true rfl rfl))
    (.fork 8 .forkSecond rfl rfl (by simp))) (.exit 7 0 nofun rfl)) (.exit 8 1 nofun rfl))
    (.fork 9 (fun pid2 => waits [8, pid2]) rfl rfl (by simp [State.mark]))

/-- The first wait of the pipeline finds no child. -/
theorem collects_run :
    Run Step ⟨[⟨7, .zombie⟩, ⟨8, .zombie⟩, ⟨9, .running⟩], true, .idle, .waitpid 8 [9]⟩ collects
      ⟨[⟨7, .reaped⟩, ⟨8, .reaped⟩, ⟨9, .reaped⟩], true, .idle, .returning 1⟩ :=
  .snoc (.snoc (.snoc (.snoc (.snoc (.snoc (.snoc (.snoc .nil
    (.deliver nofun rfl rfl)) (.collect 8 1 rfl rfl)) (.collect 7 0 rfl rfl))
    (.drained rfl (by simp [State.mark]))) (.leave rfl))
    (.noChild 8 [9] rfl rfl (by simp [State.mark]))) (.exit 9 2 nofun rfl))
    (.waitpid 9 [] 2 rfl rfl rfl)

/-- The children of the pipeline are reaped when it returns, one of them by
the handler. -/
theorem children_reaped_pipeline :
    (reaps background).Nodup ∧ ∃ s₂ s₃ : State ℕ,
      Run Step ⟨[⟨7, .running⟩], false, .idle, .pipe⟩ (forks ++ collects) s₂ ∧
        Step s₂ (.returns 1) s₃ ∧
        ∀ (i : ℕ) (c : Child ℕ), 1 ≤ i → s₂.children[i]? = some c → c.status = .reaped := by
  obtain ⟨_, hnodup, hcall⟩ := children_reaped background_run
  have hforeground : Foreground [[0x61], bar, [0x62]] :=
    ⟨by simp, .inl ⟨bar, by decide, .inl rfl⟩⟩
  have hduring := forks_run.trans collects_run
  refine ⟨hnodup, _, _, hduring, .returns 1 rfl rfl, ?_⟩
  exact hcall _ _ _ _ 1 _ hforeground (.line _ rfl rfl) hduring (by simp [forks, collects])
    (by simp [forks, collects]) (.returns 1 rfl rfl)

end OSCourse.ShellReaping
