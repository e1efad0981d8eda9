import Mathlib.Algebra.GroupWithZero.Nat
import OSCourse.ShellReaping

/-!
# The shell between two lines

Every step that is no new line uses up something: calls that are still to
come, children that run, zombies, the signal, or the sweep of its handler.
So a line leads to a bounded number of steps, whatever the order of forks,
exits, handlers and waits. Where none of them is possible the shell reads,
or waits for a child that runs, and no zombie is left.
-/

namespace OSCourse.ShellRest

open Runs ShellArglist Doorbell ShellChildren ShellReaping

variable {Pid : Type} {s s' : State Pid} {e : Event Pid} {events : List (Event Pid)}

/-- A line was read. -/
def isLine : Event Pid → Bool
  | .line _ => true
  | _ => false

/-- The user enters something: a line, or the end of the input. -/
def isInput : Event Pid → Bool
  | .line _ => true
  | .eof => true
  | _ => false

/-- Steps that a child can still lead to: its exit, the signal for it, the
sweep of the handler, and its own collection. -/
def statusSteps : Status → ℕ
  | .running => 5
  | .zombie => 1
  | .reaped => 0

/-- Steps of a sweep to its end. -/
def sweepSteps : Sweep → ℕ
  | .idle => 0
  | .looking => 2
  | .leaving => 1

/-- Steps of the shell from a point on without a new line, with those of the
children that it forks on the way. -/
def pointSteps : Point Pid → ℕ
  | .getline => 1
  | .pipe => 17
  | .forkFirst => 16
  | .forkSecond _ => 10
  | .fork _ => 9
  | .waitpid _ pids => pids.length + 3
  | .printf => 3
  | .returning _ => 2
  | .exited => 0

/-- Steps of the signal: its delivery and a sweep. -/
def signalSteps : Bool → ℕ
  | true => 3
  | false => 0

/-- Steps of some children. -/
def childSteps (children : List (Child Pid)) : ℕ :=
  (children.map fun child => statusSteps child.status).sum

/-- Steps that are possible without a new line. -/
def stepsLeft (s : State Pid) : ℕ :=
  pointSteps s.point + childSteps s.children + signalSteps s.pending + sweepSteps s.handler

/-- One child has another status. -/
theorem childSteps_set {children : List (Child Pid)} {i : ℕ} {child : Child Pid}
    (hchild : children[i]? = some child) (new : Child Pid) :
    childSteps (children.set i new) + statusSteps child.status =
      childSteps children + statusSteps new.status := by
  induction children generalizing i with
  | nil => cases hchild
  | cons first children ih =>
    cases i with
    | zero =>
      obtain rfl : first = child := Option.some.inj hchild
      simp only [childSteps, List.set_cons_zero, List.map_cons, List.sum_cons]
      omega
    | succ i =>
      have hrest := ih (i := i) (by simpa using hchild)
      simp only [childSteps, List.set_cons_succ, List.map_cons, List.sum_cons] at hrest ⊢
      omega

/-- One more child runs. -/
theorem childSteps_born (children : List (Child Pid)) (pid : Pid) :
    childSteps (children ++ [⟨pid, .running⟩]) = childSteps children + 5 := by
  simp [childSteps, statusSteps]

theorem pointSteps_getline : pointSteps (.getline : Point Pid) = 1 := rfl

theorem pointSteps_exited : pointSteps (.exited : Point Pid) = 0 := rfl

theorem pointSteps_waitpid (pid : Pid) (pids : List Pid) :
    pointSteps (.waitpid pid pids) = pids.length + 3 := rfl

theorem pointSteps_returning (code : ℕ) : pointSteps (.returning code : Point Pid) = 2 := rfl

theorem signalSteps_true : signalSteps true = 3 := rfl

/-- The waits that are left and the return behind them. -/
theorem pointSteps_waits (pids : List Pid) : pointSteps (waits pids) = pids.length + 2 := by
  cases pids with
  | nil => rfl
  | cons pid pids =>
    change pids.length + 3 = pids.length + 1 + 2
    omega

/-- A `fork` is one step, and its child has some. -/
theorem pointSteps_forked {point : Point Pid} {next : Pid → Point Pid}
    (h : point.forked = some next) (pid : Pid) :
    pointSteps (next pid) + 6 ≤ pointSteps point := by
  cases point with
  | forkFirst =>
    cases h
    exact le_refl _
  | forkSecond pid1 =>
    cases h
    exact le_refl _
  | fork background =>
    cases background <;>
    · cases h
      exact le_refl _
  | _ => cases h

/-- There is more to do than to return. -/
theorem pointSteps_fork {point : Point Pid} (h : point.forked.isSome = true) :
    9 ≤ pointSteps point := by
  cases point with
  | forkFirst => exact Nat.le_add_left 9 7
  | forkSecond pid1 => exact Nat.le_add_left 9 1
  | fork background => exact le_refl 9
  | _ => cases h

/-- No point is farther from the end than the start of a pipeline. -/
theorem pointSteps_enter (words : List Word) : pointSteps (enter words : Point Pid) ≤ 17 := by
  unfold enter
  split_ifs
  · exact Nat.le_add_left 1 16
  · cases branchOf words with
    | pipe index => exact le_refl 17
    | _ => exact Nat.le_add_left 9 8

/-- Every step that is no new line uses up a step, and a line adds some. -/
theorem stepsLeft_step (hstep : Step s e s') :
    stepsLeft s' + 1 ≤ stepsLeft s + (if isLine e = true then 17 else 0) := by
  unfold stepsLeft
  cases hstep with
  | line words hpoint hhandler =>
    have henter : pointSteps (enter words : Point Pid) ≤ 17 := pointSteps_enter words
    have hline : isLine (.line words : Event Pid) = true := rfl
    rw [if_pos hline, hpoint, pointSteps_getline]
    dsimp only
    omega
  | eof hpoint hhandler =>
    rw [hpoint, pointSteps_getline]
    simp only [pointSteps_exited]
    omega
  | pipe success hpoint hhandler =>
    have hnext : pointSteps (if success = true then .forkFirst else .returning 0 : Point Pid) ≤
        16 := by
      cases success with
      | true => exact le_refl 16
      | false => exact Nat.le_add_left 2 14
    have hpipe : pointSteps (.pipe : Point Pid) = 17 := rfl
    rw [hpoint, hpipe]
    dsimp only
    omega
  | fork pid next hpoint hhandler hpid =>
    have hfork := pointSteps_forked hpoint pid
    simp only [childSteps_born]
    omega
  | forkFails hpoint hhandler =>
    have hfork : 9 ≤ pointSteps s.point := pointSteps_fork hpoint
    simp only [pointSteps_returning]
    omega
  | waitpid pid pids i hpoint hhandler hchild =>
    have hset := childSteps_set hchild ⟨pid, .reaped⟩
    simp only [statusSteps] at hset
    simp only [State.mark, hpoint, pointSteps_waitpid, pointSteps_waits]
    omega
  | noChild pid pids hpoint hhandler hreaped =>
    simp only [hpoint, pointSteps_waitpid, pointSteps_waits]
    omega
  | printf hpoint hhandler =>
    have hprintf : pointSteps (.printf : Point Pid) = 3 := rfl
    simp only [hpoint, hprintf, pointSteps_returning]
    omega
  | returns code hpoint hhandler =>
    have hnext : pointSteps (if code = 0 then .exited else .getline : Point Pid) ≤ 1 := by
      split_ifs
      · exact Nat.zero_le 1
      · exact le_refl 1
    simp only [hpoint, pointSteps_returning]
    omega
  | exit pid i hpoint hchild =>
    have hset := childSteps_set hchild ⟨pid, .zombie⟩
    simp only [statusSteps] at hset
    simp only [State.mark, signalSteps_true]
    omega
  | deliver hpoint hpending hhandler =>
    simp only [hpending, hhandler, signalSteps, sweepSteps]
    omega
  | collect pid i hhandler hchild =>
    have hset := childSteps_set hchild ⟨pid, .reaped⟩
    simp only [statusSteps] at hset
    simp only [State.mark]
    omega
  | drained hhandler hnone =>
    simp only [hhandler, sweepSteps]
    omega
  | leave hhandler =>
    simp only [hhandler, sweepSteps]
    omega

/-- A run has no more steps than its lines make room for. -/
theorem run_steps (run : Run Step start events s) :
    events.length + stepsLeft s ≤ 17 * events.countP isLine + 1 := by
  induction run with
  | nil => exact le_refl 1
  | @snoc events s e s' run hlast ih =>
    have hstep := stepsLeft_step hlast
    rw [List.length_append, List.length_singleton, List.countP_append, List.countP_singleton]
    split_ifs at hstep ⊢ <;> omega

/-- The shell stands still until its user or a child does something: it reads,
or waits for a child that runs, and nothing is left to collect. -/
structure AtRest (s : State Pid) : Prop where
  pending : s.pending = false
  collected : ∀ child ∈ s.children, child.status ≠ .zombie
  waits : s.point = .getline ∨
    ∃ pid pids, s.point = .waitpid pid pids ∧
      ∃ child ∈ s.children, child.pid = pid ∧ child.status = .running

/-- A state with a notice of every zombie in which nothing else is possible is at rest. -/
theorem atRest_of_still (hcovered : Covered (bellOf s))
    (hstill : ∀ e s', Step s e s' → isInput e = true ∨ ∃ i, e = .exit i) :
    s.handler = .idle ∧ (s.point = .exited ∨ AtRest s) := by
  have himpossible : ∀ {e s'}, Step s e s' → isInput e = false → (∀ i, e ≠ .exit i) → False := by
    intro e s' hstep hinput hexit
    rcases hstill e s' hstep with h | ⟨i, h⟩
    · rw [hinput] at h
      cases h
    · exact hexit i h
  have hzombie : ∀ child ∈ s.children, child.status = .zombie →
      ∃ i : ℕ, s.children[i]? = some ⟨child.pid, .zombie⟩ := by
    intro child hmem hstatus
    obtain ⟨i, hi⟩ := List.mem_iff_getElem?.mp hmem
    exact ⟨i, by rw [hi, ← hstatus]⟩
  have hidle : s.handler = .idle := by
    cases hhandler : s.handler with
    | idle => rfl
    | leaving => exact (himpossible (.leave hhandler) rfl (by simp)).elim
    | looking =>
      by_cases hnone : ∀ child ∈ s.children, child.status ≠ .zombie
      · exact (himpossible (.drained hhandler hnone) rfl (by simp)).elim
      · push Not at hnone
        obtain ⟨child, hmem, hstatus⟩ := hnone
        obtain ⟨i, hi⟩ := hzombie child hmem hstatus
        exact (himpossible (.collect child.pid i hhandler hi) rfl (by simp)).elim
  refine ⟨hidle, ?_⟩
  by_cases hexited : s.point = .exited
  · exact .inl hexited
  have hpending : s.pending = false := by
    by_contra hraised
    exact himpossible (.deliver hexited (eq_true_of_ne_false hraised) hidle) rfl (by simp)
  have hcollected : ∀ child ∈ s.children, child.status ≠ .zombie := by
    intro child hmem hstatus
    obtain ⟨i, hi⟩ := hzombie child hmem hstatus
    rcases hcovered i ⟨child.pid, hi⟩ with hraised | hlooking
    · exact Bool.false_ne_true (hpending.symm.trans hraised)
    · have hhandler : s.handler = .looking := hlooking
      rw [hidle] at hhandler
      cases hhandler
  refine .inr ⟨hpending, hcollected, ?_⟩
  have hfork : s.point.forked.isSome = true → False := fun h =>
    himpossible (.forkFails h hidle) rfl (by simp)
  cases hpoint : s.point with
  | getline => exact .inl rfl
  | pipe => exact (himpossible (.pipe true hpoint hidle) rfl (by simp)).elim
  | forkFirst => exact (hfork (by rw [hpoint]; rfl)).elim
  | forkSecond pid1 => exact (hfork (by rw [hpoint]; rfl)).elim
  | fork background =>
    refine (hfork ?_).elim
    rw [hpoint]
    cases background <;> rfl
  | waitpid pid pids =>
    refine .inr ⟨pid, pids, rfl, ?_⟩
    by_contra hnone
    push Not at hnone
    refine himpossible (.noChild pid pids hpoint hidle fun child hmem hpid => ?_) rfl (by simp)
    have hrunning := hnone child hmem hpid
    have hzombie := hcollected child hmem
    cases hstatus : child.status with
    | reaped => rfl
    | running => exact absurd hstatus hrunning
    | zombie => exact absurd hstatus hzombie
  | printf => exact (himpossible (.printf hpoint hidle) rfl (by simp)).elim
  | returning code => exact (himpossible (.returns code hpoint hidle) rfl (by simp)).elim
  | exited => exact absurd hpoint hexited

/-- Every zombie of a run has its notice. -/
theorem run_bell (run : Run Step start events s) : Covered (bellOf s) := by
  refine run_covered bellOf ?_ (fun _ _ _ => bellOf_step) run
  intro i hi
  obtain ⟨pid, hchild⟩ := hi
  cases hchild

/-- The shell always comes to rest. After so many lines a run has at most 17
times as many steps and one more, whatever the order of forks, exits, handler
runs and waits; where only the user or a running child can do something the
shell has exited, or is at rest; and every run can be continued, without
another line, to the exit of the shell or to its next `getline`, with all
children collected. -/
theorem shell_settles (run : Run Step start events s) :
    events.length ≤ 17 * events.countP isLine + 1 ∧
      ((∀ e s', Step s e s' → isInput e = true ∨ ∃ i, e = .exit i) →
        s.handler = .idle ∧ (s.point = .exited ∨ AtRest s)) ∧
      ∃ more final, Run Step start (events ++ more) final ∧ (∀ e ∈ more, isInput e = false) ∧
        (final.point = .exited ∨
          final.point = .getline ∧ ∀ child ∈ final.children, child.status = .reaped) := by
  refine ⟨by have := run_steps run; omega, atRest_of_still (run_bell run), ?_⟩
  have hdecreasing : ∀ s : State Pid, True →
      (∃ e s', Step s e s' ∧ isInput e = false) →
        ∃ e s', (Step s e s' ∧ isInput e = false) ∧ True ∧ stepsLeft s' < stepsLeft s := by
    rintro s - ⟨e, s', hstep, hinput⟩
    refine ⟨e, s', ⟨hstep, hinput⟩, trivial, ?_⟩
    have hless := stepsLeft_step hstep
    have hline : isLine e = false := by
      cases e with
      | line words => cases hinput
      | _ => rfl
    rw [hline, if_neg Bool.false_ne_true] at hless
    exact hless
  obtain ⟨more, final, hmore, -, hstill⟩ := Run.exists_still hdecreasing s trivial
  obtain ⟨hrun, hkind⟩ := hmore.of_kind
  have hfinal := run.trans hrun
  refine ⟨more, final, hfinal, hkind, ?_⟩
  have hnothing : ∀ e s', Step final e s' → isInput e = true := by
    intro e s' hstep
    by_contra hinput
    exact hstill ⟨e, s', hstep, eq_false_of_ne_true hinput⟩
  obtain ⟨-, hexited | hrest⟩ :=
    atRest_of_still (run_bell hfinal) fun e s' hstep => .inl (hnothing e s' hstep)
  · exact .inl hexited
  have hnone : final.point ≠ .exited → ∀ child ∈ final.children, child.status ≠ .running := by
    intro hpoint child hmem hstatus
    obtain ⟨i, hi⟩ := List.mem_iff_getElem?.mp hmem
    have hexit := hnothing _ _ (.exit child.pid i hpoint (by rw [hi, ← hstatus]))
    cases hexit
  rcases hrest.waits with hgetline | ⟨pid, pids, hpoint, child, hmem, -, hrunning⟩
  · refine .inr ⟨hgetline, fun child hmem => ?_⟩
    have hrunning := hnone (by rw [hgetline]; simp) child hmem
    have hzombie := hrest.collected child hmem
    cases hstatus : child.status with
    | reaped => rfl
    | running => exact absurd hstatus hrunning
    | zombie => exact absurd hstatus hzombie
  · exact absurd hrunning (hnone (by rw [hpoint]; simp) child hmem)

/-- The command in the background ends and is collected. -/
theorem shell_settles_background :
    background.length ≤ 17 * background.countP isLine + 1 ∧
      ∃ (more : List (Event ℕ)) (final : State ℕ), Run Step start (background ++ more) final ∧
        (final.point = .exited ∨
          final.point = .getline ∧ ∀ child ∈ final.children, child.status = .reaped) := by
  obtain ⟨hsteps, -, more, final, run, -, hfinal⟩ := shell_settles background_run
  exact ⟨hsteps, more, final, run, hfinal⟩

end OSCourse.ShellRest
