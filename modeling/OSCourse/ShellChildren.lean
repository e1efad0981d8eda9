import OSCourse.Doorbell
import OSCourse.ShellArglist

/-!
# The shell and its children

The shell reads a line, forks the children its branch needs, waits for
those it must wait for, and reads on. A child that exits is a zombie until
somebody collects it: the handler of SIGCHLD, which collects any zombie, or
the `waitpid` the shell stands in. The signal is one pending bit; while the
handler runs the signal is blocked and the shell stands still. An
interrupted `waitpid` is restarted, so it has not returned.
-/

namespace OSCourse.ShellChildren

open ShellArglist Doorbell

variable {Pid : Type}

/-- The life of a child. -/
inductive Status where
  | running
  | zombie
  | reaped
deriving DecidableEq

/-- A child, whose number may be given out again once it is reaped. -/
structure Child (Pid : Type) where
  pid : Pid
  status : Status

/-- Where the shell stands. -/
inductive Point (Pid : Type) where
  /-- At `getline` in `main`. -/
  | getline
  /-- At `pipe`. -/
  | pipe
  /-- At the first `fork` of a pipeline. -/
  | forkFirst
  /-- At the second one. -/
  | forkSecond (pid1 : Pid)
  /-- At the `fork` of any other branch, and whether it is one without a wait. -/
  | fork (background : Bool)
  /-- At the `waitpid` of a child, with the children still to wait for. -/
  | waitpid (pid : Pid) (pids : List Pid)
  /-- At the `printf` about a background process. -/
  | printf
  /-- At a `return` of `process_arglist`. -/
  | returning (code : ℕ)
  /-- Behind the loop of `main`. -/
  | exited

/-- The shell, its children in the order of their forks, and SIGCHLD. -/
structure State (Pid : Type) where
  children : List (Child Pid)
  /-- SIGCHLD is pending. -/
  pending : Bool
  /-- The handler of SIGCHLD. -/
  handler : Sweep
  point : Point Pid

/-- A shell behind `prepare`. -/
def start : State Pid := ⟨[], false, .idle, .getline⟩

/-- What a step does, with what the kernel answers. -/
inductive Event (Pid : Type) where
  /-- `getline` and the words `strtok` finds. -/
  | line (words : List Word)
  /-- `getline` fails, or there is no memory for the words. -/
  | eof
  | pipe (success : Bool)
  /-- A child of this number, or none when `fork` fails. -/
  | fork (pid : Option Pid)
  /-- A `waitpid` of the shell returns: a child, or ECHILD. -/
  | waitpid (child : Option ℕ)
  | printf
  | returns (code : ℕ)
  /-- A child exits. -/
  | exit (child : ℕ)
  /-- SIGCHLD is delivered. -/
  | deliver
  /-- A `waitpid` of the handler returns a child. -/
  | collect (child : ℕ)
  /-- A `waitpid` of the handler returns 0 or -1. -/
  | drained
  /-- The handler returns. -/
  | leave

/-- The way from a line to the first system call. -/
def enter (words : List Word) : Point Pid :=
  if words = [] then .getline
  else
    match branchOf words with
    | .pipe _ => .pipe
    | .inputRedirect _ => .fork false
    | .outputRedirect _ => .fork false
    | .outputAppend _ => .fork false
    | .plain => .fork (bgProcess words)

/-- The waits that are left; behind them `process_arglist` returns 1. -/
def waits : List Pid → Point Pid
  | [] => .returning 1
  | pid :: pids => .waitpid pid pids

/-- The way on from a `fork`. -/
def Point.forked : Point Pid → Option (Pid → Point Pid)
  | .forkFirst => some .forkSecond
  | .forkSecond pid1 => some fun pid2 => waits [pid1, pid2]
  | .fork false => some fun pid => waits [pid]
  | .fork true => some fun _ => .printf
  | _ => none

/-- A child gets a new status. -/
def State.mark (s : State Pid) (i : ℕ) (pid : Pid) (status : Status) : State Pid :=
  { s with children := s.children.set i ⟨pid, status⟩ }

/-- The steps of the shell, which stands still while its handler runs, of
the handler and of the children. -/
inductive Step (s : State Pid) : Event Pid → State Pid → Prop
  | line (words : List Word) (hpoint : s.point = .getline) (hhandler : s.handler = .idle) :
      Step s (.line words) { s with point := enter words }
  | eof (hpoint : s.point = .getline) (hhandler : s.handler = .idle) :
      Step s .eof { s with point := .exited }
  | pipe (success : Bool) (hpoint : s.point = .pipe) (hhandler : s.handler = .idle) :
      Step s (.pipe success) { s with point := if success = true then .forkFirst else .returning 0 }
  | fork (pid : Pid) (next : Pid → Point Pid) (hpoint : s.point.forked = some next)
      (hhandler : s.handler = .idle)
      (hpid : ∀ child ∈ s.children, child.pid = pid → child.status = .reaped) :
      Step s (.fork (some pid))
        { s with children := s.children ++ [⟨pid, .running⟩], point := next pid }
  | forkFails (hpoint : s.point.forked.isSome = true) (hhandler : s.handler = .idle) :
      Step s (.fork none) { s with point := .returning 0 }
  | waitpid (pid : Pid) (pids : List Pid) (i : ℕ) (hpoint : s.point = .waitpid pid pids)
      (hhandler : s.handler = .idle) (hchild : s.children[i]? = some ⟨pid, .zombie⟩) :
      Step s (.waitpid (some i)) { s.mark i pid .reaped with point := waits pids }
  | noChild (pid : Pid) (pids : List Pid) (hpoint : s.point = .waitpid pid pids)
      (hhandler : s.handler = .idle)
      (hreaped : ∀ child ∈ s.children, child.pid = pid → child.status = .reaped) :
      Step s (.waitpid none) { s with point := waits pids }
  | printf (hpoint : s.point = .printf) (hhandler : s.handler = .idle) :
      Step s .printf { s with point := .returning 1 }
  | returns (code : ℕ) (hpoint : s.point = .returning code) (hhandler : s.handler = .idle) :
      Step s (.returns code) { s with point := if code = 0 then .exited else .getline }
  | exit (pid : Pid) (i : ℕ) (hpoint : s.point ≠ .exited)
      (hchild : s.children[i]? = some ⟨pid, .running⟩) :
      Step s (.exit i) { s.mark i pid .zombie with pending := true }
  | deliver (hpoint : s.point ≠ .exited) (hpending : s.pending = true)
      (hhandler : s.handler = .idle) :
      Step s .deliver { s with pending := false, handler := .looking }
  | collect (pid : Pid) (i : ℕ) (hhandler : s.handler = .looking)
      (hchild : s.children[i]? = some ⟨pid, .zombie⟩) :
      Step s (.collect i) (s.mark i pid .reaped)
  | drained (hhandler : s.handler = .looking)
      (hnone : ∀ child ∈ s.children, child.status ≠ .zombie) :
      Step s .drained { s with handler := .leaving }
  | leave (hhandler : s.handler = .leaving) : Step s .leave { s with handler := .idle }

/-- The child an event takes out of the process table. -/
def reap : Event Pid → Option ℕ
  | .waitpid child => child
  | .collect child => some child
  | _ => none

/-- What a step can do to the children. -/
inductive Change (children : List (Child Pid)) : Option ℕ → List (Child Pid) → Prop
  | same : Change children none children
  | born (pid : Pid) (hpid : ∀ child ∈ children, child.pid = pid → child.status = .reaped) :
      Change children none (children ++ [⟨pid, .running⟩])
  | died (pid : Pid) (i : ℕ) (hchild : children[i]? = some ⟨pid, .running⟩) :
      Change children none (children.set i ⟨pid, .zombie⟩)
  | reaped (pid : Pid) (i : ℕ) (hchild : children[i]? = some ⟨pid, .zombie⟩) :
      Change children (some i) (children.set i ⟨pid, .reaped⟩)

variable {s s' : State Pid} {e : Event Pid}

/-- Every step changes at most one child, in the order of its life. -/
theorem Step.change (hstep : Step s e s') : Change s.children (reap e) s'.children := by
  cases hstep with
  | fork pid next hpoint hhandler hpid => exact .born pid hpid
  | waitpid pid pids i hpoint hhandler hchild => exact .reaped pid i hchild
  | exit pid i hpoint hchild => exact .died pid i hchild
  | collect pid i hhandler hchild => exact .reaped pid i hchild
  | _ => exact .same

/-- A changed child and the others. -/
theorem get_set {children : List (Child Pid)} {i j : ℕ} {child new : Child Pid}
    (hchild : children[i]? = some child) :
    (children.set i new)[j]? = if j = i then some new else children[j]? := by
  obtain ⟨hi, _⟩ := List.getElem?_eq_some_iff.mp hchild
  rw [List.getElem?_set]
  by_cases hji : j = i
  · rw [if_pos hji, if_pos hji.symm, if_pos hi]
  · rw [if_neg hji, if_neg (Ne.symm hji)]

/-- A child that is reaped stays reaped. -/
theorem Change.keeps_reaped {children children' : List (Child Pid)} {r : Option ℕ} {pid : Pid}
    {i : ℕ} (h : Change children r children') (hreaped : children[i]? = some ⟨pid, .reaped⟩) :
    children'[i]? = some ⟨pid, .reaped⟩ := by
  cases h with
  | same => exact hreaped
  | born pid' hpid =>
    obtain ⟨hi, _⟩ := List.getElem?_eq_some_iff.mp hreaped
    rw [List.getElem?_append_left hi, hreaped]
  | died pid' j hchild =>
    rw [get_set hchild]
    by_cases hij : i = j
    · rw [hij, hchild] at hreaped
      cases hreaped
    · rw [if_neg hij, hreaped]
  | reaped pid' j hchild =>
    rw [get_set hchild]
    by_cases hij : i = j
    · rw [hij, hchild] at hreaped
      cases hreaped
    · rw [if_neg hij, hreaped]

/-- Two children that are not reaped have different numbers. -/
def Distinct (children : List (Child Pid)) : Prop :=
  ∀ (i j : ℕ) (c d : Child Pid), children[i]? = some c → children[j]? = some d →
    c.status ≠ .reaped → d.status ≠ .reaped → c.pid = d.pid → i = j

/-- Marking a child that was not reaped keeps the numbers apart. -/
theorem distinct_set {children : List (Child Pid)} (h : Distinct children) {i : ℕ} {pid : Pid}
    {old : Status} (hchild : children[i]? = some ⟨pid, old⟩) (hold : old ≠ .reaped)
    (new : Status) : Distinct (children.set i ⟨pid, new⟩) := by
  have hback : ∀ (j : ℕ) (c : Child Pid), (children.set i ⟨pid, new⟩)[j]? = some c →
      c.status ≠ .reaped → ∃ d, children[j]? = some d ∧ d.status ≠ .reaped ∧ d.pid = c.pid := by
    intro j c hget hlive
    rw [get_set hchild] at hget
    by_cases hji : j = i
    · rw [if_pos hji] at hget
      cases hget
      exact ⟨⟨pid, old⟩, by rw [hji, hchild], hold, rfl⟩
    · rw [if_neg hji] at hget
      exact ⟨c, hget, hlive, rfl⟩
  intro j k c d hj hk hc hd hpid
  obtain ⟨c', hj', hc', hcpid⟩ := hback j c hj hc
  obtain ⟨d', hk', hd', hdpid⟩ := hback k d hk hd
  exact h j k c' d' hj' hk' hc' hd' (hcpid.trans (hpid.trans hdpid.symm))

/-- The kernel keeps the numbers apart. -/
theorem Change.distinct {children children' : List (Child Pid)} {r : Option ℕ}
    (h : Change children r children') (hdistinct : Distinct children) : Distinct children' := by
  cases h with
  | same => exact hdistinct
  | born pid hpid =>
    have hnew : ∀ (i : ℕ) (c : Child Pid), (children ++ [⟨pid, .running⟩])[i]? = some c →
        c.status ≠ .reaped → children[i]? = some c ∧ c.pid ≠ pid ∨ i = children.length ∧ c.pid = pid := by
      intro i c hget hlive
      rw [List.getElem?_append] at hget
      split at hget
      · exact .inl ⟨hget, fun heq => hlive (hpid c (List.mem_of_getElem? hget) heq)⟩
      · obtain ⟨hi, heq⟩ := List.getElem?_eq_some_iff.mp hget
        rw [List.length_singleton] at hi
        refine .inr ⟨by omega, ?_⟩
        rw [← heq, List.getElem_singleton]
    intro i j c d hi hj hc hd heq
    rcases hnew i c hi hc with ⟨hi', hcpid⟩ | ⟨hi', hcpid⟩
    · rcases hnew j d hj hd with ⟨hj', _⟩ | ⟨_, hdpid⟩
      · exact hdistinct i j c d hi' hj' hc hd heq
      · exact absurd (heq.trans hdpid) hcpid
    · rcases hnew j d hj hd with ⟨_, hdpid⟩ | ⟨hj', _⟩
      · exact absurd (heq.symm.trans hcpid) hdpid
      · rw [hi', hj']
  | died pid i hchild => exact distinct_set hdistinct hchild (by simp) .zombie
  | reaped pid i hchild => exact distinct_set hdistinct hchild (by simp) .reaped

end OSCourse.ShellChildren
