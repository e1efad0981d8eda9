import OSCourse.ShellRest

/-!
# An interrupt from the terminal

The shell and all its children are one group for the terminal, so an
interrupt reaches each of them, in the foreground or not. The shell has a
handler that does nothing, and its calls are restarted. A child has the
handler of the shell until its `execvp`, which gives the default back, and a
program may then choose for itself. So an interrupt brings the prompt back
exactly when every child that the shell waits for has come to its program,
and none of these programs looks after the signal.
-/

namespace OSCourse.ShellInterrupts

open Runs ShellArglist Doorbell ShellChildren ShellReaping ShellRest

variable {Pid : Type}

/-- What SIGINT does to a process. -/
inductive Action where
  /-- `sigint_handler`, or a handler of the program: the process goes on. -/
  | handler
  | ignored
  /-- The default: the process ends. -/
  | default
deriving DecidableEq

/-- `prepare` gives the shell this one. -/
def prepared : Action := .handler

/-- A successful `execvp` takes handlers away, and nothing else. -/
def Action.exec : Action → Action
  | .handler => .default
  | action => action

/-- The shell, its children, and what SIGINT does to each child. -/
structure Terminal (Pid : Type) where
  shell : State Pid
  action : ℕ → Action

/-- A shell behind `prepare`. -/
def startTerminal : Terminal Pid := ⟨start, fun _ => prepared⟩

/-- What can happen at the terminal. -/
inductive Key (Pid : Type) where
  /-- A step of the shell, of its SIGCHLD handler or of a child. -/
  | step (e : Event Pid)
  /-- A child calls `execvp`. -/
  | exec (child : ℕ)
  /-- The program of a child calls `sigaction`. -/
  | sigaction (child : ℕ) (action : Action)
  /-- The user interrupts. -/
  | interrupt

/-- A child that is born has what the shell has. -/
def inherit (e : Event Pid) (children : List (Child Pid)) (action : ℕ → Action) : ℕ → Action :=
  match e with
  | .fork (some _) => Function.update action children.length prepared
  | _ => action

/-- A child that runs. -/
def runs (children : List (Child Pid)) (i : ℕ) : Bool :=
  match children[i]? with
  | some ⟨_, .running⟩ => true
  | _ => false

/-- The children that an interrupt ends. -/
def struck (action : ℕ → Action) (children : List (Child Pid)) : List ℕ :=
  (List.range children.length).filter fun i => runs children i && decide (action i = .default)

/-- A child ends. -/
def die (s : State Pid) (i : ℕ) : State Pid :=
  match s.children[i]? with
  | some child => { s.mark i child.pid .zombie with pending := true }
  | none => s

/-- After an interrupt: the shell is where it was. -/
def interrupted (action : ℕ → Action) (s : State Pid) : State Pid :=
  (struck action s.children).foldl die s

/-- One step at the terminal. -/
inductive TerminalStep (t : Terminal Pid) : Key Pid → Terminal Pid → Prop
  | step {e : Event Pid} {s' : State Pid} (hstep : Step t.shell e s') :
      TerminalStep t (.step e) ⟨s', inherit e t.shell.children t.action⟩
  | exec (i : ℕ) (hchild : runs t.shell.children i = true) :
      TerminalStep t (.exec i)
        { t with action := Function.update t.action i (t.action i).exec }
  | sigaction (i : ℕ) (action : Action) (hchild : runs t.shell.children i = true) :
      TerminalStep t (.sigaction i action) { t with action := Function.update t.action i action }
  | interrupt (hpoint : t.shell.point ≠ .exited) :
      TerminalStep t .interrupt { t with shell := interrupted t.action t.shell }

/-- A step that neither the user nor a child takes. -/
def Quiet (s : State Pid) (e : Event Pid) (s' : State Pid) : Prop :=
  Step s e s' ∧ isInput e = false ∧ ∀ i, e ≠ .exit i

variable {s s' : State Pid} {e : Event Pid} {action : ℕ → Action} {t t' : Terminal Pid}
  {i j : ℕ} {pid : Pid} {pids : List Pid}

theorem runs_iff {children : List (Child Pid)} :
    runs children i = true ↔ ∃ pid, children[i]? = some ⟨pid, .running⟩ := by
  unfold runs
  split
  · next pid hchild => exact iff_of_true rfl ⟨pid, hchild⟩
  · next hnone => exact iff_of_false Bool.false_ne_true fun ⟨pid, hchild⟩ => hnone pid hchild

theorem mem_struck {children : List (Child Pid)} :
    i ∈ struck action children ↔
      (∃ pid, children[i]? = some ⟨pid, .running⟩) ∧ action i = .default := by
  rw [struck, List.mem_filter, List.mem_range, Bool.and_eq_true, runs_iff, decide_eq_true_iff]
  refine ⟨fun h => h.2, fun h => ⟨?_, h⟩⟩
  obtain ⟨⟨pid, hchild⟩, -⟩ := h
  exact (List.getElem?_eq_some_iff.mp hchild).1

theorem struck_nodup (action : ℕ → Action) (children : List (Child Pid)) :
    (struck action children).Nodup := List.nodup_range.filter _

/-- A running child that ends is a step of the shell's system. -/
theorem die_eq (hchild : s.children[i]? = some ⟨pid, .running⟩) :
    die s i = { s.mark i pid .zombie with pending := true } := by
  unfold die
  rw [hchild]

/-- Children that end one after the other leave the shell where it was and
the other children as they were. -/
theorem foldl_die (dying : List ℕ) (hrun : ∀ i ∈ dying, ∃ pid, s.children[i]? = some ⟨pid, .running⟩)
    (hnodup : dying.Nodup) (hpoint : s.point ≠ .exited) :
    Run Step s (dying.map .exit) (dying.foldl die s) ∧ (dying.foldl die s).point = s.point ∧
      (∀ j, j ∉ dying → (dying.foldl die s).children[j]? = s.children[j]?) ∧
      ∀ j ∈ dying, ∃ pid, s.children[j]? = some ⟨pid, .running⟩ ∧
        (dying.foldl die s).children[j]? = some ⟨pid, .zombie⟩ := by
  induction dying generalizing s with
  | nil => exact ⟨.nil, rfl, fun _ _ => rfl, fun j hj => by cases hj⟩
  | cons i dying ih =>
    obtain ⟨hnew, hnodup⟩ := List.nodup_cons.mp hnodup
    obtain ⟨pid, hchild⟩ := hrun i List.mem_cons_self
    have hother : ∀ j, j ≠ i → (die s i).children[j]? = s.children[j]? := by
      intro j hj
      rw [die_eq hchild]
      simp only [State.mark, get_set hchild, if_neg hj]
    have hself : (die s i).children[i]? = some ⟨pid, .zombie⟩ := by
      rw [die_eq hchild]
      simp only [State.mark, get_set hchild, if_pos]
    have hsame : (die s i).point = s.point := by rw [die_eq hchild]; rfl
    have hstep : Run Step s [.exit i] (die s i) := by
      rw [die_eq hchild]
      exact .snoc .nil (.exit pid i hpoint hchild)
    have hrest : ∀ j ∈ dying, ∃ pid, (die s i).children[j]? = some ⟨pid, .running⟩ := by
      intro j hj
      rw [hother j fun heq => hnew (heq ▸ hj)]
      exact hrun j (List.mem_cons_of_mem _ hj)
    obtain ⟨hrun', hpoint', hkept, hdead⟩ := ih hrest hnodup (hsame ▸ hpoint)
    refine ⟨hstep.trans hrun', hpoint'.trans hsame, fun j hj => ?_, fun j hj => ?_⟩
    · rw [List.mem_cons, not_or] at hj
      exact (hkept j hj.2).trans (hother j hj.1)
    · rcases List.mem_cons.mp hj with rfl | hj
      · exact ⟨pid, hchild, (hkept j hnew).trans hself⟩
      · obtain ⟨pid', hbefore, hafter⟩ := hdead j hj
        rw [hother j fun heq => hnew (heq ▸ hj)] at hbefore
        exact ⟨pid', hbefore, hafter⟩

/-- An interrupt is a number of exits. -/
theorem interrupted_run (action : ℕ → Action) (hpoint : s.point ≠ .exited) :
    Run Step s ((struck action s.children).map .exit) (interrupted action s) ∧
      (interrupted action s).point = s.point := by
  obtain ⟨hrun, hsame, -⟩ :=
    foldl_die _ (fun i hi => (mem_struck.mp hi).1) (struck_nodup action s.children) hpoint
  exact ⟨hrun, hsame⟩

/-- Who still runs after an interrupt. -/
theorem interrupted_running (action : ℕ → Action) (hpoint : s.point ≠ .exited) :
    (interrupted action s).children[i]? = some ⟨pid, .running⟩ ↔
      s.children[i]? = some ⟨pid, .running⟩ ∧ action i ≠ .default := by
  obtain ⟨-, -, hkept, hdead⟩ :=
    foldl_die _ (fun i hi => (mem_struck.mp hi).1) (struck_nodup action s.children) hpoint
  by_cases hstruck : i ∈ struck action s.children
  · obtain ⟨pid', hbefore, hafter⟩ := hdead i hstruck
    refine iff_of_false (fun hrunning => ?_) fun h => h.2 (mem_struck.mp hstruck).2
    have hboth := hafter.symm.trans hrunning
    cases hboth
  · have hsame : (interrupted action s).children[i]? = s.children[i]? := hkept i hstruck
    rw [hsame]
    refine ⟨fun hrunning => ⟨hrunning, fun hdefault => ?_⟩, fun h => h.1⟩
    exact hstruck (mem_struck.mpr ⟨⟨pid, hrunning⟩, hdefault⟩)

/-- With interrupts in it, a run is still one of the shell and its children. -/
theorem run_shell {keys : List (Key Pid)} (run : Run TerminalStep startTerminal keys t) :
    ∃ events, Run Step start events t.shell := by
  induction run with
  | nil => exact ⟨[], .nil⟩
  | @snoc keys t key t' _ hstep ih =>
    obtain ⟨events, hevents⟩ := ih
    cases hstep with
    | step hstep => exact ⟨_, hevents.snoc hstep⟩
    | exec i hchild => exact ⟨events, hevents⟩
    | sigaction i action hchild => exact ⟨events, hevents⟩
    | interrupt hpoint => exact ⟨_, hevents.trans (interrupted_run t.action hpoint).1⟩

/-- A child that has not called `execvp` has the handler of the shell. -/
theorem run_action {keys : List (Key Pid)} (run : Run TerminalStep startTerminal keys t)
    (hexec : .exec i ∉ keys) (hsigaction : ∀ action, .sigaction i action ∉ keys) :
    t.action i = .handler := by
  induction run with
  | nil => rfl
  | @snoc keys t key t' _ hstep ih =>
    simp only [List.mem_append, List.mem_singleton, not_or] at hexec hsigaction
    have hbefore := ih hexec.1 fun action => (hsigaction action).1
    cases hstep with
    | @step e s' hstep =>
      change inherit e t.shell.children t.action i = .handler
      unfold inherit
      split
      · by_cases hborn : i = t.shell.children.length
        · rw [hborn, Function.update_self]
          rfl
        · rw [Function.update_of_ne hborn, hbefore]
      · exact hbefore
    | exec j hchild =>
      have hne : i ≠ j := fun heq => hexec.2 (by rw [heq])
      change Function.update t.action j _ i = .handler
      rw [Function.update_of_ne hne, hbefore]
    | sigaction j action hchild =>
      have hne : i ≠ j := fun heq => (hsigaction action).2 (by rw [heq])
      change Function.update t.action j _ i = .handler
      rw [Function.update_of_ne hne, hbefore]
    | interrupt hpoint => exact hbefore

/-- The shell reads, or is in a call that waits for nobody who still runs. -/
def Released (s : State Pid) : Prop :=
  s.point = .getline ∨ ∃ pids, s.point = waits pids ∧
    ∀ child ∈ s.children, child.pid ∈ pids → child.status ≠ .running

/-- Where such a shell can be. -/
theorem Released.point (h : Released s) :
    s.point = .getline ∨ s.point = .returning 1 ∨ ∃ pid pids, s.point = .waitpid pid pids := by
  rcases h with h | ⟨pids, h, -⟩
  · exact .inl h
  · cases pids with
    | nil => exact .inr (.inl h)
    | cons pid pids => exact .inr (.inr ⟨pid, pids, h⟩)

/-- It reads, or it will read. -/
theorem Released.step (h : Released s) (hstep : Step s e s') (hinput : isInput e = false) :
    Released s' := by
  have hkept : s'.point = s.point →
      (∀ child ∈ s'.children, child.status = .running → child ∈ s.children) → Released s' := by
    intro hpoint hrunning
    rcases h with h | ⟨pids, h, hended⟩
    · exact .inl (hpoint.trans h)
    · exact .inr ⟨pids, hpoint.trans h, fun child hmem hpid hstatus =>
        hended child (hrunning child hmem hstatus) hpid hstatus⟩
  have hmark : ∀ (i : ℕ) (pid : Pid) (status : Status), status ≠ .running →
      ∀ child ∈ s.children.set i ⟨pid, status⟩, child.status = .running → child ∈ s.children := by
    intro i pid status hstatus child hmem hrunning
    rcases List.mem_or_eq_of_mem_set hmem with hmem | rfl
    · exact hmem
    · exact absurd hrunning hstatus
  have hwait : ∀ pid pids, s.point = .waitpid pid pids →
      ∀ child ∈ s.children, child.pid ∈ pid :: pids → child.status ≠ .running := by
    intro pid pids hpoint
    rcases h with h | ⟨pids', h, hended⟩
    · rw [hpoint] at h
      cases h
    · rw [hpoint] at h
      cases pids' with
      | nil => cases h
      | cons pid' pids' =>
        cases h
        exact hended
  have himpossible : s.point = .getline ∨ s.point = .returning 1 ∨
      (∃ pid pids, s.point = .waitpid pid pids) := h.point
  cases hstep with
  | line words hpoint hhandler => cases hinput
  | eof hpoint hhandler => cases hinput
  | pipe success hpoint hhandler => simp [hpoint] at himpossible
  | fork pid next hpoint hhandler hpid =>
    rcases himpossible with h | h | ⟨pid', pids, h⟩ <;>
    · rw [h] at hpoint
      cases hpoint
  | forkFails hpoint hhandler =>
    rcases himpossible with h | h | ⟨pid', pids, h⟩ <;>
    · rw [h] at hpoint
      cases hpoint
  | waitpid pid pids i hpoint hhandler hchild =>
    refine .inr ⟨pids, rfl, fun child hmem hpid hrunning => ?_⟩
    exact hwait pid pids hpoint child (hmark i pid .reaped (by simp) child hmem hrunning)
      (List.mem_cons_of_mem _ hpid) hrunning
  | noChild pid pids hpoint hhandler hreaped =>
    exact .inr ⟨pids, rfl, fun child hmem hpid =>
      hwait pid pids hpoint child hmem (List.mem_cons_of_mem _ hpid)⟩
  | printf hpoint hhandler => simp [hpoint] at himpossible
  | returns code hpoint hhandler =>
    obtain rfl : code = 1 := by simpa [hpoint] using himpossible
    exact .inl rfl
  | exit pid i hpoint hchild => exact hkept rfl (hmark i pid .zombie (by simp))
  | deliver hpoint hpending hhandler => exact hkept rfl fun _ hmem _ => hmem
  | collect pid i hhandler hchild => exact hkept rfl (hmark i pid .reaped (by simp))
  | drained hhandler hnone => exact hkept rfl fun _ hmem _ => hmem
  | leave hhandler => exact hkept rfl fun _ hmem _ => hmem

/-- A child that runs is waited for, now or next. -/
structure Held (i : ℕ) (pid : Pid) (s : State Pid) : Prop where
  child : s.children[i]? = some ⟨pid, .running⟩
  distinct : Distinct s.children
  waited : ∃ first rest, s.point = .waitpid first rest ∧ pid ∈ first :: rest

/-- The shell does not get past it. -/
theorem Held.step (h : Held i pid s) (hquiet : Quiet s e s') : Held i pid s' := by
  obtain ⟨hstep, hinput, hexit⟩ := hquiet
  have hdistinct := hstep.change.distinct h.distinct
  obtain ⟨first, rest, hwaits, hmem⟩ := h.waited
  have hother : ∀ (j : ℕ) (pid' : Pid) (old new : Status), old ≠ .running →
      s.children[j]? = some ⟨pid', old⟩ →
        (s.children.set j ⟨pid', new⟩)[i]? = some ⟨pid, .running⟩ := by
    intro j pid' old new hold hchild
    have hne : i ≠ j := by
      rintro rfl
      rw [h.child] at hchild
      cases hchild
      exact hold rfl
    rw [get_set hchild, if_neg hne, h.child]
  have hnext : first ≠ pid → ∃ first' rest', waits rest = .waitpid first' rest' ∧
      pid ∈ first' :: rest' := by
    intro hne
    have hlater := (List.mem_cons.mp hmem).resolve_left (Ne.symm hne)
    obtain ⟨first', rest', rfl⟩ := List.exists_cons_of_ne_nil (List.ne_nil_of_mem hlater)
    exact ⟨first', rest', rfl, hlater⟩
  cases hstep with
  | line words hpoint hhandler => cases hinput
  | eof hpoint hhandler => cases hinput
  | pipe success hpoint hhandler =>
    rw [hwaits] at hpoint
    cases hpoint
  | fork pid next hpoint hhandler hpid =>
    rw [hwaits] at hpoint
    cases hpoint
  | forkFails hpoint hhandler =>
    rw [hwaits] at hpoint
    cases hpoint
  | waitpid pid' pids j hpoint hhandler hchild =>
    rw [hwaits] at hpoint
    cases hpoint
    refine ⟨hother j first .zombie .reaped (by simp) hchild, hdistinct, hnext ?_⟩
    rintro rfl
    obtain rfl := h.distinct i j _ _ h.child hchild (by simp) (by simp) rfl
    rw [h.child] at hchild
    cases hchild
  | noChild pid' pids hpoint hhandler hreaped =>
    rw [hwaits] at hpoint
    cases hpoint
    refine ⟨h.child, hdistinct, hnext ?_⟩
    rintro rfl
    have hstatus := hreaped _ (List.mem_of_getElem? h.child) rfl
    cases hstatus
  | printf hpoint hhandler =>
    rw [hwaits] at hpoint
    cases hpoint
  | returns code hpoint hhandler =>
    rw [hwaits] at hpoint
    cases hpoint
  | exit pid' j hpoint hchild => exact absurd rfl (hexit j)
  | deliver hpoint hpending hhandler => exact ⟨h.child, hdistinct, first, rest, hwaits, hmem⟩
  | collect pid' j hhandler hchild =>
    exact ⟨hother j pid' .zombie .reaped (by simp) hchild, hdistinct, first, rest, hwaits, hmem⟩
  | drained hhandler hnone => exact ⟨h.child, hdistinct, first, rest, hwaits, hmem⟩
  | leave hhandler => exact ⟨h.child, hdistinct, first, rest, hwaits, hmem⟩

/-- What happens by itself comes to an end. -/
theorem exists_quiet (s : State Pid) :
    ∃ events final, Run Quiet s events final ∧ ∀ e s', ¬Quiet final e s' := by
  have hless : ∀ s : State Pid, True → (∃ e s', Quiet s e s') →
      ∃ e s', Quiet s e s' ∧ True ∧ stepsLeft s' < stepsLeft s := by
    rintro s - ⟨e, s', hquiet⟩
    refine ⟨e, s', hquiet, trivial, ?_⟩
    have hstep := stepsLeft_step hquiet.1
    have hline : isLine e = false := by
      have hinput := hquiet.2.1
      cases e with
      | line words => cases hinput
      | _ => rfl
    rw [hline, if_neg Bool.false_ne_true] at hstep
    exact hstep
  obtain ⟨events, final, hrun, -, hstill⟩ := Run.exists_still hless s trivial
  exact ⟨events, final, hrun, fun e s' hquiet => hstill ⟨e, s', hquiet⟩⟩

/-- What an interrupt does while the shell waits for children: unless the user
or a child does something afterwards, the shell reads again if and only if
each child that it waits for and that runs has the default action, thus has
come to a program that leaves the signal alone. The interrupt ends all
children with the default action, those in the background too, and no others,
so a child in front of its `execvp` lives through it. -/
theorem prompt_returns_iff {keys : List (Key Pid)} (run : Run TerminalStep startTerminal keys t)
    (hstep : TerminalStep t .interrupt t') (hpoint : t.shell.point = .waitpid pid pids) :
    ((∀ events s, Run Quiet t'.shell events s → (∀ e s', ¬Quiet s e s') → s.point = .getline) ↔
        ∀ i p, t.shell.children[i]? = some ⟨p, .running⟩ → p ∈ pid :: pids →
          t.action i = .default) ∧
      (∃ events s, Run Quiet t'.shell events s ∧ ∀ e s', ¬Quiet s e s') ∧
      (∀ i p, t'.shell.children[i]? = some ⟨p, .running⟩ ↔
        t.shell.children[i]? = some ⟨p, .running⟩ ∧ t.action i ≠ .default) ∧
      ∀ i p, t.shell.children[i]? = some ⟨p, .running⟩ → .exec i ∉ keys →
        (∀ action, .sigaction i action ∉ keys) →
          t'.shell.children[i]? = some ⟨p, .running⟩ := by
  obtain ⟨before, hbefore⟩ := run_shell (run.snoc hstep)
  have hexited : t.shell.point ≠ .exited := by rw [hpoint]; simp
  obtain ⟨hinterrupted, hsame⟩ := interrupted_run t.action hexited
  have hshell : t'.shell = interrupted t.action t.shell := by
    cases hstep with
    | interrupt _ => rfl
  have hrunning : ∀ i p, t'.shell.children[i]? = some ⟨p, .running⟩ ↔
      t.shell.children[i]? = some ⟨p, .running⟩ ∧ t.action i ≠ .default := by
    intro i p
    rw [hshell]
    exact interrupted_running t.action hexited
  refine ⟨⟨fun hreturns i p hchild hmem => ?_, fun hdefault events s hquiet hstill => ?_⟩,
    exists_quiet _, hrunning, fun i p hchild hexec hsigaction => ?_⟩
  · by_contra haction
    obtain ⟨events, s, hquiet, hstill⟩ := exists_quiet t'.shell
    have hheld : Held i p t'.shell := by
      refine ⟨(hrunning i p).mpr ⟨hchild, haction⟩, run_distinct hbefore, pid, pids, ?_, hmem⟩
      rw [hshell, hsame, hpoint]
    have hkept : Held i p s := by
      clear hstill
      induction hquiet with
      | nil => exact hheld
      | snoc _ hlast ih => exact ih.step hlast
    obtain ⟨first, rest, hwaits, -⟩ := hkept.waited
    rw [hreturns events s hquiet hstill] at hwaits
    cases hwaits
  · have hreleased : Released t'.shell := by
      refine .inr ⟨pid :: pids, ?_, fun child hmem hpid hstatus => ?_⟩
      · rw [hshell, hsame, hpoint]
        rfl
      · obtain ⟨i, hi⟩ := List.mem_iff_getElem?.mp hmem
        have hchild : t'.shell.children[i]? = some ⟨child.pid, .running⟩ := by rw [hi, ← hstatus]
        obtain ⟨hwas, haction⟩ := (hrunning i child.pid).mp hchild
        exact haction (hdefault i child.pid hwas hpid)
    have hkept : Released s := by
      clear hstill
      induction hquiet with
      | nil => exact hreleased
      | snoc _ hlast ih => exact ih.step hlast.1 hlast.2.1
    have hfinal := hbefore.trans hquiet.of_kind.1
    obtain ⟨-, hrest⟩ := atRest_of_still (run_bell hfinal) fun e s' hnext => by
      by_contra hnone
      rw [not_or, not_exists] at hnone
      exact hstill e s' ⟨hnext, eq_false_of_ne_true hnone.1, hnone.2⟩
    rcases hkept with hgetline | ⟨pids', hpoint', hended⟩
    · exact hgetline
    · rcases hrest with hgone | hatRest
      · rw [hgone] at hpoint'
        cases pids' <;> cases hpoint'
      · rcases hatRest.waits with hgetline | ⟨pid', rest, hwaits, child, hmem, hpid, hstatus⟩
        · exact hgetline
        · rw [hwaits] at hpoint'
          cases pids' with
          | nil => cases hpoint'
          | cons first pids' =>
            cases hpoint'
            exact absurd hstatus (hended child hmem (hpid ▸ List.mem_cons_self))
  · refine (hrunning i p).mpr ⟨hchild, ?_⟩
    rw [run_action run hexec hsigaction]
    simp

/-- A command in the foreground that has come to its program, and is interrupted. -/
theorem prompt_returns_iff_foreground : ∃ t t' : Terminal ℕ,
    Run TerminalStep startTerminal
      ([] ++ [.step (.line [[0x61]])] ++ [.step (.fork (some 7))] ++ [.exec 0]) t ∧
      TerminalStep t .interrupt t' ∧
      ∀ events s, Run Quiet t'.shell events s → (∀ e s', ¬Quiet s e s') → s.point = .getline := by
  have run : ∃ t : Terminal ℕ, Run TerminalStep startTerminal
      ([] ++ [.step (.line [[0x61]])] ++ [.step (.fork (some 7))] ++ [.exec 0]) t ∧
      t.shell = ⟨[⟨7, .running⟩], false, .idle, .waitpid 7 []⟩ ∧ t.action 0 = .default :=
    ⟨_, .snoc (.snoc (.snoc .nil (.step (.line [[0x61]] rfl rfl)))
      (.step (.fork 7 (fun pid => waits [pid]) rfl rfl (by simp [startTerminal, start]))))
      (.exec 0 rfl), rfl, rfl⟩
  obtain ⟨t, run, hshell, haction⟩ := run
  have hpoint : t.shell.point = .waitpid 7 [] := by rw [hshell]
  have hstep : TerminalStep t .interrupt { t with shell := interrupted t.action t.shell } :=
    .interrupt (by rw [hpoint]; simp)
  refine ⟨t, _, run, hstep, (prompt_returns_iff run hstep hpoint).1.mpr fun i p hchild _ => ?_⟩
  obtain rfl : i = 0 := by
    have hi := (List.getElem?_eq_some_iff.mp hchild).1
    rw [hshell] at hi
    exact Nat.lt_one_iff.mp hi
  exact haction

end OSCourse.ShellInterrupts
