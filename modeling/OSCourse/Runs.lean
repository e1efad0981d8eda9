import Mathlib.Data.List.Induction
import Mathlib.Tactic.Common

/-!
# Finite runs of a labelled step relation and the histories they leave

A run is a list of labels, the latest step last. A proof by induction over
it may speak of the labels passed so far, which is how the history of a
system and its present state are compared. The newest label that answers a question is
the general form of "the most recent write"; nothing here fixes what the
states, the labels or the answers are.
-/

namespace OSCourse.Runs

variable {σ α β : Type*}

/-- The states reached from a start along a list of labels. -/
inductive Run (step : σ → α → σ → Prop) (start : σ) : List α → σ → Prop
  | nil : Run step start [] start
  | snoc {labels : List α} {middle : σ} {label : α} {final : σ} :
      Run step start labels middle → step middle label final →
        Run step start (labels ++ [label]) final

variable {step : σ → α → σ → Prop} {start : σ}

/-- A run that ends in a known label splits at its last step. -/
theorem Run.last {labels : List α} {label : α} {final : σ}
    (run : Run step start (labels ++ [label]) final) :
    ∃ middle, Run step start labels middle ∧ step middle label final := by
  generalize he : labels ++ [label] = all at run
  cases run with
  | nil => simp at he
  | snoc run hlast =>
    obtain ⟨rfl, rfl⟩ : _ = _ ∧ _ = _ := by simpa using List.append_inj' he rfl
    exact ⟨_, run, hlast⟩

/-- An empty history has not moved. -/
theorem Run.of_nil {final : σ} (run : Run step start [] final) : final = start := by
  generalize he : ([] : List α) = all at run
  cases run with
  | nil => rfl
  | snoc => simp at he

/-- A run from the end of a run continues it. -/
theorem Run.trans {first second : List α} {middle final : σ} (left : Run step start first middle)
    (right : Run step middle second final) : Run step start (first ++ second) final := by
  induction right with
  | nil => simpa using left
  | snoc _ hlast ih =>
    rw [← List.append_assoc]
    exact ih.snoc hlast

/-- Every history splits at every place of its label list. -/
theorem Run.split {first second : List α} {final : σ}
    (run : Run step start (first ++ second) final) :
    ∃ middle, Run step start first middle ∧ Run step middle second final := by
  induction second using List.reverseRec generalizing final with
  | nil => exact ⟨final, by simpa using run, .nil⟩
  | append_singleton second label ih =>
    rw [← List.append_assoc] at run
    obtain ⟨before, hrun, hlast⟩ := run.last
    obtain ⟨middle, left, right⟩ := ih hrun
    exact ⟨middle, left, right.snoc hlast⟩

/-- The first step of a nonempty history. -/
theorem Run.first {label : α} {labels : List α} {final : σ}
    (run : Run step start (label :: labels) final) :
    ∃ middle, step start label middle ∧ Run step middle labels final := by
  rw [← List.singleton_append] at run
  obtain ⟨middle, left, right⟩ := run.split
  rw [← List.nil_append [label]] at left
  obtain ⟨before, hnil, hlast⟩ := left.last
  rw [hnil.of_nil] at hlast
  exact ⟨middle, hlast, right⟩

/-- Where a label determines the step, the labels determine the run. -/
theorem Run.unique (hstep : ∀ s label t t', step s label t → step s label t' → t = t')
    {labels : List α} {final final' : σ} (run : Run step start labels final)
    (run' : Run step start labels final') : final = final' := by
  induction run generalizing final' with
  | nil => exact run'.of_nil.symm
  | snoc _ hlast ih =>
    obtain ⟨middle, hrun, hlast'⟩ := run'.last
    rw [← ih hrun] at hlast'
    exact hstep _ _ _ _ hlast hlast'

/-- A state relation kept by equal labels relates the ends of two runs. -/
theorem Run.simulate {τ : Type*} {step' : τ → α → τ → Prop} {rel : σ → τ → Prop}
    (hstep : ∀ s t label s', rel s t → step s label s' → ∃ t', step' t label t' ∧ rel s' t')
    {labels : List α} {final : σ} {start' : τ} (run : Run step start labels final)
    (hrel : rel start start') : ∃ final', Run step' start' labels final' ∧ rel final final' := by
  induction run with
  | nil => exact ⟨start', .nil, hrel⟩
  | snoc _ hlast ih =>
    obtain ⟨middle', run', hmiddle⟩ := ih
    obtain ⟨final', hlast', hfinal⟩ := hstep _ _ _ _ hmiddle hlast
    exact ⟨final', run'.snoc hlast', hfinal⟩

/-- A part of the state moves by the labels it sees, and rests at the others. -/
theorem Run.project {τ γ : Type*} {step' : τ → γ → τ → Prop} (view : σ → τ) (seen : α → Option γ)
    (hsilent : ∀ s label s', step s label s' → seen label = none → view s' = view s)
    (hseen : ∀ s label s' event, step s label s' → seen label = some event →
      step' (view s) event (view s')) {labels : List α} {final : σ}
    (run : Run step start labels final) :
    Run step' (view start) (labels.filterMap seen) (view final) := by
  induction run with
  | nil => exact .nil
  | @snoc labels middle label final run hstep ih =>
    rw [List.filterMap_append]
    cases h : seen label with
    | none =>
      rw [List.filterMap_cons_none h, List.filterMap_nil, List.append_nil,
        hsilent middle label final hstep h]
      exact ih
    | some event =>
      rw [List.filterMap_cons_some h, List.filterMap_nil]
      exact .snoc ih (hseen middle label final event hstep h)

/-- Where every state that can move has a step that lowers a measure, a run
leads to a state that cannot. -/
theorem Run.exists_still {inv can : σ → Prop} {measure : σ → ℕ}
    (hstep : ∀ s, inv s → can s → ∃ label s', step s label s' ∧ inv s' ∧ measure s' < measure s)
    (s : σ) (hinv : inv s) : ∃ labels final, Run step s labels final ∧ inv final ∧ ¬can final := by
  induction hn : measure s using Nat.strongRecOn generalizing s with
  | ind n ih =>
    by_cases hcan : can s
    · obtain ⟨label, s', hlabel, hinv', hless⟩ := hstep s hinv hcan
      obtain ⟨labels, final, run, hfinal, hstill⟩ := ih (measure s') (hn ▸ hless) s' hinv' rfl
      have hfirst : Run step s [label] s' := .snoc .nil hlabel
      exact ⟨[label] ++ labels, final, hfirst.trans run, hfinal, hstill⟩
    · exact ⟨[], s, .nil, hinv, hcan⟩

/-- A run of steps with labels of one kind is a run. -/
theorem Run.of_kind {p : α → Prop} {labels : List α} {final : σ}
    (run : Run (fun s label s' => step s label s' ∧ p label) start labels final) :
    Run step start labels final ∧ ∀ label ∈ labels, p label := by
  induction run with
  | nil => exact ⟨.nil, fun label h => absurd h List.not_mem_nil⟩
  | snoc _ hlast ih =>
    refine ⟨ih.1.snoc hlast.1, fun label hmem => ?_⟩
    rcases List.mem_append.mp hmem with hmem | hmem
    · exact ih.2 label hmem
    · rw [List.mem_singleton.mp hmem]
      exact hlast.2

/-- The answer of the newest label that has one. -/
def newest (answer : α → Option β) (labels : List α) : Option β :=
  labels.reverse.findSome? answer

/-- A new label is asked first. -/
theorem newest_snoc (answer : α → Option β) (labels : List α) (label : α) :
    newest answer (labels ++ [label]) = (answer label).or (newest answer labels) := by
  have hreverse : (labels ++ [label]).reverse = label :: labels.reverse := by simp
  rw [newest, hreverse, List.findSome?_cons]
  cases answer label with
  | none => rw [Option.none_or, newest]
  | some b => rw [Option.some_or]

/-- Silent labels leave the newest answer as it was. -/
theorem newest_snoc_none {answer : α → Option β} {label : α} (h : answer label = none)
    (labels : List α) : newest answer (labels ++ [label]) = newest answer labels := by
  rw [newest_snoc, h, Option.none_or]

/-- An answering label is the newest answer. -/
theorem newest_snoc_some {answer : α → Option β} {label : α} {b : β} (h : answer label = some b)
    (labels : List α) : newest answer (labels ++ [label]) = some b := by
  rw [newest_snoc, h, Option.some_or]

/-- The newest answer was given by a label of the history. -/
theorem newest_mem {answer : α → Option β} {labels : List α} {b : β}
    (h : newest answer labels = some b) : ∃ label ∈ labels, answer label = some b := by
  obtain ⟨label, hmem, hanswer⟩ := List.exists_of_findSome?_eq_some h
  exact ⟨label, List.mem_reverse.mp hmem, hanswer⟩

/-- No answer means that every label of the history is silent. -/
theorem newest_eq_none {answer : α → Option β} {labels : List α} :
    newest answer labels = none ↔ ∀ label ∈ labels, answer label = none := by
  simp [newest, List.findSome?_eq_none_iff]

end OSCourse.Runs
