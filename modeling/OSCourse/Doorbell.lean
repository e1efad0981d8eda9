import Mathlib.Data.Set.Insert
import OSCourse.Runs

/-!
# Collecting on a notice that is a single bit

Items arrive and wait for a collector. Every arrival raises one flag, so
many arrivals may leave a single notice. A sweep lowers the flag when it
starts, collects while anything waits, and then leaves; other collectors
may take items at any time. No item is ever forgotten: it waits under a
raised flag or a sweep that still looks.
-/

namespace OSCourse.Doorbell

variable {W : Type*}

/-- How far the sweep has come. -/
inductive Sweep where
  | idle
  | looking
  | leaving
deriving DecidableEq

/-- Who waits, whether the flag is up, and the sweep. -/
structure Bell (W : Type*) where
  waiting : Set W
  raised : Bool
  sweep : Sweep

/-- The moves of arrivals, of the sweep and of other collectors. -/
inductive Move (b : Bell W) : Bell W → Prop
  | silent : Move b b
  | arrive (w : W) : Move b { b with waiting := insert w b.waiting, raised := true }
  | collect (w : W) : Move b { b with waiting := b.waiting \ {w} }
  | start (hraised : b.raised = true) : Move b { b with raised := false, sweep := .looking }
  | drained (hempty : b.waiting = ∅) : Move b { b with sweep := .leaving }
  | leave (hleaving : b.sweep = .leaving) : Move b { b with sweep := .idle }

/-- Whoever waits has a notice or a sweep ahead. -/
def Covered (b : Bell W) : Prop := ∀ w ∈ b.waiting, b.raised = true ∨ b.sweep = .looking

variable {b b' : Bell W}

/-- Every move keeps the waiting items covered. -/
theorem covered_move (h : Covered b) (hmove : Move b b') : Covered b' := by
  cases hmove with
  | silent => exact h
  | arrive w => exact fun _ _ => .inl rfl
  | collect w => exact fun v hv => h v hv.1
  | start hraised => exact fun _ _ => .inr rfl
  | drained hempty =>
    intro w hw
    have hnone : w ∈ b.waiting := hw
    rw [hempty] at hnone
    exact absurd hnone (Set.notMem_empty w)
  | leave hleaving =>
    intro w hw
    refine (h w hw).imp_right fun hlooking => ?_
    rw [hleaving] at hlooking
    cases hlooking

/-- A system whose steps are moves of its bell never leaves an item uncovered. -/
theorem run_covered {σ α : Type*} {step : σ → α → σ → Prop} {start : σ} (bell : σ → Bell W)
    (hstart : Covered (bell start)) (hstep : ∀ s label s', step s label s' → Move (bell s) (bell s'))
    {labels : List α} {s : σ} (run : Runs.Run step start labels s) : Covered (bell s) := by
  induction run with
  | nil => exact hstart
  | snoc _ hlast ih => exact covered_move ih (hstep _ _ _ hlast)

end OSCourse.Doorbell
