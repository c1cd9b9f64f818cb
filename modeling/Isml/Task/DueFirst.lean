import Isml.Task.TaskScheduler

/-! # The action that is taken is due first

The heap compares what is left of two delays, and reads the clock again for each of them. Its
answers are those of an order as long as the clock does not go on too far in between, and that
order is the one of the deadlines to the millisecond.
-/
namespace Isml.TaskScheduler
open LabelledRun PriorityQueues

variable {α : Type} {clock : Clock} {s t : TaskScheduler α} {e : SchedulerEvent α}

/-- An order of actions that is the one of their deadlines to the millisecond. -/
def RespectsDeadlines (clock : Clock) (key : ScheduledAction α → ℤ) (actions : List (ScheduledAction α)) :
    Prop :=
  ∀ a ∈ actions, ∀ b ∈ actions, key a ≤ key b → a.deadline clock < b.deadline clock + clock.ticks

/-- When an action is taken, some order respects the deadlines, and the readings of all
comparisons since the queue was last empty put their actions into that order. -/
def ReadInOrder (clock : Clock) (s : TaskScheduler α) : SchedulerEvent α → Prop
  | .pop _ _ => ∃ key : ScheduledAction α → ℤ, ReadsBy clock key s.scheduledActions.asked ∧
      RespectsDeadlines clock key s.scheduledActions.items
  | _ => True

theorem untilDue_bounds (clock : Clock) (read : ℤ) (a : ScheduledAction α) :
    a.deadline clock ≤ read + untilDue clock read a * clock.ticks ∧
      read + untilDue clock read a * clock.ticks < a.deadline clock + clock.ticks := by
  have hlower := Int.ediv_mul_le (read - a.deadline clock) clock.pos.ne'
  have hupper := Int.lt_ediv_add_one_mul_self (read - a.deadline clock) clock.pos
  rw [Int.add_mul, Int.one_mul] at hupper
  rw [untilDue, Int.neg_mul]
  omega

/-- A single reading of the clock respects the deadlines. -/
theorem respectsDeadlines_untilDue (clock : Clock) (read : ℤ) (actions : List (ScheduledAction α)) :
    RespectsDeadlines clock (untilDue clock read) actions := by
  intro a _ b _ hle
  have hticks : untilDue clock read a * clock.ticks ≤ untilDue clock read b * clock.ticks :=
    Int.mul_le_mul_of_nonneg_right hle clock.pos.le
  have hfirst := (untilDue_bounds clock read a).1
  have hsecond := (untilDue_bounds clock read b).2
  omega

theorem readInOrder_of_singleReading {read : ℤ}
    (h : ∀ c ∈ s.scheduledActions.asked, c.reading = ⟨read,read⟩) : ReadInOrder clock s e := by
  cases e with
  | pop =>
    refine ⟨untilDue clock read,fun c hc => ?_,respectsDeadlines_untilDue clock read _⟩
    rw [RightSooner, h c hc]
  | _ => trivial

section TwoActions

end TwoActions

end Isml.TaskScheduler
