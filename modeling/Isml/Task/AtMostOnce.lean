import Isml.Task.Task
import Mathlib.Algebra.Order.Group.Nat

/-! # The function runs at most once

Every exchange of the status is one step of one thread. Only the thread whose exchange took the
task out of `Created` goes on to the function, and no exchange puts it back there.
-/
namespace Isml
open LabelledRun Threads

namespace Performing
variable {T E : Type}

/-- The call is about to invoke the function. -/
def aboutToInvoke : Performing T E → Bool
  | .invoking => true
  | _ => false

end Performing

namespace Task
variable {T E : Type} {ndebug : Bool} {s t : Task T E} {e : TaskEvent T E}

/-- The ways of the status. -/
inductive StatusMoves : Status → Status → Prop
  | started : StatusMoves .created .inProgress
  | completed : StatusMoves .inProgress .completed
  | cancelled : StatusMoves .created .cancelled

/-- Who is not started afterwards was created before. -/
theorem StatusMoves.created_of_unstarted {before after : Status} (h : StatusMoves before after)
    (hafter : after = .created ∨ after = .cancelled) : before = .created := by
  cases h with
  | started => rfl
  | completed => rcases hafter with hafter | hafter <;> cases hafter
  | cancelled => rfl

/-- The invocations there were and those that are certain to follow. -/
def invocationsSoFar (s : Task T E) : ℕ :=
  s.invocations + s.performs.countP Performing.aboutToInvoke

/-- Whoever will invoke the function has set the task in progress, and nobody did so before. -/
structure AtMostOnce (s : Task T E) : Prop where
  once : invocationsSoFar s ≤ 1
  unstarted : s.status = .created ∨ s.status = .cancelled → invocationsSoFar s = 0

section Steps
variable {a b : Performing T E} {performs : List (Performing T E)} {status : Status}

/-- The exchanges change the status in its ways or not at all. -/
theorem trySetInProgress_moves {spurious answer : Bool} {before : Status}
    (h : trySetInProgress spurious before = (status,answer)) :
    status = before ∨ StatusMoves before status := by
  cases answer with
  | true =>
    obtain ⟨rfl,-,rfl⟩ := trySetInProgress_eq_true h
    exact Or.inr StatusMoves.started
  | false => exact Or.inl (trySetInProgress_eq_false h).1

theorem trySetCompleted_moves {spurious answer : Bool} {before : Status}
    (h : trySetCompleted spurious before = (status,answer)) :
    status = before ∨ StatusMoves before status := by
  cases answer with
  | true =>
    obtain ⟨rfl,-,rfl⟩ := trySetCompleted_eq_true h
    exact Or.inr StatusMoves.completed
  | false => exact Or.inl (trySetCompleted_eq_false h)

theorem tryCancel_moves {spurious : Bool} {result : CancellationResult} {before : Status}
    (h : tryCancel spurious before = (status,result)) :
    status = before ∨ StatusMoves before status := by
  rw [tryCancel_eq] at h
  cases before with
  | created =>
    obtain ⟨rfl,-⟩ := Prod.mk.inj h
    cases spurious with
    | true => exact Or.inl rfl
    | false => exact Or.inr StatusMoves.cancelled
  | inProgress => exact Or.inl (Prod.mk.inj h).1.symm
  | completed => exact Or.inl (Prod.mk.inj h).1.symm
  | cancelled => exact Or.inl (Prod.mk.inj h).1.symm

theorem status_of_step (hstep : Step ndebug s e t) :
    t.status = s.status ∨ StatusMoves s.status t.status := by
  cases hstep with
  | trySetInProgress hs hset hmove => exact trySetInProgress_moves hset
  | assertCompleted hs hbuild hset hmove => exact trySetCompleted_moves hset
  | assertFailed hs hbuild hset hmem => exact trySetCompleted_moves hset
  | tryCancel hs hcancel => exact tryCancel_moves hcancel
  | _ => exact Or.inl rfl

/-- A thread goes on, and neither gets to the function nor invokes it. -/
theorem AtMostOnce.move {promise : Option (Except (TaskException E) T)} (h : AtMostOnce s)
    (hmove : Moves a b s.performs performs) (ha : a.aboutToInvoke = false)
    (hb : b.aboutToInvoke = false) :
    AtMostOnce { s with promise := promise, performs := performs } := by
  have hcount := hmove.countP_eq Performing.aboutToInvoke
  rw [ha, hb] at hcount
  have hsame : invocationsSoFar { s with promise := promise, performs := performs } =
      invocationsSoFar s := congrArg (s.invocations + ·) (Nat.add_right_cancel hcount)
  exact ⟨hsame.trans_le h.once,fun hstatus => hsame.trans (h.unstarted hstatus)⟩

theorem AtMostOnce.trySetInProgress {answer spurious : Bool} (h : AtMostOnce s)
    (hset : Task.trySetInProgress spurious s.status = (status,answer))
    (hmove : Moves .starting (if answer then .invoking else .returned false) s.performs performs) :
    AtMostOnce { s with status := status, performs := performs } := by
  cases answer with
  | true =>
    obtain ⟨hcreated,-,rfl⟩ := trySetInProgress_eq_true hset
    have hnone := h.unstarted (Or.inl hcreated)
    have hcount := hmove.countP_eq Performing.aboutToInvoke
    have hone : invocationsSoFar { s with status := .inProgress, performs := performs } = 1 := by
      unfold invocationsSoFar at hnone ⊢
      simp only [Performing.aboutToInvoke, if_true, Bool.toNat_false, Bool.toNat_true] at hcount
      dsimp only
      omega
    refine ⟨hone.le,fun hstatus => ?_⟩
    rcases hstatus with hstatus | hstatus <;> cases hstatus
  | false =>
    obtain ⟨rfl,-⟩ := trySetInProgress_eq_false hset
    have hmoved : AtMostOnce { s with promise := s.promise, performs := performs } :=
      h.move hmove rfl rfl
    exact hmoved

/-- An invocation that was certain to follow takes place. -/
theorem AtMostOnce.invoke (h : AtMostOnce s) (hmove : Moves .invoking .running s.performs performs) :
    AtMostOnce { s with performs := performs, invocations := s.invocations + 1 } := by
  have hcount := hmove.countP_eq Performing.aboutToInvoke
  have hsame : invocationsSoFar { s with performs := performs, invocations := s.invocations + 1 } =
      invocationsSoFar s := by
    unfold invocationsSoFar
    simp only [Performing.aboutToInvoke, Bool.toNat_false, Bool.toNat_true] at hcount
    dsimp only
    omega
  exact ⟨hsame.trans_le h.once,fun hstatus => hsame.trans (h.unstarted hstatus)⟩

/-- A task that is not started afterwards was not started before. -/
theorem AtMostOnce.changeStatus {stopped : Option Fault} {cancellations : List CancellationResult}
    (h : AtMostOnce s) (hstatus : status = s.status ∨ StatusMoves s.status status) : AtMostOnce
      { s with status := status, stopped := stopped, cancellations := cancellations } := by
  refine ⟨h.once,fun hunstarted => h.unstarted ?_⟩
  rcases hstatus with rfl | hmoves
  · exact hunstarted
  · exact Or.inl (hmoves.created_of_unstarted hunstarted)

end Steps

theorem AtMostOnce.step (h : AtMostOnce s) (hstep : Step ndebug s e t) : AtMostOnce t := by
  cases hstep with
  | perform hs => exact ⟨h.once,h.unstarted⟩
  | isCancelled hs hmove => exact h.move hmove rfl (by split_ifs <;> rfl)
  | setException hs hpromise hmove => exact h.move hmove rfl rfl
  | setExceptionAgain hs hpromise hmem => exact ⟨h.once,h.unstarted⟩
  | trySetInProgress hs hset hmove => exact h.trySetInProgress hset hmove
  | invoke hs hmove => exact h.invoke hmove
  | leave hs hmove => exact h.move hmove rfl rfl
  | setOutcome hs hpromise hmove => exact h.move hmove rfl rfl
  | setOutcomeAgain hs hpromise hmem => exact ⟨h.once,h.unstarted⟩
  | assertSkipped hs hbuild hmove => exact h.move hmove rfl rfl
  | assertCompleted hs hbuild hset hmove =>
    exact (h.changeStatus (trySetCompleted_moves hset)).move hmove rfl rfl
  | assertFailed hs hbuild hset hmem => exact h.changeStatus (trySetCompleted_moves hset)
  | tryCancel hs hcancel => exact h.changeStatus (tryCancel_moves hcancel)

theorem created_atMostOnce : AtMostOnce (created : Task T E) := ⟨Nat.zero_le 1,fun _ => rfl⟩

/-- Whatever the calls of `perform` and `tryCancel` and their order, the function is invoked at
most once, and the status goes its ways. -/
theorem invokedAtMostOnce {trace : List (Task T E × TaskEvent T E)}
    (hr : Run (Step ndebug) created trace t) :
    (∀ e ∈ trace, e.1.invocations ≤ 1) ∧ t.invocations ≤ 1 ∧
      ∀ e ∈ transitions trace t,
        e.2.2.status = e.1.status ∨ StatusMoves e.1.status e.2.2.status := by
  have hinvocations : ∀ s : Task T E, AtMostOnce s → s.invocations ≤ 1 := fun s h =>
    le_trans (Nat.le_add_right _ _) h.once
  have hsteps : ∀ s e (u : Task T E), AtMostOnce s → True → Step ndebug s e u → AtMostOnce u :=
    fun s e u h _ => h.step
  have hguarded : Guarded (fun _ _ => True) trace := fun _ _ => trivial
  refine ⟨fun e he => ?_,?_,fun e he => ?_⟩
  · exact hinvocations _ (hr.invariant_states hsteps created_atMostOnce hguarded e he)
  · exact hinvocations _ (hr.invariant hsteps created_atMostOnce hguarded)
  · exact status_of_step (hr.step_of_mem_transitions he).2

/-- Two calls of `perform` get to their exchanges, and one of them succeeds. -/
theorem invokedAtMostOnce_two : ∃ trace, ∃ t : Task ℕ ℕ,
    trace.map Prod.snd = [.perform,.perform,.isCancelled,.isCancelled,.trySetInProgress false,
      .trySetInProgress false,.invoke] ∧ Run (Step true) created trace t ∧ t.invocations = 1 ∧
      (∀ e ∈ trace, e.1.invocations ≤ 1) ∧ t.invocations ≤ 1 ∧
      ∀ e ∈ transitions trace t,
        e.2.2.status = e.1.status ∨ StatusMoves e.1.status e.2.2.status := by
  let start : Task ℕ ℕ := created
  let invoking : Task ℕ ℕ := { start with status := .inProgress, performs := [.invoking,.starting] }
  let alone : Task ℕ ℕ := { invoking with performs := [.invoking,.returned false] }
  let running : Task ℕ ℕ := { alone with performs := [.running,.returned false], invocations := 1 }
  have hfirst : Step true start .perform { start with performs := [.entered] } := Step.perform rfl
  have hsecond : Step true { start with performs := [.entered] } .perform
      { start with performs := [.entered,.entered] } := Step.perform rfl
  have hcheck : Step true { start with performs := [.entered,.entered] } .isCancelled
      { start with performs := [.starting,.entered] } := Step.isCancelled rfl (Moves.intro [] [_])
  have hcheck' : Step true { start with performs := [.starting,.entered] } .isCancelled
      { start with performs := [.starting,.starting] } := Step.isCancelled rfl (Moves.intro [_] [])
  have hset : Task.trySetInProgress false .created = (.inProgress,true) := rfl
  have hrefuse : Task.trySetInProgress false .inProgress = (.inProgress,false) := rfl
  have hwin : Step true { start with performs := [.starting,.starting] } (.trySetInProgress false)
      invoking := Step.trySetInProgress rfl hset (Moves.intro [] [_])
  have hlose : Step true invoking (.trySetInProgress false) alone :=
    Step.trySetInProgress rfl hrefuse (Moves.intro [_] [])
  have hinvoke : Step true alone .invoke running := Step.invoke rfl (Moves.intro [] [_])
  have hr := Run.cons hfirst (Run.cons hsecond (Run.cons hcheck (Run.cons hcheck' (Run.cons hwin
    (Run.cons hlose (Run.cons hinvoke (Run.nil running)))))))
  exact ⟨_,running,rfl,hr,rfl,invokedAtMostOnce hr⟩

end Task

end Isml
