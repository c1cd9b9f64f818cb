import Isml.Task.Task

/-! # Where a completion is recorded

The exchange that makes a task completed is the argument of an `assert`. A build with
assertions lets a call of `perform` return only when the exchange succeeded, and a build
without them never makes it.
-/
namespace Isml.Task
open LabelledRun Threads

variable {T E : Type} {ndebug : Bool} {s t : Task T E} {e : TaskEvent T E}

/-- Once a call that invoked the function has returned, the task is completed. -/
def CompletionRecorded (s : Task T E) : Prop :=
  .returned true ∈ s.performs → isCompleted s.status = true ∧ isCancelled s.status = false

/-- Once a call that invoked the function has returned, `tryCancel` finds the task completed. -/
def AnswersCompleted (s : Task T E) (e : TaskEvent T E) (t : Task T E) : Prop :=
  ∀ spurious, e = .tryCancel spurious → .returned true ∈ s.performs →
    t.cancellations = s.cancellations ++ [.taskAlreadyCompleted]

/-- A call that has satisfied the promise does not get to its end in a build without `assert`. -/
def EndsInAssert (ndebug : Bool) (_ : Task T E) : TaskEvent T E → Prop
  | .assertCompleted _ => ndebug = false
  | _ => True

/-- Only completed tasks have calls that invoked the function behind them, and a build without
`assert` has no completed tasks. -/
structure Recording (ndebug : Bool) (s : Task T E) : Prop where
  recorded : .returned true ∈ s.performs → s.status = .completed
  unrecorded : ndebug = true → s.status ≠ .completed

theorem Recording.completionRecorded (h : Recording ndebug s) : CompletionRecorded s := by
  intro hreturned
  rw [h.recorded hreturned]
  exact ⟨rfl,rfl⟩

/-- A call that goes on to anything but such an end. -/
theorem Recording.move {a b : Performing T E} {performs : List (Performing T E)}
    (h : Recording ndebug s) (hmove : Moves a b s.performs performs) (hb : .returned true ≠ b)
    {promise : Option (Except (TaskException E) T)} {invocations : ℕ} :
    Recording ndebug
      { s with promise := promise, performs := performs, invocations := invocations } := by
  refine ⟨fun hreturned => ?_,h.unrecorded⟩
  exact h.recorded ((hmove.mem_or_of_mem hreturned).resolve_left hb)

theorem Recording.trySetInProgress {status : Status} {answer spurious : Bool}
    {performs : List (Performing T E)} (h : Recording ndebug s)
    (hset : Task.trySetInProgress spurious s.status = (status,answer))
    (hmove : Moves .starting (if answer then .invoking else .returned false) s.performs performs) :
    Recording ndebug { s with status := status, performs := performs } := by
  have hbefore : .returned true ∈ performs → s.status = .completed := by
    intro hreturned
    refine h.recorded ((hmove.mem_or_of_mem hreturned).resolve_left ?_)
    cases answer <;> simp
  cases answer with
  | true =>
    obtain ⟨hcreated,-,rfl⟩ := trySetInProgress_eq_true hset
    refine ⟨fun hreturned => ?_,fun _ => by simp⟩
    have hcompleted := hbefore hreturned
    rw [hcreated] at hcompleted
    cases hcompleted
  | false =>
    obtain ⟨rfl,-⟩ := trySetInProgress_eq_false hset
    exact ⟨hbefore,h.unrecorded⟩

theorem Recording.tryCancel {status : Status} {result : CancellationResult} {spurious : Bool}
    (h : Recording ndebug s) (hcancel : Task.tryCancel spurious s.status = (status,result)) :
    Recording ndebug { s with status := status, cancellations := s.cancellations ++ [result] } := by
  rw [tryCancel_eq] at hcancel
  constructor
  · intro hreturned
    rw [h.recorded hreturned] at hcancel
    exact (Prod.mk.inj hcancel).1.symm
  · intro hbuild
    have hbefore := h.unrecorded hbuild
    rw [← (Prod.mk.inj hcancel).1]
    cases hstatus : s.status with
    | created => cases spurious <;> simp
    | inProgress => simp
    | completed => exact absurd hstatus hbefore
    | cancelled => simp

theorem Recording.step (h : Recording ndebug s) (hg : EndsInAssert ndebug s e)
    (hstep : Step ndebug s e t) : Recording ndebug t := by
  cases hstep with
  | perform hs =>
    refine ⟨fun hreturned => ?_,h.unrecorded⟩
    exact h.recorded (by simpa using hreturned)
  | isCancelled hs hmove => exact h.move hmove (by split_ifs <;> simp)
  | setException hs hpromise hmove => exact h.move hmove (by simp)
  | setExceptionAgain hs hpromise hmem => exact ⟨h.recorded,h.unrecorded⟩
  | trySetInProgress hs hset hmove => exact h.trySetInProgress hset hmove
  | invoke hs hmove => exact h.move hmove (by simp)
  | leave hs hmove => exact h.move hmove (by simp)
  | setOutcome hs hpromise hmove => exact h.move hmove (by simp)
  | setOutcomeAgain hs hpromise hmem => exact ⟨h.recorded,h.unrecorded⟩
  | assertSkipped hs hbuild hmove => cases hbuild.symm.trans hg
  | assertCompleted hs hbuild hset hmove =>
    obtain ⟨-,-,rfl⟩ := trySetCompleted_eq_true hset
    refine ⟨fun _ => rfl,fun hother => ?_⟩
    cases hbuild.symm.trans hother
  | assertFailed hs hbuild hset hmem =>
    obtain rfl := trySetCompleted_eq_false hset
    exact ⟨h.recorded,h.unrecorded⟩
  | tryCancel hs hcancel => exact h.tryCancel hcancel

/-- Without the `assert` the call returns, and the task stays in progress. -/
theorem Recording.not_completionRecorded (h : Recording ndebug s) (hg : ¬ EndsInAssert ndebug s e)
    (hstep : Step ndebug s e t) : ¬ CompletionRecorded t := by
  cases hstep with
  | assertSkipped hs hbuild hmove =>
    intro hrecorded
    have hcompleted : s.status = .completed := of_decide_eq_true (hrecorded hmove.right_mem).1
    exact h.unrecorded hbuild hcompleted
  | assertCompleted hs hbuild hset hmove => exact absurd hbuild hg
  | assertFailed hs hbuild hset hmem => exact absurd hbuild hg
  | _ => exact absurd trivial hg

theorem Recording.answersCompleted (h : Recording ndebug s) (hstep : Step ndebug s e t) :
    AnswersCompleted s e t := by
  rintro spurious rfl hreturned
  cases hstep with
  | @tryCancel status result _ hs hcancel =>
    rw [h.recorded hreturned, tryCancel_eq] at hcancel
    rw [← (Prod.mk.inj hcancel).2]

theorem created_recording : Recording ndebug (created : Task T E) :=
  ⟨fun hreturned => absurd hreturned List.not_mem_nil,fun _ => by simp [created]⟩

/-- Completions are recorded, and `tryCancel` knows of them, in every state of a run exactly if
no call gets to its end in a build without `assert`. -/
theorem completionRecorded_iff {trace : List (Task T E × TaskEvent T E)}
    (hr : Run (Step ndebug) created trace t) :
    (((∀ e ∈ trace, CompletionRecorded e.1) ∧ CompletionRecorded t) ∧
      ∀ e ∈ transitions trace t, AnswersCompleted e.1 e.2.1 e.2.2) ↔
    Guarded (EndsInAssert ndebug) trace := by
  have hstates : ((∀ e ∈ trace, CompletionRecorded e.1) ∧ CompletionRecorded t) ↔
      Guarded (EndsInAssert ndebug) trace :=
    hr.states_iff_guarded (fun _ h => h.completionRecorded) (fun _ _ _ h => h.step)
      (fun _ _ _ h => h.not_completionRecorded) created_recording
  rw [hstates]
  refine and_iff_left_of_imp fun hg e he => ?_
  obtain ⟨hmem,hstep⟩ := hr.step_of_mem_transitions he
  exact (hr.invariant_states (fun _ _ _ h => h.step) created_recording hg _ hmem).answersCompleted hstep

/-- One call of `perform` from its beginning to its end, and a cancellation behind it. -/
def performAndCancelEvents : List (TaskEvent ℕ ℕ) :=
  [.perform,.isCancelled,.trySetInProgress false,.invoke,.leave (.ok 5),.setOutcome,
    .assertCompleted false,.tryCancel false]

/-- The state in front of the `assert`. -/
def completing : Task ℕ ℕ :=
  { (created : Task ℕ ℕ) with
    status := .inProgress
    promise := some (.ok 5)
    performs := [.completing]
    invocations := 1 }

/-- The call up to its `assert`. -/
def performTrace : List (Task ℕ ℕ × TaskEvent ℕ ℕ) :=
  let start : Task ℕ ℕ := created
  let starting : Task ℕ ℕ := { start with performs := [.starting] }
  let invoking : Task ℕ ℕ := { start with status := .inProgress, performs := [.invoking] }
  let running : Task ℕ ℕ := { invoking with performs := [.running], invocations := 1 }
  [(start,.perform),({ start with performs := [.entered] },.isCancelled),
    (starting,.trySetInProgress false),(invoking,.invoke),(running,.leave (.ok 5)),
    ({ running with performs := [.finished (.ok 5)] },.setOutcome)]

theorem perform_run (ndebug : Bool) : Run (Step ndebug) created performTrace completing := by
  have hmoves : ∀ a b : Performing ℕ ℕ, Moves a b [a] [b] := fun a b => Moves.intro [] []
  have hset : Task.trySetInProgress false .created = (.inProgress,true) := rfl
  have hfinish := hmoves (.finished (.ok 5)) .completing
  exact Run.cons (Step.perform rfl) (Run.cons (Step.isCancelled rfl (hmoves _ _)) (Run.cons
    (Step.trySetInProgress rfl hset (hmoves _ _)) (Run.cons (Step.invoke rfl (hmoves _ _))
      (Run.cons (Step.leave rfl (hmoves _ _)) (Run.cons (Step.setOutcome rfl rfl hfinish)
        (Run.nil completing))))))

/-- With `assert` the call completes the task. -/
theorem completionRecorded_iff_assert : ∃ trace, ∃ t : Task ℕ ℕ,
    trace.map Prod.snd = performAndCancelEvents ∧ Run (Step false) created trace t ∧
      ((((∀ e ∈ trace, CompletionRecorded e.1) ∧ CompletionRecorded t) ∧
          ∀ e ∈ transitions trace t, AnswersCompleted e.1 e.2.1 e.2.2) ↔
        Guarded (EndsInAssert false) trace) := by
  let returned : Task ℕ ℕ := { completing with status := .completed, performs := [.returned true] }
  let answered : Task ℕ ℕ := { returned with cancellations := [.taskAlreadyCompleted] }
  have hassert : Step false completing (.assertCompleted false) returned :=
    Step.assertCompleted rfl rfl rfl (Moves.intro [] [])
  have hcancel : Step false returned (.tryCancel false) answered := Step.tryCancel rfl rfl
  have hr : Run (Step false) created
      (performTrace ++ [(completing,.assertCompleted false),(returned,.tryCancel false)]) answered :=
    (perform_run false).append (Run.cons hassert (Run.cons hcancel (Run.nil _)))
  exact ⟨_,answered,rfl,hr,completionRecorded_iff hr⟩

/-- Without `assert` the task is in progress for ever, and `tryCancel` says so. -/
theorem not_completionRecorded_ndebug : ∃ trace, ∃ t : Task ℕ ℕ,
    trace.map Prod.snd = performAndCancelEvents ∧ Run (Step true) created trace t ∧
      t.performs = [.returned true] ∧ t.cancellations = [.taskAlreadyInProgress] ∧
      ¬ CompletionRecorded t ∧ ¬ ∀ e ∈ transitions trace t, AnswersCompleted e.1 e.2.1 e.2.2 := by
  let returned : Task ℕ ℕ := { completing with performs := [.returned true] }
  let answered : Task ℕ ℕ := { returned with cancellations := [.taskAlreadyInProgress] }
  have hassert : Step true completing (.assertCompleted false) returned :=
    Step.assertSkipped rfl rfl (Moves.intro [] [])
  have hcancel : Step true returned (.tryCancel false) answered := Step.tryCancel rfl rfl
  have hr : Run (Step true) created
      (performTrace ++ [(completing,.assertCompleted false),(returned,.tryCancel false)]) answered :=
    (perform_run true).append (Run.cons hassert (Run.cons hcancel (Run.nil _)))
  refine ⟨_,answered,rfl,hr,rfl,rfl,fun hrecorded => ?_,fun hanswers => ?_⟩
  · have hcompleted := (hrecorded (List.mem_singleton_self _)).1
    cases hcompleted
  · have hlast := mem_transitions_last (performTrace ++ [(completing,.assertCompleted false)]) returned
      (.tryCancel false) answered
    rw [List.append_assoc] at hlast
    have hanswer := hanswers _ hlast false rfl (List.mem_singleton_self _)
    cases hanswer

end Isml.Task
