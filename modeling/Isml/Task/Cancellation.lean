import Isml.Task.Task

/-! # A successful cancellation is final

`tryCancel` infers from the reloaded value why the exchange failed. A weak exchange may
also fail on a created task; the reloaded value is then the one that was expected, and
the failure is reported as a success.
-/
namespace Isml.Task
open LabelledRun Threads

variable {T E : Type} {ndebug : Bool} {s t : Task T E} {e : TaskEvent T E}

/-- After a successful `tryCancel` the task is cancelled and its function was not invoked. -/
def CancelledForGood (s : Task T E) : Prop :=
  .success ∈ s.cancellations → s.status = .cancelled ∧ s.invocations = 0

/-- The exchange of a `tryCancel` does not fail spuriously on a created task. -/
def CancelsCreated (s : Task T E) : TaskEvent T E → Prop
  | .tryCancel spurious => s.status = .created → spurious = false
  | _ => True

/-- Until somebody has set the task in progress nobody is about to invoke its function. -/
structure Cancellable (s : Task T E) : Prop where
  final : CancelledForGood s
  unstarted : s.status = .created ∨ s.status = .cancelled →
    s.invocations = 0 ∧ .invoking ∉ s.performs

/-- Only what moves to the invocation or changes the status matters. -/
theorem Cancellable.move {a b : Performing T E} {performs : List (Performing T E)}
    {promise : Option (Except (TaskException E) T)} (h : Cancellable s)
    (hmove : Moves a b s.performs performs) (hb : .invoking ≠ b) :
    Cancellable { s with promise := promise, performs := performs } := by
  refine ⟨h.final,fun hstatus => ?_⟩
  obtain ⟨hnever,hnobody⟩ := h.unstarted hstatus
  exact ⟨hnever,hmove.not_mem hnobody hb⟩

theorem Cancellable.trySetInProgress {status : Status} {answer spurious : Bool}
    {performs : List (Performing T E)} (h : Cancellable s)
    (hset : Task.trySetInProgress spurious s.status = (status,answer))
    (hmove : Moves .starting (if answer then .invoking else .returned false) s.performs performs) :
    Cancellable { s with status := status, performs := performs } := by
  cases answer with
  | true =>
    obtain ⟨hcreated,-,rfl⟩ := trySetInProgress_eq_true hset
    refine ⟨fun hsuccess => ?_,fun hstatus => ?_⟩
    · have hcancelled := (h.final hsuccess).1
      rw [hcreated] at hcancelled
      cases hcancelled
    · rcases hstatus with hstatus | hstatus <;> cases hstatus
  | false =>
    obtain ⟨rfl,-⟩ := trySetInProgress_eq_false hset
    have hkept : Cancellable { s with promise := s.promise, performs := performs } :=
      h.move hmove (by simp)
    exact hkept

theorem Cancellable.invoke {performs : List (Performing T E)} (h : Cancellable s)
    (hmove : Moves .invoking .running s.performs performs) :
    Cancellable { s with performs := performs, invocations := s.invocations + 1 } := by
  have hstarted : ¬ (s.status = .created ∨ s.status = .cancelled) := fun hstatus =>
    (h.unstarted hstatus).2 hmove.left_mem
  refine ⟨fun hsuccess => ?_,fun hstatus => absurd hstatus hstarted⟩
  exact absurd (Or.inr (h.final hsuccess).1) hstarted

theorem Cancellable.trySetCompleted {status : Status} {answer spurious : Bool}
    {performs : List (Performing T E)} {stopped : Option Fault} (h : Cancellable s)
    (hset : Task.trySetCompleted spurious s.status = (status,answer))
    (hperforms : .invoking ∉ s.performs → .invoking ∉ performs) :
    Cancellable { s with status := status, performs := performs, stopped := stopped } := by
  cases answer with
  | true =>
    obtain ⟨hprogress,-,rfl⟩ := trySetCompleted_eq_true hset
    refine ⟨fun hsuccess => ?_,fun hstatus => ?_⟩
    · have hcancelled := (h.final hsuccess).1
      rw [hprogress] at hcancelled
      cases hcancelled
    · rcases hstatus with hstatus | hstatus <;> cases hstatus
  | false =>
    obtain rfl := trySetCompleted_eq_false hset
    refine ⟨h.final,fun hstatus => ?_⟩
    obtain ⟨hnever,hnobody⟩ := h.unstarted hstatus
    exact ⟨hnever,hperforms hnobody⟩

theorem Cancellable.tryCancel {status : Status} {result : CancellationResult} {spurious : Bool}
    (h : Cancellable s) (hg : s.status = .created → spurious = false)
    (hcancel : Task.tryCancel spurious s.status = (status,result)) :
    Cancellable { s with status := status, cancellations := s.cancellations ++ [result] } := by
  rw [tryCancel_eq] at hcancel
  cases hstatus : s.status with
  | created =>
    rw [hstatus, hg hstatus] at hcancel
    obtain ⟨rfl,rfl⟩ := Prod.mk.inj hcancel
    have hunstarted := h.unstarted (Or.inl hstatus)
    exact ⟨fun _ => ⟨rfl,hunstarted.1⟩,fun _ => hunstarted⟩
  | cancelled =>
    rw [hstatus] at hcancel
    obtain ⟨rfl,rfl⟩ := Prod.mk.inj hcancel
    have hunstarted := h.unstarted (Or.inr hstatus)
    exact ⟨fun _ => ⟨rfl,hunstarted.1⟩,fun _ => hunstarted⟩
  | inProgress | completed =>
    rw [hstatus] at hcancel
    obtain ⟨rfl,rfl⟩ := Prod.mk.inj hcancel
    refine ⟨fun hsuccess => ?_,by simp⟩
    have hfinal := h.final (by simpa using hsuccess)
    rw [hstatus] at hfinal
    cases hfinal.1

theorem Cancellable.step (h : Cancellable s) (hg : CancelsCreated s e) (hstep : Step ndebug s e t) :
    Cancellable t := by
  cases hstep with
  | perform hs =>
    refine ⟨h.final,fun hstatus => ?_⟩
    simpa using h.unstarted hstatus
  | isCancelled hs hmove => exact h.move hmove (by split_ifs <;> simp)
  | setException hs hpromise hmove => exact h.move hmove (by simp)
  | setExceptionAgain hs hpromise hmem => exact ⟨h.final,h.unstarted⟩
  | trySetInProgress hs hset hmove => exact h.trySetInProgress hset hmove
  | invoke hs hmove => exact h.invoke hmove
  | leave hs hmove => exact h.move hmove (by simp)
  | setOutcome hs hpromise hmove => exact h.move hmove (by simp)
  | setOutcomeAgain hs hpromise hmem => exact ⟨h.final,h.unstarted⟩
  | assertSkipped hs hbuild hmove => exact h.move hmove (by simp)
  | assertCompleted hs hbuild hset hmove =>
    exact h.trySetCompleted hset fun hnobody => hmove.not_mem hnobody (by simp)
  | assertFailed hs hbuild hset hmem => exact h.trySetCompleted hset id
  | tryCancel hs hcancel => exact h.tryCancel hg hcancel

/-- A spurious failure is reported as a success although the task stays as it is. -/
theorem not_cancelledForGood_of_spurious (hg : ¬ CancelsCreated s e) (hstep : Step ndebug s e t) :
    ¬ CancelledForGood t := by
  cases hstep with
  | tryCancel hs hcancel =>
    unfold CancelsCreated at hg
    rw [Classical.not_imp, Bool.not_eq_false] at hg
    obtain ⟨hcreated,rfl⟩ := hg
    rw [tryCancel_eq, hcreated] at hcancel
    obtain ⟨rfl,rfl⟩ := Prod.mk.inj hcancel
    intro hfinal
    cases (hfinal (by simp)).1
  | _ => exact absurd trivial hg

theorem created_cancellable : Cancellable (created : Task T E) :=
  ⟨by simp [CancelledForGood, created],fun _ => ⟨rfl,List.not_mem_nil⟩⟩

/-- Cancellations are final in every state of a run exactly if no `tryCancel` of the run
fails spuriously on the created task. -/
theorem cancelledForGood_iff {trace : List (Task T E × TaskEvent T E)}
    (hr : Run (Step ndebug) created trace t) :
    ((∀ e ∈ trace, CancelledForGood e.1) ∧ CancelledForGood t) ↔ Guarded CancelsCreated trace :=
  hr.states_iff_guarded (fun _ h => h.final) (fun _ _ _ h => h.step)
    (fun _ _ _ _ => not_cancelledForGood_of_spurious) created_cancellable

/-- A `tryCancel` that fails spuriously, and a call of `perform` up to the function. -/
def spuriousCancelEvents : List (TaskEvent T E) :=
  [.tryCancel true,.perform,.isCancelled,.trySetInProgress false,.invoke]

theorem spuriousCancel_run (ndebug : Bool) : ∃ trace t,
    trace.map Prod.snd = spuriousCancelEvents ∧ Run (Step ndebug) (created : Task T E) trace t ∧
      .success ∈ t.cancellations ∧ t.status = .inProgress ∧ t.invocations = 1 := by
  let cancelled : Task T E := { created with cancellations := [.success] }
  let entered : Task T E := { cancelled with performs := [.entered] }
  let starting : Task T E := { cancelled with performs := [.starting] }
  let invoking : Task T E := { cancelled with status := .inProgress, performs := [.invoking] }
  let running : Task T E := { invoking with performs := [.running], invocations := 1 }
  have hcancel : Step ndebug created (.tryCancel true) cancelled := Step.tryCancel rfl rfl
  have hperform : Step ndebug cancelled .perform entered := Step.perform rfl
  have hcheck : Step ndebug entered .isCancelled starting := Step.isCancelled rfl (Moves.intro [] [])
  have hstart : Task.trySetInProgress false .created = (.inProgress,true) := rfl
  have hset : Step ndebug starting (.trySetInProgress false) invoking :=
    Step.trySetInProgress rfl hstart (Moves.intro [] [])
  have hinvoke : Step ndebug invoking .invoke running := Step.invoke rfl (Moves.intro [] [])
  refine ⟨[(created,.tryCancel true),(cancelled,.perform),(entered,.isCancelled),
    (starting,.trySetInProgress false),(invoking,.invoke)],running,rfl,?_,?_,rfl,rfl⟩
  · exact Run.cons hcancel (Run.cons hperform (Run.cons hcheck (Run.cons hset
      (Run.cons hinvoke (Run.nil _)))))
  · exact List.mem_singleton_self _

theorem cancelledForGood_iff_spurious : ∃ trace, ∃ t : Task ℕ ℕ,
    trace.map Prod.snd = spuriousCancelEvents ∧ Run (Step true) created trace t ∧
      (((∀ e ∈ trace, CancelledForGood e.1) ∧ CancelledForGood t) ↔
        Guarded CancelsCreated trace) := by
  obtain ⟨trace,t,hevents,hr,_⟩ := spuriousCancel_run (T := ℕ) (E := ℕ) true
  exact ⟨trace,t,hevents,hr,cancelledForGood_iff hr⟩

/-- `tryCancel` has returned `Success`, and the function is running. -/
theorem not_cancelledForGood_spurious : ∃ trace, ∃ t : Task ℕ ℕ,
    trace.map Prod.snd = spuriousCancelEvents ∧ Run (Step true) created trace t ∧
      .success ∈ t.cancellations ∧ t.status ≠ .cancelled ∧ t.invocations = 1 ∧
      ¬ CancelledForGood t := by
  obtain ⟨trace,t,hevents,hr,hsuccess,hstatus,hinvoked⟩ := spuriousCancel_run (T := ℕ) (E := ℕ) true
  have hrunning : t.status ≠ .cancelled := by simp [hstatus]
  exact ⟨trace,t,hevents,hr,hsuccess,hrunning,hinvoked,fun h => hrunning (h hsuccess).1⟩

end Isml.Task
