import Isml.Task.Task

/-! # The future of a performed task becomes ready

`perform` answers for a cancelled task when `isCancelled` says so, and for a task it sets
in progress. Between the two reads the task may be cancelled, and the exchange may fail
on a created task; a call to which that happens returns without touching the promise.
-/
namespace Isml
open LabelledRun Threads

namespace Performing
variable {T E : Type}

/-- The call has not returned. -/
def active : Performing T E → Bool
  | .returned _ => false
  | _ => true

/-- The call has set the task in progress and will satisfy the promise. -/
def working : Performing T E → Bool
  | .invoking | .running | .finished _ => true
  | _ => false

theorem active_of_working {c : Performing T E} (h : c.working = true) : c.active = true := by
  cases c <;> first | rfl | cases h

end Performing

namespace Task
variable {T E : Type} {ndebug : Bool} {s t : Task T E} {e : TaskEvent T E}

/-- When there were calls of `perform` and all have returned, the promise is satisfied. -/
def FutureReady (s : Task T E) : Prop :=
  s.performs ≠ [] → (∀ c ∈ s.performs, c.active = false) → s.promise.isSome = true

/-- A call that does not set the task in progress because it was cancelled after
`isCancelled`, or because the exchange fails spuriously, leaves a satisfied promise or
another call that has not returned. -/
def LeavesAnswer (s : Task T E) : TaskEvent T E → Prop
  | .trySetInProgress spurious =>
    s.status = .cancelled ∨ s.status = .created ∧ spurious = true →
      s.promise.isSome = true ∨ 1 < s.performs.countP Performing.active
  | _ => True

/-- Who has not returned may still answer, and who set the task in progress will. -/
structure Answering (s : Task T E) : Prop where
  waiting : s.promise.isSome = true ∨ s.performs = [] ∨ 0 < s.performs.countP Performing.active
  completing : .completing ∈ s.performs → s.promise.isSome = true
  started : s.status = .inProgress ∨ s.status = .completed →
    s.promise.isSome = true ∨ ∃ c ∈ s.performs, c.working = true

theorem Answering.futureReady (h : Answering s) : FutureReady s := by
  intro hperforms hreturned
  rcases h.waiting with hpromise | hnone | hpos
  · exact hpromise
  · exact absurd hnone hperforms
  · obtain ⟨c,hc,hactive⟩ := List.countP_pos_iff.mp hpos
    rw [hreturned c hc] at hactive
    cases hactive

theorem answering_of_promise (h : s.promise.isSome = true) : Answering s :=
  ⟨Or.inl h,fun _ => h,fun _ => Or.inl h⟩

section Moved
variable {a b : Performing T E} {performs : List (Performing T E)}

theorem Answering.move {invocations : ℕ} (h : Answering s) (hmove : Moves a b s.performs performs)
    (hactive : b.active = true) (hcompleting : .completing ≠ b)
    (hworking : a.working = true → b.working = true) :
    Answering { s with performs := performs, invocations := invocations } := by
  refine ⟨?_,fun hmem => ?_,fun hstatus => ?_⟩
  · exact Or.inr (Or.inr (List.countP_pos_iff.mpr ⟨b,hmove.right_mem,hactive⟩))
  · exact h.completing ((hmove.mem_or_of_mem hmem).resolve_left hcompleting)
  · rcases h.started hstatus with hpromise | ⟨c,hc,hwork⟩
    · exact Or.inl hpromise
    · rcases hmove.mem_or hc with rfl | hc'
      · exact Or.inr ⟨b,hmove.right_mem,hworking hwork⟩
      · exact Or.inr ⟨c,hc',hwork⟩

theorem Answering.start (h : Answering s) (hmove : Moves a .invoking s.performs performs) :
    Answering { s with status := .inProgress, performs := performs } := by
  refine ⟨?_,fun hmem => ?_,fun _ => ?_⟩
  · exact Or.inr (Or.inr (List.countP_pos_iff.mpr ⟨_,hmove.right_mem,rfl⟩))
  · exact h.completing ((hmove.mem_or_of_mem hmem).resolve_left (by simp))
  · exact Or.inr ⟨_,hmove.right_mem,rfl⟩

/-- A call returns that neither answers nor has set the task in progress. -/
theorem Answering.leave (h : Answering s) (hmove : Moves .starting (.returned false) s.performs performs)
    (hleft : s.promise.isSome = true ∨ 0 < performs.countP Performing.active) :
    Answering { s with performs := performs } := by
  refine ⟨hleft.imp_right Or.inr,fun hmem => ?_,fun hstatus => ?_⟩
  · exact h.completing ((hmove.mem_or_of_mem hmem).resolve_left (by simp))
  · rcases h.started hstatus with hpromise | ⟨c,hc,hwork⟩
    · exact Or.inl hpromise
    · refine Or.inr ⟨c,hmove.mem_of_ne hc ?_,hwork⟩
      rintro rfl
      cases hwork

end Moved

theorem Answering.trySetInProgress {status : Status} {answer spurious : Bool}
    {performs : List (Performing T E)} (h : Answering s)
    (hg : LeavesAnswer s (.trySetInProgress spurious))
    (hset : Task.trySetInProgress spurious s.status = (status,answer))
    (hmove : Moves .starting (if answer then .invoking else .returned false) s.performs performs) :
    Answering { s with status := status, performs := performs } := by
  cases answer with
  | true =>
    obtain ⟨-,-,rfl⟩ := trySetInProgress_eq_true hset
    exact h.start hmove
  | false =>
    obtain ⟨rfl,hspurious⟩ := trySetInProgress_eq_false hset
    have hleft : s.status = .cancelled ∨ s.status = .created →
        s.promise.isSome = true ∨ 0 < performs.countP Performing.active := by
      intro hstatus
      have hcount : performs.countP Performing.active + 1 = s.performs.countP Performing.active :=
        hmove.countP_eq Performing.active
      refine (hg (hstatus.imp_right fun hcreated => ⟨hcreated,hspurious hcreated⟩)).imp_right ?_
      intro hmore
      omega
    have hworking : s.status = .inProgress ∨ s.status = .completed →
        s.promise.isSome = true ∨ 0 < performs.countP Performing.active := by
      intro hstatus
      refine (h.started hstatus).imp_right fun ⟨c,hc,hwork⟩ => ?_
      refine List.countP_pos_iff.mpr ⟨c,hmove.mem_of_ne hc ?_,Performing.active_of_working hwork⟩
      rintro rfl
      cases hwork
    apply h.leave hmove
    cases hstatus : s.status with
    | created => exact hleft (Or.inr hstatus)
    | inProgress => exact hworking (Or.inl hstatus)
    | completed => exact hworking (Or.inr hstatus)
    | cancelled => exact hleft (Or.inl hstatus)

theorem Answering.tryCancel {status : Status} {result : CancellationResult} {spurious : Bool}
    (h : Answering s) (hcancel : Task.tryCancel spurious s.status = (status,result)) :
    Answering { s with status := status, cancellations := s.cancellations ++ [result] } := by
  refine ⟨h.waiting,h.completing,fun hstatus => h.started ?_⟩
  rw [tryCancel_eq] at hcancel
  cases hold : s.status with
  | created =>
    rw [hold] at hcancel
    obtain ⟨rfl,-⟩ := Prod.mk.inj hcancel
    cases spurious <;> simp at hstatus
  | inProgress => exact Or.inl rfl
  | completed => exact Or.inr rfl
  | cancelled =>
    rw [hold] at hcancel
    obtain ⟨rfl,-⟩ := Prod.mk.inj hcancel
    simp at hstatus

theorem Answering.step (h : Answering s) (hg : LeavesAnswer s e) (hstep : Step ndebug s e t) :
    Answering t := by
  cases hstep with
  | perform hs =>
    refine ⟨Or.inr (Or.inr (by simp [Performing.active])),fun hmem => ?_,fun hstatus => ?_⟩
    · exact h.completing (by simpa using hmem)
    · refine (h.started hstatus).imp_right fun ⟨c,hc,hwork⟩ => ?_
      exact ⟨c,List.mem_cons_of_mem _ hc,hwork⟩
  | isCancelled hs hmove =>
    exact h.move hmove (by split_ifs <;> rfl) (by split_ifs <;> simp) (fun hwork => by cases hwork)
  | setException hs hpromise hmove => exact answering_of_promise rfl
  | setExceptionAgain hs hpromise hmem =>
    exact answering_of_promise (Option.isSome_iff_exists.mpr ⟨_,hpromise⟩)
  | trySetInProgress hs hset hmove => exact h.trySetInProgress hg hset hmove
  | invoke hs hmove => exact h.move hmove rfl (by simp) fun _ => rfl
  | leave hs hmove => exact h.move hmove rfl (by simp) fun _ => rfl
  | setOutcome hs hpromise hmove => exact answering_of_promise rfl
  | setOutcomeAgain hs hpromise hmem =>
    exact answering_of_promise (Option.isSome_iff_exists.mpr ⟨_,hpromise⟩)
  | assertSkipped hs hbuild hmove => exact answering_of_promise (h.completing hmove.left_mem)
  | assertCompleted hs hbuild hset hmove => exact answering_of_promise (h.completing hmove.left_mem)
  | assertFailed hs hbuild hset hmem => exact answering_of_promise (h.completing hmem)
  | tryCancel hs hcancel => exact h.tryCancel hcancel

/-- The last call to return has neither answered nor invoked the function. -/
theorem not_futureReady_of_not_leavesAnswer (hg : ¬ LeavesAnswer s e) (hstep : Step ndebug s e t) :
    ¬ FutureReady t := by
  cases hstep with
  | @trySetInProgress status answer spurious performs hs hset hmove =>
    unfold LeavesAnswer at hg
    rw [Classical.not_imp, not_or] at hg
    obtain ⟨hfails,hpromise,hlast⟩ := hg
    cases answer with
    | true =>
      obtain ⟨hcreated,rfl,-⟩ := trySetInProgress_eq_true hset
      rw [hcreated] at hfails
      rcases hfails with hcancelled | ⟨-,hspurious⟩
      · cases hcancelled
      · cases hspurious
    | false =>
      have hcount : performs.countP Performing.active + 1 = s.performs.countP Performing.active :=
        hmove.countP_eq Performing.active
      have hnone : performs.countP Performing.active = 0 := by omega
      intro hready
      refine hpromise (hready (List.ne_nil_of_mem hmove.right_mem) fun c hc => ?_)
      simpa using List.countP_eq_zero.mp hnone c hc
  | _ => exact absurd trivial hg

theorem created_answering : Answering (created : Task T E) :=
  ⟨Or.inr (Or.inl rfl),fun h => absurd h List.not_mem_nil,fun h => by rcases h with h | h <;> cases h⟩

/-- In every state of a run the future is ready or somebody may still answer, exactly if
every call of the run that leaves without an answer leaves one behind. -/
theorem futureReady_iff {trace : List (Task T E × TaskEvent T E)}
    (hr : Run (Step ndebug) created trace t) :
    ((∀ e ∈ trace, FutureReady e.1) ∧ FutureReady t) ↔ Guarded LeavesAnswer trace :=
  hr.states_iff_guarded (fun _ h => h.futureReady) (fun _ _ _ h => h.step)
    (fun _ _ _ _ => not_futureReady_of_not_leavesAnswer) created_answering

/-- One call of `perform` and a cancellation between its two reads of the status. -/
def cancelBetweenEvents : List (TaskEvent T E) :=
  [.perform,.isCancelled,.tryCancel false,.trySetInProgress false]

theorem cancelBetween_run (ndebug : Bool) : ∃ trace t,
    trace.map Prod.snd = cancelBetweenEvents ∧ Run (Step ndebug) (created : Task T E) trace t ∧
      t.performs = [.returned false] ∧ t.promise = none := by
  let entered : Task T E := { created with performs := [.entered] }
  let starting : Task T E := { created with performs := [.starting] }
  let cancelled : Task T E :=
    { starting with status := .cancelled, cancellations := [.success] }
  let returned : Task T E := { cancelled with performs := [.returned false] }
  have hperform : Step ndebug created .perform entered := Step.perform rfl
  have hcheck : Step ndebug entered .isCancelled starting := Step.isCancelled rfl (Moves.intro [] [])
  have hcancel : Step ndebug starting (.tryCancel false) cancelled := Step.tryCancel rfl rfl
  have hrefuse : Task.trySetInProgress false .cancelled = (.cancelled,false) := rfl
  have hset : Step ndebug cancelled (.trySetInProgress false) returned :=
    Step.trySetInProgress rfl hrefuse (Moves.intro [] [])
  refine ⟨[(created,.perform),(entered,.isCancelled),(starting,.tryCancel false),
    (cancelled,.trySetInProgress false)],returned,rfl,?_,rfl,rfl⟩
  exact Run.cons hperform (Run.cons hcheck (Run.cons hcancel (Run.cons hset (Run.nil _))))

theorem futureReady_iff_cancelBetween : ∃ trace, ∃ t : Task ℕ ℕ,
    trace.map Prod.snd = cancelBetweenEvents ∧ Run (Step true) created trace t ∧
      (((∀ e ∈ trace, FutureReady e.1) ∧ FutureReady t) ↔ Guarded LeavesAnswer trace) := by
  obtain ⟨trace,t,hevents,hr,_⟩ := cancelBetween_run (T := ℕ) (E := ℕ) true
  exact ⟨trace,t,hevents,hr,futureReady_iff hr⟩

/-- The only call has returned, and nobody will ever satisfy the promise. -/
theorem not_futureReady_cancelBetween : ∃ trace, ∃ t : Task ℕ ℕ,
    trace.map Prod.snd = cancelBetweenEvents ∧ Run (Step true) created trace t ∧
      t.performs = [.returned false] ∧ t.promise = none ∧ ¬ FutureReady t := by
  obtain ⟨trace,t,hevents,hr,hperforms,hpromise⟩ := cancelBetween_run (T := ℕ) (E := ℕ) true
  refine ⟨trace,t,hevents,hr,hperforms,hpromise,fun hready => ?_⟩
  have hsome : t.promise.isSome = true :=
    hready (by simp [hperforms]) (by simp [hperforms, Performing.active])
  rw [hpromise] at hsome
  cases hsome

end Task

end Isml
