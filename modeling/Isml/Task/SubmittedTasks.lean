import Isml.Task.ScheduledWork
import Isml.Task.SingleCall
import Mathlib.Logic.Function.Basic

/-! # From `submit` and `schedule` to the future

Each action that a scheduler or its pool accepts belongs to a task, whose holder may try to cancel it at
any time. A worker calls `perform` on the action and goes on when the call has come back; in between the
steps of the call stand beside those of all other threads.
-/
namespace Isml
open LabelledRun Threads

/-- A scheduler with its pool, and the task of each action. -/
structure SubmittedTasks (T E : Type) where
  executor : ScheduledPool
  tasks : ℕ → Task T E

/-- A worker begins a call and goes on behind it; the others are the steps inside of the executor and of one
task. -/
inductive SubmissionEvent (T E : Type) where
  | executor (e : ScheduledPoolEvent)
  | perform (action : ℕ)
  | finish (action : ℕ)
  | task (action : ℕ) (e : TaskEvent T E)

/-- A worker begins a call of `perform`, or goes on behind it. -/
def ScheduledPoolEvent.calling : ScheduledPoolEvent → Bool
  | .pool .perform | .pool .finish => true
  | _ => false

/-- A step that is no call from outside, no spurious failure and no spurious wake-up. -/
def SubmissionEvent.unprompted {T E : Type} : SubmissionEvent T E → Bool
  | .executor e => e.unprompted
  | .task _ e => e.unhindered
  | _ => true

namespace ScheduledPool
variable {clock : Clock} {s t : ScheduledPool} {e : ScheduledPoolEvent}

theorem performed_of_step (hcalling : e.calling = false) (hstep : Step clock s e t) :
    t.pool.performed = s.pool.performed ∧ t.pool.finished = s.pool.finished := by
  cases hstep with
  | schedule | refuse | scheduler => exact ⟨rfl,rfl⟩
  | submit hpool | hand _ hpool | join _ hpool => cases hpool <;> exact ⟨rfl,rfl⟩
  | pool _ hpool => cases hpool <;> first | exact ⟨rfl,rfl⟩ | cases hcalling

theorem exists_performed (hstep : Step clock s (.pool .perform) t) :
    ∃ action, t.pool.performed = s.pool.performed ++ [action] ∧ t.pool.finished = s.pool.finished ∧
      t.accepted = s.accepted := by
  cases hstep with
  | pool _ hpool =>
    cases hpool with
    | @perform action => exact ⟨action,rfl,rfl,rfl⟩

theorem exists_finished (hstep : Step clock s (.pool .finish) t) :
    ∃ action, t.pool.finished = s.pool.finished ++ [action] ∧ t.pool.performed = s.pool.performed ∧
      t.accepted = s.accepted := by
  cases hstep with
  | pool _ hpool =>
    cases hpool with
    | @finish action => exact ⟨action,rfl,rfl,rfl⟩

namespace HandedOn

theorem mem_performed (h : HandedOn s) {action : ℕ} (hmem : action ∈ s.pool.finished) :
    action ∈ s.pool.performed :=
  h.ledger.performed.mem_iff.mpr (List.mem_append_left _ hmem)

theorem lt_accepted (h : HandedOn s) {action : ℕ} (hmem : action ∈ s.pool.performed) :
    action < s.accepted := by
  have hentered : action ∈ s.pool.entered := h.ledger.performed_subperm.subset hmem
  exact List.mem_range.mp (h.accepted.mem_iff.mp (List.mem_append_right _ hentered))

end HandedOn

end ScheduledPool

namespace SubmittedTasks
variable {T E : Type} {clock : Clock} {ndebug : Bool} {s t : SubmittedTasks T E} {e : SubmissionEvent T E}

def create (clock : Clock) (start : ℤ) (workerCount : ℕ) : SubmittedTasks T E :=
  ⟨ScheduledPool.create clock start workerCount,fun _ => Task.created⟩

/-- No task has ended the process. -/
def Alive (s : SubmittedTasks T E) : Prop := ∀ action, (s.tasks action).stopped = none

def update (action : ℕ) (task : Task T E) (s : SubmittedTasks T E) : SubmittedTasks T E :=
  { s with tasks := Function.update s.tasks action task }

/-- Who has submitted an action keeps the task, so it can be cancelled once it is accepted. -/
inductive Step (clock : Clock) (ndebug : Bool) :
    SubmittedTasks T E → SubmissionEvent T E → SubmittedTasks T E → Prop
  | executor {s : SubmittedTasks T E} {e : ScheduledPoolEvent} {executor : ScheduledPool} :
      Alive s → e.calling = false → ScheduledPool.Step clock s.executor e executor →
        Step clock ndebug s (.executor e) { s with executor := executor }
  | perform {s : SubmittedTasks T E} {action : ℕ} {executor : ScheduledPool} {task : Task T E} :
      Alive s → ScheduledPool.Step clock s.executor (.pool .perform) executor →
      executor.pool.performed = s.executor.pool.performed ++ [action] →
      Task.Step ndebug (s.tasks action) .perform task →
        Step clock ndebug s (.perform action) (update action task { s with executor := executor })
  | finish {s : SubmittedTasks T E} {action : ℕ} {executor : ScheduledPool} :
      Alive s → ScheduledPool.Step clock s.executor (.pool .finish) executor →
      executor.pool.finished = s.executor.pool.finished ++ [action] →
      (∀ c ∈ (s.tasks action).performs, c.active = false) →
        Step clock ndebug s (.finish action) { s with executor := executor }
  | task {s : SubmittedTasks T E} {action : ℕ} {e : TaskEvent T E} {task : Task T E} :
      Alive s → action < s.executor.accepted → e ≠ .perform →
      Task.Step ndebug (s.tasks action) e task →
        Step clock ndebug s (.task action e) (update action task s)

section Update
variable {action other : ℕ} {task : Task T E}

@[simp] theorem update_executor : (update action task s).executor = s.executor := rfl

@[simp] theorem update_tasks_self : (update action task s).tasks action = task :=
  Function.update_self _ _ _

theorem update_tasks_of_ne (h : other ≠ action) : (update action task s).tasks other = s.tasks other :=
  Function.update_of_ne h _ _

/-- What holds of the other tasks, and of the new one. -/
theorem forall_tasks_update (P : ℕ → Task T E → Prop) (hnew : P action task)
    (hothers : ∀ other, other ≠ action → P other (s.tasks other)) :
    ∀ other, P other ((update action task s).tasks other) :=
  (Function.forall_update_iff s.tasks P).mpr ⟨hnew,hothers⟩

end Update

/-- A task has as many calls as its action was performed, which is at most one, and it has come back where
the worker has gone on. -/
structure Followed (s : SubmittedTasks T E) : Prop where
  handedOn : s.executor.HandedOn
  single : ∀ action, (s.tasks action).SingleCall
  once : ∀ action, (s.tasks action).performs.length = s.executor.pool.performed.count action
  returned : ∀ action ∈ s.executor.pool.finished, ∀ c ∈ (s.tasks action).performs, c.active = false

theorem create_followed (clock : Clock) (start : ℤ) (workerCount : ℕ) :
    Followed (create clock start workerCount : SubmittedTasks T E) :=
  ⟨ScheduledPool.create_handedOn clock start workerCount,fun _ => Task.created_singleCall,fun _ => rfl,nofun⟩

/-- An action that is performed has not been performed before. -/
theorem Followed.unperformed (h : Followed s) {action : ℕ} {executor : ScheduledPool}
    (hexecutor : ScheduledPool.Step clock s.executor (.pool .perform) executor)
    (hperformed : executor.pool.performed = s.executor.pool.performed ++ [action]) :
    action ∉ s.executor.pool.performed ∧ (s.tasks action).performs = [] := by
  have hnodup := (ScheduledPool.conserved_of_handedOn (h.handedOn.step hexecutor)).performed
  rw [hperformed] at hnodup
  have hfresh : action ∉ s.executor.pool.performed := fun hmem =>
    (List.nodup_append.mp hnodup).2.2 action hmem action (List.mem_singleton_self _) rfl
  have hlength := h.once action
  rw [List.count_eq_zero_of_not_mem hfresh] at hlength
  exact ⟨hfresh,List.eq_nil_of_length_eq_zero hlength⟩

theorem Followed.step (h : Followed s) (hstep : Step clock ndebug s e t) : Followed t := by
  cases hstep with
  | executor _ hcalling hexecutor =>
    obtain ⟨hperformed,hfinished⟩ := ScheduledPool.performed_of_step hcalling hexecutor
    refine ⟨h.handedOn.step hexecutor,h.single,fun action => ?_,fun action hmem => ?_⟩
    · exact (h.once action).trans (by rw [hperformed])
    · rw [hfinished] at hmem
      exact h.returned action hmem
  | @perform action executor task _ hexecutor hperformed hperform =>
    obtain ⟨hfresh,hnone⟩ := h.unperformed hexecutor hperformed
    obtain ⟨_,_,hfinished,_⟩ := ScheduledPool.exists_performed hexecutor
    refine ⟨h.handedOn.step hexecutor,?_,?_,fun other hmem => ?_⟩
    · have hcalled := (h.single action).step (fun _ => hnone) hperform
      exact forall_tasks_update (fun _ task => task.SingleCall) hcalled fun other _ => h.single other
    · rw [update_executor, hperformed]
      refine forall_tasks_update (fun other task => task.performs.length =
        (s.executor.pool.performed ++ [action]).count other) ?_ fun other hother => ?_
      · rw [List.count_append, ← h.once action, List.count_singleton_self]
        cases hperform with
        | perform => exact List.length_cons
      · rw [List.count_append, List.count_singleton, if_neg (by simpa using Ne.symm hother)]
        exact h.once other
    · rw [update_executor, hfinished] at hmem
      have hother : other ≠ action := by
        rintro rfl
        exact hfresh (h.handedOn.mem_performed hmem)
      rw [update_tasks_of_ne hother]
      exact h.returned other hmem
  | @finish action executor _ hexecutor hfinished hreturned =>
    obtain ⟨_,_,hperformed,_⟩ := ScheduledPool.exists_finished hexecutor
    refine ⟨h.handedOn.step hexecutor,h.single,fun other => ?_,fun other hmem => ?_⟩
    · exact (h.once other).trans (by rw [hperformed])
    · rw [hfinished] at hmem
      rcases List.mem_append.mp hmem with hmem | hmem
      · exact h.returned other hmem
      · rw [List.mem_singleton.mp hmem]
        exact hreturned
  | @task action e task _ _ he htask =>
    refine ⟨h.handedOn,?_,?_,?_⟩
    · have hmoved := (h.single action).step (fun heq => absurd heq he) htask
      exact forall_tasks_update (fun _ task => task.SingleCall) hmoved fun other _ => h.single other
    · have hlength := (Task.performs_length he htask).trans (h.once action)
      exact forall_tasks_update (fun other task => task.performs.length =
        s.executor.pool.performed.count other) hlength fun other _ => h.once other
    · refine forall_tasks_update (fun other task => other ∈ s.executor.pool.finished →
        ∀ c ∈ task.performs, c.active = false) (fun hmem => ?_) fun other _ => h.returned other
      rw [(Task.same_of_returned (h.returned action hmem) he htask).1]
      exact h.returned action hmem

/-- No call meets a cancellation between its two looks at the status, or an exchange that fails. -/
def GoesOn (s : SubmittedTasks T E) : SubmissionEvent T E → Prop
  | .task action e => (s.tasks action).GoesOn e
  | _ => True

/-- The future of each task is ready when the call has come back. -/
def Ready (s : SubmittedTasks T E) : Prop := ∀ action, (s.tasks action).FutureReady

/-- Some call has come back without an answer. -/
def Unanswered (s : SubmittedTasks T E) : Prop :=
  ∃ action, (s.tasks action).promise = none ∧ .returned false ∈ (s.tasks action).performs

theorem Followed.ready_step (h : Followed s) (hready : Ready s) (hg : GoesOn s e)
    (hstep : Step clock ndebug s e t) : Ready t := by
  cases hstep with
  | executor | finish => exact hready
  | @perform action executor task _ hexecutor hperformed hperform =>
    have hnone := (h.unperformed hexecutor hperformed).2
    have hcalled : task.FutureReady :=
      (h.single action).futureReady_step (e := .perform) (hready action) trivial (fun _ => hnone) hperform
    exact forall_tasks_update (fun _ task => task.FutureReady) hcalled fun other _ => hready other
  | @task action e task _ _ he htask =>
    have hmoved : task.FutureReady :=
      (h.single action).futureReady_step (hready action) hg (fun heq => absurd heq he) htask
    exact forall_tasks_update (fun _ task => task.FutureReady) hmoved fun other _ => hready other

theorem Followed.not_ready (h : Followed s) (hunanswered : Unanswered s) : ¬ Ready s := by
  obtain ⟨action,hpromise,hmem⟩ := hunanswered
  intro hready
  have hsome := (h.single action).answered_iff.mp (hready action) hmem
  rw [hpromise] at hsome
  cases hsome

/-- Nobody performs the action again. -/
theorem Followed.unanswered_step (h : Followed s) (hunanswered : Unanswered s)
    (hstep : Step clock ndebug s e t) : Unanswered t := by
  obtain ⟨other,hpromise,hmem⟩ := hunanswered
  cases hstep with
  | executor | finish => exact ⟨other,hpromise,hmem⟩
  | @perform action executor task _ hexecutor hperformed hperform =>
    have hother : other ≠ action := by
      rintro rfl
      rw [(h.unperformed hexecutor hperformed).2] at hmem
      cases hmem
    refine ⟨other,?_,?_⟩ <;> rw [update_tasks_of_ne hother]
    · exact hpromise
    · exact hmem
  | @task action e task _ _ he htask =>
    by_cases hother : other = action
    · subst hother
      have hreturned : ∀ c ∈ (s.tasks other).performs, c.active = false := by
        rw [((h.single other).of_mem hmem).1, List.forall_mem_singleton]
        rfl
      have hsame := Task.same_of_returned hreturned he htask
      refine ⟨other,?_,?_⟩ <;> rw [update_tasks_self]
      · exact hsame.2.trans hpromise
      · rw [hsame.1]
        exact hmem
    · refine ⟨other,?_,?_⟩ <;> rw [update_tasks_of_ne hother]
      · exact hpromise
      · exact hmem

theorem Followed.unanswered_of_not_goesOn (h : Followed s) (hg : ¬ GoesOn s e)
    (hstep : Step clock ndebug s e t) : Unanswered t := by
  cases hstep with
  | executor | perform | finish => exact absurd trivial hg
  | @task action e task _ _ _ htask =>
    refine ⟨action,?_⟩
    rw [update_tasks_self]
    exact (h.single action).lost_of_not_goesOn hg htask

/-- The call on a finished action has come back. -/
theorem Followed.exists_returned (h : Followed s) {action : ℕ} (hmem : action ∈ s.executor.pool.finished) :
    ∃ invoked, (s.tasks action).performs = [.returned invoked] ∧
      (s.tasks action).invocations = invoked.toNat := by
  have hpos : 0 < (s.tasks action).performs.length := by
    rw [h.once action, List.count_pos_iff]
    exact h.handedOn.mem_performed hmem
  obtain ⟨c,hc⟩ := List.exists_mem_of_length_pos hpos
  obtain ⟨hperforms,_,hinvoked⟩ := (h.single action).of_mem hc
  have hinactive := h.returned action hmem c hc
  cases c with
  | returned invoked => exact ⟨invoked,hperforms,by cases invoked <;> exact hinvoked⟩
  | _ => cases hinactive

/-- Whatever is submitted, scheduled and cancelled, and in every interleaving of the watcher, the workers and
their calls: every future is ready whose call has come back, exactly if no call met a cancellation between
its two looks at the status or an exchange that failed. A finished action was performed once, and its
function was invoked once or not at all. -/
theorem ready_iff {start : ℤ} {workerCount : ℕ} {trace : List (SubmittedTasks T E × SubmissionEvent T E)}
    (hr : Run (Step clock ndebug) (create clock start workerCount) trace s) :
    (Ready s ↔ Guarded GoesOn trace) ∧ ∀ action ∈ s.executor.pool.finished,
      ∃ invoked, (s.tasks action).performs = [.returned invoked] ∧
        (s.tasks action).invocations = invoked.toNat ∧
          (Guarded GoesOn trace → (s.tasks action).promise.isSome = true) := by
  have hfollowed : Followed s :=
    hr.preserved (fun _ _ _ h hstep => h.step hstep) (create_followed clock start workerCount)
  have hready : Ready s ↔ Guarded GoesOn trace := by
    have hgood : ∀ s e (t : SubmittedTasks T E), Followed s ∧ Ready s → GoesOn s e →
        Step clock ndebug s e t → Followed t ∧ Ready t :=
      fun _ _ _ h hg hstep => ⟨h.1.step hstep,h.1.ready_step h.2 hg hstep⟩
    have hbreak : ∀ s e (t : SubmittedTasks T E), Followed s ∧ Ready s → ¬ GoesOn s e →
        Step clock ndebug s e t → Followed t ∧ Unanswered t :=
      fun _ _ _ h hg hstep => ⟨h.1.step hstep,h.1.unanswered_of_not_goesOn hg hstep⟩
    have hbad : ∀ s e (t : SubmittedTasks T E), Followed s ∧ Unanswered s →
        Step clock ndebug s e t → Followed t ∧ Unanswered t :=
      fun _ _ _ h hstep => ⟨h.1.step hstep,h.1.unanswered_step h.2 hstep⟩
    rcases hr.good_or_bad hgood hbreak hbad
      ⟨create_followed clock start workerCount,fun _ hperformed => absurd rfl hperformed⟩
      with ⟨hguarded,_,hready⟩ | ⟨hnot,_,hunanswered⟩
    · exact iff_of_true hready hguarded
    · exact iff_of_false (hfollowed.not_ready hunanswered) hnot
  refine ⟨hready,fun action hmem => ?_⟩
  obtain ⟨invoked,hperforms,hinvocations⟩ := hfollowed.exists_returned hmem
  refine ⟨invoked,hperforms,hinvocations,fun hguarded => ?_⟩
  exact hready.mpr hguarded action (by simp [hperforms]) (hfollowed.returned action hmem)

section Lift

theorem Alive.update (h : Alive s) {action : ℕ} {task : Task T E} (htask : task.stopped = none) :
    Alive (update action task s) :=
  forall_tasks_update (fun _ task => task.stopped = none) htask fun other _ => h other

/-- A call goes on while the executor stands. -/
theorem exists_run_task (clock : Clock) {action : ℕ} {task : Task T E}
    {rest : List (Task T E × TaskEvent T E)} (hrest : Run (Task.Step ndebug) (s.tasks action) rest task)
    (halive : Alive s) (hend : task.stopped = none) (haccepted : action < s.executor.accepted)
    (hunhindered : ∀ e ∈ rest, TaskEvent.unhindered e.2 = true) :
    ∃ trace, Run (Step clock ndebug) s trace (update action task s) ∧
      ∀ e ∈ trace, SubmissionEvent.unprompted e.2 = true := by
  generalize hstart : s.tasks action = start at hrest
  induction hrest generalizing s with
  | nil =>
    subst hstart
    have hsame : update action (s.tasks action) s = s := by
      unfold update
      rw [Function.update_eq_self]
    rw [hsame]
    exact ⟨[],Run.nil s,by simp⟩
  | @cons _ next last e _ hstep hrest ih =>
    subst hstart
    rw [List.forall_mem_cons] at hunhindered
    have hnext : next.stopped = none := by
      cases hrest with
      | nil => exact hend
      | cons hstep => exact Task.stopped_of_step hstep
    have hne : e ≠ .perform := by
      rintro rfl
      cases hunhindered.1
    obtain ⟨trace,hr,htrace⟩ := ih (halive.update hnext) hend (s := update action next s) haccepted
      hunhindered.2 update_tasks_self
    have hsame : update action last (update action next s) = update action last s := by
      unfold update
      rw [Function.update_idem]
    rw [hsame] at hr
    refine ⟨_,Run.cons (.task halive haccepted hne hstep) hr,?_⟩
    exact List.forall_mem_cons.mpr ⟨hunhindered.1,htrace⟩

/-- Where a step of the executor begins a call or goes on behind it, the call is begun or brought back. -/
theorem Followed.exists_run_step (h : Followed s) (halive : Alive s) (ndebug : Bool)
    (outcome : ℕ → Except E T) {e : ScheduledPoolEvent} {executor : ScheduledPool}
    (he : e.unprompted = true) (hexecutor : ScheduledPool.Step clock s.executor e executor) :
    ∃ trace t, Run (Step clock ndebug) s trace t ∧
      (∀ e ∈ trace, SubmissionEvent.unprompted e.2 = true) ∧ t.executor = executor ∧ Alive t ∧
        ∀ action, ¬ (s.tasks action).Lost → ¬ (t.tasks action).Lost := by
  by_cases hcalling : e.calling = false
  · exact ⟨_,_,Run.cons (.executor halive hcalling hexecutor) (Run.nil _),
      List.forall_mem_singleton.mpr he,rfl,halive,fun _ => id⟩
  · rcases e with _ | _ | _ | _ | e | _ <;> try exact absurd rfl hcalling
    cases e with
    | perform =>
      obtain ⟨action,hperformed,_⟩ := ScheduledPool.exists_performed hexecutor
      have hnone := (h.unperformed hexecutor hperformed).2
      refine ⟨_,_,Run.cons (.perform halive hexecutor hperformed (.perform (halive action))) (Run.nil _),
        by simp [SubmissionEvent.unprompted],rfl,Alive.update halive (halive action),?_⟩
      refine forall_tasks_update (fun other task => ¬ (s.tasks other).Lost → ¬ task.Lost)
        (fun _ => ?_) fun _ _ => id
      exact Task.not_lost (c := .entered) (by rw [hnone]) nofun nofun
    | finish =>
      obtain ⟨action,hfinished,hperformed,_⟩ := ScheduledPool.exists_finished hexecutor
      have hmem : action ∈ s.executor.pool.performed := by
        rw [← hperformed]
        refine (h.handedOn.step hexecutor).mem_performed ?_
        rw [hfinished]
        exact List.mem_append_right _ (List.mem_singleton_self action)
      have hcalled : (s.tasks action).performs ≠ [] := by
        have hpos : 0 < (s.tasks action).performs.length := by
          rw [h.once action, List.count_pos_iff]
          exact hmem
        exact List.ne_nil_of_length_pos hpos
      obtain ⟨rest,task,hrest,hunhindered,hend,hreturned,hkept⟩ :=
        (h.single action).exists_returned ndebug (halive action) (outcome action) hcalled
      obtain ⟨trace,hr,htrace⟩ :=
        exists_run_task clock hrest halive hend (h.handedOn.lt_accepted hmem) hunhindered
      have hback : ∀ c ∈ ((update action task s).tasks action).performs, c.active = false := by
        rw [update_tasks_self]
        exact hreturned
      refine ⟨_,_,hr.append (Run.cons (.finish (halive.update hend) hexecutor hfinished hback) (Run.nil _)),
        ?_,rfl,halive.update hend,?_⟩
      · rw [List.forall_mem_append]
        exact ⟨htrace,by simp [SubmissionEvent.unprompted]⟩
      · exact forall_tasks_update (fun other task => ¬ (s.tasks other).Lost → ¬ task.Lost) hkept fun _ _ => id
    | _ => exact absurd rfl hcalling

theorem Followed.exists_run (h : Followed s) (halive : Alive s) (ndebug : Bool)
    (outcome : ℕ → Except E T) {rest : List (ScheduledPool × ScheduledPoolEvent)} {executor : ScheduledPool}
    (hrest : Run (ScheduledPool.Step clock) s.executor rest executor)
    (hown : ∀ e ∈ rest, ScheduledPoolEvent.unprompted e.2 = true) :
    ∃ trace t, Run (Step clock ndebug) s trace t ∧
      (∀ e ∈ trace, SubmissionEvent.unprompted e.2 = true) ∧ t.executor = executor ∧ Followed t ∧
        ∀ action, ¬ (s.tasks action).Lost → ¬ (t.tasks action).Lost := by
  generalize hstart : s.executor = start at hrest
  induction hrest generalizing s with
  | nil =>
    subst hstart
    exact ⟨[],s,Run.nil s,by simp,rfl,h,fun _ => id⟩
  | cons hstep _ ih =>
    subst hstart
    rw [List.forall_mem_cons] at hown
    obtain ⟨first,m,hfirst,hfirstOwn,hexecutor,hm,hkept⟩ :=
      h.exists_run_step halive ndebug outcome hown.1 hstep
    have hfollowed : Followed m := hfirst.preserved (fun _ _ _ h hstep => h.step hstep) h
    obtain ⟨trace,t,hr,htrace,hend,ht,hkept'⟩ := ih hfollowed hm hown.2 hexecutor
    exact ⟨first ++ trace,t,hfirst.append hr,List.forall_mem_append.mpr ⟨hfirstOwn,htrace⟩,hend,ht,
      fun action hlost => hkept' action (hkept action hlost)⟩

end Lift

/-- To the executor a run is one of its own. -/
theorem exists_run_executor {trace : List (SubmittedTasks T E × SubmissionEvent T E)}
    (hr : Run (Step clock ndebug) s trace t) :
    ∃ trace', Run (ScheduledPool.Step clock) s.executor trace' t.executor := by
  induction hr with
  | nil s => exact ⟨[],Run.nil s.executor⟩
  | cons hstep _ ih =>
    obtain ⟨trace',hr⟩ := ih
    cases hstep with
    | executor _ _ hexecutor | perform _ hexecutor | finish _ hexecutor =>
      exact ⟨_,Run.cons hexecutor hr⟩
    | task => exact ⟨trace',hr⟩

/-- From every state of a scheduler with tasks that was not told to terminate, the watcher, the workers and
the calls can come to a state in which all that was accepted is finished and every future is ready, but for
the tasks that are left without an answer: their call has returned from a failed exchange, spuriously or
because of a cancellation, or is in front of its exchange with the task cancelled. -/
theorem becomeReady {start : ℤ} {workerCount : ℕ} (hpos : 0 < workerCount) (outcome : ℕ → Except E T)
    {trace : List (SubmittedTasks T E × SubmissionEvent T E)}
    (hr : Run (Step clock ndebug) (create clock start workerCount) trace s)
    (hopen : s.executor.scheduler.terminated = false) (halive : Alive s) :
    ∃ rest t, Run (Step clock ndebug) s rest t ∧
      (∀ e ∈ rest, SubmissionEvent.unprompted e.2 = true) ∧
        t.executor.pool.finished.Perm (List.range s.executor.accepted) ∧
          ∀ action < s.executor.accepted, ¬ (s.tasks action).Lost →
            (t.tasks action).promise.isSome = true := by
  have hfollowed : Followed s :=
    hr.preserved (fun _ _ _ h hstep => h.step hstep) (create_followed clock start workerCount)
  obtain ⟨_,hexecutor⟩ := exists_run_executor hr
  obtain ⟨_,executor,hrest,hown,_,hfinished⟩ :=
    (ScheduledPool.working_of_run hpos hexecutor hopen).exists_finished clock
  obtain ⟨rest,t,hrun,hunprompted,rfl,ht,hkept⟩ := hfollowed.exists_run halive ndebug outcome hrest hown
  refine ⟨rest,t,hrun,hunprompted,hfinished,fun action haction hlost => ?_⟩
  have hmem : action ∈ t.executor.pool.finished := hfinished.mem_iff.mpr (List.mem_range.mpr haction)
  obtain ⟨invoked,hperforms,_⟩ := ht.exists_returned hmem
  exact (ht.single action).futureReady_of_not_lost (hkept action hlost) (by simp [hperforms])
    (ht.returned action hmem)

section Cancelled

/-- One worker, and one action that was submitted. -/
def oneTask : SubmittedTasks ℕ ℕ where
  executor :=
    { ScheduledPool.create millisecondClock 0 1 with
      pool := ThreadPoolTaskExecutor.push 0 (ThreadPoolTaskExecutor.create 1)
      accepted := 1 }
  tasks _ := Task.created

theorem oneTask_run : Run (Step millisecondClock true) (create millisecondClock 0 1)
    [(create millisecondClock 0 1,.executor .submit)] oneTask := by
  have hblocked : Worker.blocked ∉ (ScheduledPool.create millisecondClock 0 1).pool.workers := by
    change Worker.blocked ∉ [Worker.looping]
    simp
  have hsubmit : ScheduledPool.Step millisecondClock (ScheduledPool.create millisecondClock 0 1) .submit
      oneTask.executor := .submit (.notifyNobody rfl hblocked)
  exact Run.cons (.executor (fun _ => rfl) rfl hsubmit) (Run.nil _)

/-- The task is cancelled before a worker has looked at it. -/
theorem ready_iff_cancelled : ∃ trace t, trace.map Prod.snd =
      [.executor .submit,.task 0 (.tryCancel false)] ∧
    Run (Step millisecondClock true) (create millisecondClock 0 1 : SubmittedTasks ℕ ℕ) trace t ∧
      (t.tasks 0).status = .cancelled ∧ (Ready t ↔ Guarded GoesOn trace) := by
  have hcancel : Task.Step true (oneTask.tasks 0) (.tryCancel false)
      { Task.created with status := .cancelled, cancellations := [.success] } := .tryCancel rfl rfl
  have hne : (.tryCancel false : TaskEvent ℕ ℕ) ≠ .perform := nofun
  have hr := oneTask_run.append
    (Run.cons (.task (fun _ => rfl) Nat.one_pos hne hcancel) (Run.nil _))
  refine ⟨_,_,rfl,hr,?_,(ready_iff hr).1⟩
  rw [update_tasks_self]

theorem becomeReady_oneTask : ∃ rest t, Run (Step millisecondClock true) oneTask rest t ∧
    (∀ e ∈ rest, SubmissionEvent.unprompted e.2 = true) ∧ t.executor.pool.finished.Perm [0] ∧
      (t.tasks 0).promise.isSome = true := by
  have hlost : ¬ (oneTask.tasks 0).Lost := by
    rintro ⟨_,hmem | hmem⟩
    · cases hmem
    · cases hmem.1
  obtain ⟨rest,t,hrest,hunprompted,hfinished,hready⟩ :=
    becomeReady Nat.one_pos (fun _ => .ok 5) oneTask_run rfl (fun _ => rfl)
  exact ⟨rest,t,hrest,hunprompted,hfinished,hready 0 Nat.one_pos hlost⟩

end Cancelled

end SubmittedTasks

end Isml
