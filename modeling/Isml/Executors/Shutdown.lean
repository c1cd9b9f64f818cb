import Isml.Executors.ActionLedger

/-! # What the destructor of a pool leaves behind

The destructor waits for its workers, and a worker that comes to a check of `m_done` leaves
without another look at the queue. A worker that is past the checks goes on until it finds the
queue empty, and does what is in it.
-/
namespace Isml
open LabelledRun Threads

namespace Worker
variable {α : Type}

/-- The worker is in its loop over the queue, and will look at the queue again. -/
def inDrainLoop : Worker α → Bool
  | .draining | .holding | .taken _ | .handed _ | .performing _ => true
  | _ => false

theorem inDrainLoop_notify (w : Worker α) : w.notify.inDrainLoop = w.inDrainLoop := by
  cases w <;> rfl

end Worker

namespace ThreadPoolTaskExecutor
variable {α : Type} {s t : ThreadPoolTaskExecutor α} {e : PoolEvent α}

/-- The queue is empty, or somebody is going to empty it. -/
def Draining (s : ThreadPoolTaskExecutor α) : Prop :=
  s.actions = [] ∨ ∃ w ∈ s.workers, w.inDrainLoop = true

/-- No call of `doExecute`. -/
def AcceptsNothing (_ : ThreadPoolTaskExecutor α) : PoolEvent α → Prop
  | .doExecute _ => False
  | _ => True

/-- The pool is to terminate, nobody looks at the queue any more, and this is in it. -/
structure Abandoned (queue : List α) (s : ThreadPoolTaskExecutor α) : Prop where
  done : s.done = true
  nobody : ∀ w ∈ s.workers, w.inDrainLoop = false
  actions : s.actions = queue

section Moved
variable {a b : Worker α} {workers : List (Worker α)}

theorem exists_inDrainLoop (hmove : Moves a b s.workers workers)
    (hloop : a.inDrainLoop = true → b.inDrainLoop = true)
    (h : ∃ w ∈ s.workers, w.inDrainLoop = true) : ∃ w ∈ workers, w.inDrainLoop = true := by
  obtain ⟨w,hw,hdraining⟩ := h
  rcases hmove.mem_or hw with rfl | hw'
  · exact ⟨b,hmove.right_mem,hloop hdraining⟩
  · exact ⟨w,hw',hdraining⟩

/-- A worker moves on, not out of its loop. -/
theorem Draining.move {actionsGuard : Bool} {performed finished : List α} (h : Draining s)
    (hmove : Moves a b s.workers workers) (hloop : a.inDrainLoop = true → b.inDrainLoop = true) :
    Draining { s with
      actionsGuard := actionsGuard
      workers := workers
      performed := performed
      finished := finished } :=
  h.imp id (exists_inDrainLoop hmove hloop)

/-- A worker moves on, not into its loop. -/
theorem Abandoned.move {queue performed finished : List α} {actionsGuard : Bool}
    (h : Abandoned queue s) (hmove : Moves a b s.workers workers) (hb : b.inDrainLoop = false) :
    Abandoned queue { s with
      actionsGuard := actionsGuard
      workers := workers
      performed := performed
      finished := finished } := by
  refine ⟨h.done,fun w hw => ?_,h.actions⟩
  rcases hmove.mem_or_of_mem hw with rfl | hw'
  · exact hb
  · exact h.nobody w hw'

theorem Abandoned.not_moves {queue : List α} (h : Abandoned queue s)
    (hmove : Moves a b s.workers workers) (ha : a.inDrainLoop = true) : False := by
  rw [h.nobody a hmove.left_mem] at ha
  cases ha

end Moved

theorem Draining.step (h : Draining s) (hg : AcceptsNothing s e) (hstep : Step s e t) :
    Draining t := by
  cases hstep with
  | notifyOne => exact hg.elim
  | notifyNobody => exact hg.elim
  | doTerminate => exact h
  | destroy =>
    refine h.imp id ?_
    rintro ⟨w,hw,hdraining⟩
    exact ⟨w.notify,List.mem_map_of_mem hw,by rw [Worker.inDrainLoop_notify, hdraining]⟩
  | loop hmove => exact h.move hmove (by simp [Worker.inDrainLoop])
  | lock hfree hmove => exact h.move hmove (by simp [Worker.inDrainLoop])
  | test hmove => exact h.move hmove (by simp [Worker.inDrainLoop])
  | wait hmove => exact h.move hmove (by simp [Worker.inDrainLoop])
  | wake hmove => exact h.move hmove (by simp [Worker.inDrainLoop])
  | relock hfree hmove => exact h.move hmove (by simp [Worker.inDrainLoop])
  | leave hmove => exact h.move hmove (by simp [Worker.inDrainLoop])
  | check hmove => exact h.move hmove (by simp [Worker.inDrainLoop])
  | tryLock hfree hmove => exact h.move hmove fun _ => rfl
  | tryLockFailed => exact h
  | drained hempty => exact Or.inl hempty
  | take htop hmove => exact Or.inr ⟨_,hmove.right_mem,rfl⟩
  | unlockEmpty hmove => exact h.move hmove (by simp [Worker.inDrainLoop])
  | unlock hmove => exact h.move hmove fun _ => rfl
  | perform hmove => exact h.move hmove fun _ => rfl
  | finish hmove => exact h.move hmove fun _ => rfl

theorem Abandoned.step {queue : List α} (h : Abandoned queue s) (hg : AcceptsNothing s e)
    (hstep : Step s e t) : Abandoned queue t := by
  cases hstep with
  | notifyOne => exact hg.elim
  | notifyNobody => exact hg.elim
  | doTerminate => exact ⟨rfl,h.nobody,h.actions⟩
  | destroy =>
    refine ⟨rfl,fun w hw => ?_,h.actions⟩
    obtain ⟨before,hbefore,rfl⟩ := List.mem_map.mp hw
    rw [Worker.inDrainLoop_notify, h.nobody before hbefore]
  | loop hmove => exact h.move hmove (by split_ifs <;> rfl)
  | lock hfree hmove => exact h.move hmove rfl
  | test hmove => exact h.move hmove (by split_ifs <;> rfl)
  | wait hmove => exact h.move hmove rfl
  | wake hmove => exact h.move hmove rfl
  | relock hfree hmove => exact h.move hmove rfl
  | leave hmove => exact h.move hmove rfl
  | check hmove => exact h.move hmove (by rw [h.done]; rfl)
  | tryLock hfree hmove => exact (h.not_moves hmove rfl).elim
  | tryLockFailed => exact h
  | drained hempty hmove => exact (h.not_moves hmove rfl).elim
  | take htop hmove => exact (h.not_moves hmove rfl).elim
  | unlockEmpty hmove => exact h.move hmove rfl
  | unlock hmove => exact (h.not_moves hmove rfl).elim
  | perform hmove => exact (h.not_moves hmove rfl).elim
  | finish hmove => exact (h.not_moves hmove rfl).elim

/-- Without anybody in the loop the destructor is the end of what is queued. -/
theorem abandoned_destroy (h : ¬ Draining s) (hstep : Step s .destroy t) :
    Abandoned s.actions t := by
  cases hstep with
  | destroy =>
    refine ⟨rfl,fun w hw => ?_,rfl⟩
    obtain ⟨before,hbefore,rfl⟩ := List.mem_map.mp hw
    rw [Worker.inDrainLoop_notify]
    by_contra hdraining
    exact h (Or.inr ⟨before,hbefore,Bool.not_eq_false _ ▸ hdraining⟩)

section Returned
variable (hreturned : ∀ w ∈ t.workers, w = .returned)
include hreturned

/-- A pool whose workers have returned has nothing in hand. -/
theorem inHands_of_returned : t.inHands = [] := by
  apply List.flatMap_eq_nil_iff.mpr
  intro w hw
  rw [hreturned w hw]
  rfl

theorem inPerform_of_returned : t.inPerform = [] := by
  apply List.flatMap_eq_nil_iff.mpr
  intro w hw
  rw [hreturned w hw]
  rfl

theorem Draining.empty_of_returned (h : Draining t) : t.actions = [] := by
  rcases h with hempty | ⟨w,hw,hdraining⟩
  · exact hempty
  · rw [hreturned w hw] at hdraining
    cases hdraining

end Returned

theorem entered_of_acceptsNothing {trace : List (ThreadPoolTaskExecutor α × PoolEvent α)}
    (hr : Run Step s trace t) (hg : Guarded AcceptsNothing trace) : t.entered = s.entered := by
  have hsteps : ∀ u e (v : ThreadPoolTaskExecutor α), u.entered = s.entered → AcceptsNothing u e →
      Step u e v → v.entered = s.entered := by
    intro u e v hu hnothing hstep
    rw [step_entered hstep]
    cases e with
    | doExecute action => exact hnothing.elim
    | _ => exact hu
  exact hr.invariant hsteps rfl hg

/-- When the destructor returns, each accepted action has been performed or is in the queue. All
have been performed exactly if the destructor found the queue empty or a worker in its loop, and
the queue is left as it was otherwise. -/
theorem performedAll_iff {workerCount : ℕ} {u : ThreadPoolTaskExecutor α}
    {before after : List (ThreadPoolTaskExecutor α × PoolEvent α)}
    (hbefore : Run Step (create workerCount) before s) (hdestroy : Step s .destroy u)
    (hafter : Run Step u after t) (haccepted : Guarded AcceptsNothing after)
    (hreturned : ∀ w ∈ t.workers, w = .returned) :
    t.entered = s.entered ∧ t.entered.Perm (t.finished ++ t.actions) ∧
      t.performed.Perm t.finished ∧ (t.entered.Perm t.finished ↔ Draining s) ∧
      (¬ Draining s → t.actions = s.actions) := by
  have hr := hbefore.append (Run.cons hdestroy hafter)
  have hledger : Ledger t := hr.preserved (fun _ _ _ h => h.step) (create_ledger workerCount)
  have hentered : t.entered.Perm (t.finished ++ t.actions) := by
    have hall := hledger.entered
    rw [inHands_of_returned hreturned, List.append_nil] at hall
    exact hall.trans List.perm_append_comm
  have hperformed : t.performed.Perm t.finished := by
    have hall := hledger.performed
    rwa [inPerform_of_returned hreturned, List.append_nil] at hall
  have hleft : ¬ Draining s → t.actions = s.actions := fun hnobody =>
    (hafter.invariant (fun _ _ _ h => h.step) (abandoned_destroy hnobody hdestroy) haccepted).actions
  refine ⟨?_,hentered,hperformed,⟨fun hfinished => ?_,fun hdraining => ?_⟩,hleft⟩
  · rw [entered_of_acceptsNothing hafter haccepted, step_entered hdestroy]
  · by_contra hnobody
    have hlength := hentered.length_eq
    rw [hfinished.length_eq, List.length_append, hleft hnobody] at hlength
    exact hnobody (Or.inl (List.eq_nil_of_length_eq_zero (by omega)))
  · have hnothing : AcceptsNothing s .destroy := trivial
    have hgoing : Draining u := hdraining.step hnothing hdestroy
    have hend : Draining t := hafter.invariant (fun _ _ _ h => h.step) hgoing haccepted
    rwa [hend.empty_of_returned hreturned, List.append_nil] at hentered

section OneWorker

/-- An action arrives while the only worker waits for one. -/
def woken : ThreadPoolTaskExecutor ℕ :=
  let start : ThreadPoolTaskExecutor ℕ := create 1
  { push 7 start with workers := [.woken] }

def wakeTrace : List (ThreadPoolTaskExecutor ℕ × PoolEvent ℕ) :=
  let start : ThreadPoolTaskExecutor ℕ := create 1
  [(start,.loop),({ start with workers := [.locking] },.lock),
    ({ start with workers := [.testing], actionsGuard := true },.test),
    ({ start with workers := [.waiting], actionsGuard := true },.wait),
    ({ start with workers := [.blocked] },.doExecute 7)]

theorem wake_run : Run Step (create 1) wakeTrace woken :=
  Run.cons (Step.loop (.alone _ _)) (Run.cons (Step.lock rfl (.alone _ _))
    (Run.cons (Step.test (.alone _ _)) (Run.cons (Step.wait (.alone _ _))
      (Run.cons (Step.notifyOne rfl (.alone _ _)) (Run.nil _)))))

/-- The worker goes from the wait into its loop. -/
def enterTrace : List (ThreadPoolTaskExecutor ℕ × PoolEvent ℕ) :=
  [(woken,.relock),({ woken with workers := [.testing], actionsGuard := true },.test),
    ({ woken with workers := [.leaving], actionsGuard := true },.unlock),
    ({ woken with workers := [.ready] },.check)]

theorem enter_run : Run Step woken enterTrace { woken with workers := [.draining] } :=
  Run.cons (Step.relock rfl (.alone _ _)) (Run.cons (Step.test (.alone _ _))
    (Run.cons (Step.leave (.alone _ _)) (Run.cons (Step.check (.alone _ _)) (Run.nil _))))

/-- The state behind the destructor's `notify_all`, with the worker in its loop. -/
def closed : ThreadPoolTaskExecutor ℕ := { woken with workers := [.draining], done := true }

/-- The worker does what is left and returns. -/
def drainTrace : List (ThreadPoolTaskExecutor ℕ × PoolEvent ℕ) :=
  let taken : ThreadPoolTaskExecutor ℕ := { closed with actions := [], left := [7] }
  let performed : ThreadPoolTaskExecutor ℕ := { taken with performed := [7] }
  let finished : ThreadPoolTaskExecutor ℕ := { performed with finished := [7] }
  [(closed,.tryLock),({ closed with workers := [.holding], actionsGuard := true },.take),
    ({ taken with workers := [.taken 7], actionsGuard := true },.unlock),
    ({ taken with workers := [.handed 7] },.perform),
    ({ performed with workers := [.performing 7] },.finish),(finished,.tryLock),
    ({ finished with workers := [.holding], actionsGuard := true },.take),
    ({ finished with workers := [.emptied], actionsGuard := true },.unlock),
    ({ finished with workers := [.looping] },.loop)]

/-- All is done. -/
def drained : ThreadPoolTaskExecutor ℕ :=
  { closed with
    actions := []
    workers := [.returned]
    left := [7]
    performed := [7]
    finished := [7] }

theorem drain_run : Run Step closed drainTrace drained :=
  Run.cons (Step.tryLock rfl (.alone _ _)) (Run.cons (Step.take rfl (.alone _ _))
    (Run.cons (Step.unlock (.alone _ _)) (Run.cons (Step.perform (.alone _ _))
      (Run.cons (Step.finish (.alone _ _)) (Run.cons (Step.tryLock rfl (.alone _ _))
        (Run.cons (Step.drained rfl (.alone _ _)) (Run.cons (Step.unlockEmpty (.alone _ _))
          (Run.cons (Step.loop (.alone _ _)) (Run.nil drained)))))))))

/-- The worker is in its loop when the destructor begins. -/
theorem performedAll_iff_draining : ∃ before after, ∃ s u t : ThreadPoolTaskExecutor ℕ,
    before.map Prod.snd = wakeTrace.map Prod.snd ++ enterTrace.map Prod.snd ∧
      after.map Prod.snd = [.tryLock,.take,.unlock,.perform,.finish,.tryLock,.take,.unlock,.loop] ∧
      Run Step (create 1) before s ∧ Step s .destroy u ∧ Run Step u after t ∧ s.actions = [7] ∧
      t.entered = s.entered ∧ t.entered.Perm (t.finished ++ t.actions) ∧
      t.performed.Perm t.finished ∧ (t.entered.Perm t.finished ↔ Draining s) ∧
      (¬ Draining s → t.actions = s.actions) := by
  have hbefore := wake_run.append enter_run
  have hdestroy : Step { woken with workers := [.draining] } .destroy closed := Step.destroy rfl
  have haccepted : Guarded AcceptsNothing drainTrace := by simp [drainTrace, AcceptsNothing]
  have hreturned : ∀ w ∈ drained.workers, w = .returned := fun w hw => List.mem_singleton.mp hw
  exact ⟨_,_,_,closed,drained,List.map_append,rfl,hbefore,hdestroy,drain_run,rfl,
    performedAll_iff hbefore hdestroy drain_run haccepted hreturned⟩

/-- The destructor begins before the woken worker comes to its check of `m_done`. -/
theorem not_performedAll_woken : ∃ before after, ∃ s u t : ThreadPoolTaskExecutor ℕ,
    before.map Prod.snd = wakeTrace.map Prod.snd ∧
      after.map Prod.snd = [.relock,.test,.unlock,.check] ∧
      Run Step (create 1) before s ∧ Step s .destroy u ∧ Run Step u after t ∧
      (∀ w ∈ t.workers, w = .returned) ∧ t.entered = [7] ∧ t.performed = [] ∧ t.actions = [7] := by
  let closing : ThreadPoolTaskExecutor ℕ := { woken with done := true }
  have hdestroy : Step woken .destroy closing := Step.destroy rfl
  have hafter : Run Step closing
      [(closing,.relock),({ closing with workers := [.testing], actionsGuard := true },.test),
        ({ closing with workers := [.leaving], actionsGuard := true },.unlock),
        ({ closing with workers := [.ready] },.check)] { closing with workers := [.returned] } :=
    Run.cons (Step.relock rfl (.alone _ _)) (Run.cons (Step.test (.alone _ _))
      (Run.cons (Step.leave (.alone _ _)) (Run.cons (Step.check (.alone _ _)) (Run.nil _))))
  exact ⟨_,_,woken,closing,{ closing with workers := [.returned] },rfl,rfl,wake_run,hdestroy,hafter,
    fun w hw => List.mem_singleton.mp hw,rfl,rfl,rfl⟩

end OneWorker

end ThreadPoolTaskExecutor

end Isml
