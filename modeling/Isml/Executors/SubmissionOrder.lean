import Isml.Executors.ActionLedger

/-! # The order of submission

The actions leave the queue in the order they were submitted in. What runs at the same time, and so what
can overtake, is bounded by the number of workers: of the actions that left the queue as many can be
unfinished. One worker performs them one after the other, each when the one before has finished.
-/
namespace Isml
open LabelledRun Threads

namespace ThreadPoolTaskExecutor
variable {α : Type} {s t : ThreadPoolTaskExecutor α} {e : PoolEvent α}

theorem step_workers_length (h : Step s e t) : t.workers.length = s.workers.length := by
  cases h with
  | notifyNobody | doTerminate | tryLockFailed => rfl
  | destroy => exact List.length_map _
  | notifyOne _ hmove | lock _ hmove | relock _ hmove | tryLock _ hmove | drained _ hmove | take _ hmove
  | loop hmove | test hmove | wait hmove | wake hmove | leave hmove | check hmove | unlockEmpty hmove
  | unlock hmove | perform hmove | finish hmove => exact hmove.length_eq

theorem inHands_length_le (s : ThreadPoolTaskExecutor α) : s.inHands.length ≤ s.workers.length := by
  unfold inHands
  induction s.workers with
  | nil => exact Nat.le_refl _
  | cons w workers ih =>
    have hone : w.hand.length ≤ 1 := by cases w <;> simp [Worker.hand]
    rw [List.flatMap_cons, List.length_append, List.length_cons]
    omega

/-- The one worker has what left the queue and is not finished, and performs what was performed and is
not finished. -/
structure Serial (s : ThreadPoolTaskExecutor α) (w : Worker α) : Prop where
  workers : s.workers = [w]
  left : s.left = s.finished ++ w.hand
  performed : s.performed = s.finished ++ w.inPerform

section Serial
variable {a b w : Worker α}

theorem Serial.move {actionsGuard done : Bool} {actions entered : List α} {workers : List (Worker α)}
    (h : Serial s w) (hmove : Moves a b s.workers workers) (hhand : a.hand = b.hand)
    (hperform : a.inPerform = b.inPerform) : Serial
      { s with
        actions := actions
        actionsGuard := actionsGuard
        workers := workers
        done := done
        entered := entered } b := by
  rw [h.workers] at hmove
  obtain ⟨rfl,rfl⟩ := hmove.singleton
  exact ⟨rfl,hhand ▸ h.left,hperform ▸ h.performed⟩

theorem Serial.same {done : Bool} {actions entered : List α} (h : Serial s w) : Serial
    { s with
      actions := actions
      done := done
      entered := entered } w :=
  ⟨h.workers,h.left,h.performed⟩

theorem Serial.step (h : Serial s w) (hstep : Step s e t) : ∃ w', Serial t w' := by
  cases hstep with
  | notifyOne _ hmove => exact ⟨_,h.move hmove rfl rfl⟩
  | notifyNobody _ _ => exact ⟨w,h.same⟩
  | doTerminate => exact ⟨w,h.same⟩
  | destroy _ =>
    refine ⟨w.notify,?_,?_,?_⟩
    · simp [h.workers]
    · rw [hand_notify]
      exact h.left
    · rw [inPerform_notify]
      exact h.performed
  | loop hmove => exact ⟨_,h.move hmove (by split_ifs <;> rfl) (by split_ifs <;> rfl)⟩
  | test hmove => exact ⟨_,h.move hmove (by split_ifs <;> rfl) (by split_ifs <;> rfl)⟩
  | check hmove => exact ⟨_,h.move hmove (by split_ifs <;> rfl) (by split_ifs <;> rfl)⟩
  | lock _ hmove | relock _ hmove | tryLock _ hmove | drained _ hmove => exact ⟨_,h.move hmove rfl rfl⟩
  | wait hmove | wake hmove | leave hmove | unlockEmpty hmove | unlock hmove =>
    exact ⟨_,h.move hmove rfl rfl⟩
  | tryLockFailed _ => exact ⟨w,h⟩
  | @take action actions workers htop hmove =>
    rw [h.workers] at hmove
    obtain ⟨rfl,rfl⟩ := hmove.singleton
    refine ⟨.taken action,rfl,?_,h.performed⟩
    simp [h.left, Worker.hand]
  | @perform action workers hmove =>
    rw [h.workers] at hmove
    obtain ⟨rfl,rfl⟩ := hmove.singleton
    refine ⟨.performing action,rfl,h.left,?_⟩
    simp [h.performed, Worker.inPerform]
  | @finish action workers hmove =>
    rw [h.workers] at hmove
    obtain ⟨rfl,rfl⟩ := hmove.singleton
    refine ⟨.draining,rfl,?_,?_⟩
    · simp [h.left, Worker.hand]
    · simp [h.performed, Worker.inPerform]

theorem create_serial : Serial (create 1 : ThreadPoolTaskExecutor α) .looping := ⟨rfl,rfl,rfl⟩

end Serial

/-- What has left the queue was submitted first, and at most as many of it are unfinished as there are
workers; with one worker the actions are performed in the order of submission, and none before the
one in front of it has finished. -/
theorem ordered_of_run {workerCount : ℕ} {trace : List (ThreadPoolTaskExecutor α × PoolEvent α)}
    (hr : Run Step (create workerCount) trace s) :
    s.left <+: s.entered ∧
      (∃ unfinished, unfinished.length ≤ workerCount ∧ s.left.Perm (s.finished ++ unfinished)) ∧
      (workerCount = 1 → s.finished <+: s.performed ∧ s.performed <+: s.entered ∧
        s.performed.length ≤ s.finished.length + 1) := by
  have hledger : Ledger s := hr.preserved (fun _ _ _ h hstep => h.step hstep) (create_ledger workerCount)
  let Staffed (u : ThreadPoolTaskExecutor α) : Prop := u.workers.length = workerCount
  have hcreate : Staffed (create workerCount) := List.length_replicate
  have hstaffed : Staffed s := hr.preserved (fun _ _ _ h hstep => (step_workers_length hstep).trans h) hcreate
  have hfirst : s.left <+: s.entered := ⟨s.actions,hledger.queue.symm⟩
  refine ⟨hfirst,⟨s.inHands,hstaffed ▸ s.inHands_length_le,hledger.left⟩,?_⟩
  rintro rfl
  have hserial : ∀ s e (u : ThreadPoolTaskExecutor α), (∃ w, Serial s w) → Step s e u → ∃ w, Serial u w :=
    fun _ _ _ ⟨_,h⟩ hstep => h.step hstep
  obtain ⟨w,hw⟩ := hr.preserved hserial ⟨_,create_serial⟩
  refine ⟨⟨w.inPerform,hw.performed.symm⟩,?_,?_⟩
  · have hperformed : s.performed <+: s.left := by
      rw [hw.performed, hw.left, List.prefix_append_right_inj]
      cases w <;> simp [Worker.inPerform, Worker.hand]
    exact hperformed.trans hfirst
  · have hone : w.inPerform.length ≤ 1 := by cases w <;> simp [Worker.inPerform]
    rw [hw.performed, List.length_append]
    omega

/-- Two actions come in before the one worker has looked at the queue, and it takes the first. -/
theorem ordered_of_run_taken : ∃ trace, ∃ t : ThreadPoolTaskExecutor ℕ,
    trace.map Prod.snd = [.doExecute 4,.doExecute 5,.loop,.lock,.test,.unlock,.check,.tryLock,.take] ∧
      Run Step (create 1) trace t ∧ t.left = [4] ∧ t.left <+: t.entered ∧
      t.finished <+: t.performed ∧ t.performed <+: t.entered := by
  let start : ThreadPoolTaskExecutor ℕ := create 1
  let full : ThreadPoolTaskExecutor ℕ := push 5 (push 4 start)
  let testing : ThreadPoolTaskExecutor ℕ := { full with actionsGuard := true, workers := [.testing] }
  let taken : ThreadPoolTaskExecutor ℕ :=
    { full with actions := [5], left := [4], actionsGuard := true, workers := [.taken 4] }
  have hfirst : Step start (.doExecute 4) (push 4 start) := Step.notifyNobody rfl (by simp [start, create])
  have hsecond : Step (push 4 start) (.doExecute 5) full :=
    Step.notifyNobody rfl (by simp [start, create, push])
  have hloop : Step full .loop { full with workers := [.locking] } := Step.loop (Moves.intro [] [])
  have hlock : Step { full with workers := [.locking] } .lock testing := Step.lock rfl (Moves.intro [] [])
  have htest : Step testing .test { testing with workers := [.leaving] } := Step.test (Moves.intro [] [])
  have hleave : Step { testing with workers := [.leaving] } .unlock { full with workers := [.ready] } :=
    Step.leave (Moves.intro [] [])
  have hcheck : Step { full with workers := [.ready] } .check { full with workers := [.draining] } :=
    Step.check (Moves.intro [] [])
  have htry : Step { full with workers := [.draining] } .tryLock { testing with workers := [.holding] } :=
    Step.tryLock rfl (Moves.intro [] [])
  have htake : Step { testing with workers := [.holding] } .take taken := Step.take rfl (Moves.intro [] [])
  have hr := Run.cons hfirst (Run.cons hsecond (Run.cons hloop (Run.cons hlock (Run.cons htest
    (Run.cons hleave (Run.cons hcheck (Run.cons htry (Run.cons htake (Run.nil taken)))))))))
  obtain ⟨hleft,_,hserial⟩ := ordered_of_run hr
  exact ⟨_,taken,rfl,hr,rfl,hleft,(hserial rfl).1,(hserial rfl).2.1⟩

end ThreadPoolTaskExecutor

end Isml
