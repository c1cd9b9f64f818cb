import Isml.Executors.ThreadPoolTaskExecutor
import Mathlib.Data.List.Flatten

/-! # What became of the actions of a pool

Every action that entered the queue is still in it, in the hands of one worker, or done,
and the queue is left in the order it was entered in.
-/
namespace Isml.ThreadPoolTaskExecutor
open LabelledRun Threads

variable {α : Type} {s t : ThreadPoolTaskExecutor α} {e : PoolEvent α}

/-- The actions in the hands of the workers. -/
def inHands (s : ThreadPoolTaskExecutor α) : List α := s.workers.flatMap Worker.hand

def inPerform (s : ThreadPoolTaskExecutor α) : List α := s.workers.flatMap Worker.inPerform

/-- The actions that left the queue are in a hand or done, and `perform` was called on those
that are done and on those it did not come back from yet. -/
structure Ledger (s : ThreadPoolTaskExecutor α) : Prop where
  queue : s.entered = s.left ++ s.actions
  left : s.left.Perm (s.finished ++ s.inHands)
  performed : s.performed.Perm (s.finished ++ s.inPerform)

theorem inPerform_sublist (w : Worker α) : w.inPerform.Sublist w.hand := by
  cases w <;> simp [Worker.inPerform, Worker.hand]

theorem hand_notify (w : Worker α) : w.notify.hand = w.hand := by
  cases w <;> rfl

theorem inPerform_notify (w : Worker α) : w.notify.inPerform = w.inPerform := by
  cases w <;> rfl

section Moved
variable {a b : Worker α}

/-- A worker goes on with what it holds. -/
theorem Ledger.move {actionsGuard : Bool} {workers : List (Worker α)} (h : Ledger s)
    (hmove : Moves a b s.workers workers) (hhand : a.hand = b.hand)
    (hperform : a.inPerform = b.inPerform) :
    Ledger { s with actionsGuard := actionsGuard, workers := workers } := by
  refine ⟨h.queue,?_,?_⟩
  · exact h.left.trans (List.Perm.append_left _ (hmove.flatMap_perm_of_eq hhand).symm)
  · exact h.performed.trans (List.Perm.append_left _ (hmove.flatMap_perm_of_eq hperform).symm)

/-- A list that gets an action more, beside the hands of which one gets it. -/
theorem perm_append_hand {f : Worker α → List α} {all done : List α} {action : α}
    {workers workers' : List (Worker α)} (h : all.Perm (done ++ workers.flatMap f))
    (hmove : Moves a b workers workers') (ha : f a = []) (hb : f b = [action]) :
    (all ++ [action]).Perm (done ++ workers'.flatMap f) := by
  have hhands := hmove.flatMap_perm f
  rw [ha, hb, List.append_nil] at hhands
  calc (all ++ [action]).Perm (done ++ workers.flatMap f ++ [action]) := List.Perm.append_right _ h
    _ = done ++ (workers.flatMap f ++ [action]) := List.append_assoc _ _ _
    List.Perm _ (done ++ workers'.flatMap f) := List.Perm.append_left _ hhands.symm

theorem perm_finish_hand {f : Worker α → List α} {all done : List α} {action : α}
    {workers workers' : List (Worker α)} (h : all.Perm (done ++ workers.flatMap f))
    (hmove : Moves a b workers workers') (ha : f a = [action]) (hb : f b = []) :
    all.Perm (done ++ [action] ++ workers'.flatMap f) := by
  have hhands := hmove.flatMap_perm f
  rw [ha, hb, List.append_nil] at hhands
  calc all.Perm (done ++ workers.flatMap f) := h
    List.Perm _ (done ++ (workers'.flatMap f ++ [action])) := List.Perm.append_left _ hhands.symm
    List.Perm _ (done ++ ([action] ++ workers'.flatMap f)) :=
      List.Perm.append_left _ List.perm_append_comm
    _ = done ++ [action] ++ workers'.flatMap f := (List.append_assoc _ _ _).symm

end Moved

theorem Ledger.push (h : Ledger s) (action : α) : Ledger (push action s) := by
  refine ⟨?_,h.left,h.performed⟩
  change s.entered ++ [action] = s.left ++ (s.actions ++ [action])
  rw [h.queue, List.append_assoc]

theorem Ledger.take {action : α} {actions : List α} {workers : List (Worker α)} (h : Ledger s)
    (htop : s.actions = action :: actions)
    (hmove : Moves .holding (.taken action) s.workers workers) : Ledger
      { s with actions := actions, left := s.left ++ [action], workers := workers } := by
  refine ⟨?_,perm_append_hand h.left hmove rfl rfl,?_⟩
  · rw [h.queue, htop]
    simp
  · exact h.performed.trans (List.Perm.append_left _ (hmove.flatMap_perm_of_eq rfl).symm)

theorem Ledger.perform {action : α} {workers : List (Worker α)} (h : Ledger s)
    (hmove : Moves (.handed action) (.performing action) s.workers workers) :
    Ledger { s with workers := workers, performed := s.performed ++ [action] } := by
  refine ⟨h.queue,?_,perm_append_hand h.performed hmove rfl rfl⟩
  exact h.left.trans (List.Perm.append_left _ (hmove.flatMap_perm_of_eq rfl).symm)

theorem Ledger.finish {action : α} {workers : List (Worker α)} (h : Ledger s)
    (hmove : Moves (.performing action) .draining s.workers workers) :
    Ledger { s with workers := workers, finished := s.finished ++ [action] } :=
  ⟨h.queue,perm_finish_hand h.left hmove rfl rfl,perm_finish_hand h.performed hmove rfl rfl⟩

theorem Ledger.step (h : Ledger s) (hstep : Step s e t) : Ledger t := by
  cases hstep with
  | notifyOne _ hmove => exact (h.push _).move hmove rfl rfl
  | notifyNobody => exact h.push _
  | doTerminate => exact ⟨h.queue,h.left,h.performed⟩
  | destroy =>
    refine ⟨h.queue,?_,?_⟩
    · simpa only [inHands, List.flatMap_map, hand_notify] using h.left
    · simpa only [inPerform, List.flatMap_map, inPerform_notify] using h.performed
  | loop hmove => exact h.move hmove (by split_ifs <;> rfl) (by split_ifs <;> rfl)
  | lock _ hmove => exact h.move hmove rfl rfl
  | test hmove => exact h.move hmove (by split_ifs <;> rfl) (by split_ifs <;> rfl)
  | wait hmove => exact h.move hmove rfl rfl
  | wake hmove => exact h.move hmove rfl rfl
  | relock _ hmove => exact h.move hmove rfl rfl
  | leave hmove => exact h.move hmove rfl rfl
  | check hmove => exact h.move hmove (by split_ifs <;> rfl) (by split_ifs <;> rfl)
  | tryLock _ hmove => exact h.move hmove rfl rfl
  | tryLockFailed => exact h
  | drained _ hmove => exact h.move hmove rfl rfl
  | take htop hmove => exact h.take htop hmove
  | unlockEmpty hmove => exact h.move hmove rfl rfl
  | unlock hmove => exact h.move hmove rfl rfl
  | perform hmove => exact h.perform hmove
  | finish hmove => exact h.finish hmove

theorem create_ledger (workerCount : ℕ) : Ledger (create workerCount : ThreadPoolTaskExecutor α) := by
  have hhands : ∀ f : Worker α → List α, f .looping = [] →
      (List.replicate workerCount Worker.looping).flatMap f = [] := by
    intro f hf
    rw [List.flatMap_eq_nil_iff]
    intro w hw
    rw [(List.mem_replicate.mp hw).2, hf]
  refine ⟨rfl,?_,?_⟩
  · simp [inHands, create, hhands Worker.hand rfl]
  · simp [inPerform, create, hhands Worker.inPerform rfl]

/-- Everything that entered is in the queue, in a hand or done. -/
theorem Ledger.entered (h : Ledger s) :
    s.entered.Perm (s.actions ++ s.inHands ++ s.finished) := by
  rw [h.queue]
  calc (s.left ++ s.actions).Perm (s.actions ++ s.left) := List.perm_append_comm
    List.Perm _ (s.actions ++ (s.finished ++ s.inHands)) := List.Perm.append_left _ h.left
    List.Perm _ (s.actions ++ (s.inHands ++ s.finished)) :=
      List.Perm.append_left _ List.perm_append_comm
    _ = s.actions ++ s.inHands ++ s.finished := (List.append_assoc _ _ _).symm

/-- `perform` was not called on an action more often than it entered the queue. -/
theorem Ledger.performed_subperm (h : Ledger s) : s.performed.Subperm s.entered := by
  have hhands : s.inPerform.Sublist s.inHands :=
    List.Sublist.flatMap_right s.workers fun w _ => inPerform_sublist w
  have hdone : (s.finished ++ s.inPerform).Subperm (s.finished ++ s.inHands) :=
    (hhands.append_left s.finished).subperm
  rw [h.queue]
  exact (h.performed.subperm.trans hdone).trans
    (h.left.symm.subperm.trans (List.sublist_append_left _ _).subperm)

theorem step_entered (hstep : Step s e t) : t.entered =
    match e with
    | .doExecute action => s.entered ++ [action]
    | _ => s.entered := by
  cases hstep <;> rfl

end Isml.ThreadPoolTaskExecutor
