import Isml.Executors.Completable

/-! # The destructor of the pool can join its workers

Behind its `notify_all` nobody sleeps and nobody will: who tests the predicate finds `m_done`. So every
worker can come to its end, the queue being drained by those that are behind the check of `m_done`.
-/
namespace Isml
open LabelledRun Threads

namespace Worker
variable {α : Type}

/-- The steps to the end of a worker that finds `m_done` set and the queue empty. -/
def remaining : Worker α → ℕ
  | .returned | .waiting | .blocked => 0
  | .looping | .ready => 1
  | .emptied | .leaving => 2
  | .holding | .testing => 3
  | .draining | .locking | .woken => 4
  | .performing _ => 5
  | .handed _ => 6
  | .taken _ => 7

end Worker

namespace ThreadPoolTaskExecutor
variable {α : Type} {s t : ThreadPoolTaskExecutor α} {e : PoolEvent α}

def remaining (s : ThreadPoolTaskExecutor α) : ℕ :=
  5 * s.actions.length + (s.workers.map Worker.remaining).sum

/-- The destructor has set `m_done` and woken everybody. -/
structure Closing (s : ThreadPoolTaskExecutor α) : Prop where
  guarding : Guarding s
  done : s.done = true
  awake : ∀ w ∈ s.workers, w ≠ .waiting ∧ w ≠ .blocked

theorem Closing.move {a b : Worker α} {actionsGuard : Bool} {actions entered left performed finished : List α}
    {workers : List (Worker α)} (h : Closing s) (hmove : Moves a b s.workers workers)
    (hb : b ≠ .waiting ∧ b ≠ .blocked) (hguarding : Guarding
      { s with
        actions := actions
        actionsGuard := actionsGuard
        workers := workers
        entered := entered
        left := left
        performed := performed
        finished := finished }) : Closing
      { s with
        actions := actions
        actionsGuard := actionsGuard
        workers := workers
        entered := entered
        left := left
        performed := performed
        finished := finished } := by
  refine ⟨hguarding,h.done,fun w hw => ?_⟩
  rcases hmove.mem_or_of_mem hw with rfl | hw
  · exact hb
  · exact h.awake w hw

theorem Closing.step (h : Closing s) (hstep : Step s e t) : Closing t := by
  have hguarding := h.guarding.step hstep
  cases hstep with
  | notifyOne _ hmove => exact absurd rfl (h.awake _ hmove.left_mem).2
  | notifyNobody => exact ⟨hguarding,h.done,h.awake⟩
  | doTerminate => exact ⟨hguarding,rfl,h.awake⟩
  | destroy =>
    refine ⟨hguarding,rfl,fun w hw => ?_⟩
    obtain ⟨w',hw',rfl⟩ := List.mem_map.mp hw
    have hawake := h.awake w' hw'
    cases w' <;> first | exact hawake | exact ⟨nofun,nofun⟩
  | loop hmove | check hmove =>
    refine h.move hmove ?_ hguarding
    rw [h.done]
    exact ⟨nofun,nofun⟩
  | test hmove =>
    refine h.move hmove ?_ hguarding
    rw [h.done, Bool.or_true]
    exact ⟨nofun,nofun⟩
  | wait hmove => exact absurd rfl (h.awake _ hmove.left_mem).1
  | wake hmove => exact absurd rfl (h.awake _ hmove.left_mem).2
  | tryLockFailed => exact h
  | lock _ hmove | relock _ hmove | leave hmove | tryLock _ hmove | drained _ hmove | take _ hmove
    | unlockEmpty hmove | unlock hmove | perform hmove | finish hmove =>
    exact h.move hmove ⟨nofun,nofun⟩ hguarding

theorem closing_destroy (h : Guarding s) (hstep : Step s .destroy t) : Closing t := by
  have hguarding := h.step hstep
  cases hstep with
  | destroy hfree =>
    refine ⟨hguarding,rfl,fun w hw => ?_⟩
    obtain ⟨w',hw',rfl⟩ := List.mem_map.mp hw
    have hwaiting : w' ≠ .waiting := fun heq => h.not_waiting hfree (heq ▸ hw')
    cases w' <;> first | exact absurd rfl hwaiting | exact ⟨nofun,nofun⟩

/-- A step that brings the workers nearer to their end. -/
def Ends (s : ThreadPoolTaskExecutor α) : Prop :=
  ∃ e t, PoolEvent.awake e = true ∧ Step s e t ∧ t.remaining < s.remaining

theorem ends_move {a b : Worker α} (ha : a ∈ s.workers) {e : PoolEvent α} (he : e.awake = true)
    (hlt : b.remaining < a.remaining) {actionsGuard : Bool} {performed finished : List α}
    (hstep : ∀ workers, Moves a b s.workers workers → Step s e
      { s with
        actionsGuard := actionsGuard
        workers := workers
        performed := performed
        finished := finished }) : Ends s := by
  obtain ⟨t,ht,hactions,_,hsum⟩ := exists_move ha hlt hstep
  refine ⟨e,t,he,ht,?_⟩
  unfold remaining
  rw [hactions]
  omega

/-- A worker that has the guard or can get it goes on. -/
theorem Closing.ends_worker (h : Closing s) {w : Worker α} (hw : w ∈ s.workers) (hne : w ≠ .returned)
    (hguard : w.owning = true ∨ s.actionsGuard = false) : Ends s := by
  cases w with
  | returned => exact absurd rfl hne
  | waiting => exact absurd rfl (h.awake _ hw).1
  | blocked => exact absurd rfl (h.awake _ hw).2
  | looping =>
    refine ends_move hw (b := .returned) (e := .loop) rfl (by simp [Worker.remaining])
      fun workers hmove => .loop ?_
    rw [h.done]
    exact hmove
  | ready =>
    refine ends_move hw (b := .returned) (e := .check) rfl (by simp [Worker.remaining])
      fun workers hmove => .check ?_
    rw [h.done]
    exact hmove
  | testing =>
    refine ends_move hw (b := .leaving) (e := .test) rfl (by simp [Worker.remaining])
      fun workers hmove => .test ?_
    rw [h.done, Bool.or_true]
    exact hmove
  | locking =>
    have hfree := hguard.resolve_left Bool.false_ne_true
    exact ends_move hw (b := .testing) (e := .lock) rfl (by simp [Worker.remaining]) fun _ => .lock hfree
  | woken =>
    have hfree := hguard.resolve_left Bool.false_ne_true
    exact ends_move hw (b := .testing) (e := .relock) rfl (by simp [Worker.remaining])
      fun _ => .relock hfree
  | draining =>
    have hfree := hguard.resolve_left Bool.false_ne_true
    exact ends_move hw (b := .holding) (e := .tryLock) rfl (by simp [Worker.remaining])
      fun _ => .tryLock hfree
  | leaving =>
    exact ends_move hw (b := .ready) (e := .unlock) rfl (by simp [Worker.remaining]) fun _ => .leave
  | emptied =>
    exact ends_move hw (b := .looping) (e := .unlock) rfl (by simp [Worker.remaining])
      fun _ => .unlockEmpty
  | taken action =>
    exact ends_move hw (b := .handed action) (e := .unlock) rfl (by simp [Worker.remaining])
      fun _ => .unlock
  | handed action =>
    exact ends_move hw (b := .performing action) (e := .perform) rfl (by simp [Worker.remaining])
      fun _ => .perform
  | performing action =>
    exact ends_move hw (b := .draining) (e := .finish) rfl (by simp [Worker.remaining])
      fun _ => .finish
  | holding =>
    cases hactions : s.actions with
    | nil =>
      exact ends_move hw (b := .emptied) (e := .take) rfl (by simp [Worker.remaining])
        fun _ => .drained hactions
    | cons action actions =>
      obtain ⟨workers,hmove⟩ := Moves.exists_of_mem hw (.taken action)
      have hsum := hmove.sum_map_eq Worker.remaining
      refine ⟨.take,_,rfl,.take hactions hmove,?_⟩
      unfold remaining
      rw [hactions]
      simp only [Worker.remaining, List.length_cons] at hsum ⊢
      omega

/-- As long as a worker has not returned somebody can go on: the owner of the guard, or whoever it is. -/
theorem Closing.ends (h : Closing s) (hnot : ¬ ∀ w ∈ s.workers, w = .returned) : Ends s := by
  cases hguard : s.actionsGuard with
  | true =>
    have hpos : 0 < s.workers.countP Worker.owning := by
      rw [h.guarding.owner, hguard]
      exact Nat.one_pos
    obtain ⟨w,hw,howning⟩ := List.countP_pos_iff.mp hpos
    refine h.ends_worker hw ?_ (Or.inl howning)
    rintro rfl
    cases howning
  | false =>
    obtain ⟨w,hworker⟩ := not_forall.mp hnot
    obtain ⟨hw,hne⟩ := Classical.not_imp.mp hworker
    exact h.ends_worker hw hne (Or.inr hguard)

/-- Whatever happens before the destructor has woken the workers and behind that, they can all return by
steps of their own, so its `join` does; `perform` is taken to return. -/
theorem joinable {workerCount : ℕ} {u v : ThreadPoolTaskExecutor α}
    {before after : List (ThreadPoolTaskExecutor α × PoolEvent α)}
    (hr : Run Step (create workerCount) before s) (hdestroy : Step s .destroy u)
    (hafter : Run Step u after v) :
    ∃ rest t, Run Step v rest t ∧ (∀ e ∈ rest, PoolEvent.awake e.2 = true) ∧
      ∀ w ∈ t.workers, w = .returned := by
  have hguarding := hr.preserved (fun _ _ _ h hstep => Guarding.step h hstep) (create_guarding workerCount)
  have hclosing : Closing v := hafter.preserved (fun _ _ _ h hstep => h.step hstep)
    (closing_destroy hguarding hdestroy)
  have hprogress : ∀ s : ThreadPoolTaskExecutor α, Closing s → (¬ ∀ w ∈ s.workers, w = .returned) →
      ∃ e t, PoolEvent.awake e = true ∧ Step s e t ∧ Closing t ∧ t.remaining < s.remaining := by
    intro s hs hnot
    obtain ⟨e,t,he,hstep,hlt⟩ := hs.ends hnot
    exact ⟨e,t,he,hstep,hs.step hstep,hlt⟩
  obtain ⟨rest,t,hrest,hawake,_,hreturned⟩ := exists_run_to remaining hprogress v hclosing
  exact ⟨rest,t,hrest,hawake,hreturned⟩

/-- One worker that has not begun, and an action. -/
theorem joinable_unstarted : ∃ u : ThreadPoolTaskExecutor ℕ,
    Step (push 9 (create 1)) .destroy u ∧ ∃ rest t, Run Step u rest t ∧
      (∀ e ∈ rest, PoolEvent.awake e.2 = true) ∧ ∀ w ∈ t.workers, w = .returned := by
  have hblocked : Worker.blocked ∉ (create 1 : ThreadPoolTaskExecutor ℕ).workers := by
    change Worker.blocked ∉ [Worker.looping]
    simp
  have hexecute : Step (create 1 : ThreadPoolTaskExecutor ℕ) (.doExecute 9) (push 9 (create 1)) :=
    Step.notifyNobody rfl hblocked
  have hdestroy : Step (push 9 (create 1) : ThreadPoolTaskExecutor ℕ) .destroy _ := Step.destroy rfl
  exact ⟨_,hdestroy,joinable (Run.cons hexecute (Run.nil _)) hdestroy (Run.nil _)⟩

end ThreadPoolTaskExecutor

end Isml
