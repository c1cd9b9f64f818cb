import Isml.Executors.ActionLedger

/-! # What was submitted can be done

From every state that a pool gets to before it is told to terminate, its workers can bring everything that
was submitted to its end, without a spurious wake-up and without another call of `doExecute`: who owns the
guard goes on and gives it back, and while something is in the queue somebody will look at it.
-/
namespace Isml
open LabelledRun Threads

namespace Worker
variable {α : Type}

/-- How far a worker is from having nothing to do, not counting what it will find in the queue. -/
def distance : Worker α → ℕ
  | .waiting | .blocked | .returned => 0
  | .holding => 1
  | .draining => 2
  | .performing _ => 3
  | .handed _ => 4
  | .taken _ => 5
  | .ready => 3
  | .leaving => 4
  | .testing => 5
  | .locking | .woken => 6
  | .looping => 7
  | .emptied => 8

end Worker

/-- A step of a worker that is awake. -/
def PoolEvent.awake {α : Type} : PoolEvent α → Bool
  | .doExecute _ | .doTerminate | .destroy | .wake => false
  | _ => true

namespace ThreadPoolTaskExecutor
variable {α : Type} {s t : ThreadPoolTaskExecutor α} {e : PoolEvent α}

/-- What there is to do: for each action of the queue a way from `holding` to `taken`, and the ways of the
workers. -/
def distance (s : ThreadPoolTaskExecutor α) : ℕ :=
  5 * s.actions.length + (s.workers.map Worker.distance).sum

/-- The pool is running and has workers. -/
structure Running (s : ThreadPoolTaskExecutor α) : Prop where
  guarding : Guarding s
  attended : Attended s
  ledger : Ledger s
  running : s.done = false

/-- Nothing is in the queue or in a hand. -/
def Idle (s : ThreadPoolTaskExecutor α) : Prop := s.actions = [] ∧ s.inHands = []

theorem Running.step (h : Running s) (hstep : Step s e t) (hdone : t.done = false) : Running t :=
  ⟨h.guarding.step hstep,h.attended.step h.guarding hstep,h.ledger.step hstep,hdone⟩

/-- A step that brings the work to be done down. -/
def Advances (s : ThreadPoolTaskExecutor α) : Prop :=
  ∃ e t, PoolEvent.awake e = true ∧ Step s e t ∧ Running t ∧ t.distance < s.distance

/-- A worker that goes on to a place that counts for less. -/
theorem exists_move {f : Worker α → ℕ} {a b : Worker α} (ha : a ∈ s.workers) {e : PoolEvent α}
    (hlt : f b < f a) {actionsGuard : Bool} {performed finished : List α}
    (hstep : ∀ workers, Moves a b s.workers workers → Step s e
      { s with
        actionsGuard := actionsGuard
        workers := workers
        performed := performed
        finished := finished }) :
    ∃ t, Step s e t ∧ t.actions = s.actions ∧ t.done = s.done ∧
      (t.workers.map f).sum < (s.workers.map f).sum := by
  obtain ⟨workers,hmove⟩ := Moves.exists_of_mem ha b
  refine ⟨_,hstep workers hmove,rfl,rfl,?_⟩
  have hsum := hmove.sum_map_eq f
  dsimp only
  omega

theorem Running.exists_nearer (h : Running s) {f : Worker α → ℕ} {a b : Worker α} (ha : a ∈ s.workers)
    {e : PoolEvent α} (hlt : f b < f a) {actionsGuard : Bool} {performed finished : List α}
    (hstep : ∀ workers, Moves a b s.workers workers → Step s e
      { s with
        actionsGuard := actionsGuard
        workers := workers
        performed := performed
        finished := finished }) :
    ∃ t, Step s e t ∧ Running t ∧ t.actions = s.actions ∧
      (t.workers.map f).sum < (s.workers.map f).sum := by
  obtain ⟨t,ht,hactions,hdone,hsum⟩ := exists_move ha hlt hstep
  exact ⟨t,ht,h.step ht (hdone.trans h.running),hactions,hsum⟩

theorem advances_move (h : Running s) {a b : Worker α} (ha : a ∈ s.workers) {e : PoolEvent α}
    (he : e.awake = true) (hlt : b.distance < a.distance) {actionsGuard : Bool}
    {performed finished : List α} (hstep : ∀ workers, Moves a b s.workers workers → Step s e
      { s with
        actionsGuard := actionsGuard
        workers := workers
        performed := performed
        finished := finished }) : Advances s := by
  obtain ⟨t,ht,hrunning,hactions,hsum⟩ := h.exists_nearer ha hlt hstep
  refine ⟨e,t,he,ht,hrunning,?_⟩
  unfold distance
  rw [hactions]
  omega

/-- A worker that has something in its hands needs no guard to go on. -/
theorem advances_hand (h : Running s) {w : Worker α} (hw : w ∈ s.workers) (hhand : w.hand ≠ []) :
    Advances s := by
  cases w with
  | taken action =>
    exact advances_move h hw (b := .handed action) (e := .unlock) rfl (by simp [Worker.distance])
      fun _ => .unlock
  | handed action =>
    exact advances_move h hw (b := .performing action) (e := .perform) rfl (by simp [Worker.distance])
      fun _ => .perform
  | performing action =>
    exact advances_move h hw (b := .draining) (e := .finish) rfl (by simp [Worker.distance])
      fun _ => .finish
  | _ => exact absurd rfl hhand

theorem advances_take (h : Running s) (hqueue : s.actions ≠ []) (hw : .holding ∈ s.workers) :
    Advances s := by
  obtain ⟨action,actions,htop⟩ := List.exists_cons_of_ne_nil hqueue
  obtain ⟨workers,hmove⟩ := Moves.exists_of_mem hw (.taken action)
  have hstep : Step s .take _ := .take htop hmove
  refine ⟨.take,_,rfl,hstep,h.step hstep h.running,?_⟩
  have hsum := hmove.sum_map_eq Worker.distance
  unfold distance
  rw [htop]
  simp only [Worker.distance, List.length_cons] at hsum ⊢
  omega

/-- A worker that will look at the queue, and has the guard or can get it. -/
theorem advances_attending (h : Running s) (hqueue : s.actions ≠ []) {w : Worker α} (hw : w ∈ s.workers)
    (hattending : w.attending = true) (hguard : w.owning = true ∨ s.actionsGuard = false) : Advances s := by
  cases w with
  | waiting | blocked | returned => cases hattending
  | taken _ | handed _ | performing _ => exact advances_hand h hw (List.cons_ne_nil _ _)
  | holding => exact advances_take h hqueue hw
  | looping =>
    refine advances_move h hw (b := .locking) (e := .loop) rfl (by simp [Worker.distance])
      fun workers hmove => .loop ?_
    rw [h.running]
    exact hmove
  | locking =>
    have hfree := hguard.resolve_left Bool.false_ne_true
    exact advances_move h hw (b := .testing) (e := .lock) rfl (by simp [Worker.distance]) fun _ => .lock hfree
  | testing =>
    have hpredicate : (!s.actions.isEmpty || s.done) = true := by simp [hqueue]
    refine advances_move h hw (b := .leaving) (e := .test) rfl (by simp [Worker.distance])
      fun workers hmove => .test ?_
    rw [if_pos hpredicate]
    exact hmove
  | woken =>
    have hfree := hguard.resolve_left Bool.false_ne_true
    exact advances_move h hw (b := .testing) (e := .relock) rfl (by simp [Worker.distance])
      fun _ => .relock hfree
  | leaving =>
    exact advances_move h hw (b := .ready) (e := .unlock) rfl (by simp [Worker.distance]) fun _ => .leave
  | ready =>
    refine advances_move h hw (b := .draining) (e := .check) rfl (by simp [Worker.distance])
      fun workers hmove => .check ?_
    rw [h.running]
    exact hmove
  | draining =>
    have hfree := hguard.resolve_left Bool.false_ne_true
    exact advances_move h hw (b := .holding) (e := .tryLock) rfl (by simp [Worker.distance])
      fun _ => .tryLock hfree
  | emptied =>
    exact advances_move h hw (b := .looping) (e := .unlock) rfl (by simp [Worker.distance])
      fun _ => .unlockEmpty

/-- As long as something is to be done, somebody can do a part of it. -/
theorem advances_of_not_idle (h : Running s) (hidle : ¬ Idle s) : Advances s := by
  by_cases hqueue : s.actions = []
  · have hhands : s.inHands ≠ [] := fun hhands => hidle ⟨hqueue,hhands⟩
    obtain ⟨action,haction⟩ := List.exists_mem_of_ne_nil _ hhands
    obtain ⟨w,hw,hhand⟩ := List.mem_flatMap.mp haction
    exact advances_hand h hw (List.ne_nil_of_mem hhand)
  · cases hguard : s.actionsGuard with
    | false =>
      obtain ⟨w,hw,hattending⟩ := h.attended.attended h.running hqueue
      exact advances_attending h hqueue hw hattending (Or.inr hguard)
    | true =>
      have howner := h.guarding.owner
      have hpos : 0 < s.workers.countP Worker.owning := by
        rw [howner, hguard]
        exact Nat.one_pos
      obtain ⟨w,hw,howning⟩ := List.countP_pos_iff.mp hpos
      have hattending : w.attending = true := by
        cases w with
        | waiting => exact absurd (h.guarding.waiting hw) hqueue
        | blocked | returned => cases howning
        | _ => rfl
      exact advances_attending h hqueue hw hattending (Or.inl howning)

theorem entered_of_awake (he : e.awake = true) (hstep : Step s e t) : t.entered = s.entered := by
  cases hstep with
  | notifyOne | notifyNobody | doTerminate | destroy | wake => cases he
  | _ => rfl

theorem Ledger.finished_of_idle (h : Ledger s) (hidle : Idle s) : s.finished.Perm s.entered := by
  have hentered := h.entered
  rw [hidle.1, hidle.2] at hentered
  exact hentered.symm

/-- The workers can get to the end of what there is. -/
theorem Running.exists_idle (h : Running s) : ∃ rest t, Run Step s rest t ∧
    (∀ e ∈ rest, PoolEvent.awake e.2 = true) ∧ t.entered = s.entered ∧ Running t ∧ Idle t := by
  let Good (u : ThreadPoolTaskExecutor α) : Prop := Running u ∧ u.entered = s.entered
  have hprogress : ∀ u, Good u → ¬ Idle u →
      ∃ e t, PoolEvent.awake e = true ∧ Step u e t ∧ Good t ∧ t.distance < u.distance := by
    rintro u ⟨hu,hentered⟩ hidle
    obtain ⟨e,t,he,hstep,ht,hlt⟩ := advances_of_not_idle hu hidle
    exact ⟨e,t,he,hstep,⟨ht,(entered_of_awake he hstep).trans hentered⟩,hlt⟩
  obtain ⟨rest,t,hrest,hawake,⟨ht,hentered⟩,hidle⟩ := exists_run_to distance hprogress s ⟨h,rfl⟩
  exact ⟨rest,t,hrest,hawake,hentered,ht,hidle⟩

/-- From every state of a pool that was not told to terminate its workers can finish all that was
submitted, by steps of their own of which none is a spurious wake-up; `perform` is taken to return. -/
theorem completable {workerCount : ℕ} (hpos : 0 < workerCount)
    {trace : List (ThreadPoolTaskExecutor α × PoolEvent α)} (hr : Run Step (create workerCount) trace s)
    (hrunning : s.done = false) :
    ∃ rest t, Run Step s rest t ∧ (∀ e ∈ rest, PoolEvent.awake e.2 = true) ∧ t.actions = [] ∧
      t.inHands = [] ∧ t.finished.Perm s.entered := by
  have hsteps : ∀ s e (u : ThreadPoolTaskExecutor α), Guarding s ∧ Attended s ∧ Ledger s → Step s e u →
      Guarding u ∧ Attended u ∧ Ledger u := fun s e u h hstep =>
    ⟨h.1.step hstep,h.2.1.step h.1 hstep,h.2.2.step hstep⟩
  obtain ⟨hguarding,hattended,hledger⟩ := hr.preserved hsteps
    ⟨create_guarding workerCount,create_attended hpos,create_ledger workerCount⟩
  have h : Running s := ⟨hguarding,hattended,hledger,hrunning⟩
  obtain ⟨rest,t,hrest,hawake,hentered,ht,hidle⟩ := h.exists_idle
  exact ⟨rest,t,hrest,hawake,hidle.1,hidle.2,hentered ▸ ht.ledger.finished_of_idle hidle⟩

/-- One worker sleeps, and an action comes in. -/
theorem completable_sleeping : ∃ rest, ∃ t : ThreadPoolTaskExecutor ℕ,
    Run Step (push 9 { create 1 with workers := [.woken] }) rest t ∧
      (∀ e ∈ rest, PoolEvent.awake e.2 = true) ∧ t.actions = [] ∧ t.inHands = [] ∧ t.finished.Perm [9] := by
  let start : ThreadPoolTaskExecutor ℕ := create 1
  let locking : ThreadPoolTaskExecutor ℕ := { start with workers := [.locking] }
  let testing : ThreadPoolTaskExecutor ℕ := { start with actionsGuard := true, workers := [.testing] }
  have hloop : Step start .loop locking := Step.loop (Moves.intro [] [])
  have hlock : Step locking .lock testing := Step.lock rfl (Moves.intro [] [])
  have htest : Step testing .test { testing with workers := [.waiting] } := Step.test (Moves.intro [] [])
  have hwait : Step { testing with workers := [.waiting] } .wait { start with workers := [.blocked] } :=
    Step.wait (Moves.intro [] [])
  have hexecute : Step { start with workers := [.blocked] } (.doExecute 9)
      (push 9 { start with workers := [.woken] }) := Step.notifyOne rfl (Moves.intro [] [])
  exact completable Nat.one_pos
    (Run.cons hloop (Run.cons hlock (Run.cons htest (Run.cons hwait (Run.cons hexecute (Run.nil _)))))) rfl

end ThreadPoolTaskExecutor

end Isml
