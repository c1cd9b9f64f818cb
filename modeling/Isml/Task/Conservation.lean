import Isml.Executors.ActionLedger
import Isml.Task.TaskScheduler

/-! # No scheduled action is lost or performed twice

A `TaskScheduler` is a `ThreadPoolTaskExecutor`: `schedule` puts an action into the heap,
`submit` and the watcher put one into the queue of the pool. The actions are numbered in the
order they are accepted in, which makes all of them different.
-/
namespace Isml
open LabelledRun PriorityQueues Threads

/-- The members of both classes, and how many actions were accepted. -/
structure ScheduledPool where
  scheduler : TaskScheduler ℕ
  pool : ThreadPoolTaskExecutor ℕ
  accepted : ℕ

inductive ScheduledPoolEvent where
  | schedule (delay created left : ℤ) (comparisons : List (DelayComparison ℕ))
  | submit
  | hand (left update : ℤ)
  | scheduler (e : SchedulerEvent ℕ)
  | pool (e : PoolEvent ℕ)
  | join

/-- The steps of the scheduler that do not concern the pool, and accept nothing. -/
def SchedulerEvent.internal {α : Type} : SchedulerEvent α → Bool
  | .schedule _ _ _ _ _ | .hand _ _ _ | .join => false
  | _ => true

/-- The steps of the workers. -/
def PoolEvent.internal {α : Type} : PoolEvent α → Bool
  | .doExecute _ | .doTerminate | .destroy => false
  | _ => true

namespace ScheduledPool

def create (clock : Clock) (start : ℤ) (workerCount : ℕ) : ScheduledPool :=
  ⟨TaskScheduler.create clock start,ThreadPoolTaskExecutor.create workerCount,0⟩

/-- `schedule` and `submit` bring a new action, the watcher hands one to the pool. The pool
is destroyed when the watcher has been joined. -/
inductive Step (clock : Clock) : ScheduledPool → ScheduledPoolEvent → ScheduledPool → Prop
  | schedule {s : ScheduledPool} {delay created left : ℤ}
      {comparisons : List (DelayComparison ℕ)} {scheduler : TaskScheduler ℕ} :
      s.scheduler.done = false → TaskScheduler.Step clock s.scheduler
        (.schedule s.accepted delay created left comparisons) scheduler →
        Step clock s (.schedule delay created left comparisons)
          { s with scheduler := scheduler, accepted := s.accepted + 1 }
  | refuse {s : ScheduledPool} {delay created left : ℤ}
      {comparisons : List (DelayComparison ℕ)} {scheduler : TaskScheduler ℕ} :
      s.scheduler.done = true → TaskScheduler.Step clock s.scheduler
        (.schedule s.accepted delay created left comparisons) scheduler →
        Step clock s (.schedule delay created left comparisons) { s with scheduler := scheduler }
  | submit {s : ScheduledPool} {pool : ThreadPoolTaskExecutor ℕ} :
      ThreadPoolTaskExecutor.Step s.pool (.doExecute s.accepted) pool →
        Step clock s .submit { s with pool := pool, accepted := s.accepted + 1 }
  | hand {s : ScheduledPool} {action : ScheduledAction ℕ} {left update : ℤ}
      {scheduler : TaskScheduler ℕ} {pool : ThreadPoolTaskExecutor ℕ} :
      TaskScheduler.Step clock s.scheduler (.hand action left update) scheduler →
      ThreadPoolTaskExecutor.Step s.pool (.doExecute action.action) pool →
        Step clock s (.hand left update) { s with scheduler := scheduler, pool := pool }
  | scheduler {s : ScheduledPool} {e : SchedulerEvent ℕ} {scheduler : TaskScheduler ℕ} :
      e.internal = true → TaskScheduler.Step clock s.scheduler e scheduler →
        Step clock s (.scheduler e) { s with scheduler := scheduler }
  | pool {s : ScheduledPool} {e : PoolEvent ℕ} {pool : ThreadPoolTaskExecutor ℕ} :
      e.internal = true → ThreadPoolTaskExecutor.Step s.pool e pool →
        Step clock s (.pool e) { s with pool := pool }
  | join {s : ScheduledPool} {scheduler : TaskScheduler ℕ} {pool : ThreadPoolTaskExecutor ℕ} :
      TaskScheduler.Step clock s.scheduler .join scheduler →
      ThreadPoolTaskExecutor.Step s.pool .destroy pool →
        Step clock s .join { s with scheduler := scheduler, pool := pool }

end ScheduledPool

/-- The action in the hands of the watcher. -/
def Watcher.hand {α : Type} : Watcher α → List α
  | .handing action => [action.action]
  | _ => []

namespace Watcher
variable {α : Type}

@[simp] theorem hand_notify (w : Watcher α) : w.notify.hand = w.hand := by
  cases w <;> rfl

@[simp] theorem hand_handing (action : ScheduledAction α) : (handing action).hand = [action.action] :=
  rfl

end Watcher

namespace TaskScheduler
variable {α : Type} {clock : Clock} {s t : TaskScheduler α} {e : SchedulerEvent α}

/-- The actions of the heap and the one in the hands of the watcher. -/
def held (s : TaskScheduler α) : List α :=
  s.scheduledActions.items.map ScheduledAction.action ++ s.watcher.hand

theorem held_afterPush {delay left : ℤ} : (afterPush clock delay left s).held = s.held := by
  unfold afterPush held
  split_ifs <;> simp

theorem held_congr (hqueue : t.scheduledActions = s.scheduledActions)
    (hhand : t.watcher.hand = s.watcher.hand) : t.held = s.held := by
  rw [held, hqueue, hhand, held]

theorem held_schedule {action : α} {delay created left : ℤ}
    {comparisons : List (DelayComparison α)} (hdone : s.done = false)
    (hstep : Step clock s (.schedule action delay created left comparisons) t) :
    t.held.Perm (action :: s.held) := by
  cases hstep with
  | schedule _ _ _ _ _ hpush =>
    rw [held_afterPush]
    exact (hpush.perm.map ScheduledAction.action).append_right s.watcher.hand
  | refuse _ hrefused =>
    rw [hdone] at hrefused
    cases hrefused

theorem held_refuse {action : α} {delay created left : ℤ}
    {comparisons : List (DelayComparison α)} (hdone : s.done = true)
    (hstep : Step clock s (.schedule action delay created left comparisons) t) : t.held = s.held := by
  cases hstep with
  | schedule _ haccepted =>
    rw [hdone] at haccepted
    cases haccepted
  | refuse => rfl

theorem held_hand {action : ScheduledAction α} {left update : ℤ}
    (hstep : Step clock s (.hand action left update) t) : s.held = t.held ++ [action.action] := by
  cases hstep with
  | hand hhanding =>
    change s.scheduledActions.items.map ScheduledAction.action ++ s.watcher.hand =
      s.scheduledActions.items.map ScheduledAction.action ++ [] ++ [action.action]
    rw [hhanding, Watcher.hand_handing, List.append_nil]

theorem held_join (hstep : Step clock s .join t) : t.held = s.held := by
  cases hstep with
  | join => rfl

/-- A popped action goes into the hands of the watcher. -/
theorem held_pop {read : ℤ} {comparisons : List (DelayComparison α)}
    (hstep : Step clock s (.pop read comparisons) t) : t.held.Perm s.held := by
  cases hstep with
  | @pop _ top _ queue hwoken _ _ _ hpop =>
    have hitems := hpop.perm_cons.map ScheduledAction.action
    rw [List.map_cons] at hitems
    unfold held
    rw [hwoken]
    calc (queue.items.map ScheduledAction.action ++ [top.action]).Perm
          (top.action :: queue.items.map ScheduledAction.action) := List.perm_append_singleton _ _
      List.Perm _ (s.scheduledActions.items.map ScheduledAction.action) := hitems.symm
      _ = s.scheduledActions.items.map ScheduledAction.action ++ [] := (List.append_nil _).symm

theorem held_internal (he : e.internal = true) (hstep : Step clock s e t) : t.held.Perm s.held := by
  cases hstep with
  | schedule | refuse | hand | join => cases he
  | pop hwoken hreason hnow hanswered hpop =>
    exact held_pop (Step.pop hwoken hreason hnow hanswered hpop)
  | terminate => exact List.Perm.of_eq (held_congr rfl (Watcher.hand_notify _))
  | check hwatcher =>
    refine List.Perm.of_eq (held_congr rfl ?_)
    rw [hwatcher]
    dsimp only
    split_ifs <;> rfl
  | wait hwatcher | timeout hwatcher | wake hwatcher | updateDelay hwatcher | rearm hwatcher
    | leave hwatcher =>
    refine List.Perm.of_eq (held_congr rfl ?_)
    rw [hwatcher]
    rfl
  | advance | destroy => exact List.Perm.refl _

end TaskScheduler

namespace ScheduledPool
variable {clock : Clock} {s t : ScheduledPool} {e : ScheduledPoolEvent}

/-- The heap, the hands of the watcher, the queue of the pool, the hands of its workers and
the finished actions. -/
def places (s : ScheduledPool) : List ℕ :=
  s.scheduler.held ++ (s.pool.actions ++ s.pool.inHands ++ s.pool.finished)

/-- Each accepted action is in one place, `perform` was called on none of them twice, and they
leave the queue of the pool in the order they entered it. -/
structure Conserved (s : ScheduledPool) : Prop where
  places : s.places.Perm (List.range s.accepted)
  performed : s.pool.performed.Nodup
  queue : s.pool.entered = s.pool.left ++ s.pool.actions

/-- What the scheduler does not hold any more has entered the pool. -/
structure HandedOn (s : ScheduledPool) : Prop where
  ledger : s.pool.Ledger
  accepted : (s.scheduler.held ++ s.pool.entered).Perm (List.range s.accepted)

theorem conserved_of_handedOn (h : HandedOn s) : Conserved s := by
  refine ⟨?_,?_,h.ledger.queue⟩
  · exact (h.ledger.entered.symm.append_left _).trans h.accepted
  · have hentered : s.pool.entered.Nodup := by
      have hall : (s.scheduler.held ++ s.pool.entered).Nodup :=
        h.accepted.nodup_iff.mpr List.nodup_range
      exact (List.nodup_append.mp hall).2.1
    obtain ⟨l,hperm,hsublist⟩ := h.ledger.performed_subperm
    exact hperm.nodup_iff.mp (hentered.sublist hsublist)

theorem perm_range_succ {held entered held' entered' : List ℕ} {accepted : ℕ}
    (h : (held ++ entered).Perm (List.range accepted))
    (hnew : (held' ++ entered').Perm (accepted :: (held ++ entered))) :
    (held' ++ entered').Perm (List.range (accepted + 1)) := by
  rw [List.range_succ]
  calc (held' ++ entered').Perm (accepted :: (held ++ entered)) := hnew
    List.Perm _ (accepted :: List.range accepted) := h.cons accepted
    List.Perm _ (List.range accepted ++ [accepted]) := (List.perm_append_singleton _ _).symm

theorem HandedOn.step (h : HandedOn s) (hstep : Step clock s e t) : HandedOn t := by
  cases hstep with
  | schedule hdone hschedule =>
    have hheld := TaskScheduler.held_schedule hdone hschedule
    exact ⟨h.ledger,perm_range_succ h.accepted (hheld.append_right s.pool.entered)⟩
  | refuse hdone hschedule =>
    refine ⟨h.ledger,?_⟩
    rw [TaskScheduler.held_refuse hdone hschedule]
    exact h.accepted
  | submit hexecute =>
    refine ⟨h.ledger.step hexecute,perm_range_succ h.accepted ?_⟩
    rw [ThreadPoolTaskExecutor.step_entered hexecute, ← List.append_assoc]
    exact List.perm_append_singleton _ _
  | hand hhand hexecute =>
    refine ⟨h.ledger.step hexecute,?_⟩
    have hheld := TaskScheduler.held_hand hhand
    have hentered := h.accepted
    rw [hheld, List.append_assoc] at hentered
    refine List.Perm.trans (List.Perm.append_left _ ?_) hentered
    rw [ThreadPoolTaskExecutor.step_entered hexecute]
    exact List.perm_append_comm
  | scheduler he hscheduler =>
    exact ⟨h.ledger,((TaskScheduler.held_internal he hscheduler).append_right _).trans h.accepted⟩
  | @pool e pool he hpool =>
    refine ⟨h.ledger.step hpool,?_⟩
    have hentered : pool.entered = s.pool.entered := by
      rw [ThreadPoolTaskExecutor.step_entered hpool]
      cases e <;> first | rfl | cases he
    rw [hentered]
    exact h.accepted
  | join hjoin hdestroy =>
    refine ⟨h.ledger.step hdestroy,?_⟩
    rw [TaskScheduler.held_join hjoin, ThreadPoolTaskExecutor.step_entered hdestroy]
    exact h.accepted

theorem create_handedOn (clock : Clock) (start : ℤ) (workerCount : ℕ) :
    HandedOn (create clock start workerCount) :=
  ⟨ThreadPoolTaskExecutor.create_ledger workerCount,List.Perm.refl _⟩

/-- Accepted actions are conserved, performed at most once and handed to the workers in order,
in every run with any number of workers. -/
theorem conserved (clock : Clock) (start : ℤ) (workerCount : ℕ)
    {trace : List (ScheduledPool × ScheduledPoolEvent)}
    (hr : Run (Step clock) (create clock start workerCount) trace t) : Conserved t :=
  conserved_of_handedOn
    (hr.preserved (fun _ _ _ h hstep => h.step hstep) (create_handedOn clock start workerCount))

section OneAction

/-- One worker, and one action that is due in 100 milliseconds. -/
def oneAction : ScheduledPool where
  scheduler :=
    { TaskScheduler.create millisecondClock 0 with
      scheduledActions := PriorityQueue.singleton ⟨0,100,0⟩
      delay := 100 }
  pool := ThreadPoolTaskExecutor.create 1
  accepted := 1

theorem oneAction_run : Run (Step millisecondClock) (create millisecondClock 0 1)
    [(create millisecondClock 0 1,.schedule 100 0 0 [])] oneAction := by
  have hpush : TaskScheduler.Step millisecondClock (TaskScheduler.create millisecondClock 0)
      (.schedule 0 100 0 0 []) oneAction.scheduler :=
    .schedule (s := TaskScheduler.create millisecondClock 0) rfl rfl le_rfl le_rfl
      (TaskScheduler.answered_nil _ _ _) (PriorityQueue.push_empty _)
  exact Run.cons (.schedule rfl hpush) (Run.nil _)

/-- The action has been handed over. -/
def nothingLeft : ScheduledPool where
  scheduler := { TaskScheduler.create millisecondClock 0 with suspendReason := .executeTask }
  pool := ThreadPoolTaskExecutor.push 0 (ThreadPoolTaskExecutor.create 1)
  accepted := 1

/-- The watcher wakes up twice, takes the action and hands it over, all of that before it is due. -/
theorem oneAction_rest : ∃ rest, Run (Step millisecondClock) oneAction rest nothingLeft ∧
    rest.map Prod.snd = [.scheduler .check,.scheduler (.wait 0),.scheduler .wake,
      .scheduler (.updateDelay 0),.scheduler .check,.scheduler (.wait 0),.scheduler .wake,
      .scheduler (.pop 0 []),.hand 0 0] := by
  have hblocked : Worker.blocked ∉ oneAction.pool.workers := by
    change Worker.blocked ∉ [Worker.looping]
    simp
  let handing : TaskScheduler ℕ :=
    { nothingLeft.scheduler with
      delay := 100
      watcher := .handing ⟨0,100,0⟩ }
  have hhand : Step millisecondClock { oneAction with scheduler := handing } (.hand 0 0) nothingLeft :=
    .hand (.hand (s := handing) rfl le_rfl le_rfl) (.notifyNobody rfl hblocked)
  refine ⟨_,Run.cons (.scheduler rfl (.check rfl)) (Run.cons (.scheduler rfl (.wait rfl le_rfl))
    (Run.cons (.scheduler rfl (.wake rfl)) (Run.cons (.scheduler rfl (.updateDelay rfl rfl le_rfl))
      (Run.cons (.scheduler rfl (.check rfl)) (Run.cons (.scheduler rfl (.wait rfl le_rfl))
        (Run.cons (.scheduler rfl (.wake rfl)) (Run.cons (.scheduler rfl
          (.pop rfl rfl le_rfl (TaskScheduler.answered_nil _ _ _) (PriorityQueue.pop_singleton _)))
            (Run.cons hhand (Run.nil _))))))))),rfl⟩

/-- The worker performs the action. -/
def performing : ScheduledPool :=
  { nothingLeft with
    pool :=
      { ThreadPoolTaskExecutor.create 1 with
        workers := [.performing 0]
        entered := [0]
        left := [0]
        performed := [0] } }

theorem performing_run : ∃ rest, Run (Step millisecondClock) nothingLeft rest performing ∧
    rest.map Prod.snd = [.pool .loop,.pool .lock,.pool .test,.pool .unlock,.pool .check,.pool .tryLock,
      .pool .take,.pool .unlock,.pool .perform] := by
  refine ⟨_,Run.cons (.pool rfl (.loop (.alone _ _))) (Run.cons (.pool rfl (.lock rfl (.alone _ _)))
    (Run.cons (.pool rfl (.test (.alone _ _))) (Run.cons (.pool rfl (.leave (.alone _ _)))
      (Run.cons (.pool rfl (.check (.alone _ _))) (Run.cons (.pool rfl (.tryLock rfl (.alone _ _)))
        (Run.cons (.pool rfl (.take rfl (.alone _ _))) (Run.cons (.pool rfl (.unlock (.alone _ _)))
          (Run.cons (.pool rfl (.perform (.alone _ _))) (Run.nil _))))))))),rfl⟩

/-- One action is scheduled, handed over and performed, and another one submitted meanwhile. -/
theorem conserved_performing : ∃ trace t, Run (Step millisecondClock) (create millisecondClock 0 1) trace t ∧
    (∃ e ∈ trace, e.2 = .hand 0 0) ∧ (∃ e ∈ trace, e.2 = .pool .perform) ∧ t.scheduler.held = [] ∧
      t.pool.performed = [0] ∧ t.pool.inHands = [0] ∧ t.pool.actions = [1] ∧ Conserved t := by
  obtain ⟨rest,hrest,hevents⟩ := oneAction_rest
  obtain ⟨work,hwork,hworkEvents⟩ := performing_run
  have hblocked : Worker.blocked ∉ performing.pool.workers := by
    change Worker.blocked ∉ [Worker.performing 0]
    simp
  have hsubmit : Step millisecondClock performing .submit
      { performing with pool := ThreadPoolTaskExecutor.push 1 performing.pool, accepted := 2 } :=
    .submit (.notifyNobody rfl hblocked)
  have hr := oneAction_run.append (hrest.append (hwork.append (Run.cons hsubmit (Run.nil _))))
  have hhand : ScheduledPoolEvent.hand 0 0 ∈ rest.map Prod.snd := by simp [hevents]
  have hperform : ScheduledPoolEvent.pool .perform ∈ work.map Prod.snd := by simp [hworkEvents]
  obtain ⟨e,he,hhand⟩ := List.mem_map.mp hhand
  obtain ⟨f,hf,hperform⟩ := List.mem_map.mp hperform
  refine ⟨_,_,hr,⟨e,?_,hhand⟩,⟨f,?_,hperform⟩,rfl,rfl,rfl,rfl,conserved millisecondClock 0 1 hr⟩
  · exact List.mem_append_right _ (List.mem_append_left _ he)
  · exact List.mem_append_right _ (List.mem_append_right _ (List.mem_append_left _ hf))

end OneAction

end ScheduledPool

end Isml
