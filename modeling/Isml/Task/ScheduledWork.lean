import Isml.Executors.Completable
import Isml.Task.Conservation

/-! # What was scheduled is handed over and finished

Until the scheduler is told to terminate its watcher comes back to the heap, and each time it takes an
action out as long as there is one. So a number of its own steps bounds how long an action can stay with
the scheduler, and from every state the watcher and the workers can finish whatever was accepted.
-/
namespace Isml
open LabelledRun PriorityQueues Threads

/-- An update of the delay is one more round of the watcher. -/
def SuspendReason.distance : SuspendReason → ℕ
  | .updateDelay => 5
  | _ => 0

theorem SuspendReason.distance_le (reason : SuspendReason) : reason.distance ≤ 5 := by
  cases reason <;> simp [distance]

namespace Watcher
variable {α : Type}

/-- How far the watcher is from its next look at the heap. The time that a wait needs counts as a step. -/
def distance (now : ℤ) : Watcher α → ℕ
  | .looping => 5
  | .locking => 4
  | .waiting wake => if now < wake then 3 else 2
  | .woken => 1
  | .handing _ => 6
  | .returned => 0

theorem distance_waiting_le (now wake : ℤ) : (waiting wake : Watcher α).distance now ≤ 3 := by
  simp only [distance]
  split_ifs <;> omega

theorem one_lt_distance_waiting (now wake : ℤ) : 1 < (waiting wake : Watcher α).distance now := by
  simp only [distance]
  split_ifs <;> omega

theorem distance_le (now : ℤ) (w : Watcher α) : w.distance now ≤ 5 + w.hand.length := by
  cases w with
  | waiting wake =>
    have hle := distance_waiting_le (α := α) now wake
    omega
  | handing action => simp [distance]
  | _ => simp [distance, hand]

theorem distance_later {now later : ℤ} (h : now ≤ later) (w : Watcher α) :
    w.distance later ≤ w.distance now := by
  cases w with
  | waiting wake =>
    simp only [distance]
    split_ifs <;> omega
  | _ => exact le_rfl

end Watcher

namespace SchedulerEvent
variable {α : Type}

/-- A step of the watcher. -/
def watching : SchedulerEvent α → Bool
  | .check | .wait _ | .timeout | .wake | .updateDelay _ | .pop _ _ | .hand _ _ _ | .rearm _ _
    | .leave => true
  | _ => false

/-- A call of `schedule` or `terminate`. -/
def requesting : SchedulerEvent α → Bool
  | .schedule _ _ _ _ _ | .terminate => true
  | _ => false

/-- A step of the watcher that is no spurious wake-up and not its last one, or the passing of time. -/
def unprompted : SchedulerEvent α → Bool
  | .check | .wait _ | .timeout | .updateDelay _ | .pop _ _ | .rearm _ _ | .advance _ => true
  | _ => false

theorem internal_of_unprompted {e : SchedulerEvent α} (h : e.unprompted = true) : e.internal = true := by
  cases e <;> first | rfl | cases h

theorem not_requesting_of_unprompted {e : SchedulerEvent α} (h : e.unprompted = true) :
    e.requesting = false := by
  cases e <;> first | rfl | cases h

end SchedulerEvent

theorem PoolEvent.internal_of_awake {α : Type} {e : PoolEvent α} (h : e.awake = true) :
    e.internal = true := by
  cases e <;> first | rfl | cases h

namespace TaskScheduler
variable {α : Type} {clock : Clock} {s t : TaskScheduler α} {e : SchedulerEvent α}

/-- Nobody has called `terminate`, and the watcher runs. -/
structure Going (s : TaskScheduler α) : Prop where
  reason : s.suspendReason ≠ .terminate
  watcher : s.watcher ≠ .returned
  done : s.done = false

/-- For each action of the heap a round of the watcher, the rest of the present one, and one more if the
delay has to be updated first. -/
def distance (s : TaskScheduler α) : ℕ :=
  6 * s.scheduledActions.items.length + s.watcher.distance s.now + s.suspendReason.distance

theorem distance_le (s : TaskScheduler α) : s.distance ≤ 6 * s.held.length + 10 := by
  have hwatcher := s.watcher.distance_le s.now
  have hreason := s.suspendReason.distance_le
  unfold distance held
  rw [List.length_append, List.length_map]
  omega

theorem Going.step (h : Going s) (hne : e ≠ .terminate) (hstep : Step clock s e t) : Going t := by
  cases hstep with
  | schedule =>
    unfold afterPush
    split_ifs
    · exact ⟨nofun,fun hreturned => h.watcher (Watcher.notify_eq_returned.mp hreturned),h.done⟩
    · exact ⟨h.reason,h.watcher,h.done⟩
  | refuse => exact h
  | terminate => exact absurd rfl hne
  | check =>
    refine ⟨h.reason,?_,h.done⟩
    rw [h.done]
    nofun
  | updateDelay => exact ⟨nofun,nofun,h.done⟩
  | wait | timeout | wake | pop | hand | rearm => exact ⟨h.reason,nofun,h.done⟩
  | leave _ hreason => exact absurd hreason h.reason
  | advance | destroy => exact ⟨h.reason,h.watcher,h.done⟩
  | join _ hreturned => exact absurd hreturned h.watcher

theorem open_of_step (hstep : Step clock s e t) (hopen : t.terminated = false) :
    s.terminated = false ∧ e ≠ .terminate := by
  cases hstep with
  | schedule =>
    unfold afterPush at hopen
    split_ifs at hopen <;> exact ⟨hopen,nofun⟩
  | terminate | join => cases hopen
  | _ => exact ⟨hopen,nofun⟩

theorem create_going (start : ℤ) : Going (create clock start : TaskScheduler α) := ⟨nofun,nofun,rfl⟩

/-- Without a request an action leaves the scheduler only into the hands of the executor. -/
theorem exists_held (hrequest : e.requesting = false) (hstep : Step clock s e t) :
    ∃ handed, s.held.Perm (t.held ++ handed) := by
  cases e with
  | schedule | terminate => cases hrequest
  | hand action left update => exact ⟨[action.action],List.Perm.of_eq (held_hand hstep)⟩
  | join => exact ⟨[],List.Perm.of_eq (by rw [held_join hstep, List.append_nil])⟩
  | _ =>
    have hheld := held_internal rfl hstep
    exact ⟨[],by rw [List.append_nil]; exact hheld.symm⟩

theorem held_eq_nil (hrequest : e.requesting = false) (hstep : Step clock s e t) (hheld : s.held = []) :
    t.held = [] := by
  obtain ⟨handed,hperm⟩ := exists_held hrequest hstep
  rw [hheld] at hperm
  exact (List.append_eq_nil_iff.mp hperm.symm.eq_nil).1

/-- As long as the scheduler holds an action no step leads away from handing it over, and every step of
the watcher leads on. -/
theorem distance_step (h : Going s) (hheld : s.held ≠ []) (hrequest : e.requesting = false)
    (hstep : Step clock s e t) : t.distance + e.watching.toNat ≤ s.distance := by
  unfold distance
  cases hstep with
  | schedule | refuse | terminate => cases hrequest
  | check hlooping =>
    rw [hlooping, h.done]
    simp only [Bool.false_eq_true, if_false, SchedulerEvent.watching, Bool.toNat_true, Watcher.distance]
    omega
  | @wait read hlocking =>
    have hle := Watcher.distance_waiting_le (α := α) read (read + s.delay * clock.ticks)
    rw [hlocking]
    simp only [SchedulerEvent.watching, Bool.toNat_true, Watcher.distance] at hle ⊢
    omega
  | @timeout wake hwaiting | @wake wake hwaiting =>
    have hlt := Watcher.one_lt_distance_waiting (α := α) s.now wake
    rw [hwaiting]
    simp only [SchedulerEvent.watching, Bool.toNat_true, Watcher.distance] at hlt ⊢
    omega
  | updateDelay hwoken hreason =>
    rw [hwoken, hreason]
    simp only [SchedulerEvent.watching, Bool.toNat_true, Watcher.distance, SuspendReason.distance]
    omega
  | @pop _ top _ queue hwoken _ _ _ hpop =>
    have hlength : s.scheduledActions.items.length = queue.items.length + 1 := hpop.perm_cons.length_eq
    rw [hwoken, hlength]
    simp only [SchedulerEvent.watching, Bool.toNat_true, Watcher.distance]
    omega
  | hand hhanding =>
    rw [hhanding]
    simp only [TaskScheduler.rearm, SchedulerEvent.watching, Bool.toNat_true, Watcher.distance]
    omega
  | rearm hwoken _ hempty =>
    refine absurd ?_ hheld
    rw [held, hempty, hwoken]
    rfl
  | leave _ hreason => exact absurd hreason h.reason
  | advance elapsed =>
    have hlater : s.now ≤ s.now + (elapsed : ℤ) := by omega
    have hle := s.watcher.distance_later hlater
    simp only [SchedulerEvent.watching, Bool.toNat_false]
    omega
  | destroy => exact le_rfl
  | join _ hreturned => exact absurd hreturned h.watcher

/-- As long as the scheduler holds an action the watcher has it in its hands or goes on by itself. -/
theorem exists_nearer (clock : Clock) (h : Going s) (hheld : s.held ≠ []) :
    (∃ action, s.watcher = .handing action) ∨
      ∃ e t, SchedulerEvent.unprompted e = true ∧ Step clock s e t ∧ t.distance < s.distance := by
  have hwatching : ∀ {e t}, SchedulerEvent.unprompted e = true → SchedulerEvent.watching e = true →
      Step clock s e t → ∃ e t, SchedulerEvent.unprompted e = true ∧ Step clock s e t ∧
        t.distance < s.distance := by
    intro e t he hwatching hstep
    have hle := distance_step h hheld (SchedulerEvent.not_requesting_of_unprompted he) hstep
    rw [hwatching] at hle
    exact ⟨e,t,he,hstep,hle⟩
  cases hwatcher : s.watcher with
  | looping => exact Or.inr (hwatching rfl rfl (.check hwatcher))
  | locking => exact Or.inr (hwatching rfl rfl (.wait hwatcher le_rfl))
  | waiting wake =>
    refine Or.inr ?_
    by_cases hwake : s.now < wake
    · -- Time passes until the wait is over.
      have helapsed : s.now + ((wake - s.now).toNat : ℤ) = wake := by omega
      refine ⟨.advance (wake - s.now).toNat,_,rfl,.advance s _,?_⟩
      unfold distance
      dsimp only
      rw [helapsed, hwatcher]
      simp only [Watcher.distance, hwake, if_true, lt_irrefl, if_false]
      omega
    · exact hwatching rfl rfl (.timeout hwatcher (not_lt.mp hwake))
  | woken =>
    refine Or.inr ?_
    cases hreason : s.suspendReason with
    | updateDelay => exact hwatching rfl rfl (.updateDelay hwatcher hreason le_rfl)
    | terminate => exact absurd hreason h.reason
    | executeTask =>
      cases hitems : s.scheduledActions.items with
      | nil => exact hwatching rfl rfl (.rearm hwatcher hreason hitems le_rfl le_rfl)
      | cons top rest =>
        obtain ⟨comparisons,queue,hpop,hgreater⟩ :=
          PriorityQueue.exists_pop (ScheduledAction.timeLeft clock s.now) ⟨s.now,s.now⟩ hitems
        have hanswered : Answered clock s.now s.now comparisons := by
          intro c hc
          obtain ⟨hreading,hanswer,hle⟩ := hgreater c hc
          rw [hreading, hanswer]
          exact ⟨le_rfl,le_rfl,le_rfl,(decide_eq_false (not_lt.mpr hle)).symm⟩
        exact hwatching rfl rfl (.pop hwatcher hreason le_rfl hanswered hpop)
  | handing action => exact Or.inl ⟨action,rfl⟩
  | returned => exact absurd hwatcher h.watcher

end TaskScheduler

namespace Worker
variable {α : Type}

/-- How far the owner of the guard is from giving it back. -/
def releasing : Worker α → ℕ
  | .testing | .holding => 2
  | .waiting | .leaving | .emptied | .taken _ => 1
  | _ => 0

end Worker

namespace ThreadPoolTaskExecutor
variable {α : Type} {s t : ThreadPoolTaskExecutor α} {e : PoolEvent α}

def releasing (s : ThreadPoolTaskExecutor α) : ℕ := (s.workers.map Worker.releasing).sum

/-- The owner of the guard needs nothing to go on. -/
theorem exists_releasing (h : Running s) (hguard : s.actionsGuard = true) :
    ∃ e t, PoolEvent.awake e = true ∧ Step s e t ∧ Running t ∧ t.releasing < s.releasing := by
  have hpos : 0 < s.workers.countP Worker.owning := by
    rw [h.guarding.owner, hguard]
    exact Nat.one_pos
  obtain ⟨w,hw,howning⟩ := List.countP_pos_iff.mp hpos
  cases w with
  | testing =>
    by_cases hpredicate : (!s.actions.isEmpty || s.done) = true
    · obtain ⟨t,hstep,ht,_,hlt⟩ := h.exists_nearer (f := Worker.releasing) hw (b := .leaving)
        (e := .test) Nat.one_lt_two fun workers hmove => .test (by rw [if_pos hpredicate]; exact hmove)
      exact ⟨.test,t,rfl,hstep,ht,hlt⟩
    · obtain ⟨t,hstep,ht,_,hlt⟩ := h.exists_nearer (f := Worker.releasing) hw (b := .waiting)
        (e := .test) Nat.one_lt_two fun workers hmove => .test (by rw [if_neg hpredicate]; exact hmove)
      exact ⟨.test,t,rfl,hstep,ht,hlt⟩
  | waiting =>
    obtain ⟨t,hstep,ht,_,hlt⟩ := h.exists_nearer (f := Worker.releasing) hw (b := .blocked) (e := .wait)
      Nat.one_pos fun _ => .wait
    exact ⟨.wait,t,rfl,hstep,ht,hlt⟩
  | leaving =>
    obtain ⟨t,hstep,ht,_,hlt⟩ := h.exists_nearer (f := Worker.releasing) hw (b := .ready) (e := .unlock)
      Nat.one_pos fun _ => .leave
    exact ⟨.unlock,t,rfl,hstep,ht,hlt⟩
  | emptied =>
    obtain ⟨t,hstep,ht,_,hlt⟩ := h.exists_nearer (f := Worker.releasing) hw (b := .looping) (e := .unlock)
      Nat.one_pos fun _ => .unlockEmpty
    exact ⟨.unlock,t,rfl,hstep,ht,hlt⟩
  | taken action =>
    obtain ⟨t,hstep,ht,_,hlt⟩ := h.exists_nearer (f := Worker.releasing) hw (b := .handed action)
      (e := .unlock) Nat.one_pos fun _ => .unlock
    exact ⟨.unlock,t,rfl,hstep,ht,hlt⟩
  | holding =>
    cases hactions : s.actions with
    | nil =>
      obtain ⟨t,hstep,ht,_,hlt⟩ := h.exists_nearer (f := Worker.releasing) hw (b := .emptied) (e := .take)
        Nat.one_lt_two fun _ => .drained hactions
      exact ⟨.take,t,rfl,hstep,ht,hlt⟩
    | cons action actions =>
      obtain ⟨workers,hmove⟩ := Moves.exists_of_mem hw (.taken action)
      have hstep : Step s .take _ := .take hactions hmove
      have hsum := hmove.sum_map_eq Worker.releasing
      refine ⟨.take,_,rfl,hstep,h.step hstep h.running,?_⟩
      unfold releasing
      simp only [Worker.releasing] at hsum ⊢
      omega
  | _ => cases howning

/-- While the guard is free the queue takes whatever comes. -/
theorem exists_doExecute (h : Running s) (hguard : s.actionsGuard = false) (action : α) :
    ∃ t, Step s (.doExecute action) t ∧ Running t ∧ t.releasing = s.releasing := by
  by_cases hblocked : .blocked ∈ s.workers
  · obtain ⟨workers,hmove⟩ := Moves.exists_of_mem hblocked .woken
    have hstep : Step s (.doExecute action) _ := .notifyOne hguard hmove
    exact ⟨_,hstep,h.step hstep h.running,hmove.sum_map_eq Worker.releasing⟩
  · have hstep : Step s (.doExecute action) _ := .notifyNobody hguard hblocked
    exact ⟨_,hstep,h.step hstep h.running,rfl⟩

theorem done_of_step (he : e ≠ .doTerminate) (hdestroy : e ≠ .destroy) (hstep : Step s e t) :
    t.done = s.done := by
  cases hstep with
  | doTerminate => exact absurd rfl he
  | destroy => exact absurd rfl hdestroy
  | _ => rfl

end ThreadPoolTaskExecutor

namespace ScheduledPoolEvent

/-- A step of the watcher. -/
def watching : ScheduledPoolEvent → Bool
  | .hand _ _ => true
  | .scheduler e => e.watching
  | _ => false

/-- A call of `schedule` or `terminate`. -/
def requesting : ScheduledPoolEvent → Bool
  | .schedule _ _ _ _ => true
  | .scheduler e => e.requesting
  | _ => false

/-- A step of the watcher or of a worker that is no spurious wake-up, or the passing of time. -/
def unprompted : ScheduledPoolEvent → Bool
  | .hand _ _ => true
  | .scheduler e => e.unprompted
  | .pool e => e.awake
  | _ => false

end ScheduledPoolEvent

namespace ScheduledPool
variable {clock : Clock} {s t : ScheduledPool} {e : ScheduledPoolEvent}

/-- What a step is to the scheduler. -/
theorem scheduler_of_step (hstep : Step clock s e t) :
    (t.scheduler = s.scheduler ∧ e.watching = false) ∨
      ∃ e', TaskScheduler.Step clock s.scheduler e' t.scheduler ∧ e.watching = e'.watching ∧
        e.requesting = e'.requesting := by
  cases hstep with
  | schedule _ hscheduler | refuse _ hscheduler | hand hscheduler _ | scheduler _ hscheduler
    | join hscheduler _ => exact Or.inr ⟨_,hscheduler,rfl,rfl⟩
  | submit | pool => exact Or.inl ⟨rfl,rfl⟩

/-- What a step is to the pool. -/
theorem pool_of_step (hstep : Step clock s e t) : t.pool = s.pool ∨
    ∃ e', ThreadPoolTaskExecutor.Step s.pool e' t.pool ∧ e' ≠ .doTerminate ∧
      (e' = .destroy → t.scheduler.terminated = true) := by
  cases hstep with
  | schedule | refuse | scheduler => exact Or.inl rfl
  | submit hpool | hand _ hpool => exact Or.inr ⟨_,hpool,nofun,nofun⟩
  | @pool e' _ he hpool =>
    refine Or.inr ⟨e',hpool,?_,?_⟩ <;> rintro rfl <;> cases he
  | join hscheduler hpool =>
    refine Or.inr ⟨_,hpool,nofun,fun _ => ?_⟩
    cases hscheduler with
    | join => rfl

theorem open_of_step (hstep : Step clock s e t) (hopen : t.scheduler.terminated = false) :
    s.scheduler.terminated = false := by
  rcases scheduler_of_step hstep with ⟨hsame,_⟩ | ⟨e',hscheduler,_⟩
  · rw [← hsame]
    exact hopen
  · exact (TaskScheduler.open_of_step hscheduler hopen).1

theorem going_of_run {start : ℤ} {workerCount : ℕ} {trace : List (ScheduledPool × ScheduledPoolEvent)}
    (hr : Run (Step clock) (create clock start workerCount) trace s)
    (hopen : s.scheduler.terminated = false) : s.scheduler.Going := by
  have hsteps : ∀ s e t, (s.scheduler.terminated = false → s.scheduler.Going) → Step clock s e t →
      t.scheduler.terminated = false → t.scheduler.Going := by
    intro s e t h hstep hopen
    have hgoing := h (open_of_step hstep hopen)
    rcases scheduler_of_step hstep with ⟨hsame,_⟩ | ⟨e',hscheduler,_⟩
    · rw [hsame]
      exact hgoing
    · exact hgoing.step (TaskScheduler.open_of_step hscheduler hopen).2 hscheduler
  exact hr.preserved hsteps (fun _ => TaskScheduler.create_going start) hopen

theorem handedOn_of_run {start : ℤ} {workerCount : ℕ} {trace : List (ScheduledPool × ScheduledPoolEvent)}
    (hr : Run (Step clock) (create clock start workerCount) trace s) : HandedOn s :=
  hr.preserved (fun _ _ _ h hstep => h.step hstep) (create_handedOn clock start workerCount)

/-- Once the watcher has taken some more than six steps for each action the scheduler held, all that was
accepted has been handed to the workers, whatever else happened, if nobody called `schedule` or `terminate`
meanwhile. -/
theorem handedOver_of_steps {start : ℤ} {workerCount : ℕ}
    {trace rest : List (ScheduledPool × ScheduledPoolEvent)}
    (hr : Run (Step clock) (create clock start workerCount) trace s)
    (hopen : s.scheduler.terminated = false) (hrest : Run (Step clock) s rest t)
    (hrequests : ∀ e ∈ rest, e.2.requesting = false)
    (hsteps : 6 * s.scheduler.held.length + 10 < rest.countP fun e => e.2.watching) :
    t.scheduler.held = [] ∧ t.pool.entered.Perm (List.range t.accepted) := by
  have hstep : ∀ s e t, s.scheduler.Going → ScheduledPoolEvent.requesting e = false → Step clock s e t →
      t.scheduler.Going ∧ (s.scheduler.held = [] → t.scheduler.held = []) ∧
        (¬ s.scheduler.held = [] →
          t.scheduler.distance + (ScheduledPoolEvent.watching e).toNat ≤ s.scheduler.distance) := by
    intro s e t h hrequest hstep
    rcases scheduler_of_step hstep with ⟨hsame,hwatching⟩ | ⟨e',hscheduler,hwatching,hsameRequest⟩
    · rw [hsame, hwatching]
      exact ⟨h,id,fun _ => le_rfl⟩
    · rw [hsameRequest] at hrequest
      have hne : e' ≠ .terminate := by
        rintro rfl
        cases hrequest
      rw [hwatching]
      exact ⟨h.step hne hscheduler,TaskScheduler.held_eq_nil hrequest hscheduler,
        fun hheld => TaskScheduler.distance_step h hheld hrequest hscheduler⟩
  have hheld : t.scheduler.held = [] :=
    hrest.goal_of_counted hstep (going_of_run hr hopen) hrequests
      (s.scheduler.distance_le.trans_lt hsteps)
  have haccepted := (handedOn_of_run (hr.append hrest)).accepted
  rw [hheld] at haccepted
  exact ⟨hheld,haccepted⟩

section OneAction

/-- A round of the watcher that finds nothing. -/
theorem nothingLeft_round : ∃ rest, Run (Step millisecondClock) nothingLeft rest nothingLeft ∧
    rest.map Prod.snd = [.scheduler .check,.scheduler (.wait 0),.scheduler .wake,
      .scheduler (.rearm 0 0)] := by
  refine ⟨_,Run.cons (.scheduler rfl (.check rfl)) (Run.cons (.scheduler rfl (.wait rfl le_rfl))
    (Run.cons (.scheduler rfl (.wake rfl)) (Run.cons (.scheduler rfl
      (.rearm rfl rfl rfl le_rfl le_rfl)) (Run.nil _)))),rfl⟩

theorem handedOver_of_steps_oneAction : oneAction.scheduler.held = [0] ∧
    nothingLeft.scheduler.held = [] ∧ nothingLeft.pool.entered.Perm (List.range nothingLeft.accepted) := by
  obtain ⟨rest,hrest,hevents⟩ := oneAction_rest
  obtain ⟨round,hround,hroundEvents⟩ := nothingLeft_round
  let all := rest ++ (round ++ round)
  have hall : Run (Step millisecondClock) oneAction all nothingLeft :=
    hrest.append (hround.append hround)
  have hmap : all.map Prod.snd = rest.map Prod.snd ++ (round.map Prod.snd ++ round.map Prod.snd) := by
    rw [List.map_append, List.map_append]
  rw [hevents, hroundEvents] at hmap
  have hrequests : ∀ e ∈ all, e.2.requesting = false := by
    have hrequesting : ∀ e ∈ all.map Prod.snd, ScheduledPoolEvent.requesting e = false := by
      rw [hmap]
      simp [ScheduledPoolEvent.requesting, SchedulerEvent.requesting]
    exact fun e he => hrequesting e.2 (List.mem_map_of_mem he)
  have hsteps : 6 * oneAction.scheduler.held.length + 10 < all.countP fun e => e.2.watching := by
    have hcount : all.countP (fun e => e.2.watching) =
        (all.map Prod.snd).countP ScheduledPoolEvent.watching :=
      (List.countP_map (p := ScheduledPoolEvent.watching) (f := Prod.snd)).symm
    rw [hcount, hmap]
    exact Nat.lt_succ_self 16
  exact ⟨rfl,handedOver_of_steps oneAction_run rfl hall hrequests hsteps⟩

end OneAction

/-- The scheduler is open, and the pool works. -/
structure Working (s : ScheduledPool) : Prop where
  going : s.scheduler.Going
  pool : s.pool.Running
  handedOn : HandedOn s

theorem working_of_run {start : ℤ} {workerCount : ℕ} (hpos : 0 < workerCount)
    {trace : List (ScheduledPool × ScheduledPoolEvent)}
    (hr : Run (Step clock) (create clock start workerCount) trace s)
    (hopen : s.scheduler.terminated = false) : Working s := by
  have hsteps : ∀ s e t, s.pool.Guarding ∧ s.pool.Attended ∧
      (s.scheduler.terminated = false → s.pool.done = false) → Step clock s e t →
      t.pool.Guarding ∧ t.pool.Attended ∧ (t.scheduler.terminated = false → t.pool.done = false) := by
    rintro s e t ⟨hguarding,hattended,hrunning⟩ hstep
    rcases pool_of_step hstep with hsame | ⟨e',hpool,hne,hdestroy⟩
    · rw [hsame]
      exact ⟨hguarding,hattended,fun hopen => hrunning (open_of_step hstep hopen)⟩
    · refine ⟨hguarding.step hpool,hattended.step hguarding hpool,fun hopen => ?_⟩
      have hnot : e' ≠ .destroy := fun h => by
        rw [hdestroy h] at hopen
        cases hopen
      rw [ThreadPoolTaskExecutor.done_of_step hne hnot hpool]
      exact hrunning (open_of_step hstep hopen)
  obtain ⟨hguarding,hattended,hrunning⟩ := hr.preserved hsteps
    ⟨ThreadPoolTaskExecutor.create_guarding workerCount,ThreadPoolTaskExecutor.create_attended hpos,
      fun _ => rfl⟩
  have hhanded := handedOn_of_run hr
  exact ⟨going_of_run hr hopen,⟨hguarding,hattended,hhanded.ledger,hrunning hopen⟩,hhanded⟩

/-- As long as the scheduler holds an action, the watcher goes on, or a worker that keeps it from the queue
does. -/
theorem Working.exists_nearer (clock : Clock) (h : Working s) (hheld : s.scheduler.held ≠ []) :
    ∃ e t, ScheduledPoolEvent.unprompted e = true ∧ Step clock s e t ∧
      (Working t ∧ t.accepted = s.accepted) ∧
      t.scheduler.distance + t.pool.releasing < s.scheduler.distance + s.pool.releasing := by
  rcases TaskScheduler.exists_nearer clock h.going hheld with
    ⟨action,hhanding⟩ | ⟨e,scheduler,he,hstep,hlt⟩
  · cases hguard : s.pool.actionsGuard with
    | true =>
      obtain ⟨e,pool,he,hstep,hrunning,hlt⟩ := ThreadPoolTaskExecutor.exists_releasing h.pool hguard
      have hpool : Step clock s (.pool e) { s with pool := pool } :=
        .pool (PoolEvent.internal_of_awake he) hstep
      refine ⟨.pool e,_,he,hpool,⟨⟨h.going,hrunning,h.handedOn.step hpool⟩,rfl⟩,?_⟩
      dsimp only
      omega
    | false =>
      obtain ⟨pool,hexecute,hrunning,hsame⟩ :=
        ThreadPoolTaskExecutor.exists_doExecute h.pool hguard action.action
      have hhand : TaskScheduler.Step clock s.scheduler (.hand action s.scheduler.now s.scheduler.now) _ :=
        .hand hhanding le_rfl le_rfl
      have hlt := TaskScheduler.distance_step h.going hheld rfl hhand
      have hgoing := h.going.step (by simp) hhand
      have hstep : Step clock s (.hand s.scheduler.now s.scheduler.now) _ := .hand hhand hexecute
      refine ⟨.hand _ _,_,rfl,hstep,⟨⟨hgoing,hrunning,h.handedOn.step hstep⟩,rfl⟩,?_⟩
      simp only [SchedulerEvent.watching, Bool.toNat_true] at hlt
      dsimp only
      omega
  · have hscheduler : Step clock s (.scheduler e) { s with scheduler := scheduler } :=
      .scheduler (SchedulerEvent.internal_of_unprompted he) hstep
    have hne : e ≠ .terminate := by
      rintro rfl
      cases he
    have hgoing := h.going.step hne hstep
    refine ⟨.scheduler e,_,he,hscheduler,⟨⟨hgoing,h.pool,h.handedOn.step hscheduler⟩,rfl⟩,?_⟩
    dsimp only
    omega

/-- The workers go on while the scheduler stands. -/
theorem exists_run_pool (clock : Clock) {pool : ThreadPoolTaskExecutor ℕ}
    {rest : List (ThreadPoolTaskExecutor ℕ × PoolEvent ℕ)}
    (hrest : Run ThreadPoolTaskExecutor.Step s.pool rest pool)
    (hawake : ∀ e ∈ rest, PoolEvent.awake e.2 = true) :
    ∃ trace, Run (Step clock) s trace { s with pool := pool } ∧
      ∀ e ∈ trace, ScheduledPoolEvent.unprompted e.2 = true := by
  generalize hstart : s.pool = start at hrest
  induction hrest generalizing s with
  | nil =>
    subst hstart
    exact ⟨[],Run.nil s,by simp⟩
  | @cons _ next _ e _ hstep _ ih =>
    subst hstart
    rw [List.forall_mem_cons] at hawake
    obtain ⟨trace,hr,htrace⟩ := ih (s := { s with pool := next }) hawake.2 rfl
    have hpool : Step clock s (.pool e) { s with pool := next } :=
      .pool (PoolEvent.internal_of_awake hawake.1) hstep
    exact ⟨(s,.pool e) :: trace,Run.cons hpool hr,List.forall_mem_cons.mpr ⟨hawake.1,htrace⟩⟩

theorem Working.exists_finished (clock : Clock) (h : Working s) : ∃ rest t, Run (Step clock) s rest t ∧
    (∀ e ∈ rest, ScheduledPoolEvent.unprompted e.2 = true) ∧ t.accepted = s.accepted ∧
      t.pool.finished.Perm (List.range s.accepted) := by
  let Good (u : ScheduledPool) : Prop := Working u ∧ u.accepted = s.accepted
  have hprogress : ∀ u, Good u → ¬ u.scheduler.held = [] → ∃ e t,
      ScheduledPoolEvent.unprompted e = true ∧ Step clock u e t ∧ Good t ∧
        t.scheduler.distance + t.pool.releasing < u.scheduler.distance + u.pool.releasing := by
    rintro u ⟨hu,haccepted⟩ hheld
    obtain ⟨e,t,he,hstep,⟨ht,hsame⟩,hlt⟩ := hu.exists_nearer clock hheld
    exact ⟨e,t,he,hstep,⟨ht,hsame.trans haccepted⟩,hlt⟩
  obtain ⟨before,u,hbefore,hown,⟨hu,haccepted⟩,hheld⟩ := exists_run_to
    (fun u => u.scheduler.distance + u.pool.releasing) hprogress s ⟨h,rfl⟩
  obtain ⟨rest,pool,hrest,hawake,hentered,hpool,hidle⟩ := hu.pool.exists_idle
  obtain ⟨after,hafter,hafterOwn⟩ := exists_run_pool clock hrest hawake
  refine ⟨before ++ after,{ u with pool := pool },hbefore.append hafter,?_,haccepted,?_⟩
  · exact List.forall_mem_append.mpr ⟨hown,hafterOwn⟩
  · have hall := hu.handedOn.accepted
    rw [hheld, List.nil_append, haccepted] at hall
    have hfinished := hpool.ledger.finished_of_idle hidle
    rw [hentered] at hfinished
    exact hfinished.trans hall

/-- From every state of a scheduler that was not told to terminate, the watcher and the workers can finish
all that was accepted, by steps of their own and the passing of time; `perform` is taken to return. -/
theorem finishes {start : ℤ} {workerCount : ℕ} (hpos : 0 < workerCount)
    {trace : List (ScheduledPool × ScheduledPoolEvent)}
    (hr : Run (Step clock) (create clock start workerCount) trace s)
    (hopen : s.scheduler.terminated = false) :
    ∃ rest t, Run (Step clock) s rest t ∧ (∀ e ∈ rest, ScheduledPoolEvent.unprompted e.2 = true) ∧
      t.accepted = s.accepted ∧ t.pool.finished.Perm (List.range s.accepted) :=
  (working_of_run hpos hr hopen).exists_finished clock

/-- The action is performed. -/
theorem finishes_oneAction : ∃ rest t, Run (Step millisecondClock) oneAction rest t ∧
    (∀ e ∈ rest, ScheduledPoolEvent.unprompted e.2 = true) ∧ t.accepted = 1 ∧
      t.pool.finished.Perm (List.range 1) := finishes Nat.one_pos oneAction_run rfl

end ScheduledPool

end Isml
