import Isml.Library.LabelledRun
import Isml.Library.Threads

/-! # `ThreadPoolTaskExecutor`: a queue of actions and the workers that drain it

`doExecute` and the destructor hold `m_actions_guard` from their first to their last line
and are one step each. The workers take theirs one by one: each lock and unlock, each
check, the wait and its end, the pop and the call of the action.
-/
namespace Isml
open LabelledRun Threads

/-- Where a worker is: in front of `while (!m_done)`, of the lock, of the predicate, of the
wait with a false predicate, in the wait, behind it without the lock, behind the wait with
the lock, in front of `if (m_done)`, of `try_lock`, of `empty()`, of the two unlocks, of the
call of its action, in the call, or at its end. -/
inductive Worker (α : Type) where
  | looping
  | locking
  | testing
  | waiting
  | blocked
  | woken
  | leaving
  | ready
  | draining
  | holding
  | emptied
  | taken (action : α)
  | handed (action : α)
  | performing (action : α)
  | returned

/-- The queue, its guard, the workers and `m_done`. Kept for the statements are the actions
that `entered` and `left` the queue, in this order, those `perform` was called on and those
it came back from. -/
structure ThreadPoolTaskExecutor (α : Type) where
  actions : List α
  actionsGuard : Bool
  workers : List (Worker α)
  done : Bool
  entered : List α
  left : List α
  performed : List α
  finished : List α

inductive PoolEvent (α : Type) where
  | doExecute (action : α)
  | doTerminate
  | destroy
  | loop
  | lock
  | test
  | wait
  | wake
  | relock
  | unlock
  | check
  | tryLock
  | take
  | perform
  | finish
  deriving DecidableEq, Repr

namespace Worker
variable {α : Type}

/-- The worker owns `m_actions_guard`. -/
def owning : Worker α → Bool
  | .testing | .waiting | .leaving | .holding | .emptied | .taken _ => true
  | _ => false

/-- The worker will look at the queue again before it blocks. -/
def attending : Worker α → Bool
  | .waiting | .blocked | .returned => false
  | _ => true

/-- What the worker has taken out of the queue and not finished. -/
def hand : Worker α → List α
  | .taken action | .handed action | .performing action => [action]
  | _ => []

def inPerform : Worker α → List α
  | .performing action => [action]
  | _ => []

/-- What `notify_all` does to a worker. -/
def notify : Worker α → Worker α
  | .blocked => .woken
  | w => w

end Worker

namespace ThreadPoolTaskExecutor
variable {α : Type}

def create (workerCount : ℕ) : ThreadPoolTaskExecutor α :=
  ⟨[],false,List.replicate workerCount .looping,false,[],[],[],[]⟩

/-- The state behind the push of `doExecute`. -/
def push (action : α) (s : ThreadPoolTaskExecutor α) : ThreadPoolTaskExecutor α :=
  { s with actions := s.actions ++ [action], entered := s.entered ++ [action] }

/-- `notify_one` wakes some blocked worker, if there is one; a blocked worker may also wake
by itself. `try_lock` may fail even when the guard is free. -/
inductive Step : ThreadPoolTaskExecutor α → PoolEvent α → ThreadPoolTaskExecutor α → Prop
  | notifyOne {s : ThreadPoolTaskExecutor α} {action : α} {workers : List (Worker α)} :
      s.actionsGuard = false → Moves .blocked .woken s.workers workers →
        Step s (.doExecute action) { push action s with workers := workers }
  | notifyNobody {s : ThreadPoolTaskExecutor α} {action : α} :
      s.actionsGuard = false → .blocked ∉ s.workers → Step s (.doExecute action) (push action s)
  | doTerminate (s : ThreadPoolTaskExecutor α) : Step s .doTerminate { s with done := true }
  | destroy {s : ThreadPoolTaskExecutor α} : s.actionsGuard = false →
      Step s .destroy { s with done := true, workers := s.workers.map Worker.notify }
  | loop {s : ThreadPoolTaskExecutor α} {workers : List (Worker α)} :
      Moves .looping (if s.done then .returned else .locking) s.workers workers →
        Step s .loop { s with workers := workers }
  | lock {s : ThreadPoolTaskExecutor α} {workers : List (Worker α)} :
      s.actionsGuard = false → Moves .locking .testing s.workers workers →
        Step s .lock { s with actionsGuard := true, workers := workers }
  | test {s : ThreadPoolTaskExecutor α} {workers : List (Worker α)} :
      Moves .testing (if !s.actions.isEmpty || s.done then .leaving else .waiting) s.workers workers →
        Step s .test { s with workers := workers }
  | wait {s : ThreadPoolTaskExecutor α} {workers : List (Worker α)} :
      Moves .waiting .blocked s.workers workers →
        Step s .wait { s with actionsGuard := false, workers := workers }
  | wake {s : ThreadPoolTaskExecutor α} {workers : List (Worker α)} :
      Moves .blocked .woken s.workers workers → Step s .wake { s with workers := workers }
  | relock {s : ThreadPoolTaskExecutor α} {workers : List (Worker α)} :
      s.actionsGuard = false → Moves .woken .testing s.workers workers →
        Step s .relock { s with actionsGuard := true, workers := workers }
  | leave {s : ThreadPoolTaskExecutor α} {workers : List (Worker α)} :
      Moves .leaving .ready s.workers workers →
        Step s .unlock { s with actionsGuard := false, workers := workers }
  | check {s : ThreadPoolTaskExecutor α} {workers : List (Worker α)} :
      Moves .ready (if s.done then .returned else .draining) s.workers workers →
        Step s .check { s with workers := workers }
  | tryLock {s : ThreadPoolTaskExecutor α} {workers : List (Worker α)} :
      s.actionsGuard = false → Moves .draining .holding s.workers workers →
        Step s .tryLock { s with actionsGuard := true, workers := workers }
  | tryLockFailed {s : ThreadPoolTaskExecutor α} : .draining ∈ s.workers → Step s .tryLock s
  | drained {s : ThreadPoolTaskExecutor α} {workers : List (Worker α)} :
      s.actions = [] → Moves .holding .emptied s.workers workers →
        Step s .take { s with workers := workers }
  | take {s : ThreadPoolTaskExecutor α} {action : α} {actions : List α} {workers : List (Worker α)} :
      s.actions = action :: actions → Moves .holding (.taken action) s.workers workers → Step s .take
        { s with actions := actions, left := s.left ++ [action], workers := workers }
  | unlockEmpty {s : ThreadPoolTaskExecutor α} {workers : List (Worker α)} :
      Moves .emptied .looping s.workers workers →
        Step s .unlock { s with actionsGuard := false, workers := workers }
  | unlock {s : ThreadPoolTaskExecutor α} {action : α} {workers : List (Worker α)} :
      Moves (.taken action) (.handed action) s.workers workers →
        Step s .unlock { s with actionsGuard := false, workers := workers }
  | perform {s : ThreadPoolTaskExecutor α} {action : α} {workers : List (Worker α)} :
      Moves (.handed action) (.performing action) s.workers workers →
        Step s .perform { s with workers := workers, performed := s.performed ++ [action] }
  | finish {s : ThreadPoolTaskExecutor α} {action : α} {workers : List (Worker α)} :
      Moves (.performing action) .draining s.workers workers →
        Step s .finish { s with workers := workers, finished := s.finished ++ [action] }

/-! ## The guard and the wake-ups -/

/-- The guard has an owner exactly if it is locked, and who waits has seen an empty queue. -/
structure Guarding (s : ThreadPoolTaskExecutor α) : Prop where
  owner : s.workers.countP Worker.owning = s.actionsGuard.toNat
  waiting : .waiting ∈ s.workers → s.actions = []

/-- Until the end nobody returns, and a queue with actions in it has somebody to look at it. -/
structure Attended (s : ThreadPoolTaskExecutor α) : Prop where
  staffed : s.workers ≠ []
  returned : .returned ∈ s.workers → s.done = true
  attended : s.done = false → s.actions ≠ [] → ∃ w ∈ s.workers, w.attending = true

section Moved
variable {s t : ThreadPoolTaskExecutor α} {a b : Worker α}

theorem Guarding.locked (h : Guarding s) (ha : a ∈ s.workers) (howning : a.owning = true) :
    s.actionsGuard = true := by
  have hpos : 0 < s.workers.countP Worker.owning := List.countP_pos_iff.mpr ⟨a,ha,howning⟩
  rw [h.owner] at hpos
  cases hguard : s.actionsGuard with
  | true => rfl
  | false => simp [hguard] at hpos

/-- While the guard is free nobody is between a false predicate and the wait. -/
theorem Guarding.not_waiting (h : Guarding s) (hfree : s.actionsGuard = false) :
    .waiting ∉ s.workers := by
  intro hmem
  have hlocked := h.locked hmem rfl
  rw [hfree] at hlocked
  cases hlocked

/-- A step of one worker that does not put anything into the queue. -/
theorem Guarding.move (h : Guarding s) (hmove : Moves a b s.workers t.workers)
    (hactions : s.actions = [] → t.actions = [])
    (howner : t.actionsGuard.toNat + a.owning.toNat = s.actionsGuard.toNat + b.owning.toNat)
    (hwaiting : .waiting = b → t.actions = []) : Guarding t := by
  constructor
  · have hcount := hmove.countP_eq Worker.owning
    have hold := h.owner
    omega
  · intro hmem
    rcases hmove.mem_or_of_mem hmem with hb | hs
    · exact hwaiting hb
    · exact hactions (h.waiting hs)

theorem Attended.move (h : Attended s) (hmove : Moves a b s.workers t.workers)
    (hdone : t.done = s.done) (hactions : s.actions = [] → t.actions = [])
    (hreturned : .returned = b → s.done = true)
    (hattending : t.actions ≠ [] → s.done = false → a.attending = true → b.attending = true) :
    Attended t := by
  refine ⟨List.ne_nil_of_mem hmove.right_mem,fun hmem => ?_,fun hrunning hqueue => ?_⟩
  · rw [hdone]
    exact (hmove.mem_or_of_mem hmem).elim hreturned h.returned
  · rw [hdone] at hrunning
    obtain ⟨w,hw,hattends⟩ := h.attended hrunning fun hempty => hqueue (hactions hempty)
    rcases hmove.mem_or hw with rfl | hw'
    · exact ⟨b,hmove.right_mem,hattending hqueue hrunning hattends⟩
    · exact ⟨w,hw',hattends⟩

end Moved

theorem owning_notify (w : Worker α) : w.notify.owning = w.owning := by
  cases w <;> rfl

theorem waiting_of_notify {w : Worker α} (h : w.notify = .waiting) : w = .waiting := by
  cases w <;> first | rfl | cases h

theorem Guarding.step {s t : ThreadPoolTaskExecutor α} {e : PoolEvent α} (h : Guarding s)
    (hstep : Step s e t) : Guarding t := by
  cases hstep with
  | notifyOne hfree hmove =>
    have hcount := hmove.countP_eq Worker.owning
    refine ⟨hcount.trans h.owner,fun hmem => ?_⟩
    exact absurd ((hmove.mem_or_of_mem hmem).resolve_left (by simp)) (h.not_waiting hfree)
  | notifyNobody hfree hblocked => exact ⟨h.owner,fun hmem => absurd hmem (h.not_waiting hfree)⟩
  | doTerminate => exact ⟨h.owner,h.waiting⟩
  | destroy hfree =>
    constructor
    · rw [← h.owner, List.countP_map]
      exact List.countP_congr fun w _ => by rw [Function.comp_apply, owning_notify]
    · intro hmem
      obtain ⟨w,hw,hwaiting⟩ := List.mem_map.mp hmem
      exact h.waiting (waiting_of_notify hwaiting ▸ hw)
  | loop hmove => exact h.move hmove id (by split_ifs <;> rfl) (by split_ifs <;> simp)
  | lock hfree hmove => exact h.move hmove id (by rw [hfree]; rfl) (by simp)
  | test hmove =>
    refine h.move hmove id ?_ ?_
    · split_ifs <;> rfl
    · split_ifs with hpredicate
      · simp
      · have hboth : s.actions = [] ∧ s.done = false := by simpa using hpredicate
        exact fun _ => hboth.1
  | wait hmove =>
    have hlocked := h.locked hmove.left_mem rfl
    exact h.move hmove id (by rw [hlocked]; rfl) (by simp)
  | wake hmove => exact h.move hmove id rfl (by simp)
  | relock hfree hmove => exact h.move hmove id (by rw [hfree]; rfl) (by simp)
  | leave hmove =>
    have hlocked := h.locked hmove.left_mem rfl
    exact h.move hmove id (by rw [hlocked]; rfl) (by simp)
  | check hmove => exact h.move hmove id (by split_ifs <;> rfl) (by split_ifs <;> simp)
  | tryLock hfree hmove => exact h.move hmove id (by rw [hfree]; rfl) (by simp)
  | tryLockFailed => exact h
  | drained hempty hmove => exact h.move hmove id rfl (by simp)
  | take htop hmove =>
    exact h.move hmove (fun hempty => by simp [htop] at hempty) rfl (by simp)
  | unlockEmpty hmove =>
    have hlocked := h.locked hmove.left_mem rfl
    exact h.move hmove id (by rw [hlocked]; rfl) (by simp)
  | unlock hmove =>
    have hlocked := h.locked hmove.left_mem rfl
    exact h.move hmove id (by rw [hlocked]; rfl) (by simp)
  | perform hmove => exact h.move hmove id rfl (by simp)
  | finish hmove => exact h.move hmove id rfl (by simp)

theorem exists_attending {workers : List (Worker α)} (hstaffed : workers ≠ [])
    (hblocked : .blocked ∉ workers) (hwaiting : .waiting ∉ workers) (hreturned : .returned ∉ workers) :
    ∃ w ∈ workers, w.attending = true := by
  obtain ⟨w,hw⟩ := List.exists_mem_of_ne_nil workers hstaffed
  refine ⟨w,hw,?_⟩
  cases w with
  | waiting => exact absurd hw hwaiting
  | blocked => exact absurd hw hblocked
  | returned => exact absurd hw hreturned
  | _ => rfl

theorem Attended.step {s t : ThreadPoolTaskExecutor α} {e : PoolEvent α} (h : Attended s)
    (hguarding : Guarding s) (hstep : Step s e t) : Attended t := by
  cases hstep with
  | notifyOne hfree hmove =>
    refine ⟨List.ne_nil_of_mem hmove.right_mem,fun hmem => ?_,fun _ _ => ⟨_,hmove.right_mem,rfl⟩⟩
    exact h.returned ((hmove.mem_or_of_mem hmem).resolve_left (by simp))
  | notifyNobody hfree hblocked =>
    refine ⟨h.staffed,h.returned,fun hrunning _ => ?_⟩
    refine exists_attending h.staffed hblocked (hguarding.not_waiting hfree) fun hmem => ?_
    have hdone := h.returned hmem
    rw [show s.done = false from hrunning] at hdone
    cases hdone
  | doTerminate => exact ⟨h.staffed,fun _ => rfl,fun hrunning => by cases hrunning⟩
  | destroy =>
    exact ⟨by simpa using h.staffed,fun _ => rfl,fun hrunning => by cases hrunning⟩
  | loop hmove =>
    refine h.move hmove rfl id ?_ fun _ hrunning _ => ?_
    · split_ifs with hdone
      · exact fun _ => hdone
      · simp
    · simp [hrunning, Worker.attending]
  | lock hfree hmove => exact h.move hmove rfl id (by simp) fun _ _ _ => rfl
  | test hmove =>
    refine h.move hmove rfl id (by split_ifs <;> simp) fun hqueue _ _ => ?_
    have hpredicate : (!s.actions.isEmpty || s.done) = true := by simp [show s.actions ≠ [] from hqueue]
    rw [if_pos hpredicate]
    rfl
  | wait hmove => exact h.move hmove rfl id (by simp) fun _ _ hattends => hattends
  | wake hmove => exact h.move hmove rfl id (by simp) fun _ _ _ => rfl
  | relock hfree hmove => exact h.move hmove rfl id (by simp) fun _ _ _ => rfl
  | leave hmove => exact h.move hmove rfl id (by simp) fun _ _ _ => rfl
  | check hmove =>
    refine h.move hmove rfl id ?_ fun _ hrunning _ => ?_
    · split_ifs with hdone
      · exact fun _ => hdone
      · simp
    · simp [hrunning, Worker.attending]
  | tryLock hfree hmove => exact h.move hmove rfl id (by simp) fun _ _ _ => rfl
  | tryLockFailed => exact h
  | drained hempty hmove => exact h.move hmove rfl id (by simp) fun _ _ _ => rfl
  | take htop hmove =>
    exact h.move hmove rfl (fun hempty => by simp [htop] at hempty) (by simp) fun _ _ _ => rfl
  | unlockEmpty hmove => exact h.move hmove rfl id (by simp) fun _ _ _ => rfl
  | unlock hmove => exact h.move hmove rfl id (by simp) fun _ _ _ => rfl
  | perform hmove => exact h.move hmove rfl id (by simp) fun _ _ _ => rfl
  | finish hmove => exact h.move hmove rfl id (by simp) fun _ _ _ => rfl

theorem create_guarding (workerCount : ℕ) :
    Guarding (create workerCount : ThreadPoolTaskExecutor α) := by
  refine ⟨?_,fun _ => rfl⟩
  rw [show (create workerCount : ThreadPoolTaskExecutor α).actionsGuard.toNat = 0 from rfl,
    List.countP_eq_zero]
  intro w hw
  rw [(List.mem_replicate.mp hw).2]
  exact Bool.false_ne_true

theorem create_attended {workerCount : ℕ} (hpos : 0 < workerCount) :
    Attended (create workerCount : ThreadPoolTaskExecutor α) := by
  refine ⟨?_,fun hmem => ?_,fun _ hqueue => absurd rfl hqueue⟩
  · exact List.ne_nil_of_length_pos (by simpa [create] using hpos)
  · cases (List.mem_replicate.mp hmem).2

/-- No wake-up is lost: while `m_done` is false and the queue is not empty, not all workers
are blocked. -/
theorem exists_not_blocked {workerCount : ℕ} (hpos : 0 < workerCount) {t : ThreadPoolTaskExecutor α}
    {trace : List (ThreadPoolTaskExecutor α × PoolEvent α)}
    (hr : Run Step (create workerCount) trace t) (hrunning : t.done = false)
    (hqueue : t.actions ≠ []) : ∃ w ∈ t.workers, w ≠ .blocked := by
  have hsteps : ∀ s e (u : ThreadPoolTaskExecutor α), Guarding s ∧ Attended s → Step s e u →
      Guarding u ∧ Attended u := fun s e u h hstep => ⟨h.1.step hstep,h.2.step h.1 hstep⟩
  have hinvariant := hr.preserved hsteps ⟨create_guarding workerCount,create_attended hpos⟩
  obtain ⟨w,hw,hattends⟩ := hinvariant.2.attended hrunning hqueue
  refine ⟨w,hw,?_⟩
  rintro rfl
  cases hattends

/-- The only worker blocks, and an action arrives. -/
theorem exists_not_blocked_one : ∃ trace, ∃ t : ThreadPoolTaskExecutor ℕ,
    trace.map Prod.snd = [.loop,.lock,.test,.wait,.doExecute 7] ∧ Run Step (create 1) trace t ∧
      t.actions = [7] ∧ ∃ w ∈ t.workers, w ≠ .blocked := by
  let start : ThreadPoolTaskExecutor ℕ := create 1
  let locking : ThreadPoolTaskExecutor ℕ := { start with workers := [.locking] }
  let testing : ThreadPoolTaskExecutor ℕ :=
    { start with actionsGuard := true, workers := [.testing] }
  let waiting : ThreadPoolTaskExecutor ℕ := { testing with workers := [.waiting] }
  let blocked : ThreadPoolTaskExecutor ℕ := { start with workers := [.blocked] }
  let woken : ThreadPoolTaskExecutor ℕ := { push 7 start with workers := [.woken] }
  have hloop : Step start .loop locking := Step.loop (Moves.intro [] [])
  have hlock : Step locking .lock testing := Step.lock rfl (Moves.intro [] [])
  have htest : Step testing .test waiting := Step.test (Moves.intro [] [])
  have hwait : Step waiting .wait blocked := Step.wait (Moves.intro [] [])
  have hexecute : Step blocked (.doExecute 7) woken := Step.notifyOne rfl (Moves.intro [] [])
  have hr : Run Step start [(start,.loop),(locking,.lock),(testing,.test),(waiting,.wait),
      (blocked,.doExecute 7)] woken :=
    Run.cons hloop (Run.cons hlock (Run.cons htest (Run.cons hwait (Run.cons hexecute (Run.nil _)))))
  exact ⟨_,woken,rfl,hr,rfl,exists_not_blocked Nat.one_pos hr rfl (List.cons_ne_nil _ _)⟩

end ThreadPoolTaskExecutor

end Isml
