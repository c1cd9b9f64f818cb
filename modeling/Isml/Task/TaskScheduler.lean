import Isml.Library.LabelledRun
import Isml.Library.PriorityQueue
import Mathlib.Tactic.Linarith

/-! # `TaskScheduler`: delayed actions and the watcher that hands them on

`doSchedule` and `doTerminate` hold `m_scheduled_actions_guard` from their first to their
last line and are one step each, with the clock readings they take. The steps of the watcher
are the check of its loop, the beginning and the end of its wait, and what it does with the
lock behind it; it keeps the lock while it hands an action to the executor.
-/
namespace Isml
open LabelledRun PriorityQueues

/-- A clock that counts `ticks` in a millisecond, up to `max`. -/
structure Clock where
  ticks : ℤ
  pos : 0 < ticks
  max : ℤ

namespace Clock
variable (clock : Clock)

/-- `duration_cast` to milliseconds. -/
def toMilliseconds (elapsed : ℤ) : ℤ := elapsed.tdiv clock.ticks

def maxWaitTime (now : ℤ) : ℤ := clock.toMilliseconds (clock.max - now - 3600000 * clock.ticks)

theorem toMilliseconds_lt_iff {elapsed bound : ℤ} (h : 0 ≤ elapsed) :
    clock.toMilliseconds elapsed < bound ↔ elapsed < bound * clock.ticks := by
  rw [toMilliseconds, Int.tdiv_eq_ediv_of_nonneg h, Int.ediv_lt_iff_lt_mul clock.pos]

theorem toMilliseconds_mul_le {elapsed : ℤ} (h : 0 ≤ elapsed) :
    clock.toMilliseconds elapsed * clock.ticks ≤ elapsed := by
  rw [toMilliseconds, Int.tdiv_eq_ediv_of_nonneg h]
  exact Int.ediv_mul_le elapsed clock.pos.ne'

theorem toMilliseconds_mul_cancel {elapsed : ℤ} (h : clock.ticks ∣ elapsed) :
    clock.toMilliseconds elapsed * clock.ticks = elapsed := Int.tdiv_mul_cancel h

end Clock

/-- A clock that counts milliseconds. -/
def millisecondClock : Clock := ⟨1,Int.one_pos,1000000000000⟩

inductive SuspendReason where
  | updateDelay
  | executeTask
  | terminate
  deriving DecidableEq, Repr

structure ScheduledAction (α : Type) where
  action : α
  delay : ℤ
  creationTs : ℤ
  deriving DecidableEq, Repr

namespace ScheduledAction
variable {α : Type} (clock : Clock)

def timeLeft (now : ℤ) (a : ScheduledAction α) : ℤ :=
  a.delay - clock.toMilliseconds (now - a.creationTs)

/-- The time point the action is due at. -/
def deadline (a : ScheduledAction α) : ℤ := a.creationTs + a.delay * clock.ticks

/-- The answer of `operator>`, which reads the clock for the left action first. -/
def greater (now later : ℤ) (left right : ScheduledAction α) : Bool :=
  right.timeLeft clock later < left.timeLeft clock now

end ScheduledAction

/-- What `operator>` reads: the clock for the left action, and then for the right one. -/
structure Readings where
  left : ℤ
  right : ℤ
  deriving DecidableEq, Repr

abbrev DelayComparison (α : Type) := Comparison (ScheduledAction α) Readings

abbrev ScheduledActions (α : Type) := PriorityQueue (ScheduledAction α) ℤ Readings

/-- Where the watcher is: in front of `while (!isTerminating())`, of the lock, in a wait whose
delay is over at `wake`, behind it without the lock, with the lock in front of `doExecute`, or at
its end. -/
inductive Watcher (α : Type) where
  | looping
  | locking
  | waiting (wake : ℤ)
  | woken
  | handing (action : ScheduledAction α)
  | returned
  deriving DecidableEq, Repr

namespace Watcher
variable {α : Type}

/-- The watcher owns `m_scheduled_actions_guard`. -/
def owning : Watcher α → Bool
  | .handing _ => true
  | _ => false

/-- What `notify_one` does to the watcher. -/
def notify : Watcher α → Watcher α
  | .waiting _ => .woken
  | w => w

theorem notify_eq_returned {w : Watcher α} : w.notify = .returned ↔ w = .returned := by
  cases w <;> simp [notify]

theorem notify_eq_handing {w : Watcher α} {action : ScheduledAction α} :
    w.notify = .handing action ↔ w = .handing action := by
  cases w <;> simp [notify]

theorem ne_handing_of_owning {w : Watcher α} (h : w.owning = false) (action : ScheduledAction α) :
    w ≠ .handing action := by
  rintro rfl
  cases h

end Watcher

inductive Lifetime where
  | alive
  | joining
  | destroyed
  deriving DecidableEq, Repr

/-- The members, the executor's `m_done`, and how far the destructor is. Kept for the
statements are the present time, whether `doTerminate` has run, and how many actions were
accepted after it. -/
structure TaskScheduler (α : Type) where
  now : ℤ
  scheduledActions : ScheduledActions α
  delay : ℤ
  delayUpdateTs : ℤ
  suspendReason : SuspendReason
  watcher : Watcher α
  done : Bool
  lifetime : Lifetime
  terminated : Bool
  acceptedLate : ℕ

/-- The numbers are the readings of the clock, in the order they are taken, and for `wait` the time
at which it begins. A wait that ends when its delay is over on this clock is a `timeout`, one that
ends before that a `wake`. -/
inductive SchedulerEvent (α : Type) where
  | schedule (action : α) (delay created left : ℤ) (comparisons : List (DelayComparison α))
  | terminate
  | check
  | wait (read : ℤ)
  | timeout
  | wake
  | updateDelay (read : ℤ)
  | pop (read : ℤ) (comparisons : List (DelayComparison α))
  | hand (action : ScheduledAction α) (left update : ℤ)
  | rearm (left update : ℤ)
  | leave
  | advance (elapsed : ℕ)
  | destroy
  | join

/-- The comparisons of a step. -/
def SchedulerEvent.comparisons {α : Type} : SchedulerEvent α → List (DelayComparison α)
  | .schedule _ _ _ _ comparisons | .pop _ comparisons => comparisons
  | _ => []

namespace TaskScheduler
variable {α : Type} (clock : Clock)

def create (start : ℤ) : TaskScheduler α where
  now := start
  scheduledActions := PriorityQueue.empty
  delay := clock.maxWaitTime start
  delayUpdateTs := start
  suspendReason := .updateDelay
  watcher := .looping
  done := false
  lifetime := .alive
  terminated := false
  acceptedLate := 0

def timeLeft (now : ℤ) (s : TaskScheduler α) : ℤ :=
  s.delay - clock.toMilliseconds (now - s.delayUpdateTs)

/-- The rest of `doSchedule` behind the push. -/
def afterPush (delay left : ℤ) (s : TaskScheduler α) : TaskScheduler α :=
  if delay < s.timeLeft clock left then
    { s with delay := delay, suspendReason := .updateDelay, watcher := s.watcher.notify }
  else s

/-- The delay until the next action is due, as the watcher computes it. -/
def nextDelay (left : ℤ) (queue : ScheduledActions α) : ℤ :=
  match queue.items with
  | [] => clock.maxWaitTime left
  | top :: _ => top.timeLeft clock left

/-- The end of the `ExecuteTask` branch. -/
def rearm (left update : ℤ) (s : TaskScheduler α) : TaskScheduler α :=
  { s with
    now := update
    delay := nextDelay clock left s.scheduledActions
    delayUpdateTs := update
    watcher := .looping }

/-- The comparisons were answered from their readings, which lie between the two times. -/
def Answered (first last : ℤ) (comparisons : List (DelayComparison α)) : Prop :=
  ∀ c ∈ comparisons, first ≤ c.reading.left ∧ c.reading.left ≤ c.reading.right ∧
    c.reading.right ≤ last ∧ c.greater = c.left.greater clock c.reading.left c.reading.right c.right

/-- The clock goes on at any step and never back. `wait_for` counts nanoseconds of the steady
clock in 64 bits, whatever the clock of the scheduler does, so that a wait may end at any time:
spuriously, with the steady clock ahead, or at once after a delay of centuries. Behind the `join`
the destructor terminates the executor, whose own destructor sets `m_done`. -/
inductive Step : TaskScheduler α → SchedulerEvent α → TaskScheduler α → Prop
  | schedule {s : TaskScheduler α} {action : α} {delay created left : ℤ}
      {comparisons : List (DelayComparison α)} {queue : ScheduledActions α} :
      s.watcher.owning = false → s.done = false → s.now ≤ created → created ≤ left →
      Answered clock created left comparisons →
      PriorityQueue.Push ⟨action,delay,created⟩ comparisons s.scheduledActions queue →
        Step s (.schedule action delay created left comparisons) (afterPush clock delay left
          { s with
            now := left
            scheduledActions := queue
            acceptedLate := s.acceptedLate + s.terminated.toNat })
  | refuse {s : TaskScheduler α} {action : α} {delay created left : ℤ}
      {comparisons : List (DelayComparison α)} :
      s.watcher.owning = false → s.done = true →
        Step s (.schedule action delay created left comparisons) s
  | terminate {s : TaskScheduler α} :
      s.watcher.owning = false → Step s .terminate
        { s with suspendReason := .terminate, watcher := s.watcher.notify, terminated := true }
  | check {s : TaskScheduler α} :
      s.watcher = .looping →
        Step s .check { s with watcher := if s.done then .returned else .locking }
  | wait {s : TaskScheduler α} {read : ℤ} :
      s.watcher = .locking → s.now ≤ read → Step s (.wait read)
        { s with now := read, watcher := .waiting (read + s.delay * clock.ticks) }
  | timeout {s : TaskScheduler α} {wake : ℤ} :
      s.watcher = .waiting wake → wake ≤ s.now → Step s .timeout { s with watcher := .woken }
  | wake {s : TaskScheduler α} {wake : ℤ} :
      s.watcher = .waiting wake → Step s .wake { s with watcher := .woken }
  | updateDelay {s : TaskScheduler α} {read : ℤ} :
      s.watcher = .woken → s.suspendReason = .updateDelay → s.now ≤ read →
        Step s (.updateDelay read)
          { s with
            now := read
            delayUpdateTs := read
            suspendReason := .executeTask
            watcher := .looping }
  | pop {s : TaskScheduler α} {read : ℤ} {top : ScheduledAction α}
      {comparisons : List (DelayComparison α)} {queue : ScheduledActions α} :
      s.watcher = .woken → s.suspendReason = .executeTask → s.now ≤ read →
      Answered clock s.now read comparisons →
      PriorityQueue.Pop top comparisons s.scheduledActions queue → Step s (.pop read comparisons)
        { s with now := read, scheduledActions := queue, watcher := .handing top }
  | hand {s : TaskScheduler α} {action : ScheduledAction α} {left update : ℤ} :
      s.watcher = .handing action → s.now ≤ left → left ≤ update →
        Step s (.hand action left update) (rearm clock left update s)
  | rearm {s : TaskScheduler α} {left update : ℤ} :
      s.watcher = .woken → s.suspendReason = .executeTask → s.scheduledActions.items = [] →
      s.now ≤ left → left ≤ update → Step s (.rearm left update) (rearm clock left update s)
  | leave {s : TaskScheduler α} :
      s.watcher = .woken → s.suspendReason = .terminate →
        Step s .leave { s with watcher := .returned }
  | advance (s : TaskScheduler α) (elapsed : ℕ) :
      Step s (.advance elapsed) { s with now := s.now + elapsed }
  | destroy {s : TaskScheduler α} :
      s.lifetime = .alive → Step s .destroy { s with lifetime := .joining }
  | join {s : TaskScheduler α} :
      s.lifetime = .joining → s.watcher = .returned → Step s .join
        { s with suspendReason := .terminate, done := true, lifetime := .destroyed, terminated := true }

theorem answered_nil (first last : ℤ) :
    Answered clock first last ([] : List (DelayComparison α)) := by simp [Answered]

/-- What is queued was created by now. -/
def Created (s : TaskScheduler α) : Prop := ∀ a ∈ s.scheduledActions.items, a.creationTs ≤ s.now

section Lemmas
variable {clock} {s t : TaskScheduler α} {e : SchedulerEvent α} {delay left : ℤ} {a : ScheduledAction α}

/-- Whether a new delay is shorter than what is left of the current one, in ticks. -/
theorem lt_timeLeft_iff (h : s.delayUpdateTs ≤ left) :
    delay < s.timeLeft clock left ↔
      left + delay * clock.ticks < s.delayUpdateTs + s.delay * clock.ticks := by
  have hcast : clock.toMilliseconds (left - s.delayUpdateTs) < s.delay - delay ↔
      left - s.delayUpdateTs < (s.delay - delay) * clock.ticks :=
    clock.toMilliseconds_lt_iff (by omega)
  rw [Int.sub_mul] at hcast
  constructor
  · intro hlt
    have hticks := hcast.mp (by unfold timeLeft at hlt; omega)
    omega
  · intro hlt
    have hms := hcast.mpr (by omega)
    unfold timeLeft
    omega

/-- Rounding lets the watcher wait longer than to the deadline, never shorter. -/
theorem deadline_le_timeLeft (h : a.creationTs ≤ left) :
    a.deadline clock ≤ left + a.timeLeft clock left * clock.ticks := by
  have hround : clock.toMilliseconds (left - a.creationTs) * clock.ticks ≤ left - a.creationTs :=
    clock.toMilliseconds_mul_le (by omega)
  rw [ScheduledAction.deadline, ScheduledAction.timeLeft, Int.sub_mul]
  omega

theorem timeLeft_eq_deadline (h : clock.ticks ∣ left - a.creationTs) :
    left + a.timeLeft clock left * clock.ticks = a.deadline clock := by
  have hround := clock.toMilliseconds_mul_cancel h
  rw [ScheduledAction.deadline, ScheduledAction.timeLeft, Int.sub_mul]
  omega

theorem afterPush_of_lt (h : delay < s.timeLeft clock left) : afterPush clock delay left s =
    { s with delay := delay, suspendReason := .updateDelay, watcher := s.watcher.notify } :=
  if_pos h

theorem afterPush_of_le (h : s.timeLeft clock left ≤ delay) : afterPush clock delay left s = s :=
  if_neg (not_lt.mpr h)

theorem nextDelay_of_top {queue : ScheduledActions α} {rest : List (ScheduledAction α)}
    (h : queue.items = a :: rest) : nextDelay clock left queue = a.timeLeft clock left := by
  rw [nextDelay, h]

theorem afterPush_scheduledActions :
    (afterPush clock delay left s).scheduledActions = s.scheduledActions := by
  unfold afterPush
  split_ifs <;> rfl

theorem afterPush_now : (afterPush clock delay left s).now = s.now := by
  unfold afterPush
  split_ifs <;> rfl

theorem Created.later (h : Created s) (hqueue : t.scheduledActions = s.scheduledActions)
    (hnow : s.now ≤ t.now) : Created t := by
  intro a ha
  rw [hqueue] at ha
  exact (h a ha).trans hnow

theorem Created.step (h : Created s) (hstep : Step clock s e t) : Created t := by
  cases hstep with
  | schedule _ _ hnow hleft _ hpush =>
    intro a ha
    rw [afterPush_scheduledActions] at ha
    rw [afterPush_now]
    rcases hpush.mem_iff.mp ha with rfl | ha
    · exact hleft
    · exact (h a ha).trans (hnow.trans hleft)
  | pop _ _ hnow _ hpop => exact fun a ha => (h a (hpop.mem_of_mem ha)).trans hnow
  | hand _ hnow hleft | rearm _ _ _ hnow hleft => exact h.later rfl (hnow.trans hleft)
  | wait _ hnow | updateDelay _ _ hnow => exact h.later rfl hnow
  | advance elapsed => exact h.later rfl (by simp)
  | _ => exact h.later rfl le_rfl

end Lemmas

/-! ## What `operator>` answers -/

section Readings
variable {clock} {s t : TaskScheduler α} {e : SchedulerEvent α}

/-- The milliseconds from a reading of the clock until an action is due, rounded up. -/
def untilDue (clock : Clock) (read : ℤ) (a : ScheduledAction α) : ℤ :=
  -((read - a.deadline clock) / clock.ticks)

/-- Each counted from its own reading, the right action is due in fewer milliseconds. -/
def RightSooner (clock : Clock) (c : DelayComparison α) : Prop :=
  untilDue clock c.reading.right c.right < untilDue clock c.reading.left c.left

/-- The readings put the actions of each comparison in the order by `key`. -/
def ReadsBy (clock : Clock) (key : ScheduledAction α → ℤ) (comparisons : List (DelayComparison α)) : Prop :=
  ∀ c ∈ comparisons, RightSooner clock c ↔ key c.right < key c.left

theorem timeLeft_eq_untilDue {a : ScheduledAction α} {read : ℤ} (h : a.creationTs ≤ read) :
    a.timeLeft clock read = untilDue clock read a := by
  have hage : 0 ≤ read - a.creationTs := by omega
  have hsplit : read - a.deadline clock = read - a.creationTs + -a.delay * clock.ticks := by
    rw [ScheduledAction.deadline, Int.neg_mul]
    omega
  rw [untilDue, hsplit, Int.add_mul_ediv_right _ _ clock.pos.ne', ScheduledAction.timeLeft,
    Clock.toMilliseconds, Int.tdiv_eq_ediv_of_nonneg hage]
  omega

theorem greater_iff {c : DelayComparison α} (hleft : c.left.creationTs ≤ c.reading.left)
    (hright : c.right.creationTs ≤ c.reading.right) :
    c.left.greater clock c.reading.left c.reading.right c.right = true ↔ RightSooner clock c := by
  rw [ScheduledAction.greater, decide_eq_true_eq, timeLeft_eq_untilDue hleft, timeLeft_eq_untilDue hright,
    RightSooner]

/-- The actions were created before they are compared. -/
theorem greater_iff_of_answered {first last : ℤ} {comparisons : List (DelayComparison α)}
    {actions : List (ScheduledAction α)} {c : DelayComparison α}
    (hanswered : Answered clock first last comparisons) (hamong : PriorityQueue.Among actions comparisons)
    (hcreated : ∀ a ∈ actions, a.creationTs ≤ first) (hc : c ∈ comparisons) :
    c.greater = true ↔ RightSooner clock c := by
  obtain ⟨hfirst,hlater,-,hgreater⟩ := hanswered c hc
  have hleft := hcreated c.left (hamong c hc).1
  have hright := hcreated c.right (hamong c hc).2
  rw [hgreater]
  exact greater_iff (by omega) (by omega)

/-- A step keeps the answers the heap has, or adds those of its own comparisons. -/
theorem mem_asked_of_step {c : DelayComparison α} (hcreated : Created s) (hstep : Step clock s e t)
    (hc : c ∈ t.scheduledActions.asked) : c ∈ s.scheduledActions.asked ∨
      c ∈ e.comparisons ∧ (c.greater = true ↔ RightSooner clock c) := by
  cases hstep with
  | @schedule action delay created left comparisons queue howning hdone hnow hleft hanswered hpush =>
    rw [afterPush_scheduledActions] at hc
    refine (hpush.mem_asked.mp hc).imp_right fun hc => ⟨hc,?_⟩
    refine greater_iff_of_answered hanswered hpush.among (fun a ha => ?_) hc
    rcases hpush.mem_iff.mp ha with rfl | ha
    · exact le_rfl
    · exact (hcreated a ha).trans hnow
  | pop hwoken hreason hnow hanswered hpop =>
    exact (hpop.mem_asked hc).imp_right fun hc =>
      ⟨hc,greater_iff_of_answered hanswered hpop.among hcreated hc⟩
  | _ => exact Or.inl hc

/-- The heap knows what the readings of its comparisons say. -/
structure Asked (clock : Clock) (s : TaskScheduler α) : Prop where
  created : Created s
  answers : ∀ c ∈ s.scheduledActions.asked, c.greater = true ↔ RightSooner clock c

theorem Asked.step (h : Asked clock s) (hstep : Step clock s e t) : Asked clock t := by
  refine ⟨h.created.step hstep,fun c hc => ?_⟩
  rcases mem_asked_of_step h.created hstep hc with hc | ⟨-,hanswer⟩
  · exact h.answers c hc
  · exact hanswer

theorem Asked.agrees {key : ScheduledAction α → ℤ} (h : Asked clock s)
    (hreads : ReadsBy clock key s.scheduledActions.asked) : Agrees key s.scheduledActions.asked :=
  fun c hc => (h.answers c hc).trans (hreads c hc)

/-- All readings have put the actions in the order by `key`. -/
structure AskedBy (clock : Clock) (key : ScheduledAction α → ℤ) (s : TaskScheduler α) : Prop where
  asked : Asked clock s
  reads : ReadsBy clock key s.scheduledActions.asked

variable {key : ScheduledAction α → ℤ}

theorem AskedBy.step (h : AskedBy clock key s) (hg : ReadsBy clock key e.comparisons)
    (hstep : Step clock s e t) : AskedBy clock key t := by
  refine ⟨h.asked.step hstep,fun c hc => ?_⟩
  rcases mem_asked_of_step h.asked.created hstep hc with hc | ⟨hc,-⟩
  · exact h.reads c hc
  · exact hg c hc

theorem AskedBy.agrees (h : AskedBy clock key s) : Agrees key s.scheduledActions.asked :=
  h.asked.agrees h.reads

end Readings

/-! ## A run -/

section Armed

/-- The scheduler whose watcher waits for one action with a delay of 100. -/
def armed : TaskScheduler ℕ where
  now := 0
  scheduledActions := PriorityQueue.singleton ⟨7,100,0⟩
  delay := 100
  delayUpdateTs := 0
  suspendReason := .executeTask
  watcher := .waiting 100
  done := false
  lifetime := .alive
  terminated := false
  acceptedLate := 0

/-- The first wait of the watcher, whose end is far away. -/
def idle : TaskScheduler ℕ :=
  let start : TaskScheduler ℕ := create millisecondClock 0
  { start with watcher := .waiting (0 + start.delay * millisecondClock.ticks) }

/-- The action is scheduled in the first wait, and the watcher begins to wait for it. -/
def armTrace : List (TaskScheduler ℕ × SchedulerEvent ℕ) :=
  let start : TaskScheduler ℕ := create millisecondClock 0
  [(start,.check),({ start with watcher := .locking },.wait 0),(idle,.schedule 7 100 0 0 []),
    ({ armed with suspendReason := .updateDelay, watcher := .woken },.updateDelay 0),
    ({ armed with watcher := .looping },.check),({ armed with watcher := .locking },.wait 0)]

theorem arm_run : Run (Step millisecondClock) (create millisecondClock 0) armTrace armed := by
  refine Run.cons (Step.check rfl) (Run.cons (Step.wait rfl le_rfl) (Run.cons ?_
    (Run.cons (Step.updateDelay rfl rfl le_rfl) (Run.cons (Step.check rfl)
      (Run.cons (Step.wait rfl le_rfl) (Run.nil _))))))
  exact Step.schedule rfl rfl le_rfl le_rfl (answered_nil _ _ _) (PriorityQueue.push_empty _)

end Armed

end TaskScheduler

end Isml
