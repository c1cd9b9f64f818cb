import Isml.Task.TaskScheduler

/-! # The watcher wakes up in time for the first deadline

A wait begins with `m_delay` as it stands. `doSchedule` replaces it by a shorter delay that
begins with the call, and the watcher takes it for one that begins when it handles the
request. The two agree as long as no time passes in between and no second call compares
with the time stamp of the wait before.
-/
namespace Isml.TaskScheduler
open LabelledRun PriorityQueues

variable {α : Type} {clock : Clock} {s t : TaskScheduler α} {e : SchedulerEvent α}

/-- A wait ends by itself at the latest when the first queued action is due. -/
def WakesInTime (clock : Clock) (s : TaskScheduler α) : Prop :=
  ∀ wake, s.watcher = .waiting wake → ∀ a ∈ s.scheduledActions.items, wake ≤ a.deadline clock

/-- Calls of `schedule` with non-negative delays and the steps of the watcher, each at one time
point; time passes only while the watcher is in its wait. -/
def ClockStops (s : TaskScheduler α) : SchedulerEvent α → Prop
  | .schedule _ delay created left _ => 0 ≤ delay ∧ created = s.now ∧ left = s.now
  | .wait read | .updateDelay read | .pop read _ => read = s.now
  | .hand _ left update | .rearm left update => left = s.now ∧ update = s.now
  | .advance _ => (∃ wake, s.watcher = .waiting wake) ∨ s.watcher = .woken
  | .check | .timeout | .wake => True
  | .terminate | .leave | .destroy | .join => False

/-- While a request to update the delay is not handled, time passes only if nothing is queued,
and a call of `schedule` asks for less than `timeLeft()` or not for less than `m_delay`. The
comparisons are answered as the deadlines compare, and when the watcher takes the delay from
the action at the top, its age is a whole number of milliseconds. -/
def UpdatesAtOnce (clock : Clock) (s : TaskScheduler α) : SchedulerEvent α → Prop
  | .schedule _ delay _ left comparisons =>
    Agrees (ScheduledAction.deadline clock) comparisons ∧
      (s.suspendReason = .updateDelay → delay < s.timeLeft clock left ∨ s.delay ≤ delay)
  | .pop _ comparisons => Agrees (ScheduledAction.deadline clock) comparisons
  | .hand _ left _ => ∀ top rest, s.scheduledActions.items = top :: rest →
      clock.ticks ∣ left - top.creationTs
  | .advance _ => s.suspendReason = .updateDelay → s.scheduledActions.items = []
  | _ => True

/-- No queued action is due before `time`. -/
def Covers (clock : Clock) (s : TaskScheduler α) (time : ℤ) : Prop :=
  ∀ a ∈ s.scheduledActions.items, time ≤ a.deadline clock

/-- The delay covers the deadlines from its time stamp on, and from now on where the watcher
is going to begin it anew. -/
structure InTime (clock : Clock) (s : TaskScheduler α) : Prop where
  agrees : Agrees (ScheduledAction.deadline clock) s.scheduledActions.asked
  stamp : s.delayUpdateTs ≤ s.now
  fresh : s.watcher = .looping ∨ s.watcher = .locking → s.delayUpdateTs = s.now
  wake : ∀ wake, s.watcher = .waiting wake → wake = s.delayUpdateTs + s.delay * clock.ticks
  covers : s.watcher.owning = false → Covers clock s (s.delayUpdateTs + s.delay * clock.ticks)
  update : s.suspendReason = .updateDelay → Covers clock s (s.now + s.delay * clock.ticks)

theorem InTime.wakesInTime (h : InTime clock s) : WakesInTime clock s := by
  intro wake hwaiting a ha
  rw [h.wake wake hwaiting]
  exact h.covers (by rw [hwaiting]; rfl) a ha

theorem notify_eq_waiting {w : Watcher α} {wake : ℤ} : w.notify ≠ .waiting wake := by
  cases w <;> simp [Watcher.notify]

theorem of_notify_eq {w : Watcher α} (h : w.notify = .looping ∨ w.notify = .locking) :
    w = .looping ∨ w = .locking := by
  cases w <;> simp [Watcher.notify] at h ⊢

theorem InTime.schedule {action : α} {delay : ℤ} {comparisons : List (DelayComparison α)}
    {queue : ScheduledActions α} {late : ℕ} (h : InTime clock s)
    (howning : s.watcher.owning = false)
    (hpush : PriorityQueue.Push ⟨action,delay,s.now⟩ comparisons s.scheduledActions queue)
    (hagrees : Agrees (ScheduledAction.deadline clock) comparisons)
    (hrequest : s.suspendReason = .updateDelay → delay < s.timeLeft clock s.now ∨ s.delay ≤ delay) :
    InTime clock (afterPush clock delay s.now
      { s with now := s.now, scheduledActions := queue, acceptedLate := late }) := by
  let pushed : TaskScheduler α :=
    { s with now := s.now, scheduledActions := queue, acceptedLate := late }
  change InTime clock (afterPush clock delay s.now pushed)
  have hold := h.covers howning
  have hpushed : ∀ time, time ≤ s.now + delay * clock.ticks → Covers clock s time →
      ∀ a ∈ queue.items, time ≤ a.deadline clock := by
    intro time hnew hcovers a ha
    rcases hpush.mem_iff.mp ha with rfl | ha
    · exact hnew
    · exact hcovers a ha
  by_cases hlt : delay < s.timeLeft clock s.now
  · -- the new delay ends before the wait that is under way or about to begin
    have hshorter : s.now + delay * clock.ticks < s.delayUpdateTs + s.delay * clock.ticks :=
      (lt_timeLeft_iff h.stamp).mp hlt
    have hnew : ∀ a ∈ queue.items, s.now + delay * clock.ticks ≤ a.deadline clock :=
      hpushed _ le_rfl fun a ha => hshorter.le.trans (hold a ha)
    rw [afterPush_of_lt (show delay < pushed.timeLeft clock s.now from hlt)]
    refine ⟨hpush.agrees h.agrees hagrees,h.stamp,fun hfresh => h.fresh (of_notify_eq hfresh),
      fun wake hwaiting => absurd hwaiting notify_eq_waiting,fun _ a ha => ?_,fun _ => hnew⟩
    have hstamp := h.stamp
    have hdue := hnew a ha
    change s.delayUpdateTs + delay * clock.ticks ≤ a.deadline clock
    omega
  · have hlonger : s.delayUpdateTs + s.delay * clock.ticks ≤ s.now + delay * clock.ticks :=
      not_lt.mp fun hshorter => hlt ((lt_timeLeft_iff h.stamp).mpr hshorter)
    rw [afterPush_of_le (show pushed.timeLeft clock s.now ≤ delay from not_lt.mp hlt)]
    refine ⟨hpush.agrees h.agrees hagrees,h.stamp,h.fresh,h.wake,fun _ => hpushed _ hlonger hold,
      fun hreason => hpushed _ ?_ (h.update hreason)⟩
    have hmore := (hrequest hreason).resolve_left hlt
    have hticks := mul_le_mul_of_nonneg_right hmore clock.pos.le
    change s.now + s.delay * clock.ticks ≤ s.now + delay * clock.ticks
    omega

/-- The delay is taken from the action at the top, which is due first. -/
theorem InTime.rearm (h : InTime clock s)
    (hage : ∀ top rest, s.scheduledActions.items = top :: rest → clock.ticks ∣ s.now - top.creationTs) :
    InTime clock (rearm clock s.now s.now s) := by
  have hcovers : Covers clock s (s.now + nextDelay clock s.now s.scheduledActions * clock.ticks) := by
    intro a ha
    obtain ⟨top,rest,htop⟩ := List.exists_cons_of_ne_nil (List.ne_nil_of_mem ha)
    rw [nextDelay_of_top htop, timeLeft_eq_deadline (hage top rest htop)]
    exact s.scheduledActions.top_le h.agrees htop ha
  exact ⟨h.agrees,le_rfl,fun _ => rfl,fun _ hwaiting => (nomatch hwaiting),fun _ => hcovers,
    fun _ => hcovers⟩

/-- A step of the watcher that goes into no wait and leaves the delay alone. -/
theorem InTime.move {watcher : Watcher α} (h : InTime clock s) (howning : s.watcher.owning = false)
    (hfresh : watcher = .looping ∨ watcher = .locking → s.delayUpdateTs = s.now)
    (hwake : ∀ wake, watcher ≠ .waiting wake) : InTime clock { s with watcher := watcher } :=
  ⟨h.agrees,h.stamp,hfresh,fun wake hwaiting => absurd hwaiting (hwake wake),fun _ => h.covers howning,
    h.update⟩

theorem InTime.step (h : InTime clock s) (hd : ClockStops s e) (hg : UpdatesAtOnce clock s e)
    (hstep : Step clock s e t) : InTime clock t := by
  cases hstep with
  | schedule howning _ _ _ _ hpush =>
    obtain ⟨-,rfl,rfl⟩ := hd
    exact h.schedule howning hpush hg.1 hg.2
  | refuse => exact h
  | check hlooping =>
    refine h.move (by rw [hlooping]; rfl) (fun _ => h.fresh (Or.inl hlooping)) fun wake => ?_
    split_ifs <;> simp
  | wait hlocking _ =>
    obtain rfl := hd
    have hstamp := h.fresh (Or.inr hlocking)
    have hcovers := h.covers (by rw [hlocking]; rfl)
    refine ⟨h.agrees,h.stamp,by simp,fun wake hwaiting => ?_,fun _ => hcovers,h.update⟩
    change wake = s.delayUpdateTs + s.delay * clock.ticks
    rw [hstamp]
    exact (Watcher.waiting.inj hwaiting).symm
  | timeout hwaiting _ => exact h.move (by rw [hwaiting]; rfl) (by simp) (by simp)
  | wake hwaiting => exact h.move (by rw [hwaiting]; rfl) (by simp) (by simp)
  | updateDelay hwoken hreason _ =>
    obtain rfl := hd
    have hcovers := h.update hreason
    exact ⟨h.agrees,le_rfl,fun _ => rfl,by simp,fun _ => hcovers,by simp⟩
  | pop hwoken hreason _ _ hpop =>
    obtain rfl := hd
    exact ⟨hpop.agrees h.agrees hg,h.stamp,by simp,by simp,by simp [Watcher.owning],by simp [hreason]⟩
  | hand hhanding _ _ =>
    obtain ⟨rfl,rfl⟩ := hd
    exact h.rearm hg
  | rearm hwoken hreason hempty _ _ =>
    obtain ⟨rfl,rfl⟩ := hd
    exact h.rearm fun top rest htop => by simp [hempty] at htop
  | advance elapsed =>
    refine ⟨h.agrees,h.stamp.trans (by simp),fun hfresh => ?_,h.wake,h.covers,fun hreason a ha => ?_⟩
    · rcases hd with ⟨wake,hwaiting⟩ | hwoken
      · simp [hwaiting] at hfresh
      · simp [hwoken] at hfresh
    · rw [show s.scheduledActions.items = [] from hg hreason] at ha
      cases ha
  | terminate | leave | destroy | join => exact hd.elim

theorem create_inTime (start : ℤ) : InTime clock (create clock start : TaskScheduler α) := by
  refine ⟨agrees_nil _,le_rfl,fun _ => rfl,fun wake hwaiting => ?_,fun _ a ha => ?_,fun _ a ha => ?_⟩
  · cases hwaiting
  · cases ha
  · cases ha

/-- The wake-up time covers the first deadline in every state of a run in which requests to
update the delay are handled at once. -/
theorem wakesInTime_of_updatesAtOnce (clock : Clock) (start : ℤ) {t : TaskScheduler α}
    {trace : List (TaskScheduler α × SchedulerEvent α)}
    (hr : Run (Step clock) (create clock start) trace t) (hd : Guarded ClockStops trace)
    (hg : Guarded (UpdatesAtOnce clock) trace) :
    (∀ e ∈ trace, WakesInTime clock e.1) ∧ WakesInTime clock t := by
  have hsteps : ∀ s e (u : TaskScheduler α), InTime clock s → ClockStops s e ∧ UpdatesAtOnce clock s e →
      Step clock s e u → InTime clock u := fun s e u h hguard => h.step hguard.1 hguard.2
  have hboth : Guarded (fun s e => ClockStops s e ∧ UpdatesAtOnce clock s e) trace :=
    fun e he => ⟨hd e he,hg e he⟩
  constructor
  · intro e he
    exact (hr.invariant_states hsteps (create_inTime start) hboth e he).wakesInTime
  · exact (hr.invariant hsteps (create_inTime start) hboth).wakesInTime

/-- The watcher waits for the action that was scheduled, and no longer. -/
theorem wakesInTime_of_updatesAtOnce_armed :
    Run (Step millisecondClock) (create millisecondClock 0) armTrace armed ∧
      armed.watcher = .waiting 100 ∧
      (∀ e ∈ armTrace, WakesInTime millisecondClock e.1) ∧ WakesInTime millisecondClock armed := by
  have hstops : Guarded ClockStops armTrace := by
    intro e he
    simp only [armTrace, List.mem_cons, List.not_mem_nil, or_false] at he
    rcases he with rfl | rfl | rfl | rfl | rfl | rfl
    · trivial
    · rfl
    · exact ⟨by decide,rfl,rfl⟩
    · rfl
    · trivial
    · rfl
  have hupdates : Guarded (UpdatesAtOnce millisecondClock) armTrace := by
    intro e he
    simp only [armTrace, List.mem_cons, List.not_mem_nil, or_false] at he
    rcases he with rfl | rfl | rfl | rfl | rfl | rfl
    · trivial
    · trivial
    · exact ⟨agrees_nil _,fun _ => Or.inl (by decide)⟩
    · trivial
    · trivial
    · trivial
  exact ⟨arm_run,rfl,wakesInTime_of_updatesAtOnce millisecondClock 0 arm_run hstops hupdates⟩

/-- Two actions of which the second is due first. -/
def twoActions : ScheduledActions ℕ where
  items := [⟨8,50,1000⟩,⟨7,100,1000⟩]
  asked := [⟨⟨7,100,1000⟩,⟨8,50,1000⟩,⟨1000,1000⟩,true⟩]
  ordered := by
    intro key hagrees top rest hitems a ha
    obtain ⟨rfl,rfl⟩ := List.cons.inj hitems
    obtain rfl := List.mem_singleton.mp ha
    exact ((hagrees _ List.mem_cons_self).mp rfl).le

/-- Two calls of `schedule` back to back, 1000 milliseconds into the first wait. -/
def backToBackEvents : List (SchedulerEvent ℕ) :=
  [.check,.wait 0,.advance 1000,.schedule 7 100 1000 1000 [],
    .schedule 8 50 1000 1000 [⟨⟨7,100,1000⟩,⟨8,50,1000⟩,⟨1000,1000⟩,true⟩],.updateDelay 1000,.check,.wait 1000]

/-- The second call compares its delay with a time left that is 1000 milliseconds too short
and does not replace the delay of the first. -/
theorem not_wakesInTime_backToBack : ∃ trace t, trace.map Prod.snd = backToBackEvents ∧
    Run (Step millisecondClock) (create millisecondClock 0) trace t ∧ Guarded ClockStops trace ∧
      t.watcher = .waiting 1100 ∧ t.scheduledActions.items = [⟨8,50,1000⟩,⟨7,100,1000⟩] ∧
      ¬ WakesInTime millisecondClock t := by
  let c := millisecondClock
  let start : TaskScheduler ℕ := create c 0
  let locking : TaskScheduler ℕ := { start with watcher := .locking }
  let later : TaskScheduler ℕ := { idle with now := 0 + (1000 : ℕ) }
  let first : TaskScheduler ℕ :=
    { start with
      now := 1000
      scheduledActions := PriorityQueue.singleton ⟨7,100,1000⟩
      delay := 100
      watcher := .woken }
  let second : TaskScheduler ℕ := { first with scheduledActions := twoActions }
  let updated : TaskScheduler ℕ :=
    { second with delayUpdateTs := 1000, suspendReason := .executeTask, watcher := .looping }
  let ready : TaskScheduler ℕ := { updated with watcher := .locking }
  let waiting : TaskScheduler ℕ := { updated with watcher := .waiting 1100 }
  have hcheck : Step c start .check locking := Step.check rfl
  have hwait : Step c locking (.wait 0) idle := Step.wait rfl le_rfl
  have hadvance : Step c idle (.advance 1000) later := Step.advance idle 1000
  have hfirst : Step c later (.schedule 7 100 1000 1000 []) first :=
    Step.schedule rfl rfl le_rfl le_rfl (answered_nil _ _ _) (PriorityQueue.push_empty _)
  have hanswered : Answered c 1000 1000
      [⟨(⟨7,100,1000⟩ : ScheduledAction ℕ),⟨8,50,1000⟩,⟨1000,1000⟩,true⟩] := by
    intro comparison hmem
    obtain rfl := List.mem_singleton.mp hmem
    exact ⟨le_rfl,le_rfl,le_rfl,by decide⟩
  have hsecond : Step c first (.schedule 8 50 1000 1000 [⟨⟨7,100,1000⟩,⟨8,50,1000⟩,⟨1000,1000⟩,true⟩]) second :=
    Step.schedule rfl rfl le_rfl le_rfl hanswered
      ⟨List.Perm.refl _,rfl,by simp [PriorityQueue.Among, twoActions]⟩
  have hupdate : Step c second (.updateDelay 1000) updated := Step.updateDelay rfl rfl le_rfl
  have hagain : Step c updated .check ready := Step.check rfl
  have hwaiting : Step c ready (.wait 1000) waiting := Step.wait rfl le_rfl
  refine ⟨[(start,.check),(locking,.wait 0),(idle,.advance 1000),
    (later,.schedule 7 100 1000 1000 []),
    (first,.schedule 8 50 1000 1000 [⟨⟨7,100,1000⟩,⟨8,50,1000⟩,⟨1000,1000⟩,true⟩]),(second,.updateDelay 1000),
    (updated,.check),(ready,.wait 1000)],waiting,rfl,?_,?_,rfl,rfl,fun h => ?_⟩
  · exact Run.cons hcheck (Run.cons hwait (Run.cons hadvance (Run.cons hfirst (Run.cons hsecond
      (Run.cons hupdate (Run.cons hagain (Run.cons hwaiting (Run.nil _))))))))
  · simp only [guarded_cons, guarded_nil, and_true]
    exact ⟨trivial,rfl,Or.inl ⟨_,rfl⟩,⟨by decide,rfl,rfl⟩,⟨by decide,rfl,rfl⟩,rfl,trivial,rfl⟩
  · have hlate : (1100 : ℤ) ≤ 1050 := h 1100 rfl ⟨8,50,1000⟩ List.mem_cons_self
    exact absurd hlate (by decide)

end Isml.TaskScheduler
