import Isml.Task.TaskScheduler

/-! # No action is handed on before it is due

The watcher does not look at the time left of the action it takes: a wait that ended with
`ExecuteTask` in `m_suspend_reason` is taken for one that lasted. That is right as long as
no such wait ends before its wake-up time on the scheduler's clock while the first action is
not due.
-/
namespace Isml.TaskScheduler
open LabelledRun PriorityQueues

variable {α : Type} {clock : Clock} {s t : TaskScheduler α} {e : SchedulerEvent α}

/-- What the watcher hands to `doExecute` is due. -/
def HandsDue (clock : Clock) (s : TaskScheduler α) : Prop :=
  ∀ action, s.watcher = .handing action → action.deadline clock ≤ s.now

/-- The readings of the comparisons put the actions in the order of their deadlines, an action
scheduled to an empty queue wakes the watcher, and with `ExecuteTask` in `m_suspend_reason` the wait
ends before its wake-up time on the scheduler's clock, for whatever reason, only when the action at
the top is due. -/
def WaitsForDue (clock : Clock) (s : TaskScheduler α) : SchedulerEvent α → Prop
  | .schedule _ delay _ left comparisons =>
    ReadsBy clock (ScheduledAction.deadline clock) comparisons ∧
      (s.scheduledActions.items = [] → delay < s.timeLeft clock left)
  | .pop _ comparisons => ReadsBy clock (ScheduledAction.deadline clock) comparisons
  | .wake => s.suspendReason = .executeTask →
      ∀ top rest, s.scheduledActions.items = top :: rest → top.deadline clock ≤ s.now
  | _ => True

/-- The watcher does not take an action before `time`. -/
def NotBefore (clock : Clock) (s : TaskScheduler α) (time : ℤ) : Prop :=
  match s.suspendReason with
  | .terminate => True
  | .updateDelay => time ≤ s.now + s.delay * clock.ticks
  | .executeTask =>
    match s.watcher with
    | .looping | .locking => time ≤ s.now + s.delay * clock.ticks
    | .waiting wake => time ≤ wake
    | .woken => time ≤ s.now
    | .handing _ | .returned => True

/-- Some queued action is due by the time the watcher takes the next one. -/
structure DueInTime (clock : Clock) (s : TaskScheduler α) : Prop where
  hands : HandsDue clock s
  due : s.scheduledActions.items ≠ [] →
    ∃ a ∈ s.scheduledActions.items, NotBefore clock s (a.deadline clock)

section NotBefore
variable {time : ℤ}

theorem notBefore_terminate (h : s.suspendReason = .terminate) : NotBefore clock s time := by
  rw [NotBefore, h]
  trivial

theorem notBefore_updateDelay (h : s.suspendReason = .updateDelay) :
    NotBefore clock s time ↔ time ≤ s.now + s.delay * clock.ticks := by
  rw [NotBefore, h]

theorem notBefore_woken (hreason : s.suspendReason = .executeTask) (hwatcher : s.watcher = .woken) :
    NotBefore clock s time ↔ time ≤ s.now := by
  rw [NotBefore, hreason, hwatcher]

theorem notBefore_delay (hwatcher : s.watcher = .looping ∨ s.watcher = .locking)
    (h : time ≤ s.now + s.delay * clock.ticks) : NotBefore clock s time := by
  unfold NotBefore
  rcases hwatcher with hwatcher | hwatcher <;> cases s.suspendReason <;> simp only [hwatcher] <;> trivial

theorem notBefore_over (hreason : s.suspendReason = .executeTask)
    (hwatcher : (∃ action, s.watcher = .handing action) ∨ s.watcher = .returned) :
    NotBefore clock s time := by
  unfold NotBefore
  rcases hwatcher with ⟨action,hwatcher⟩ | hwatcher <;> simp only [hreason, hwatcher]

/-- Time only makes an action due. -/
theorem NotBefore.later (h : NotBefore clock s time) (hnow : s.now ≤ t.now) (hdelay : t.delay = s.delay)
    (hreason : t.suspendReason = s.suspendReason) (hwatcher : t.watcher = s.watcher) :
    NotBefore clock t time := by
  unfold NotBefore at h ⊢
  rw [hreason, hwatcher, hdelay]
  cases hr : s.suspendReason with
  | terminate => trivial
  | updateDelay =>
    rw [hr] at h
    exact h.trans (by omega)
  | executeTask =>
    rw [hr] at h
    cases hw : s.watcher <;> rw [hw] at h <;> dsimp only at h ⊢ <;> omega

end NotBefore

theorem DueInTime.move {watcher : Watcher α} (h : DueInTime clock s)
    (hwatcher : ∀ action, watcher ≠ .handing action)
    (hdue : ∀ time, NotBefore clock s time → NotBefore clock { s with watcher := watcher } time) :
    DueInTime clock { s with watcher := watcher } := by
  refine ⟨fun action hhanding => absurd hhanding (hwatcher action),fun hqueue => ?_⟩
  obtain ⟨a,ha,hbound⟩ := h.due hqueue
  exact ⟨a,ha,hdue _ hbound⟩

theorem DueInTime.later {now : ℤ} (h : DueInTime clock s) (hnow : s.now ≤ now) :
    DueInTime clock { s with now := now } := by
  refine ⟨fun action hhanding => (h.hands action hhanding).trans hnow,fun hqueue => ?_⟩
  obtain ⟨a,ha,hdue⟩ := h.due hqueue
  exact ⟨a,ha,hdue.later hnow rfl rfl rfl⟩

theorem DueInTime.schedule {action : α} {delay created left : ℤ}
    {comparisons : List (DelayComparison α)} {queue : ScheduledActions α} {late : ℕ} (h : DueInTime clock s)
    (howning : s.watcher.owning = false) (hnow : s.now ≤ created) (hleft : created ≤ left)
    (hpush : PriorityQueue.Push ⟨action,delay,created⟩ comparisons s.scheduledActions queue)
    (hempty : s.scheduledActions.items = [] → delay < s.timeLeft clock left) :
    DueInTime clock (afterPush clock delay left
      { s with now := left, scheduledActions := queue, acceptedLate := late }) := by
  let pushed : TaskScheduler α :=
    { s with now := left, scheduledActions := queue, acceptedLate := late }
  change DueInTime clock (afterPush clock delay left pushed)
  have hfree := Watcher.ne_handing_of_owning howning
  by_cases hlt : delay < pushed.timeLeft clock left
  · -- the new action is due when the new delay is over
    rw [afterPush_of_lt hlt]
    refine ⟨fun a hhanding => ?_,fun _ => ?_⟩
    · exact absurd (Watcher.notify_eq_handing.mp hhanding) (hfree a)
    · refine ⟨_,hpush.mem_iff.mpr (Or.inl rfl),(notBefore_updateDelay rfl).mpr ?_⟩
      change created + delay * clock.ticks ≤ left + delay * clock.ticks
      omega
  · rw [afterPush_of_le (not_lt.mp hlt)]
    refine ⟨fun a hhanding => absurd hhanding (hfree a),fun _ => ?_⟩
    obtain ⟨a,ha,hdue⟩ := h.due fun hnone => hlt (hempty hnone)
    exact ⟨a,hpush.mem_iff.mpr (Or.inr ha),hdue.later (hnow.trans hleft) rfl rfl rfl⟩

theorem DueInTime.pop {read : ℤ} {top : ScheduledAction α}
    {comparisons : List (DelayComparison α)} {queue : ScheduledActions α} (h : DueInTime clock s)
    (hagrees : Agrees (ScheduledAction.deadline clock) s.scheduledActions.asked)
    (hwoken : s.watcher = .woken) (hreason : s.suspendReason = .executeTask) (hnow : s.now ≤ read)
    (hpop : PriorityQueue.Pop top comparisons s.scheduledActions queue) : DueInTime clock
      { s with now := read, scheduledActions := queue, watcher := .handing top } := by
  refine ⟨?_,fun hqueue => ?_⟩
  · obtain ⟨rest,htop,-⟩ := hpop.perm
    obtain ⟨a,ha,hdue⟩ := h.due (by simp [htop])
    have hfirst := s.scheduledActions.top_le hagrees htop ha
    rw [notBefore_woken hreason hwoken] at hdue
    rintro action ⟨rfl⟩
    exact (hfirst.trans hdue).trans hnow
  · obtain ⟨a,ha⟩ := List.exists_mem_of_ne_nil _ hqueue
    exact ⟨a,ha,notBefore_over hreason (Or.inl ⟨top,rfl⟩)⟩

/-- The new delay is at least what is left of the action at the top. -/
theorem rearm_dueInTime {left update : ℤ} (hcreated : Created s) (hnow : s.now ≤ left)
    (hleft : left ≤ update) : DueInTime clock (rearm clock left update s) := by
  refine ⟨fun a hhanding => ?_,fun hqueue => ?_⟩
  · cases hhanding
  · obtain ⟨top,rest,htop⟩ := List.exists_cons_of_ne_nil hqueue
    have hmem : top ∈ s.scheduledActions.items := by
      rw [show s.scheduledActions.items = top :: rest from htop]
      exact List.mem_cons_self
    refine ⟨top,hmem,notBefore_delay (Or.inl rfl) ?_⟩
    have hround : top.deadline clock ≤ left + top.timeLeft clock left * clock.ticks :=
      deadline_le_timeLeft ((hcreated top hmem).trans hnow)
    change top.deadline clock ≤ update + nextDelay clock left s.scheduledActions * clock.ticks
    rw [nextDelay_of_top (show s.scheduledActions.items = top :: rest from htop)]
    omega

theorem DueInTime.step (h : DueInTime clock s)
    (hasked : AskedBy clock (ScheduledAction.deadline clock) s) (hg : WaitsForDue clock s e)
    (hstep : Step clock s e t) : DueInTime clock t := by
  cases hstep with
  | schedule howning _ hnow hleft _ hpush => exact h.schedule howning hnow hleft hpush hg.2
  | refuse => exact h
  | terminate howning =>
    refine ⟨fun action hhanding => ?_,fun hqueue => ?_⟩
    · exact absurd (Watcher.notify_eq_handing.mp hhanding) (Watcher.ne_handing_of_owning howning action)
    · obtain ⟨a,ha,-⟩ := h.due hqueue
      exact ⟨a,ha,notBefore_terminate rfl⟩
  | check hlooping =>
    refine h.move (by split_ifs <;> simp) fun time hdue => ?_
    unfold NotBefore at hdue ⊢
    rw [hlooping] at hdue
    cases hreason : s.suspendReason <;> rw [hreason] at hdue <;> split_ifs <;> trivial
  | @wait read hlocking hnow =>
    refine (h.later hnow).move (by simp) fun time hdue => ?_
    unfold NotBefore at hdue ⊢
    cases hreason : s.suspendReason <;> simp only [hreason, hlocking] at hdue ⊢ <;> exact hdue
  | timeout hwaiting hwake =>
    refine h.move (by simp) fun time hdue => ?_
    unfold NotBefore at hdue ⊢
    cases hreason : s.suspendReason <;> simp only [hreason, hwaiting] at hdue ⊢
    · exact hdue
    · exact hdue.trans hwake
  | wake hwaiting =>
    by_cases hreason : s.suspendReason = .executeTask
    · -- the top itself is due
      refine ⟨fun action hhanding => ?_,fun hqueue => ?_⟩
      · cases hhanding
      · obtain ⟨top,rest,htop⟩ := List.exists_cons_of_ne_nil hqueue
        have htop : s.scheduledActions.items = top :: rest := htop
        refine ⟨top,?_,?_⟩
        · rw [htop]
          exact List.mem_cons_self
        · rw [notBefore_woken (s := { s with watcher := .woken }) hreason rfl]
          exact hg hreason top rest htop
    · refine h.move (by simp) fun time hdue => ?_
      unfold NotBefore at hdue ⊢
      cases hr : s.suspendReason with
      | executeTask => exact absurd hr hreason
      | updateDelay =>
        rw [hr] at hdue
        exact hdue
      | terminate => trivial
  | @updateDelay read hwoken hreason hnow =>
    refine ⟨fun action hhanding => ?_,fun hqueue => ?_⟩
    · cases hhanding
    · obtain ⟨a,ha,hdue⟩ := h.due hqueue
      rw [notBefore_updateDelay hreason] at hdue
      refine ⟨a,ha,notBefore_delay (Or.inl rfl) ?_⟩
      change a.deadline clock ≤ read + s.delay * clock.ticks
      omega
  | pop hwoken hreason hnow _ hpop => exact h.pop hasked.agrees hwoken hreason hnow hpop
  | hand hhanding hnow hleft => exact rearm_dueInTime hasked.asked.created hnow hleft
  | rearm hwoken hreason hempty hnow hleft => exact rearm_dueInTime hasked.asked.created hnow hleft
  | leave hwoken hreason => exact h.move (by simp) fun time _ => notBefore_terminate hreason
  | advance elapsed => exact h.later (by omega)
  | destroy =>
    refine ⟨h.hands,fun hqueue => ?_⟩
    obtain ⟨a,ha,hdue⟩ := h.due hqueue
    exact ⟨a,ha,hdue.later le_rfl rfl rfl rfl⟩
  | join hjoining hreturned =>
    refine ⟨by simp [HandsDue, hreturned],fun hqueue => ?_⟩
    obtain ⟨a,ha,-⟩ := h.due hqueue
    exact ⟨a,ha,notBefore_terminate rfl⟩

end Isml.TaskScheduler
