import Isml.Task.TaskScheduler

/-! # The shutdown of the scheduler

The termination request is a value of `m_suspend_reason`, which `doSchedule` also writes.
What guards `doSchedule` is the `m_done` of the executor, which `doTerminate` leaves alone,
and the destructor terminates the executor behind the `join` that waits for the request.
-/
namespace Isml.TaskScheduler
open LabelledRun PriorityQueues

variable {α : Type} {clock : Clock} {s t : TaskScheduler α} {e : SchedulerEvent α}

/-- Once `doTerminate` has run the request stands until the watcher has returned and nothing
is accepted any more; while the destructor is blocked in `join` there is a request, and
whatever the watcher does after a wake-up is to return. -/
structure ShutsDown (clock : Clock) (s : TaskScheduler α) : Prop where
  requested : s.terminated = true →
    s.watcher = .returned ∨ s.suspendReason = .terminate ∨ s.done = true
  refused : s.acceptedLate = 0
  joining : s.lifetime = .joining → s.watcher ≠ .returned → s.terminated = true ∧
    ∀ e t, Step clock s e t → s.watcher = .woken → t.watcher = .woken ∨ t.watcher = .returned

/-- Nobody schedules behind `doTerminate`, and nobody destroys before it. -/
def TerminatedLast (s : TaskScheduler α) : SchedulerEvent α → Prop
  | .schedule _ _ _ _ _ => s.terminated = true → s.done = true
  | .destroy => s.terminated = true
  | _ => True

structure Stopping (s : TaskScheduler α) : Prop where
  requested : s.terminated = true → s.watcher = .returned ∨ s.suspendReason = .terminate
  reason : s.suspendReason = .terminate → s.terminated = true
  returned : s.watcher = .returned → s.terminated = true
  done : s.done = true → s.watcher = .returned
  joining : s.lifetime = .joining → s.terminated = true
  refused : s.acceptedLate = 0

/-- With the request in `m_suspend_reason` a woken watcher can only return. -/
theorem woken_or_returned (hreason : s.suspendReason = .terminate) (hwoken : s.watcher = .woken)
    (hstep : Step clock s e t) : t.watcher = .woken ∨ t.watcher = .returned := by
  cases hstep with
  | schedule =>
    unfold afterPush
    split_ifs <;> simp [hwoken, Watcher.notify]
  | refuse => exact Or.inl hwoken
  | terminate => simp [hwoken, Watcher.notify]
  | check hlooping => simp [hwoken] at hlooping
  | wait hlocking => simp [hwoken] at hlocking
  | timeout | wake => exact Or.inl rfl
  | updateDelay _ hupdate => simp [hreason] at hupdate
  | pop _ hexecute => simp [hreason] at hexecute
  | hand hhanding => simp [hwoken] at hhanding
  | rearm _ hexecute => simp [hreason] at hexecute
  | leave => exact Or.inr rfl
  | advance | destroy | join => exact Or.inl hwoken

theorem Stopping.shutsDown (h : Stopping s) : ShutsDown clock s := by
  refine ⟨fun hterminated => ?_,h.refused,fun hjoining hrunning => ?_⟩
  · exact (h.requested hterminated).imp_right Or.inl
  · have hterminated := h.joining hjoining
    have hreason := (h.requested hterminated).resolve_left hrunning
    exact ⟨hterminated,fun e t hstep hwoken => woken_or_returned hreason hwoken hstep⟩

/-- A step that leaves the request and its consequences alone. -/
theorem Stopping.move {now delay delayUpdateTs : ℤ} {queue : ScheduledActions α}
    {watcher : Watcher α} (h : Stopping s) (hbefore : s.watcher ≠ .returned)
    (hafter : watcher ≠ .returned) : Stopping
      { s with
        now := now
        scheduledActions := queue
        delay := delay
        delayUpdateTs := delayUpdateTs
        watcher := watcher } := by
  refine ⟨fun hrequest => ?_,h.reason,fun hreturned => absurd hreturned hafter,fun hdone => ?_,
    h.joining,h.refused⟩
  · exact Or.inr ((h.requested hrequest).resolve_left hbefore)
  · exact absurd (h.done hdone) hbefore

/-- What is accepted before the request may replace the reason of the wait. -/
theorem Stopping.schedule {delay left : ℤ} {queue : ScheduledActions α}
    (h : Stopping s) (hterminated : s.terminated = false) : Stopping (afterPush clock delay left
      { s with
        now := left
        scheduledActions := queue
        acceptedLate := s.acceptedLate + s.terminated.toNat }) := by
  have hrunning : s.watcher ≠ .returned := fun hreturned => by
    have hrequest := h.returned hreturned
    rw [hterminated] at hrequest
    cases hrequest
  have hlate : s.acceptedLate + s.terminated.toNat = 0 := by
    rw [hterminated, h.refused]
    rfl
  have hjoining : s.lifetime = .joining → False := fun hj => by
    have hrequest := h.joining hj
    rw [hterminated] at hrequest
    cases hrequest
  unfold afterPush
  split_ifs
  · refine ⟨fun hrequest => ?_,fun hreason => ?_,fun hreturned => ?_,fun hdone => ?_,
      fun hj => (hjoining hj).elim,hlate⟩
    · simp [hterminated] at hrequest
    · cases hreason
    · exact absurd (Watcher.notify_eq_returned.mp hreturned) hrunning
    · exact absurd (h.done hdone) hrunning
  · exact ⟨h.requested,h.reason,h.returned,h.done,h.joining,hlate⟩

theorem Stopping.step (h : Stopping s) (hg : TerminatedLast s e) (hstep : Step clock s e t) :
    Stopping t := by
  cases hstep with
  | schedule howning hdone =>
    refine h.schedule ?_
    cases hterminated : s.terminated with
    | false => rfl
    | true =>
      have hd := hg hterminated
      rw [hdone] at hd
      cases hd
  | refuse => exact h
  | terminate howning =>
    refine ⟨fun _ => Or.inr rfl,fun _ => rfl,fun _ => rfl,fun hdone => ?_,fun _ => rfl,h.refused⟩
    exact Watcher.notify_eq_returned.mpr (h.done hdone)
  | check hlooping =>
    have hdone : s.done = false := by
      cases hdone : s.done with
      | false => rfl
      | true =>
        have hreturned := h.done hdone
        rw [hlooping] at hreturned
        cases hreturned
    exact h.move (by simp [hlooping]) (by simp [hdone])
  | wait hlocking => exact h.move (by simp [hlocking]) (by simp)
  | timeout hwaiting => exact h.move (by simp [hwaiting]) (by simp)
  | wake hwaiting => exact h.move (by simp [hwaiting]) (by simp)
  | updateDelay hwoken hupdate =>
    have hrunning : ¬ s.terminated = true := fun hterminated => by
      rcases h.requested hterminated with hreturned | hreason
      · simp [hwoken] at hreturned
      · simp [hupdate] at hreason
    refine ⟨fun hterminated => absurd hterminated hrunning,fun hreason => ?_,fun hreturned => ?_,
      fun hdone => ?_,h.joining,h.refused⟩
    · cases hreason
    · cases hreturned
    · simpa [hwoken] using h.done hdone
  | pop hwoken => exact h.move (by simp [hwoken]) (by simp)
  | hand hhanding => exact h.move (by simp [hhanding]) (by simp)
  | rearm hwoken => exact h.move (by simp [hwoken]) (by simp)
  | leave hwoken hreason =>
    have hterminated := h.reason hreason
    exact ⟨fun _ => Or.inl rfl,fun _ => hterminated,fun _ => hterminated,fun _ => rfl,h.joining,
      h.refused⟩
  | advance => exact ⟨h.requested,h.reason,h.returned,h.done,h.joining,h.refused⟩
  | destroy => exact ⟨h.requested,h.reason,h.returned,h.done,fun _ => hg,h.refused⟩
  | join hjoining hreturned =>
    exact ⟨fun _ => Or.inl hreturned,fun _ => rfl,fun _ => rfl,fun _ => hreturned,fun _ => rfl,
      h.refused⟩

theorem not_shutsDown_of_not_terminatedLast (h : Stopping s) (hg : ¬ TerminatedLast s e)
    (hstep : Step clock s e t) : ¬ ShutsDown clock t := by
  intro hshuts
  cases hstep with
  | schedule howning hdone =>
    unfold TerminatedLast at hg
    rw [Classical.not_imp] at hg
    have hlate := hshuts.refused
    unfold afterPush at hlate
    split_ifs at hlate <;> simp [hg.1] at hlate
  | refuse howning hdone => exact hg fun _ => hdone
  | destroy hlifetime =>
    have hrunning : s.watcher ≠ .returned := fun hreturned => hg (h.returned hreturned)
    exact hg (hshuts.joining rfl hrunning).1
  | _ => exact hg trivial

theorem create_stopping (start : ℤ) : Stopping (create clock start : TaskScheduler α) := by
  refine ⟨fun h => ?_,fun h => ?_,fun h => ?_,fun h => ?_,fun h => ?_,rfl⟩ <;> cases h

/-- The shutdown goes as it should in every state of a run exactly if in the run nothing is
scheduled behind `doTerminate`, and the destructor does not begin before it. -/
theorem shutsDown_iff (clock : Clock) (start : ℤ) {t : TaskScheduler α}
    {trace : List (TaskScheduler α × SchedulerEvent α)}
    (hr : Run (Step clock) (create clock start) trace t) :
    ((∀ e ∈ trace, ShutsDown clock e.1) ∧ ShutsDown clock t) ↔ Guarded TerminatedLast trace :=
  hr.states_iff_guarded (fun _ h => h.shutsDown) (fun _ _ _ h => h.step)
    (fun _ _ _ => not_shutsDown_of_not_terminatedLast) (create_stopping start)

/-- A `terminate` while the watcher waits, and a `schedule` before the watcher has the lock. -/
def overwrittenEvents : List (SchedulerEvent ℕ) :=
  [.check,.wait 0,.terminate,.schedule 7 100 0 0 [],.updateDelay 0]

theorem overwritten_run : ∃ trace t, trace.map Prod.snd = overwrittenEvents ∧
    Run (Step millisecondClock) (create millisecondClock 0) trace t ∧ t.terminated = true ∧
      t.suspendReason = .executeTask ∧ t.watcher = .looping ∧ t.done = false ∧
      t.acceptedLate = 1 := by
  let c := millisecondClock
  let start : TaskScheduler ℕ := create c 0
  let locking : TaskScheduler ℕ := { start with watcher := .locking }
  let waiting : TaskScheduler ℕ := { start with watcher := .waiting (0 + start.delay * c.ticks) }
  let terminated : TaskScheduler ℕ :=
    { start with suspendReason := .terminate, watcher := .woken, terminated := true }
  let scheduled : TaskScheduler ℕ :=
    { terminated with
      scheduledActions := PriorityQueue.singleton ⟨7,100,0⟩
      delay := 100
      suspendReason := .updateDelay
      acceptedLate := 1 }
  let updated : TaskScheduler ℕ :=
    { scheduled with suspendReason := .executeTask, watcher := .looping }
  have hcheck : Step c start .check locking := Step.check rfl
  have hwait : Step c locking (.wait 0) waiting := Step.wait rfl le_rfl
  have hterminate : Step c waiting .terminate terminated := Step.terminate rfl
  have hschedule : Step c terminated (.schedule 7 100 0 0 []) scheduled :=
    Step.schedule rfl rfl le_rfl le_rfl (answered_nil _ _ _) (PriorityQueue.push_empty _)
  have hupdate : Step c scheduled (.updateDelay 0) updated := Step.updateDelay rfl rfl le_rfl
  refine ⟨[(start,.check),(locking,.wait 0),(waiting,.terminate),
    (terminated,.schedule 7 100 0 0 []),(scheduled,.updateDelay 0)],updated,rfl,?_,rfl,rfl,rfl,rfl,rfl⟩
  exact Run.cons hcheck (Run.cons hwait (Run.cons hterminate (Run.cons hschedule
    (Run.cons hupdate (Run.nil _)))))

theorem shutsDown_iff_overwritten : ∃ trace t, trace.map Prod.snd = overwrittenEvents ∧
    Run (Step millisecondClock) (create millisecondClock 0) trace t ∧
      (((∀ e ∈ trace, ShutsDown millisecondClock e.1) ∧ ShutsDown millisecondClock t) ↔
        Guarded TerminatedLast trace) := by
  obtain ⟨trace,t,hevents,hr,_⟩ := overwritten_run
  exact ⟨trace,t,hevents,hr,shutsDown_iff millisecondClock 0 hr⟩

/-- `doTerminate` has run, and the watcher goes on with an action accepted after it. -/
theorem not_shutsDown_overwritten : ∃ trace t, trace.map Prod.snd = overwrittenEvents ∧
    Run (Step millisecondClock) (create millisecondClock 0) trace t ∧ t.terminated = true ∧
      t.suspendReason ≠ .terminate ∧ t.watcher ≠ .returned ∧ t.acceptedLate = 1 ∧
      ¬ ShutsDown millisecondClock t := by
  obtain ⟨trace,t,hevents,hr,hterminated,hreason,hwatcher,_,hlate⟩ := overwritten_run
  refine ⟨trace,t,hevents,hr,hterminated,by simp [hreason],by simp [hwatcher],hlate,fun h => ?_⟩
  have hnone := h.refused
  omega

end Isml.TaskScheduler
