import Isml.Task.FutureReady

/-! # A task that is performed once

The workers of an executor call `perform` once on each action, while anybody may try to cancel the task.
Where the only call is at determines the status and the promise, up to a cancellation; and left alone the
call comes back.
-/
namespace Isml
open LabelledRun Threads

namespace Performing
variable {T E : Type}

/-- The call has invoked the function. -/
def invoked : Performing T E → Bool
  | .running | .finished _ | .completing | .returned true => true
  | _ => false

/-- What the only call implies about the status and the promise. -/
def Agrees (status : Status) (promise : Option (Except (TaskException E) T)) : Performing T E → Prop
  | .entered | .starting => (status = .created ∨ status = .cancelled) ∧ promise = none
  | .cancelled => status = .cancelled ∧ promise = none
  | .invoking | .running | .finished _ => status = .inProgress ∧ promise = none
  | .completing => status = .inProgress ∧ promise.isSome = true
  | .returned true => promise.isSome = true
  | .returned false => True

/-- The steps of a call up to its return. -/
def distance : Performing T E → ℕ
  | .entered => 7
  | .starting => 6
  | .invoking => 5
  | .running => 4
  | .finished _ => 3
  | .completing => 2
  | .cancelled => 1
  | .returned _ => 0

theorem Agrees.tryCancel {status after : Status} {promise : Option (Except (TaskException E) T)}
    {c : Performing T E} {result : CancellationResult} {spurious : Bool} (h : c.Agrees status promise)
    (hcancel : Task.tryCancel spurious status = (after,result)) : c.Agrees after promise := by
  rw [Task.tryCancel_eq] at hcancel
  cases status with
  | created =>
    obtain ⟨rfl,-⟩ := Prod.mk.inj hcancel
    cases c with
    | entered | starting => exact ⟨by cases spurious <;> simp,h.2⟩
    | returned b => cases b <;> exact h
    | cancelled | invoking | running | finished | completing => cases h.1
  | inProgress | completed | cancelled =>
    obtain ⟨rfl,-⟩ := Prod.mk.inj hcancel
    exact h

end Performing

/-- A step of a call that nobody hinders: no cancellation, and no exchange that fails without a reason. -/
def TaskEvent.unhindered {T E : Type} : TaskEvent T E → Bool
  | .perform | .tryCancel _ | .trySetInProgress true | .assertCompleted true => false
  | _ => true

namespace Task
variable {T E : Type} {ndebug : Bool} {s t : Task T E} {e : TaskEvent T E}

/-- No call of `perform`, or one. -/
inductive SingleCall (s : Task T E) : Prop
  | unperformed : s.performs = [] → s.status = .created ∨ s.status = .cancelled → s.promise = none →
      s.invocations = 0 → SingleCall s
  | performed (c : Performing T E) : s.performs = [c] → c.Agrees s.status s.promise →
      s.invocations = c.invoked.toNat → SingleCall s

/-- The call has left the task without an answer, its exchange having failed spuriously or because of a
cancellation, or a cancellation will make it fail. -/
def Lost (s : Task T E) : Prop :=
  s.promise = none ∧ (.returned false ∈ s.performs ∨ .starting ∈ s.performs ∧ s.status = .cancelled)

theorem created_singleCall : SingleCall (created : Task T E) := .unperformed rfl (Or.inl rfl) rfl rfl

section Moved
variable {a b : Performing T E} {performs : List (Performing T E)}

theorem SingleCall.of_mem (h : SingleCall s) (ha : a ∈ s.performs) :
    s.performs = [a] ∧ a.Agrees s.status s.promise ∧ s.invocations = a.invoked.toNat := by
  cases h with
  | unperformed hnone =>
    rw [hnone] at ha
    cases ha
  | performed c hc hagrees hinvoked =>
    rw [hc] at ha
    rw [List.mem_singleton.mp ha]
    exact ⟨hc,hagrees,hinvoked⟩

theorem SingleCall.moved (h : SingleCall s) (hmove : Moves a b s.performs performs) : performs = [b] := by
  rw [(h.of_mem hmove.left_mem).1] at hmove
  exact hmove.singleton.2

end Moved

/-- One call stays the only one. -/
theorem SingleCall.step (h : SingleCall s) (he : e = .perform → s.performs = []) (hstep : Step ndebug s e t) :
    SingleCall t := by
  cases hstep with
  | perform =>
    cases h with
    | unperformed hnone hstatus hpromise hinvoked =>
      rw [hnone]
      exact .performed .entered rfl ⟨hstatus,hpromise⟩ hinvoked
    | performed c hc =>
      rw [he rfl] at hc
      cases hc
  | isCancelled _ hmove =>
    obtain ⟨_,hagrees,hinvoked⟩ := h.of_mem hmove.left_mem
    refine .performed _ (h.moved hmove) ?_ ?_
    · split_ifs with hcancelled
      · exact ⟨of_decide_eq_true hcancelled,hagrees.2⟩
      · exact hagrees
    · split_ifs <;> exact hinvoked
  | setException _ _ hmove =>
    obtain ⟨_,_,hinvoked⟩ := h.of_mem hmove.left_mem
    exact .performed _ (h.moved hmove) trivial hinvoked
  | setExceptionAgain _ hpromise hmem =>
    obtain ⟨hc,hagrees,hinvoked⟩ := h.of_mem hmem
    exact .performed _ hc hagrees hinvoked
  | @trySetInProgress _ answer _ _ _ hset hmove =>
    obtain ⟨_,hagrees,hinvoked⟩ := h.of_mem hmove.left_mem
    refine .performed _ (h.moved hmove) ?_ ?_
    · cases answer with
      | true =>
        obtain ⟨_,_,rfl⟩ := trySetInProgress_eq_true hset
        exact ⟨rfl,hagrees.2⟩
      | false => trivial
    · cases answer <;> exact hinvoked
  | invoke _ hmove =>
    obtain ⟨_,hagrees,hinvoked⟩ := h.of_mem hmove.left_mem
    exact .performed _ (h.moved hmove) hagrees (congrArg (· + 1) hinvoked)
  | leave _ hmove =>
    obtain ⟨_,hagrees,hinvoked⟩ := h.of_mem hmove.left_mem
    exact .performed _ (h.moved hmove) hagrees hinvoked
  | setOutcome _ _ hmove =>
    obtain ⟨_,hagrees,hinvoked⟩ := h.of_mem hmove.left_mem
    exact .performed _ (h.moved hmove) ⟨hagrees.1,rfl⟩ hinvoked
  | setOutcomeAgain _ hpromise hmem =>
    obtain ⟨hc,hagrees,hinvoked⟩ := h.of_mem hmem
    exact .performed _ hc hagrees hinvoked
  | assertSkipped _ _ hmove | assertCompleted _ _ _ hmove =>
    obtain ⟨_,hagrees,hinvoked⟩ := h.of_mem hmove.left_mem
    exact .performed _ (h.moved hmove) hagrees.2 hinvoked
  | assertFailed _ _ hset hmem =>
    obtain ⟨hc,hagrees,hinvoked⟩ := h.of_mem hmem
    have hsame := trySetCompleted_eq_false hset
    exact .performed _ hc (hsame ▸ hagrees) hinvoked
  | tryCancel _ hcancel =>
    cases h with
    | unperformed hnone hstatus hpromise hinvoked =>
      refine .unperformed hnone ?_ hpromise hinvoked
      have hagrees : (Performing.entered : Performing T E).Agrees s.status s.promise := ⟨hstatus,hpromise⟩
      exact (hagrees.tryCancel hcancel).1
    | performed c hc hagrees hinvoked => exact .performed c hc (hagrees.tryCancel hcancel) hinvoked

theorem stopped_of_step (hstep : Step ndebug s e t) : s.stopped = none := by
  cases hstep <;> assumption

theorem performs_length (he : e ≠ .perform) (hstep : Step ndebug s e t) :
    t.performs.length = s.performs.length := by
  cases hstep with
  | perform => exact absurd rfl he
  | isCancelled _ hmove | setException _ _ hmove | trySetInProgress _ _ hmove | invoke _ hmove
    | leave _ hmove | setOutcome _ _ hmove | assertSkipped _ _ hmove | assertCompleted _ _ _ hmove =>
    exact hmove.length_eq
  | setExceptionAgain | setOutcomeAgain | assertFailed | tryCancel => rfl

/-- Behind the return of a call nobody touches the promise. -/
theorem same_of_returned (h : ∀ c ∈ s.performs, c.active = false) (he : e ≠ .perform)
    (hstep : Step ndebug s e t) : t.performs = s.performs ∧ t.promise = s.promise := by
  cases hstep with
  | perform => exact absurd rfl he
  | isCancelled _ hmove | setException _ _ hmove | trySetInProgress _ _ hmove | invoke _ hmove
    | leave _ hmove | setOutcome _ _ hmove | assertSkipped _ _ hmove | assertCompleted _ _ _ hmove =>
    cases h _ hmove.left_mem
  | setExceptionAgain | setOutcomeAgain | assertFailed | tryCancel => exact ⟨rfl,rfl⟩

theorem lost_iff {c : Performing T E} (hc : s.performs = [c]) : Lost s ↔
    s.promise = none ∧ (c = .returned false ∨ c = .starting ∧ s.status = .cancelled) := by
  unfold Lost
  rw [hc, List.mem_singleton, List.mem_singleton, @eq_comm _ (Performing.returned false),
    @eq_comm _ Performing.starting]

theorem not_lost {c : Performing T E} (hc : s.performs = [c]) (hreturned : c ≠ .returned false)
    (hstarting : c ≠ .starting) : ¬ Lost s := by
  rw [lost_iff hc]
  exact fun h => h.2.elim hreturned fun h => hstarting h.1

/-- A call that has not come back can go on, and loses no answer by that. -/
theorem SingleCall.exists_nearer (ndebug : Bool) (h : SingleCall s) (hstopped : s.stopped = none)
    (outcome : Except E T) {c : Performing T E} (hc : s.performs = [c]) (hactive : c.active = true) :
    ∃ e t d, TaskEvent.unhindered e = true ∧ Step ndebug s e t ∧ t.stopped = none ∧ t.performs = [d] ∧
      d.distance < c.distance ∧ (¬ Lost s → ¬ Lost t) := by
  have hmove : ∀ d, Moves c d s.performs [d] := fun d => by
    rw [hc]
    exact Moves.intro [] []
  obtain ⟨_,hagrees,_⟩ := h.of_mem (hc ▸ List.mem_singleton_self c)
  cases c with
  | entered =>
    by_cases hcancelled : isCancelled s.status = true
    · have hstep : Step ndebug s .isCancelled { s with performs := [.cancelled] } :=
        .isCancelled hstopped (by rw [if_pos hcancelled]; exact hmove .cancelled)
      exact ⟨_,_,.cancelled,rfl,hstep,hstopped,rfl,by simp [Performing.distance],
        fun _ => not_lost rfl nofun nofun⟩
    · have hstep : Step ndebug s .isCancelled { s with performs := [.starting] } :=
        .isCancelled hstopped (by rw [if_neg hcancelled]; exact hmove .starting)
      refine ⟨_,_,.starting,rfl,hstep,hstopped,rfl,by simp [Performing.distance],fun _ hlost => ?_⟩
      rcases ((lost_iff rfl).mp hlost).2 with hreturned | hstarting
      · cases hreturned
      · exact hcancelled (decide_eq_true hstarting.2)
  | cancelled =>
    refine ⟨_,_,.returned false,rfl,.setException hstopped hagrees.2 (hmove _),hstopped,rfl,
      by simp [Performing.distance],fun _ hlost => ?_⟩
    cases hlost.1
  | starting =>
    rcases hagrees.1 with hcreated | hcancelled
    · have hset : Task.trySetInProgress false s.status = (.inProgress,true) := by
        rw [hcreated]
        rfl
      exact ⟨.trySetInProgress false,_,.invoking,rfl,.trySetInProgress hstopped hset (hmove _),hstopped,rfl,
        by simp [Performing.distance],fun _ => not_lost rfl nofun nofun⟩
    · have hset : Task.trySetInProgress false s.status = (.cancelled,false) := by
        rw [hcancelled]
        rfl
      have hlost : Lost s := (lost_iff hc).mpr ⟨hagrees.2,Or.inr ⟨rfl,hcancelled⟩⟩
      exact ⟨.trySetInProgress false,_,.returned false,rfl,.trySetInProgress hstopped hset (hmove _),
        hstopped,rfl,by simp [Performing.distance],fun hnot => absurd hlost hnot⟩
  | invoking =>
    exact ⟨_,_,.running,rfl,.invoke hstopped (hmove _),hstopped,rfl,by simp [Performing.distance],
      fun _ => not_lost rfl nofun nofun⟩
  | running =>
    exact ⟨.leave outcome,_,.finished outcome,rfl,.leave hstopped (hmove _),hstopped,rfl,
      by simp [Performing.distance],fun _ => not_lost rfl nofun nofun⟩
  | finished result =>
    exact ⟨_,_,.completing,rfl,.setOutcome hstopped hagrees.2 (hmove _),hstopped,rfl,
      by simp [Performing.distance],fun _ => not_lost rfl nofun nofun⟩
  | completing =>
    cases hndebug : ndebug with
    | true =>
      exact ⟨.assertCompleted false,_,.returned true,rfl,.assertSkipped hstopped rfl (hmove _),hstopped,rfl,
        by simp [Performing.distance],fun _ => not_lost rfl nofun nofun⟩
    | false =>
      have hset : Task.trySetCompleted false s.status = (.completed,true) := by
        rw [hagrees.1]
        rfl
      exact ⟨.assertCompleted false,_,.returned true,rfl,.assertCompleted hstopped rfl hset (hmove _),
        hstopped,rfl,by simp [Performing.distance],fun _ => not_lost rfl nofun nofun⟩
  | returned b => cases hactive

/-- Left alone a call comes back, and loses no answer by that. -/
theorem SingleCall.exists_returned (ndebug : Bool) (h : SingleCall s) (hstopped : s.stopped = none)
    (outcome : Except E T) (hperformed : s.performs ≠ []) :
    ∃ rest t, Run (Step ndebug) s rest t ∧ (∀ e ∈ rest, TaskEvent.unhindered e.2 = true) ∧
      t.stopped = none ∧ (∀ c ∈ t.performs, c.active = false) ∧ (¬ Lost s → ¬ Lost t) := by
  let Good (u : Task T E) : Prop :=
    SingleCall u ∧ u.stopped = none ∧ (∃ c, u.performs = [c]) ∧ (¬ Lost s → ¬ Lost u)
  have hgood : Good s := by
    refine ⟨h,hstopped,?_,id⟩
    obtain ⟨c,hc⟩ := List.exists_mem_of_ne_nil _ hperformed
    exact ⟨c,(h.of_mem hc).1⟩
  have hprogress : ∀ u, Good u → (¬ ∀ c ∈ u.performs, c.active = false) → ∃ e t,
      TaskEvent.unhindered e = true ∧ Step ndebug u e t ∧ Good t ∧
        (t.performs.map Performing.distance).sum < (u.performs.map Performing.distance).sum := by
    rintro u ⟨hu,hrunning,⟨c,hc⟩,hlost⟩ hactive
    rw [hc, List.forall_mem_singleton, Bool.not_eq_false] at hactive
    obtain ⟨e,t,d,he,hstep,ht,hd,hlt,hkept⟩ := hu.exists_nearer ndebug hrunning outcome hc hactive
    have hsingle : SingleCall t := hu.step (fun heq => by rw [heq] at he; cases he) hstep
    refine ⟨e,t,he,hstep,⟨hsingle,ht,⟨d,hd⟩,fun hnot => hkept (hlost hnot)⟩,?_⟩
    rw [hc, hd]
    simpa using hlt
  obtain ⟨rest,t,hrest,hunhindered,⟨_,hrunning,_,hlost⟩,hreturned⟩ :=
    exists_run_to (fun u : Task T E => (u.performs.map Performing.distance).sum) hprogress s hgood
  exact ⟨rest,t,hrest,hunhindered,hrunning,hreturned,hlost⟩

theorem SingleCall.answered_iff (h : SingleCall s) :
    FutureReady s ↔ (.returned false ∈ s.performs → s.promise.isSome = true) := by
  constructor
  · intro hready hmem
    obtain ⟨hc,_⟩ := h.of_mem hmem
    refine hready (List.ne_nil_of_mem hmem) ?_
    rw [hc, List.forall_mem_singleton]
    rfl
  · intro hanswer hperformed hreturned
    obtain ⟨c,hmem⟩ := List.exists_mem_of_ne_nil _ hperformed
    obtain ⟨_,hagrees,_⟩ := h.of_mem hmem
    have hinactive := hreturned c hmem
    cases c with
    | returned b =>
      cases b with
      | true => exact hagrees
      | false => exact hanswer hmem
    | _ => cases hinactive

theorem SingleCall.futureReady_of_not_lost (h : SingleCall s) (hlost : ¬ Lost s) : FutureReady s := by
  refine h.answered_iff.mpr fun hmem => ?_
  rw [Option.isSome_iff_ne_none]
  exact fun hnone => hlost ⟨hnone,Or.inl hmem⟩

/-- The exchange that sets the task in progress neither meets a cancellation nor fails without a reason. -/
def GoesOn (s : Task T E) : TaskEvent T E → Prop
  | .trySetInProgress spurious => s.status ≠ .cancelled ∧ spurious = false
  | _ => True

theorem SingleCall.futureReady_step (h : SingleCall s) (hready : FutureReady s) (hg : GoesOn s e)
    (he : e = .perform → s.performs = []) (hstep : Step ndebug s e t) : FutureReady t := by
  have ht : SingleCall t := h.step he hstep
  rw [h.answered_iff] at hready
  rw [ht.answered_iff]
  intro hmem
  cases hstep with
  | perform =>
    rcases List.mem_cons.mp hmem with hentered | hmem
    · cases hentered
    · exact hready hmem
  | isCancelled _ hmove =>
    rw [h.moved hmove, List.mem_singleton] at hmem
    split_ifs at hmem
  | setException => rfl
  | setExceptionAgain | setOutcomeAgain | assertFailed | tryCancel => exact hready hmem
  | @trySetInProgress _ answer _ _ _ hset hmove =>
    obtain ⟨_,hagrees,_⟩ := h.of_mem hmove.left_mem
    rw [h.moved hmove, List.mem_singleton] at hmem
    cases answer with
    | true => cases hmem
    | false =>
      have hcreated := hagrees.1.resolve_right hg.1
      have hspurious := (trySetInProgress_eq_false hset).2 hcreated
      rw [hg.2] at hspurious
      cases hspurious
  | invoke _ hmove | leave _ hmove | setOutcome _ _ hmove | assertSkipped _ _ hmove
    | assertCompleted _ _ _ hmove =>
    rw [h.moved hmove, List.mem_singleton] at hmem
    cases hmem

/-- An exchange that fails leaves the task without an answer. -/
theorem SingleCall.lost_of_not_goesOn (h : SingleCall s) (hg : ¬ GoesOn s e) (hstep : Step ndebug s e t) :
    t.promise = none ∧ .returned false ∈ t.performs := by
  cases hstep with
  | @trySetInProgress _ answer _ _ _ hset hmove =>
    obtain ⟨_,hagrees,_⟩ := h.of_mem hmove.left_mem
    cases answer with
    | true =>
      obtain ⟨hcreated,hspurious,_⟩ := trySetInProgress_eq_true hset
      refine absurd ⟨?_,hspurious⟩ hg
      rw [hcreated]
      nofun
    | false => exact ⟨hagrees.2,hmove.right_mem⟩
  | _ => exact absurd trivial hg

end Task

end Isml
