import Isml.Task.AtMostOnce

/-! # What a future answers

A promise is satisfied with what the one call of the function came to, or with the refusal of a task
that was cancelled before anyone called it. So whoever finds a task completed finds the outcome in its
future, and whoever finds it cancelled knows that the function was not called and is not going to be.
-/
namespace Isml
open LabelledRun Threads

namespace Performing
variable {T E : Type}

/-- The call is in the function. -/
def inside : Performing T E → Bool
  | .running => true
  | _ => false

/-- The call has put its outcome into the promise. -/
def answered : Performing T E → Bool
  | .completing | .returned true => true
  | _ => false

end Performing

/-- What the function came to, where it was left. -/
def TaskEvent.outcome {T E : Type} : TaskEvent T E → Option (Except E T)
  | .leave outcome => some outcome
  | _ => none

namespace Task
variable {T E : Type} {ndebug : Bool} {s t : Task T E} {e : TaskEvent T E}
  {outcomes : List (Except E T)}

/-- What the function came to in a run, each time it was left. -/
def outcomesOf (trace : List (Task T E × TaskEvent T E)) : List (Except E T) :=
  trace.filterMap fun e => e.2.outcome

/-- The task is refused, as it was cancelled. -/
def Refused (s : Task T E) (answer : Except (TaskException E) T) : Prop :=
  s.status = .cancelled ∧ answer = .error (canceledTask E)

/-- The answer is what the only call of the function came to. -/
def Told (outcomes : List (Except E T)) (answer : Except (TaskException E) T) : Prop :=
  ∃ outcome, outcomes = [outcome] ∧ answer = stored outcome

/-- The task is completed, or a call of `perform` is behind its `set_value` or `set_exception`. -/
def Concluded (s : Task T E) : Prop :=
  s.status = .completed ∨ ∃ c ∈ s.performs, c.answered = true

/-- What is in the promise is true, given what the function has come to. -/
structure Truthful (outcomes : List (Except E T)) (s : Task T E) : Prop where
  once : AtMostOnce s
  calls : s.invocations = outcomes.length + s.performs.countP Performing.inside
  finished : ∀ outcome, .finished outcome ∈ s.performs → outcomes = [outcome]
  cancelled : .cancelled ∈ s.performs → s.status = .cancelled
  answer : ∀ answer, s.promise = some answer → Refused s answer ∨ Told outcomes answer
  concluded : Concluded s → ∃ answer, s.promise = some answer ∧ Told outcomes answer

theorem created_truthful : Truthful [] (created : Task T E) where
  once := created_atMostOnce
  calls := rfl
  finished _ hmem := absurd hmem List.not_mem_nil
  cancelled hmem := absurd hmem List.not_mem_nil
  answer _ hpromise := by cases hpromise
  concluded hconcluded := by
    rcases hconcluded with hstatus | ⟨c,hc,_⟩
    · cases hstatus
    · cases hc

/-- A task that is cancelled stays so. -/
theorem cancelled_of_step (hstatus : s.status = .cancelled) (hstep : Step ndebug s e t) :
    t.status = .cancelled := by
  rcases status_of_step hstep with hsame | hmoves
  · exact hsame.trans hstatus
  · rw [hstatus] at hmoves
    cases hmoves

/-- The promise keeps what is in it. -/
theorem promise_of_step {answer : Except (TaskException E) T} (hpromise : s.promise = some answer)
    (hstep : Step ndebug s e t) : t.promise = some answer := by
  cases hstep with
  | setException _ hnone | setOutcome _ hnone =>
    rw [hnone] at hpromise
    cases hpromise
  | _ => exact hpromise

/-- Where the function is not left and the promise stays as it is, what is in it stays true. -/
theorem Truthful.of_same (h : Truthful outcomes s) (hstep : Step ndebug s e t)
    (hpromise : t.promise = s.promise)
    (hcalls : t.invocations + s.performs.countP Performing.inside =
      s.invocations + t.performs.countP Performing.inside)
    (hfinished : ∀ outcome, .finished outcome ∈ t.performs → .finished outcome ∈ s.performs)
    (hcancelled : .cancelled ∈ t.performs → .cancelled ∈ s.performs ∨ t.status = .cancelled)
    (hconcluded : Concluded t → Concluded s) : Truthful outcomes t where
  once := h.once.step hstep
  calls := by
    have hbefore := h.calls
    omega
  finished outcome hmem := h.finished outcome (hfinished outcome hmem)
  cancelled hmem := by
    rcases hcancelled hmem with hmem | hstatus
    · exact cancelled_of_step (h.cancelled hmem) hstep
    · exact hstatus
  answer answer hanswer := by
    rw [hpromise] at hanswer
    refine (h.answer answer hanswer).imp_left fun hrefused => ?_
    exact ⟨cancelled_of_step hrefused.1 hstep,hrefused.2⟩
  concluded hafter := by
    rw [hpromise]
    exact h.concluded (hconcluded hafter)

section Moved
variable {a b : Performing T E} {performs : List (Performing T E)} {status : Status}

theorem concluded_of_moves (hmove : Moves a b s.performs performs) (hstatus : status = .completed → Concluded s)
    (hb : b.answered = true → Concluded s) {promise : Option (Except (TaskException E) T)} {invocations : ℕ}
    (hafter : Concluded { s with status, promise, performs, invocations }) : Concluded s := by
  rcases hafter with hcompleted | ⟨c,hc,hanswered⟩
  · exact hstatus hcompleted
  · rcases hmove.mem_or_of_mem hc with rfl | hc
    · exact hb hanswered
    · exact Or.inr ⟨c,hc,hanswered⟩

/-- A call goes on, outside of the function and not to the promise. -/
theorem Truthful.move (h : Truthful outcomes s) (hmove : Moves a b s.performs performs) {invocations : ℕ}
    (hstep : Step ndebug s e { s with status, performs, invocations })
    (hcalls : invocations + a.inside.toNat = s.invocations + b.inside.toNat)
    (hfinished : ∀ outcome, .finished outcome ≠ b) (hcancelled : .cancelled = b → status = .cancelled)
    (hstatus : status = .completed → Concluded s) (hb : b.answered = true → Concluded s) :
    Truthful outcomes { s with status, performs, invocations } := by
  have hcount := hmove.countP_eq Performing.inside
  refine h.of_same hstep rfl ?_ (fun outcome hmem => ?_) (fun hmem => ?_)
    (concluded_of_moves hmove hstatus hb)
  · dsimp only
    omega
  · exact (hmove.mem_or_of_mem hmem).resolve_left (hfinished outcome)
  · exact (hmove.mem_or_of_mem hmem).symm.imp_right hcancelled

/-- A call refuses the task, whose function nobody has called. -/
theorem Truthful.setException (h : Truthful outcomes s) (hpromise : s.promise = none)
    (hmove : Moves .cancelled (.returned false) s.performs performs)
    (hstep : Step ndebug s .setException
      { s with promise := some (.error (canceledTask E)), performs := performs }) :
    Truthful outcomes { s with promise := some (.error (canceledTask E)), performs := performs } where
  once := h.once.step hstep
  calls := by
    have hcount := hmove.countP_eq Performing.inside
    have hbefore := h.calls
    simp only [Performing.inside, Bool.toNat_false] at hcount ⊢
    omega
  finished outcome hmem := h.finished outcome ((hmove.mem_or_of_mem hmem).resolve_left nofun)
  cancelled hmem := h.cancelled ((hmove.mem_or_of_mem hmem).resolve_left nofun)
  answer answer hanswer := Or.inl ⟨h.cancelled hmove.left_mem,(Option.some.inj hanswer).symm⟩
  concluded hafter := by
    obtain ⟨answer,hanswer,_⟩ := h.concluded (concluded_of_moves hmove Or.inl nofun hafter)
    rw [hpromise] at hanswer
    cases hanswer

/-- Who is in the function is the only one that has been there. -/
theorem Truthful.outcomes_eq_nil (h : Truthful outcomes s) (hmem : .running ∈ s.performs) : outcomes = [] := by
  have hpos : 0 < s.performs.countP Performing.inside := List.countP_pos_iff.mpr ⟨_,hmem,rfl⟩
  have honce := h.once.once
  have hcalls := h.calls
  unfold invocationsSoFar at honce
  exact List.eq_nil_of_length_eq_zero (by omega)

theorem Truthful.leave {outcome : Except E T} (h : Truthful outcomes s)
    (hmove : Moves .running (.finished outcome) s.performs performs)
    (hstep : Step ndebug s (.leave outcome) { s with performs := performs }) :
    Truthful [outcome] { s with performs := performs } := by
  have hnil := h.outcomes_eq_nil hmove.left_mem
  subst hnil
  have hnothing : ¬ Concluded s := by
    intro hconcluded
    obtain ⟨_,_,_,htold,_⟩ := h.concluded hconcluded
    cases htold
  exact {
    once := h.once.step hstep
    calls := by
      have hcount := hmove.countP_eq Performing.inside
      have hbefore := h.calls
      simp only [Performing.inside, Bool.toNat_false, Bool.toNat_true, List.length_nil,
        List.length_singleton] at hcount hbefore ⊢
      omega
    finished := fun other hmem => by
      rcases hmove.mem_or_of_mem hmem with hsame | hmem
      · cases hsame
        rfl
      · cases h.finished other hmem
    cancelled := fun hmem => h.cancelled ((hmove.mem_or_of_mem hmem).resolve_left nofun)
    answer := fun answer hanswer => by
      refine Or.inl ((h.answer answer hanswer).resolve_right ?_)
      rintro ⟨_,htold,_⟩
      cases htold
    concluded := fun hafter => absurd (concluded_of_moves hmove Or.inl nofun hafter) hnothing }

theorem Truthful.setOutcome {outcome : Except E T} (h : Truthful outcomes s)
    (hmove : Moves (.finished outcome) .completing s.performs performs)
    (hstep : Step ndebug s .setOutcome
      { s with promise := some (stored outcome), performs := performs }) :
    Truthful outcomes { s with promise := some (stored outcome), performs := performs } where
  once := h.once.step hstep
  calls := by
    have hcount := hmove.countP_eq Performing.inside
    have hbefore := h.calls
    simp only [Performing.inside, Bool.toNat_false] at hcount ⊢
    omega
  finished outcome hmem := h.finished outcome ((hmove.mem_or_of_mem hmem).resolve_left nofun)
  cancelled hmem := h.cancelled ((hmove.mem_or_of_mem hmem).resolve_left nofun)
  answer answer hanswer :=
    Or.inr ⟨outcome,h.finished outcome hmove.left_mem,(Option.some.inj hanswer).symm⟩
  concluded _ := ⟨stored outcome,rfl,outcome,h.finished outcome hmove.left_mem,rfl⟩

end Moved

/-- Who cancels a task does not complete it. -/
theorem completed_of_tryCancel {spurious : Bool} {before after : Status} {result : CancellationResult}
    (h : Task.tryCancel spurious before = (after,result)) (hcompleted : after = .completed) :
    before = .completed := by
  rw [tryCancel_eq] at h
  have hafter := (congrArg Prod.fst h).trans hcompleted
  cases before with
  | created => cases spurious <;> cases hafter
  | inProgress | cancelled => cases hafter
  | completed => rfl

theorem Truthful.step_of_not_left (h : Truthful outcomes s) (hleft : e.outcome = none)
    (hstep : Step ndebug s e t) : Truthful outcomes t := by
  have htaken := hstep
  cases hstep with
  | perform =>
    refine h.of_same htaken rfl rfl (by simp) (fun hmem => Or.inl (by simpa using hmem)) ?_
    rintro (hcompleted | ⟨c,hc,hanswered⟩)
    · exact Or.inl hcompleted
    · rcases List.mem_cons.mp hc with rfl | hc
      · cases hanswered
      · exact Or.inr ⟨c,hc,hanswered⟩
  | isCancelled _ hmove =>
    refine h.move hmove htaken ?_ (fun outcome => ?_) (fun heq => ?_) Or.inl ?_
    · split_ifs <;> rfl
    · split_ifs <;> exact nofun
    · split_ifs at heq with hfound
      exact of_decide_eq_true hfound
    · split_ifs <;> exact nofun
  | setException _ hpromise hmove => exact h.setException hpromise hmove htaken
  | @trySetInProgress _ answer _ _ _ hset hmove =>
    cases answer with
    | true =>
      obtain ⟨-,-,rfl⟩ := trySetInProgress_eq_true hset
      exact h.move hmove htaken rfl nofun nofun nofun nofun
    | false =>
      obtain ⟨rfl,-⟩ := trySetInProgress_eq_false hset
      exact h.move hmove htaken rfl nofun nofun Or.inl nofun
  | invoke _ hmove => exact h.move hmove htaken rfl nofun nofun Or.inl nofun
  | leave => cases hleft
  | setOutcome _ _ hmove => exact h.setOutcome hmove htaken
  | setExceptionAgain | setOutcomeAgain => exact h.of_same htaken rfl rfl (fun _ => id) Or.inl id
  | assertSkipped _ _ hmove =>
    have hconcluded : Concluded s := Or.inr ⟨_,hmove.left_mem,rfl⟩
    exact h.move hmove htaken rfl nofun nofun Or.inl fun _ => hconcluded
  | assertCompleted _ _ _ hmove =>
    have hconcluded : Concluded s := Or.inr ⟨_,hmove.left_mem,rfl⟩
    exact h.move hmove htaken rfl nofun nofun (fun _ => hconcluded) fun _ => hconcluded
  | assertFailed _ _ _ hmem =>
    have hconcluded : Concluded s := Or.inr ⟨_,hmem,rfl⟩
    exact h.of_same htaken rfl rfl (fun _ => id) Or.inl fun _ => hconcluded
  | tryCancel _ hcancel =>
    refine h.of_same htaken rfl rfl (fun _ => id) Or.inl ?_
    rintro (hcompleted | hanswered)
    · exact Or.inl (completed_of_tryCancel hcancel hcompleted)
    · exact Or.inr hanswered

theorem Truthful.step (h : Truthful outcomes s) (hstep : Step ndebug s e t) :
    Truthful (outcomes ++ e.outcome.toList) t := by
  cases he : e.outcome with
  | none =>
    rw [Option.toList_none, List.append_nil]
    exact h.step_of_not_left he hstep
  | some outcome =>
    have htaken := hstep
    cases hstep with
    | leave _ hmove =>
      cases he
      rw [h.outcomes_eq_nil hmove.left_mem]
      exact h.leave hmove htaken
    | _ => cases he

theorem outcomesOf_cons (e : Task T E × TaskEvent T E) (trace : List (Task T E × TaskEvent T E)) :
    outcomesOf (e :: trace) = e.2.outcome.toList ++ outcomesOf trace := by
  unfold outcomesOf
  rw [List.filterMap_cons]
  cases e.2.outcome <;> rfl

theorem Run.truthful {trace : List (Task T E × TaskEvent T E)} (hr : Run (Step ndebug) s trace t)
    (h : Truthful outcomes s) : Truthful (outcomes ++ outcomesOf trace) t := by
  induction hr generalizing outcomes with
  | nil s =>
    rw [outcomesOf, List.filterMap_nil, List.append_nil]
    exact h
  | cons hstep _ ih =>
    rw [outcomesOf_cons, ← List.append_assoc]
    exact ih (h.step hstep)

/-- Whoever finds the task completed finds the outcome of its function in the future. -/
theorem Truthful.answer_of_completed (h : Truthful outcomes s) (hcompleted : isCompleted s.status = true) :
    ∃ answer, s.promise = some answer ∧ Told outcomes answer :=
  h.concluded (Or.inl (of_decide_eq_true hcompleted))

/-- Whoever finds the task cancelled can rely on it that nobody has called the function. -/
theorem Truthful.not_called (h : Truthful outcomes s) (hcancelled : isCancelled s.status = true) :
    s.invocations = 0 ∧ outcomes = [] := by
  have hnone := h.once.unstarted (Or.inr (of_decide_eq_true hcancelled))
  have hcalls := h.calls
  unfold invocationsSoFar at hnone
  exact ⟨by omega,List.eq_nil_of_length_eq_zero (by omega)⟩

/-- Whatever calls of `perform` and `tryCancel` there are, and in every interleaving: what is in the promise
is the outcome of the function, which was called once, or the refusal of a task that was cancelled before;
it is never replaced. A completed task has its outcome in the promise, and the function of a cancelled one
has not been called. -/
theorem answer_of_run {trace : List (Task T E × TaskEvent T E)} (hr : Run (Step ndebug) created trace t) :
    (∀ answer, t.promise = some answer → Refused t answer ∨ Told (outcomesOf trace) answer) ∧
      (∀ e ∈ trace, ∀ answer, e.1.promise = some answer → t.promise = some answer) ∧
      (isCompleted t.status = true → ∃ answer, t.promise = some answer ∧ Told (outcomesOf trace) answer) ∧
      (isCancelled t.status = true → t.invocations = 0 ∧ outcomesOf trace = []) := by
  have htruthful : Truthful (outcomesOf trace) t := by
    have h := Run.truthful hr created_truthful
    rwa [List.nil_append] at h
  refine ⟨htruthful.answer,fun e he answer hpromise => ?_,htruthful.answer_of_completed,htruthful.not_called⟩
  exact hr.preserved_of_mem (fun _ _ _ => promise_of_step) he hpromise

/-- The function is left with a value, which is in the future from then on. -/
theorem answer_of_run_completed : ∃ trace, ∃ t : Task ℕ ℕ,
    trace.map Prod.snd = [.perform,.isCancelled,.trySetInProgress false,.invoke,.leave (.ok 5),.setOutcome,
      .assertCompleted false] ∧
      (∀ answer, t.promise = some answer → Refused t answer ∨ Told (outcomesOf trace) answer) ∧
      (∀ e ∈ trace, ∀ answer, e.1.promise = some answer → t.promise = some answer) ∧
      (isCompleted t.status = true → ∃ answer, t.promise = some answer ∧ Told (outcomesOf trace) answer) ∧
      (isCancelled t.status = true → t.invocations = 0 ∧ outcomesOf trace = []) := by
  have hmoves : ∀ a b : Performing ℕ ℕ, Moves a b [a] [b] := fun a b => Moves.intro [] []
  have hset : Task.trySetInProgress false .created = (.inProgress,true) := rfl
  have hcompleted : Task.trySetCompleted false .inProgress = (.completed,true) := rfl
  have hr := Run.cons (Step.perform (s := (created : Task ℕ ℕ)) rfl)
    (.cons (.isCancelled rfl (hmoves _ .starting)) (.cons (.trySetInProgress rfl hset (hmoves _ .invoking))
      (.cons (.invoke rfl (hmoves _ _)) (.cons (.leave rfl (hmoves _ (.finished (.ok 5))))
        (.cons (.setOutcome rfl rfl (hmoves _ _)) (.cons (.assertCompleted rfl rfl hcompleted (hmoves _ _))
          (.nil _)))))))
  exact ⟨_,_,rfl,answer_of_run hr⟩

end Task

end Isml
