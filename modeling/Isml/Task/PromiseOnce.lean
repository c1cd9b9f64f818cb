import Isml.Task.Task

/-! # How often the promise of a task is satisfied

A call of `perform` that finds the task cancelled satisfies the promise, and nothing keeps a
second call from doing the same: `isCancelled` only reads the status. The other calls are
kept apart by `trySetInProgress`, which lets one of them through.
-/
namespace Isml
open LabelledRun Threads

namespace Performing
variable {T E : Type}

/-- The call is on its way to the promise. -/
def owing : Performing T E → Bool
  | .cancelled | .invoking | .running | .finished _ => true
  | _ => false

/-- The call has set the task in progress. -/
def started : Performing T E → Bool
  | .invoking | .running | .finished _ | .completing => true
  | _ => false

end Performing

namespace Task
variable {T E : Type} {ndebug : Bool} {s t : Task T E} {e : TaskEvent T E}

/-- The step does not call `set_value` or `set_exception` on a satisfied promise. -/
def SatisfiesOnce (s : Task T E) : TaskEvent T E → Prop
  | .setException | .setOutcome => s.promise = none
  | _ => True

/-- The process was not stopped by an exception leaving `perform`. -/
def NotTerminated (s : Task T E) : Prop := s.stopped ≠ some (.thrown .promiseAlreadySatisfied)

/-- A call finds the task cancelled only if no call has found it cancelled before. -/
def FirstToFindCancelled (s : Task T E) : TaskEvent T E → Prop
  | .isCancelled => s.status = .cancelled → s.promise = none ∧ .cancelled ∉ s.performs
  | _ => True

/-- The calls on their way to the promise, and the one that has been there. -/
def answers (s : Task T E) : ℕ := s.performs.countP Performing.owing + s.promise.isSome.toNat

/-- Nobody has set the task in progress. -/
def Unstarted (performs : List (Performing T E)) : Prop := ∀ c ∈ performs, c.started = false

theorem answers_pos_of_mem {c : Performing T E} (hc : c ∈ s.performs) (howing : c.owing = true) :
    0 < s.performs.countP Performing.owing :=
  List.countP_pos_iff.mpr ⟨c,hc,howing⟩

theorem answers_eq_of_moves {a b : Performing T E} {performs : List (Performing T E)}
    (hmove : Moves a b s.performs performs) {status : Status} {invocations : ℕ}
    (hsame : a.owing = b.owing) :
    answers { s with status := status, performs := performs, invocations := invocations } =
      answers s := by
  have hcount := hmove.countP_eq Performing.owing
  rw [hsame] at hcount
  have heq : performs.countP Performing.owing = s.performs.countP Performing.owing := by omega
  simp only [answers, heq]

/-- The promise is satisfied by a call that was on its way to it. -/
theorem answers_eq_of_satisfies {a b : Performing T E} {performs : List (Performing T E)}
    {r : Except (TaskException E) T} (hmove : Moves a b s.performs performs)
    (hpromise : s.promise = none) (ha : a.owing = true) (hb : b.owing = false) :
    answers { s with promise := some r, performs := performs } = answers s := by
  have hcount := hmove.countP_eq Performing.owing
  rw [ha, hb] at hcount
  simp only [answers, hpromise, Option.isSome_some, Option.isSome_none, Bool.toNat_true,
    Bool.toNat_false] at hcount ⊢
  omega

theorem Unstarted.move {a b : Performing T E} {performs performs' : List (Performing T E)}
    (h : Unstarted performs) (hmove : Moves a b performs performs') (hb : b.started = false) :
    Unstarted performs' := by
  intro c hc
  rcases hmove.mem_or_of_mem hc with rfl | hc'
  · exact hb
  · exact h c hc'

/-- At most one call answers; none before the task was started or cancelled. -/
structure Single (s : Task T E) : Prop where
  running : NotTerminated s
  once : answers s ≤ 1
  created : s.status = .created → answers s = 0
  unstarted : s.status = .created ∨ s.status = .cancelled → Unstarted s.performs

/-- The task is cancelled, and two calls answer, or the second one has just done so. -/
structure Doomed (s : Task T E) : Prop where
  cancelled : s.status = .cancelled
  unstarted : Unstarted s.performs
  twice : ¬ NotTerminated s ∨ s.stopped = none ∧ 2 ≤ answers s

theorem Single.not_again {c : Performing T E} {r : Except (TaskException E) T} (h : Single s)
    (hpromise : s.promise = some r) (hc : c ∈ s.performs) (howing : c.owing = true) : False := by
  have hpos := answers_pos_of_mem hc howing
  have honce := h.once
  simp only [answers, hpromise, Option.isSome_some, Bool.toNat_true] at honce
  omega

/-- A call goes on, and as many calls answer as before. -/
theorem Single.of_answers_eq {t : Task T E} {a b : Performing T E} (h : Single s)
    (hmove : Moves a b s.performs t.performs) (hb : a.started = false → b.started = false)
    (hanswers : answers t = answers s) (hstopped : t.stopped = s.stopped)
    (hstatus : t.status = s.status) : Single t where
  running := fun hterminated => h.running (hstopped.symm.trans hterminated)
  once := Nat.le_trans (Nat.le_of_eq hanswers) h.once
  created hcreated := hanswers.trans (h.created (hstatus.symm.trans hcreated))
  unstarted hearly := by
    rw [hstatus] at hearly
    have hunstarted := h.unstarted hearly
    exact hunstarted.move hmove (hb (hunstarted a hmove.left_mem))

/-- A call goes on without coming nearer to the promise or further from it. -/
theorem Single.move {a b : Performing T E} {performs : List (Performing T E)} {invocations : ℕ}
    (h : Single s) (hmove : Moves a b s.performs performs) (hsame : a.owing = b.owing)
    (hb : a.started = false → b.started = false) :
    Single { s with performs := performs, invocations := invocations } :=
  h.of_answers_eq hmove hb (answers_eq_of_moves hmove hsame) rfl rfl

theorem Single.satisfy {a b : Performing T E} {performs : List (Performing T E)}
    {r : Except (TaskException E) T} (h : Single s) (hmove : Moves a b s.performs performs)
    (hpromise : s.promise = none) (ha : a.owing = true) (hb : b.owing = false)
    (hstarted : a.started = false → b.started = false) :
    Single { s with promise := some r, performs := performs } :=
  h.of_answers_eq hmove hstarted (answers_eq_of_satisfies hmove hpromise ha hb) rfl rfl

theorem Single.isCancelled {performs : List (Performing T E)} (h : Single s)
    (hg : FirstToFindCancelled s .isCancelled)
    (hmove : Moves .entered (if isCancelled s.status then .cancelled else .starting) s.performs
      performs) :
    Single { s with performs := performs } := by
  cases hfound : Task.isCancelled s.status with
  | false =>
    rw [hfound] at hmove
    exact h.move hmove rfl (fun _ => rfl)
  | true =>
    rw [hfound] at hmove
    have hstatus : s.status = .cancelled := of_decide_eq_true hfound
    obtain ⟨hpromise,hfirst⟩ := hg hstatus
    have hunstarted := h.unstarted (Or.inr hstatus)
    have hnone : s.performs.countP Performing.owing = 0 := by
      refine List.countP_eq_zero.mpr fun c hc howing => ?_
      have hnot := hunstarted c hc
      cases c with
      | cancelled => exact hfirst hc
      | invoking | running | finished => cases hnot
      | entered | starting | completing | returned => cases howing
    have hone : performs.countP Performing.owing = 1 := by
      have hcount := hmove.countP_eq Performing.owing
      rw [hnone] at hcount
      exact hcount
    refine ⟨h.running,?_,fun hcreated => ?_,fun _ => hunstarted.move hmove rfl⟩
    · simp [answers, hone, hpromise]
    · have himpossible : Status.cancelled = .created := hstatus.symm.trans hcreated
      cases himpossible

theorem Single.trySetInProgress {status : Status} {answer spurious : Bool}
    {performs : List (Performing T E)} (h : Single s)
    (hset : Task.trySetInProgress spurious s.status = (status,answer))
    (hmove : Moves .starting (if answer then .invoking else .returned false) s.performs performs) :
    Single { s with status := status, performs := performs } := by
  cases answer with
  | true =>
    obtain ⟨hcreated,-,rfl⟩ := trySetInProgress_eq_true hset
    have hnone : s.performs.countP Performing.owing + s.promise.isSome.toNat = 0 :=
      h.created hcreated
    have hcount := hmove.countP_eq Performing.owing
    have hone : performs.countP Performing.owing + s.promise.isSome.toNat = 1 := by
      simp only [Performing.owing, if_true, Bool.toNat_false, Bool.toNat_true] at hcount
      omega
    refine ⟨h.running,Nat.le_of_eq hone,?_,?_⟩
    · rintro ⟨⟩
    · rintro (hstatus | hstatus) <;> cases hstatus
  | false =>
    obtain ⟨rfl,-⟩ := trySetInProgress_eq_false hset
    exact h.move hmove rfl fun _ => rfl

theorem Single.tryCancel {status : Status} {result : CancellationResult} {spurious : Bool}
    (h : Single s) (hcancel : Task.tryCancel spurious s.status = (status,result)) :
    Single { s with status := status, cancellations := s.cancellations ++ [result] } := by
  rw [tryCancel_eq] at hcancel
  refine ⟨h.running,h.once,fun hcreated => ?_,fun hstatus => ?_⟩
  · apply h.created
    cases hold : s.status with
    | created => rfl
    | inProgress | completed | cancelled =>
      rw [hold] at hcancel
      have hkept := (Prod.mk.inj hcancel).1.trans hcreated
      cases hkept
  · apply h.unstarted
    cases hold : s.status with
    | created => exact Or.inl rfl
    | cancelled => exact Or.inr rfl
    | inProgress | completed =>
      rw [hold] at hcancel
      obtain ⟨rfl,-⟩ := Prod.mk.inj hcancel
      rcases hstatus with hstatus | hstatus <;> cases hstatus

theorem Single.assertCompleted {status : Status} {spurious answer : Bool}
    {performs : List (Performing T E)} {stopped : Option Fault} (h : Single s)
    (hset : Task.trySetCompleted spurious s.status = (status,answer))
    (hstopped : stopped ≠ some (.thrown .promiseAlreadySatisfied))
    (hcount : performs.countP Performing.owing = s.performs.countP Performing.owing)
    (hunstarted : Unstarted s.performs → Unstarted performs) :
    Single { s with status := status, performs := performs, stopped := stopped } := by
  have hanswers : performs.countP Performing.owing + s.promise.isSome.toNat = answers s := by
    rw [hcount]
    rfl
  have hkept : status = .completed ∨ status = s.status := by
    cases answer with
    | true => exact Or.inl (trySetCompleted_eq_true hset).2.2
    | false => exact Or.inr (trySetCompleted_eq_false hset)
  refine ⟨hstopped,Nat.le_trans (Nat.le_of_eq hanswers) h.once,fun hcreated => ?_,fun hstatus => ?_⟩
  · rcases hkept with rfl | rfl
    · cases hcreated
    · exact hanswers.trans (h.created hcreated)
  · rcases hkept with rfl | rfl
    · rcases hstatus with hstatus | hstatus <;> cases hstatus
    · exact hunstarted (h.unstarted hstatus)

theorem Single.step (h : Single s) (hg : FirstToFindCancelled s e) (hstep : Step ndebug s e t) :
    Single t := by
  cases hstep with
  | perform hs =>
    refine ⟨h.running,h.once,h.created,fun hstatus c hc => ?_⟩
    rcases List.mem_cons.mp hc with rfl | hc'
    · rfl
    · exact h.unstarted hstatus c hc'
  | isCancelled hs hmove => exact h.isCancelled hg hmove
  | setException hs hpromise hmove => exact h.satisfy hmove hpromise rfl rfl fun _ => rfl
  | setExceptionAgain hs hpromise hmem => exact (h.not_again hpromise hmem rfl).elim
  | trySetInProgress hs hset hmove => exact h.trySetInProgress hset hmove
  | invoke hs hmove => exact h.move hmove rfl id
  | leave hs hmove => exact h.move hmove rfl id
  | setOutcome hs hpromise hmove => exact h.satisfy hmove hpromise rfl rfl id
  | setOutcomeAgain hs hpromise hmem => exact (h.not_again hpromise hmem rfl).elim
  | assertSkipped hs hbuild hmove => exact h.move hmove rfl fun _ => rfl
  | assertCompleted hs hbuild hset hmove =>
    exact h.assertCompleted hset h.running (hmove.countP_eq Performing.owing) fun hunstarted =>
      hunstarted.move hmove rfl
  | assertFailed hs hbuild hset hmem => exact h.assertCompleted hset (by simp) rfl id
  | tryCancel hs hcancel => exact h.tryCancel hcancel

theorem Single.satisfiesOnce (h : Single s) (hstep : Step ndebug s e t) : SatisfiesOnce s e := by
  cases hstep with
  | setException hs hpromise hmove => exact hpromise
  | setOutcome hs hpromise hmove => exact hpromise
  | setExceptionAgain hs hpromise hmem => exact (h.not_again hpromise hmem rfl).elim
  | setOutcomeAgain hs hpromise hmem => exact (h.not_again hpromise hmem rfl).elim
  | _ => trivial

/-- A second call has found the task cancelled. -/
theorem Single.doomed_of_found_again (h : Single s) (hg : ¬ FirstToFindCancelled s e)
    (hstep : Step ndebug s e t) : Doomed t := by
  cases hstep with
  | @isCancelled performs hs hmove =>
    unfold FirstToFindCancelled at hg
    rw [Classical.not_imp] at hg
    obtain ⟨hstatus,hbefore⟩ := hg
    have hfound : Task.isCancelled s.status = true := decide_eq_true hstatus
    rw [hfound, if_pos rfl] at hmove
    have hanswers : 1 ≤ answers s := by
      cases hpromise : s.promise with
      | some r => simp [answers, hpromise]
      | none =>
        have hmem : .cancelled ∈ s.performs := by
          by_contra hmem
          exact hbefore ⟨hpromise,hmem⟩
        have hpos := answers_pos_of_mem hmem rfl
        unfold answers
        omega
    refine ⟨hstatus,(h.unstarted (Or.inr hstatus)).move hmove rfl,Or.inr ⟨hs,?_⟩⟩
    have hcount := hmove.countP_eq Performing.owing
    simp only [Performing.owing, Bool.toNat_false, Bool.toNat_true] at hcount
    unfold answers at hanswers
    show 2 ≤ performs.countP Performing.owing + s.promise.isSome.toNat
    omega
  | _ => exact absurd trivial hg

theorem Doomed.not_started {c : Performing T E} (h : Doomed s) (hc : c ∈ s.performs)
    (hstarted : c.started = true) : False := by
  rw [h.unstarted c hc] at hstarted
  cases hstarted

theorem Doomed.of_running (h : Doomed s) (hs : s.stopped = none) : 2 ≤ answers s := by
  rcases h.twice with hterminated | ⟨-,htwice⟩
  · exact (hterminated (by simp [NotTerminated, hs])).elim
  · exact htwice

theorem Doomed.move {a b : Performing T E} {performs : List (Performing T E)} (h : Doomed s)
    (hs : s.stopped = none) (hmove : Moves a b s.performs performs)
    (howing : a.owing = true → b.owing = true) (hb : b.started = false) :
    Doomed { s with performs := performs } := by
  refine ⟨h.cancelled,h.unstarted.move hmove hb,Or.inr ⟨hs,?_⟩⟩
  have htwice := h.of_running hs
  have hcount := hmove.countP_eq Performing.owing
  have hle : a.owing.toNat ≤ b.owing.toNat := by
    cases ha : a.owing with
    | false => exact Nat.zero_le _
    | true => exact Nat.le_of_eq (congrArg Bool.toNat (howing ha).symm)
  unfold answers at htwice
  show 2 ≤ performs.countP Performing.owing + s.promise.isSome.toNat
  omega

theorem Doomed.step (h : Doomed s) (hstep : Step ndebug s e t) : Doomed t := by
  cases hstep with
  | perform hs =>
    refine ⟨h.cancelled,fun c hc => ?_,Or.inr ⟨hs,h.of_running hs⟩⟩
    rcases List.mem_cons.mp hc with rfl | hc'
    · rfl
    · exact h.unstarted c hc'
  | isCancelled hs hmove =>
    exact h.move hs hmove (fun howing => by cases howing) (by split_ifs <;> rfl)
  | setException hs hpromise hmove =>
    refine ⟨h.cancelled,h.unstarted.move hmove rfl,Or.inr ⟨hs,?_⟩⟩
    rw [answers_eq_of_satisfies hmove hpromise rfl rfl]
    exact h.of_running hs
  | setExceptionAgain hs hpromise hmem =>
    exact ⟨h.cancelled,h.unstarted,Or.inl fun hrunning => hrunning rfl⟩
  | @trySetInProgress status answer spurious performs hs hset hmove =>
    cases answer with
    | true =>
      have himpossible := h.cancelled.symm.trans (trySetInProgress_eq_true hset).1
      cases himpossible
    | false =>
      obtain ⟨rfl,-⟩ := trySetInProgress_eq_false hset
      exact h.move hs hmove (fun howing => by cases howing) rfl
  | invoke hs hmove => exact (h.not_started hmove.left_mem rfl).elim
  | leave hs hmove => exact (h.not_started hmove.left_mem rfl).elim
  | setOutcome hs hpromise hmove => exact (h.not_started hmove.left_mem rfl).elim
  | setOutcomeAgain hs hpromise hmem => exact (h.not_started hmem rfl).elim
  | assertSkipped hs hbuild hmove => exact (h.not_started hmove.left_mem rfl).elim
  | assertCompleted hs hbuild hset hmove => exact (h.not_started hmove.left_mem rfl).elim
  | assertFailed hs hbuild hset hmem => exact (h.not_started hmem rfl).elim
  | tryCancel hs hcancel =>
    rw [tryCancel_eq, h.cancelled] at hcancel
    obtain ⟨rfl,-⟩ := Prod.mk.inj hcancel
    exact ⟨rfl,h.unstarted,h.twice⟩

/-- In a doomed run the promise can be satisfied a second time. -/
theorem Doomed.terminates (h : Doomed s) (ndebug : Bool) :
    ∃ rest u, Run (Step ndebug) s rest u ∧ ¬ NotTerminated u := by
  rcases h.twice with hterminated | ⟨hs,htwice⟩
  · exact ⟨[],s,Run.nil s,hterminated⟩
  · have hcancelled : ∀ c ∈ s.performs, c.owing = true → c = .cancelled := by
      intro c hc howing
      have hnot := h.unstarted c hc
      cases c with
      | cancelled => rfl
      | invoking | running | finished => cases hnot
      | entered | starting | completing | returned => cases howing
    have hnext : .cancelled ∈ s.performs := by
      have hpos : 0 < s.performs.countP Performing.owing := by
        have hbool := Bool.toNat_le s.promise.isSome
        unfold answers at htwice
        omega
      obtain ⟨c,hc,howing⟩ := List.countP_pos_iff.mp hpos
      rw [← hcancelled c hc howing]
      exact hc
    cases hpromise : s.promise with
    | some r =>
      have hagain : Step ndebug s .setException _ := Step.setExceptionAgain hs hpromise hnext
      exact ⟨_,_,Run.cons hagain (Run.nil _),fun hrunning => hrunning rfl⟩
    | none =>
      obtain ⟨xs,ys,hperforms⟩ := List.append_of_mem hnext
      have hmove : Moves .cancelled (.returned false) s.performs (xs ++ .returned false :: ys) := by
        rw [hperforms]
        exact Moves.intro xs ys
      let satisfied : Task T E :=
        { s with promise := some (.error (canceledTask E)), performs := xs ++ .returned false :: ys }
      have hset : Step ndebug s .setException satisfied := Step.setException hs hpromise hmove
      have hleft : 0 < satisfied.performs.countP Performing.owing := by
        have hcount := hmove.countP_eq Performing.owing
        simp only [Performing.owing, Bool.toNat_false, Bool.toNat_true] at hcount
        simp only [answers, hpromise, Option.isSome_none, Bool.toNat_false] at htwice
        show 0 < (xs ++ .returned false :: ys).countP Performing.owing
        omega
      obtain ⟨c,hc,howing⟩ := List.countP_pos_iff.mp hleft
      have hsecond : .cancelled ∈ satisfied.performs := by
        rcases hmove.mem_or_of_mem hc with rfl | hc'
        · cases howing
        · rw [← hcancelled c hc' howing]
          exact hc
      have hagain : Step ndebug satisfied .setException _ := Step.setExceptionAgain hs rfl hsecond
      exact ⟨_,_,Run.cons hset (Run.cons hagain (Run.nil _)),fun hrunning => hrunning rfl⟩

theorem created_single : Single (created : Task T E) := by
  refine ⟨?_,Nat.zero_le _,fun _ => rfl,fun _ c hc => absurd hc List.not_mem_nil⟩
  simp [NotTerminated, created]

/-- As long as no call finds the task cancelled after another one has, no promise is satisfied
a second time and no exception leaves `perform`; once one has, the process can be terminated. -/
theorem satisfiesOnce_of_firstToFindCancelled {trace : List (Task T E × TaskEvent T E)}
    (hr : Run (Step ndebug) created trace t) :
    (Guarded FirstToFindCancelled trace →
      Guarded SatisfiesOnce trace ∧ (∀ e ∈ trace, NotTerminated e.1) ∧ NotTerminated t) ∧
    (¬ Guarded FirstToFindCancelled trace →
      ∃ rest u, Run (Step ndebug) t rest u ∧ ¬ NotTerminated u) := by
  have hstep : ∀ (s : Task T E) (e : TaskEvent T E) (t : Task T E), Single s →
      FirstToFindCancelled s e → Step ndebug s e t → Single t := fun s e t h => h.step
  constructor
  · intro hg
    have hstates := hr.invariant_states hstep created_single hg
    refine ⟨fun e he => ?_,fun e he => (hstates e he).running,?_⟩
    · obtain ⟨u,hu⟩ := hr.exists_step he
      exact (hstates e he).satisfiesOnce hu
    · exact (hr.invariant hstep created_single hg).running
  · intro hg
    rcases hr.good_or_bad hstep (fun _ _ _ h => h.doomed_of_found_again) (fun _ _ _ h => h.step)
      created_single with ⟨hguarded,-⟩ | ⟨-,hdoomed⟩
    · exact absurd hguarded hg
    · exact hdoomed.terminates ndebug

/-- A cancellation and two calls of `perform`. -/
def performTwiceEvents : List (TaskEvent T E) :=
  [.tryCancel false,.perform,.isCancelled,.setException,.perform,.isCancelled,.setException]

theorem performTwice_run (ndebug : Bool) : ∃ trace t,
    trace.map Prod.snd = performTwiceEvents ∧ Run (Step ndebug) (created : Task T E) trace t ∧
      ¬ Guarded SatisfiesOnce trace ∧ t.stopped = some (.thrown .promiseAlreadySatisfied) := by
  let cancelled : Task T E := { created with status := .cancelled, cancellations := [.success] }
  let entered : Task T E := { cancelled with performs := [.entered] }
  let found : Task T E := { cancelled with performs := [.cancelled] }
  let satisfied : Task T E :=
    { cancelled with promise := some (.error (canceledTask E)), performs := [.returned false] }
  let again : Task T E := { satisfied with performs := [.entered,.returned false] }
  let foundAgain : Task T E := { satisfied with performs := [.cancelled,.returned false] }
  have hcancel : Step ndebug created (.tryCancel false) cancelled := Step.tryCancel rfl rfl
  have hperform : Step ndebug cancelled .perform entered := Step.perform rfl
  have hfind : Step ndebug entered .isCancelled found := Step.isCancelled rfl (Moves.intro [] [])
  have hset : Step ndebug found .setException satisfied :=
    Step.setException rfl rfl (Moves.intro [] [])
  have hperform' : Step ndebug satisfied .perform again := Step.perform rfl
  have hfind' : Step ndebug again .isCancelled foundAgain :=
    Step.isCancelled rfl (Moves.intro [] [Performing.returned false])
  let stopped : Task T E := { foundAgain with stopped := some (.thrown .promiseAlreadySatisfied) }
  have hset' : Step ndebug foundAgain .setException stopped :=
    Step.setExceptionAgain rfl rfl (List.mem_cons_self ..)
  refine ⟨[(created,.tryCancel false),(cancelled,.perform),(entered,.isCancelled),
    (found,.setException),(satisfied,.perform),(again,.isCancelled),(foundAgain,.setException)],
    stopped,rfl,?_,fun hg => ?_,rfl⟩
  · exact Run.cons hcancel (Run.cons hperform (Run.cons hfind (Run.cons hset
      (Run.cons hperform' (Run.cons hfind' (Run.cons hset' (Run.nil _)))))))
  · have hunsatisfied : foundAgain.promise = none := hg (foundAgain,.setException) (by simp)
    cases hunsatisfied

theorem satisfiesOnce_performTwice : ∃ trace, ∃ t : Task ℕ ℕ,
    trace.map Prod.snd = performTwiceEvents ∧ Run (Step true) created trace t ∧
      ((Guarded FirstToFindCancelled trace →
        Guarded SatisfiesOnce trace ∧ (∀ e ∈ trace, NotTerminated e.1) ∧ NotTerminated t) ∧
      (¬ Guarded FirstToFindCancelled trace →
        ∃ rest u, Run (Step true) t rest u ∧ ¬ NotTerminated u)) := by
  obtain ⟨trace,t,hevents,hr,_⟩ := performTwice_run (T := ℕ) (E := ℕ) true
  exact ⟨trace,t,hevents,hr,satisfiesOnce_of_firstToFindCancelled hr⟩

/-- The second call of `perform` satisfies the promise of the cancelled task again. -/
theorem not_satisfiesOnce_performTwice : ∃ trace, ∃ t : Task ℕ ℕ,
    trace.map Prod.snd = performTwiceEvents ∧ Run (Step true) created trace t ∧
      ¬ Guarded SatisfiesOnce trace ∧ t.stopped = some (.thrown .promiseAlreadySatisfied) :=
  performTwice_run true

end Task

end Isml
