import Mathlib.Data.List.Basic

/-! # Runs of a labelled transition relation

A run records, for each of its steps, the state the step was taken in and the
label it was taken with. Conditions on runs are conditions on these pairs: a
*guarded* run is one in which each step meets a condition on the state before it
and its label.
-/
namespace LabelledRun

variable {S L : Type*}

/-- `Run step s trace t`: the steps of `trace` lead from `s` to `t`. -/
inductive Run (step : S → L → S → Prop) : S → List (S × L) → S → Prop
  | nil (s : S) : Run step s [] s
  | cons {s t u : S} {l : L} {trace : List (S × L)} :
      step s l t → Run step t trace u → Run step s ((s,l) :: trace) u

theorem Run.append {step : S → L → S → Prop} {s t u : S} {trace rest : List (S × L)}
    (h : Run step s trace t) (hrest : Run step t rest u) : Run step s (trace ++ rest) u := by
  induction h with
  | nil => exact hrest
  | cons hstep _ ih => exact Run.cons hstep (ih hrest)

theorem Run.exists_step {step : S → L → S → Prop} {s t : S} {trace : List (S × L)}
    (h : Run step s trace t) {e : S × L} (he : e ∈ trace) : ∃ u, step e.1 e.2 u := by
  induction h with
  | nil => cases he
  | cons hstep _ ih =>
    rcases List.mem_cons.mp he with rfl | he
    · exact ⟨_,hstep⟩
    · exact ih he

/-- Every step of the run meets the condition. -/
def Guarded (guard : S → L → Prop) (trace : List (S × L)) : Prop :=
  ∀ e ∈ trace, guard e.1 e.2

@[simp] theorem guarded_nil (guard : S → L → Prop) : Guarded guard [] := by simp [Guarded]

@[simp] theorem guarded_cons {guard : S → L → Prop} {e : S × L} {trace : List (S × L)} :
    Guarded guard (e :: trace) ↔ guard e.1 e.2 ∧ Guarded guard trace := by
  simp [Guarded]

variable {step : S → L → S → Prop} {guard : S → L → Prop} {Good Bad : S → Prop}

/-- An invariant of the guarded steps holds at the end of a guarded run. -/
theorem Run.invariant {s t : S} {trace : List (S × L)} (hr : Run step s trace t)
    (hstep : ∀ s l t, Good s → guard s l → step s l t → Good t) (hs : Good s)
    (hg : Guarded guard trace) : Good t := by
  induction hr with
  | nil => exact hs
  | cons h _ ih =>
    rw [guarded_cons] at hg
    exact ih (hstep _ _ _ hs hg.1 h) hg.2

/-- An invariant of the guarded steps holds in every state of a guarded run. -/
theorem Run.invariant_states {s t : S} {trace : List (S × L)} (hr : Run step s trace t)
    (hstep : ∀ s l t, Good s → guard s l → step s l t → Good t) (hs : Good s)
    (hg : Guarded guard trace) : ∀ e ∈ trace, Good e.1 := by
  induction hr with
  | nil => simp
  | cons h _ ih =>
    rw [guarded_cons] at hg
    intro e he
    rcases List.mem_cons.mp he with rfl | he
    · exact hs
    · exact ih (hstep _ _ _ hs hg.1 h) hg.2 e he

theorem Run.preserved {s t : S} {trace : List (S × L)} (hr : Run step s trace t)
    (hstep : ∀ s l t, Good s → step s l t → Good t) (hs : Good s) : Good t := by
  induction hr with
  | nil => exact hs
  | cons h _ ih => exact ih (hstep _ _ _ hs h)

/-- What every step keeps holds in the end if it held in some state of the run. -/
theorem Run.preserved_of_mem {s t : S} {trace : List (S × L)} (hr : Run step s trace t)
    (hstep : ∀ s l t, Good s → step s l t → Good t) {e : S × L} (he : e ∈ trace) (hgood : Good e.1) :
    Good t := by
  induction hr with
  | nil => cases he
  | cons h hr ih =>
    rcases List.mem_cons.mp he with rfl | he
    · exact hr.preserved hstep (hstep _ _ _ hgood h)
    · exact ih he

/-- When an unguarded step leads from the invariant into states that are never left,
a run ends in the invariant or in such a state, and which of the two is decided by
the guard. -/
theorem Run.good_or_bad {s t : S} {trace : List (S × L)} (hr : Run step s trace t)
    (hstep : ∀ s l t, Good s → guard s l → step s l t → Good t)
    (hbreak : ∀ s l t, Good s → ¬ guard s l → step s l t → Bad t)
    (hbad : ∀ s l t, Bad s → step s l t → Bad t) (hs : Good s) :
    (Guarded guard trace ∧ Good t) ∨ (¬ Guarded guard trace ∧ Bad t) := by
  induction hr with
  | nil => exact Or.inl ⟨guarded_nil guard,hs⟩
  | @cons s m u l trace h hr ih =>
    by_cases hg : guard s l
    · rcases ih (hstep s l m hs hg h) with ⟨htail,hend⟩ | ⟨htail,hend⟩
      · exact Or.inl ⟨guarded_cons.mpr ⟨hg,htail⟩,hend⟩
      · exact Or.inr ⟨fun hall => htail (guarded_cons.mp hall).2,hend⟩
    · exact Or.inr ⟨fun hall => hg (guarded_cons.mp hall).1,
        hr.preserved hbad (hbreak s l m hs hg h)⟩

/-- When exactly the unguarded steps leave the invariant for states without the property, the
property holds in every state of a run exactly if the run is guarded. -/
theorem Run.states_iff_guarded {P : S → Prop} {s t : S} {trace : List (S × L)}
    (hr : Run step s trace t) (hP : ∀ s, Good s → P s)
    (hstep : ∀ s l t, Good s → guard s l → step s l t → Good t)
    (hbreak : ∀ s l t, Good s → ¬ guard s l → step s l t → ¬ P t) (hs : Good s) :
    ((∀ e ∈ trace, P e.1) ∧ P t) ↔ Guarded guard trace := by
  constructor
  · rintro ⟨hstates,hend⟩
    induction hr with
    | nil => exact guarded_nil guard
    | @cons s m u l trace h hr ih =>
      have hm : P m := by
        cases hr with
        | nil => exact hend
        | @cons _ _ _ next => exact hstates (m,next) (by simp)
      have hg : guard s l := by
        by_contra hg
        exact hbreak s l m hs hg h hm
      have htail : Guarded guard trace :=
        ih (hstep s l m hs hg h) (fun e he => hstates e (List.mem_cons_of_mem _ he)) hend
      exact guarded_cons.mpr ⟨hg,htail⟩
  · intro hg
    exact ⟨fun e he => hP e.1 (hr.invariant_states hstep hs hg e he),hP t (hr.invariant hstep hs hg)⟩

/-- When, short of a goal, some step of an allowed kind brings a measure down, some run of such steps
leads to the goal. -/
theorem exists_run_to {Goal : S → Prop} {allowed : L → Prop} (measure : S → ℕ)
    (hprogress : ∀ s, Good s → ¬ Goal s →
      ∃ l t, allowed l ∧ step s l t ∧ Good t ∧ measure t < measure s) (s : S) (hs : Good s) :
    ∃ trace t, Run step s trace t ∧ (∀ e ∈ trace, allowed e.2) ∧ Good t ∧ Goal t := by
  induction hn : measure s using Nat.strongRecOn generalizing s with
  | ind n ih =>
    by_cases hgoal : Goal s
    · exact ⟨[],s,Run.nil s,by simp,hs,hgoal⟩
    · obtain ⟨l,t,hl,hstep,ht,hlt⟩ := hprogress s hs hgoal
      obtain ⟨trace,u,hr,hallowed,hu,hreached⟩ := ih (measure t) (by omega) t ht rfl
      exact ⟨(s,l) :: trace,u,Run.cons hstep hr,List.forall_mem_cons.mpr ⟨hl,hallowed⟩,hu,hreached⟩

/-- Where every step brings a measure down a run is no longer than the measure allows. -/
theorem Run.length_add_measure_le {measure : S → ℕ} {s t : S} {trace : List (S × L)}
    (hr : Run step s trace t)
    (hstep : ∀ s l t, Good s → step s l t → Good t ∧ measure t < measure s) (hs : Good s) :
    trace.length + measure t ≤ measure s := by
  induction hr with
  | nil => simp
  | @cons s m u l trace h hr ih =>
    obtain ⟨hm,hlt⟩ := hstep s l m hs h
    have hrest := ih hm
    rw [List.length_cons]
    omega

/-- When a goal, once reached, is kept, and short of it no step brings a measure up and each counted one
brings it down, a run with more counted steps than the measure allows has reached the goal. -/
theorem Run.goal_of_counted {Goal : S → Prop} {allowed : L → Prop} {counted : L → Bool} {measure : S → ℕ}
    {s t : S} {trace : List (S × L)} (hr : Run step s trace t)
    (hstep : ∀ s l t, Good s → allowed l → step s l t → Good t ∧ (Goal s → Goal t) ∧
      (¬ Goal s → measure t + (counted l).toNat ≤ measure s)) (hs : Good s)
    (hallowed : Guarded (fun _ => allowed) trace)
    (hcount : measure s < trace.countP fun e => counted e.2) : Goal t := by
  have hbound : Goal t ∨ measure t + trace.countP (fun e => counted e.2) ≤ measure s := by
    clear hcount
    induction hr with
    | nil => exact Or.inr (by simp)
    | @cons s m u l trace h hr ih =>
      rw [guarded_cons] at hallowed
      obtain ⟨hm,hkept,hdown⟩ := hstep s l m hs hallowed.1 h
      by_cases hgoal : Goal s
      · have hboth : ∀ s l t, Good s ∧ Goal s → allowed l → step s l t → Good t ∧ Goal t :=
          fun s l t h hl hs => ⟨(hstep s l t h.1 hl hs).1,(hstep s l t h.1 hl hs).2.1 h.2⟩
        exact Or.inl (hr.invariant hboth ⟨hm,hkept hgoal⟩ hallowed.2).2
      · have hfirst := hdown hgoal
        refine (ih hm hallowed.2).imp_right fun hle => ?_
        have hcons : ((s,l) :: trace).countP (fun e => counted e.2) =
            trace.countP (fun e => counted e.2) + (counted l).toNat := by
          rw [List.countP_cons]
          cases counted l <;> simp
        omega
  exact hbound.resolve_right (by omega)

/-- The steps of a run to `t`, each with the state it leads to. -/
def transitions : List (S × L) → S → List (S × L × S)
  | [],_ => []
  | (s,l) :: trace,t => (s,l,(trace.head?.map Prod.fst).getD t) :: transitions trace t

theorem Run.first_eq {s t : S} {trace : List (S × L)} (hr : Run step s trace t) :
    (trace.head?.map Prod.fst).getD t = s := by
  cases hr with
  | nil => rfl
  | cons => rfl

theorem mem_transitions_last (trace : List (S × L)) (s : S) (l : L) (t : S) :
    (s,l,t) ∈ transitions (trace ++ [(s,l)]) t := by
  induction trace with
  | nil => exact List.mem_singleton_self _
  | cons e trace ih => exact List.mem_cons_of_mem _ ih

theorem Run.step_of_mem_transitions {s t : S} {trace : List (S × L)} (hr : Run step s trace t)
    {e : S × L × S} (he : e ∈ transitions trace t) :
    (e.1,e.2.1) ∈ trace ∧ step e.1 e.2.1 e.2.2 := by
  induction hr with
  | nil => cases he
  | @cons s m t l trace h hr ih =>
    rw [transitions, hr.first_eq] at he
    rcases List.mem_cons.mp he with rfl | he
    · exact ⟨List.mem_cons_self,h⟩
    · exact ⟨List.mem_cons_of_mem _ (ih he).1,(ih he).2⟩

/-- When the guard decides, in each state of the invariant, whether the step has a property, and
keeps the invariant, the steps of a run have the property exactly if the run is guarded. -/
theorem Run.transitions_iff_guarded {P : S → L → S → Prop} {s t : S} {trace : List (S × L)}
    (hr : Run step s trace t) (hstep : ∀ s l t, Good s → guard s l → step s l t → Good t)
    (hP : ∀ s l t, Good s → step s l t → (P s l t ↔ guard s l)) (hs : Good s) :
    (∀ e ∈ transitions trace t, P e.1 e.2.1 e.2.2) ↔ Guarded guard trace := by
  induction hr with
  | nil => simp [transitions]
  | @cons s m t l trace h hr ih =>
    rw [transitions, hr.first_eq, List.forall_mem_cons, guarded_cons, hP s l m hs h]
    exact and_congr_right fun hg => ih (hstep s l m hs hg h)

end LabelledRun
