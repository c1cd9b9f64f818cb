import Isml.Session.SessionManager

/-! # The table has no null pointers

A termination takes the pointer out of the table before it calls anything that may throw,
and the handler that keeps the entry does not put it back. As long as terminations complete,
each entry is a session under its own id.
-/
namespace Isml
open LabelledRun

namespace SessionManager

/-- Nothing has crashed, and each entry is a session with the id it is stored under. -/
structure Intact (s : SessionManager) : Prop where
  running : s.crashed = false
  entry : ∀ id pointer, s.sessions.lookup id = some pointer → pointer = some ⟨id⟩

/-- A termination removes the entry of a session or leaves it as it was. -/
def LeavesEntry (s : SessionManager) : SessionOperation → Prop
  | .terminate id behaviour =>
    (s.terminate id behaviour).sessions.lookup id = none ∨
      (s.terminate id behaviour).sessions.lookup id = s.sessions.lookup id
  | .terminateAll order behaviour => ∀ id,
    (s.terminateAll order behaviour).sessions.lookup id = none ∨
      (s.terminateAll order behaviour).sessions.lookup id = s.sessions.lookup id
  | _ => True

/-- The terminations of the sessions that are there complete. -/
def TerminationsComplete (s : SessionManager) : SessionOperation → Prop
  | .terminate id behaviour => id ∈ s.sessions → behaviour.Completes
  | .terminateAll _ behaviour => ∀ id ∈ s.sessions, (behaviour id).Completes
  | _ => True

section Operations
variable {s t : SessionManager} {op : SessionOperation} {order : List SessionId}

theorem Intact.not_null (h : Intact s) (id : SessionId) : s.sessions.lookup id ≠ some none := by
  intro hnull
  cases h.entry id none hnull

theorem Intact.lookup_of_mem (h : Intact s) {id : SessionId} (hid : id ∈ s.sessions) :
    s.sessions.lookup id = some (some ⟨id⟩) := by
  obtain ⟨pointer,hpointer⟩ := Option.isSome_iff_exists.mp (AList.lookup_isSome.mpr hid)
  rw [hpointer, h.entry id pointer hpointer]

theorem Intact.sessionAt (h : Intact s) {id : SessionId} (hid : id ∈ s.sessions) :
    s.sessionAt id = some ⟨id⟩ := by
  rw [SessionManager.sessionAt, h.lookup_of_mem hid]
  rfl

theorem Intact.sessionIds (h : Intact s) (horder : ∀ id ∈ order, id ∈ s.sessions) :
    s.sessionIds order = some order := by
  unfold SessionManager.sessionIds
  induction order with
  | nil => rfl
  | cons id order ih =>
    rw [List.mapM_cons, h.sessionAt (horder id List.mem_cons_self),
      ih fun other hother => horder other (List.mem_cons_of_mem _ hother)]
    rfl

theorem Intact.insertSession (h : Intact s) (id : SessionId) : Intact (s.insertSession ⟨id⟩) := by
  unfold SessionManager.insertSession
  split_ifs
  · exact h
  · refine ⟨h.running,fun other pointer hpointer => ?_⟩
    by_cases hother : other = id
    · subst hother
      rw [AList.lookup_insert] at hpointer
      exact (Option.some.inj hpointer).symm
    · rw [AList.lookup_insert_ne hother] at hpointer
      exact h.entry other pointer hpointer

theorem Intact.createSession (h : Intact s) (start opened : Outcome) :
    Intact (s.createSession start opened).2 := by
  have hnext : Intact s.generateId.2 := ⟨h.running,h.entry⟩
  have hinsert := hnext.insertSession (s.sessionId + 1)
  have hsession := hinsert.sessionAt ((mem_insertSession _ _ _).mpr (Or.inl rfl))
  unfold generateId at hnext hinsert hsession
  unfold SessionManager.createSession
  dsimp only [generateId]
  split_ifs
  · exact hnext
  · exact hinsert
  · rw [hsession]
    exact hinsert

theorem Intact.forEach (h : Intact s) (action : SessionId → Outcome)
    (horder : ∀ id ∈ order, id ∈ s.sessions) : s.forEach action order = s := by
  induction order with
  | nil => rfl
  | cons id order ih =>
    rw [SessionManager.forEach, h.sessionAt (horder id List.mem_cons_self)]
    dsimp only
    rw [ih fun other hother => horder other (List.mem_cons_of_mem _ hother), ite_self]

theorem Intact.find (h : Intact s) (predicate : SessionId → Bool)
    (horder : ∀ id ∈ order, id ∈ s.sessions) : (s.find predicate order).2 = s := by
  induction order with
  | nil => rfl
  | cons id order ih =>
    rw [SessionManager.find, h.sessionAt (horder id List.mem_cons_self)]
    dsimp only
    split_ifs
    · rfl
    · exact ih fun other hother => horder other (List.mem_cons_of_mem _ hother)

/-- Every session is terminated, and its entry is what its own termination made of it. -/
theorem Intact.terminateAll_lookup (h : Intact s) (behaviour : SessionId → Termination)
    (horder : order.Perm s.sessions.keys) :
    (s.terminateAll order behaviour).crashed = false ∧ ∀ id,
      (s.terminateAll order behaviour).sessions.lookup id =
        entryAfter (behaviour id) (s.sessions.lookup id) := by
  have hmem : ∀ id, id ∈ order ↔ id ∈ s.sessions := fun id => horder.mem_iff.trans AList.mem_keys.symm
  have hall : s.terminateAll order behaviour = s.terminateEach behaviour order := by
    rw [SessionManager.terminateAll, h.sessionIds fun id hid => (hmem id).mp hid]
  obtain ⟨hrunning,hinside,houtside⟩ := terminateEach_lookup behaviour
    (horder.nodup_iff.mpr (AList.keys_nodup _)) h.running fun id _ => h.not_null id
  rw [hall]
  refine ⟨hrunning,fun id => ?_⟩
  by_cases hid : id ∈ order
  · exact hinside id hid
  · have hnone : s.sessions.lookup id = none := AList.lookup_eq_none.mpr fun h' => hid ((hmem id).mpr h')
    rw [houtside id hid, hnone]
    exact (if_pos (Or.inl rfl)).symm

theorem Intact.of_entryAfter (h : Intact s) (hrunning : t.crashed = false)
    (hentry : ∀ id, t.sessions.lookup id = s.sessions.lookup id ∨ t.sessions.lookup id = none) :
    Intact t := by
  refine ⟨hrunning,fun id pointer hpointer => ?_⟩
  rcases hentry id with hsame | hnone
  · exact h.entry id pointer (hsame ▸ hpointer)
  · rw [hnone] at hpointer
    cases hpointer

theorem Intact.terminate_lookup (h : Intact s) {id : SessionId} {behaviour : Termination}
    (hg : id ∈ s.sessions → behaviour.Completes) :
    (s.terminate id behaviour).crashed = false ∧
      (s.terminate id behaviour).sessions.lookup id = none ∧ ∀ other, other ≠ id →
        (s.terminate id behaviour).sessions.lookup other = s.sessions.lookup other := by
  obtain ⟨hcrashed,hentry,hothers⟩ := terminateSessionNoLock_lookup behaviour (h.not_null id)
  refine ⟨hcrashed.trans h.running,hentry.trans (if_pos ?_),hothers⟩
  by_cases hid : id ∈ s.sessions
  · exact Or.inr (hg hid)
  · exact Or.inl (AList.lookup_eq_none.mpr hid)

theorem entryAfter_eq_none {behaviour : SessionId → Termination}
    (hg : ∀ id ∈ s.sessions, (behaviour id).Completes) (id : SessionId) :
    entryAfter (behaviour id) (s.sessions.lookup id) = none := by
  refine if_pos ?_
  by_cases hid : id ∈ s.sessions
  · exact Or.inr (hg id hid)
  · exact Or.inl (AList.lookup_eq_none.mpr hid)

theorem Intact.step (h : Intact s) (hg : TerminationsComplete s op) (hstep : Step s op t) : Intact t := by
  obtain ⟨_,hvisits,rfl⟩ := hstep
  cases op with
  | createSession start opened => exact h.createSession start opened
  | terminate id behaviour =>
    obtain ⟨hrunning,hentry,hothers⟩ := h.terminate_lookup hg
    refine h.of_entryAfter hrunning fun other => ?_
    by_cases hother : other = id
    · exact Or.inr (hother ▸ hentry)
    · exact Or.inl (hothers other hother)
  | terminateAll order behaviour =>
    obtain ⟨hrunning,hentry⟩ := h.terminateAll_lookup behaviour hvisits
    exact h.of_entryAfter hrunning fun id => Or.inr ((hentry id).trans (entryAfter_eq_none hg id))
  | forEach order action =>
    have hsame := h.forEach action fun id hid => AList.mem_keys.mpr (hvisits.mem_iff.mp hid)
    change Intact (s.forEach action order)
    rwa [hsame]
  | find order predicate =>
    have hsame := h.find predicate fun id hid => AList.mem_keys.mpr (hvisits.mem_iff.mp hid)
    change Intact (s.find predicate order).2
    rwa [hsame]

theorem Intact.leavesEntry (h : Intact s) (hg : TerminationsComplete s op) (hvisits : s.Visits op) :
    LeavesEntry s op := by
  cases op with
  | terminate id behaviour => exact Or.inl (h.terminate_lookup hg).2.1
  | terminateAll order behaviour =>
    obtain ⟨_,hentry⟩ := h.terminateAll_lookup behaviour hvisits
    exact fun id => Or.inl ((hentry id).trans (entryAfter_eq_none hg id))
  | _ => trivial

theorem not_intact_of_entry {id : SessionId} (hentry : t.sessions.lookup id = some none) : ¬ Intact t :=
  fun h => h.not_null id hentry

theorem not_intact_of_not_terminationsComplete (h : Intact s) (hg : ¬ TerminationsComplete s op)
    (hstep : Step s op t) : ¬ Intact t := by
  obtain ⟨_,hvisits,rfl⟩ := hstep
  cases op with
  | terminate id behaviour =>
    unfold TerminationsComplete at hg
    rw [Classical.not_imp] at hg
    obtain ⟨-,hentry,-⟩ := terminateSessionNoLock_lookup behaviour (h.not_null id)
    rw [h.lookup_of_mem hg.1] at hentry
    exact not_intact_of_entry (hentry.trans (if_neg (by simp [hg.2])))
  | terminateAll order behaviour =>
    unfold TerminationsComplete at hg
    push Not at hg
    obtain ⟨id,hid,hfails⟩ := hg
    obtain ⟨_,hentry⟩ := h.terminateAll_lookup behaviour hvisits
    have hnull := hentry id
    rw [h.lookup_of_mem hid] at hnull
    exact not_intact_of_entry (hnull.trans (if_neg (by simp [hfails])))
  | _ => exact absurd trivial hg

end Operations

theorem create_intact : Intact create := by
  refine ⟨rfl,fun id pointer hpointer => ?_⟩
  rw [create, AList.lookup_empty] at hpointer
  cases hpointer

/-- The table is intact in every state of a run, and no termination changes an entry without
removing it, exactly if every termination of a session of the table completes. -/
theorem intact_iff {t : SessionManager} {trace : List (SessionManager × SessionOperation)}
    (hr : Run Step create trace t) :
    ((∀ e ∈ trace, Intact e.1 ∧ LeavesEntry e.1 e.2) ∧ Intact t) ↔
      Guarded TerminationsComplete trace := by
  have hiff : ((∀ e ∈ trace, Intact e.1) ∧ Intact t) ↔ Guarded TerminationsComplete trace :=
    hr.states_iff_guarded (fun _ h => h) (fun _ _ _ h => h.step)
      (fun _ _ _ => not_intact_of_not_terminationsComplete) create_intact
  constructor
  · rintro ⟨hstates,hend⟩
    exact hiff.mp ⟨fun e he => (hstates e he).1,hend⟩
  · intro hg
    obtain ⟨hstates,hend⟩ := hiff.mpr hg
    refine ⟨fun e he => ?_,hend⟩
    obtain ⟨u,hstep⟩ := hr.exists_step he
    exact ⟨hstates e he,(hstates e he).leavesEntry (hg e he) hstep.visits⟩

/-- A session is created, `onSessionTerminating` throws in its termination, and then all
sessions are to be terminated. -/
def throwingOperations : List SessionOperation :=
  [.createSession .returns .returns,.terminate 1 ⟨.throws,.returns,.returns⟩,
    .terminateAll [1] fun _ => ⟨.returns,.returns,.returns⟩]

theorem throwing_run : ∃ trace t, trace.map Prod.snd = throwingOperations ∧ Run Step create trace t ∧
    t.crashed = true ∧ t.sessions.lookup 1 = some none := by
  let created : SessionManager := create.perform (.createSession .returns .returns)
  let moved : SessionManager := created.perform (.terminate 1 ⟨.throws,.returns,.returns⟩)
  let crashed : SessionManager :=
    moved.perform (.terminateAll [1] fun _ => ⟨.returns,.returns,.returns⟩)
  have hcreate : Step create (.createSession .returns .returns) created := ⟨rfl,trivial,rfl⟩
  have hterminate : Step created (.terminate 1 ⟨.throws,.returns,.returns⟩) moved := ⟨rfl,trivial,rfl⟩
  have hall : Step moved (.terminateAll [1] fun _ => ⟨.returns,.returns,.returns⟩) crashed :=
    ⟨rfl,List.Perm.refl _,rfl⟩
  exact ⟨[(create,_),(created,_),(moved,_)],crashed,rfl,
    Run.cons hcreate (Run.cons hterminate (Run.cons hall (Run.nil _))),rfl,rfl⟩

theorem intact_iff_throwing : ∃ trace t, trace.map Prod.snd = throwingOperations ∧
    Run Step create trace t ∧ (((∀ e ∈ trace, Intact e.1 ∧ LeavesEntry e.1 e.2) ∧ Intact t) ↔
      Guarded TerminationsComplete trace) := by
  obtain ⟨trace,t,hoperations,hr,_⟩ := throwing_run
  exact ⟨trace,t,hoperations,hr,intact_iff hr⟩

/-- The table has a null pointer left, which `terminateAll` dereferences. -/
theorem not_intact_throwing : ∃ trace t, trace.map Prod.snd = throwingOperations ∧
    Run Step create trace t ∧ t.crashed = true ∧ t.sessions.lookup 1 = some none ∧ ¬ Intact t := by
  obtain ⟨trace,t,hoperations,hr,hcrashed,hnull⟩ := throwing_run
  exact ⟨trace,t,hoperations,hr,hcrashed,hnull,not_intact_of_entry hnull⟩

end SessionManager

end Isml
