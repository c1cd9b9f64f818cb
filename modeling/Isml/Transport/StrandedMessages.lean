import Isml.Transport.WriteInFlight

/-! # Messages nobody is going to send

A `doSend` that saw messages in the queue leaves its own to the writer of those. When
the queue is drained between its `size()` and its `push`, nobody is left to do it, and
every later `doSend` finds the queue non-empty.
-/
namespace Isml.TcpTransport
open LabelledRun

/-- Whoever leaves messages in the queue leaves somebody to look after it: at the push
of a `doSend` that does not write itself, and where a writer goes without another pull. -/
def Attended (b : Build) (s : Outgoing) : SendEvent → Prop
  | .push inProgress => inProgress = true → 0 < s.busy
  | .write m => (∃ e, writeFrame b m = .error e) → s.queue = [] ∨ 1 < s.busy
  | .fail => s.queue = [] ∨ 1 < s.busy
  | _ => True

/-- Messages are left, and there is nobody to look after them. -/
def Stranded (s : Outgoing) : Prop := s.queue ≠ [] ∧ s.busy = 0

/-- What an event does to the queue and to the number of those who look after it. -/
def Effect (b : Build) (s t : Outgoing) : SendEvent → Prop
  | .size _ => t.queue = s.queue ∧ s.busy ≤ t.busy ∧ (s.queue ≠ [] → t.busy = s.busy)
  | .push inProgress => t.queue ≠ [] ∧ t.busy = s.busy ∧ (inProgress = false → 0 < s.busy)
  | .pull => 0 < s.busy ∧ (t.queue = [] ∨ t.busy = s.busy)
  | .write m => t.queue = s.queue ∧ 0 < s.busy ∧
      ((∃ e, writeFrame b m = .error e) ∧ t.busy + 1 = s.busy ∨
        (∃ frame, writeFrame b m = .ok frame) ∧ t.busy = s.busy)
  | .complete => 0 < s.busy ∧ t.busy = s.busy
  | .fail => t.queue = s.queue ∧ t.busy + 1 = s.busy

section Steps
variable {b : Build} {s t : Outgoing} {e : SendEvent}

theorem writeMessage_effect (m : Message) (s : Outgoing) :
    (writeMessage b m s).queue = s.queue ∧
      ((∃ e, writeFrame b m = .error e) ∧ (writeMessage b m s).busy = s.busy ∨
        (∃ frame, writeFrame b m = .ok frame) ∧ (writeMessage b m s).busy = s.busy + 1) := by
  cases h : writeFrame b m with
  | ok frame =>
    rw [writeMessage_of_ok h]
    refine ⟨rfl,Or.inr ⟨⟨frame,rfl⟩,?_⟩⟩
    simp only [Outgoing.busy, List.length_append, List.length_singleton]
    omega
  | error e =>
    have hwrite : writeMessage b m s =
        { s with outgoing := ⟨outgoingLength m,s.outgoing.data⟩, assignments := s.assignments + 1 } := by
      rw [writeMessage, h]
    rw [hwrite]
    exact ⟨rfl,Or.inl ⟨⟨e,rfl⟩,rfl⟩⟩

theorem step_effect (h : Step b s e t) : Effect b s t e := by
  cases h with
  | size m =>
    refine ⟨rfl,?_,fun hq => ?_⟩
    · simp [Outgoing.busy, List.countP_cons]
    · have hsize : 0 < s.queue.size := List.length_pos_iff.mpr hq
      simp [Outgoing.busy, hsize]
  | push hs =>
    rename_i m inProgress xs ys
    refine ⟨by simp [MessageQueue.push],?_,?_⟩
    · cases inProgress <;> simp [Outgoing.busy, hs, List.countP_cons]
    · rintro rfl
      simp [Outgoing.busy, hs]
  | pullNothing hs hq =>
    obtain ⟨_,rfl⟩ := MessageQueue.pull_eq_none.mp hq
    refine ⟨?_,Or.inl rfl⟩
    simp [Outgoing.busy, hs, List.countP_cons]
  | pull hs hq => simp [Effect, Outgoing.busy, hs, List.countP_cons]
  | write hs =>
    rename_i m xs ys
    have hbusy : s.busy = Outgoing.busy { s with activities := xs ++ ys } + 1 := by
      simp [Outgoing.busy, hs, List.countP_cons]
      omega
    obtain ⟨hqueue,herror | hok⟩ := writeMessage_effect (b := b) m { s with activities := xs ++ ys }
    · exact ⟨hqueue,by omega,Or.inl ⟨herror.1,by omega⟩⟩
    · exact ⟨hqueue,by omega,Or.inr ⟨hok.1,by omega⟩⟩
  | complete hw _ =>
    simp only [Effect, Outgoing.busy, hw, List.countP_cons, List.length_append, List.length_cons,
      Activity.committed_writing, if_true]
    omega
  | fail hw =>
    refine ⟨rfl,?_⟩
    simp only [Outgoing.busy, hw, List.length_append, List.length_cons]
    omega

end Steps

section Watch
variable {b : Build} {s t : Outgoing} {e : SendEvent}

/-- A step that leaves somebody to look after the queue keeps it looked after. -/
theorem attended_step (hs : ¬ Stranded s) (hg : Attended b s e) (h : Step b s e t) :
    ¬ Stranded t := by
  have heffect := step_effect h
  unfold Stranded at hs ⊢
  rintro ⟨hq,hb⟩
  cases e with
  | size m =>
    obtain ⟨hqueue,hle,_⟩ := heffect
    exact hs ⟨hqueue ▸ hq,by omega⟩
  | push inProgress =>
    obtain ⟨_,hbusy,hwriter⟩ := heffect
    cases inProgress with
    | true =>
      have hpos := hg rfl
      omega
    | false =>
      have hpos := hwriter rfl
      omega
  | pull =>
    obtain ⟨hpos,hempty | hbusy⟩ := heffect
    · exact hq hempty
    · omega
  | write m =>
    obtain ⟨hqueue,hpos,⟨herror,hbusy⟩ | ⟨_,hbusy⟩⟩ := heffect
    · rcases hg herror with hempty | hmore
      · exact hq (hqueue.trans hempty)
      · omega
    · omega
  | complete =>
    obtain ⟨hpos,hbusy⟩ := heffect
    omega
  | fail =>
    obtain ⟨hqueue,hbusy⟩ := heffect
    rcases hg with hempty | hmore
    · exact hq (hqueue.trans hempty)
    · omega

theorem stranded_of_not_attended (hg : ¬ Attended b s e) (h : Step b s e t) :
    Stranded t := by
  have heffect := step_effect h
  cases e with
  | push inProgress =>
    obtain ⟨hqueue,hbusy,_⟩ := heffect
    unfold Attended at hg
    rw [Classical.not_imp] at hg
    exact ⟨hqueue,by omega⟩
  | write m =>
    obtain ⟨hqueue,_,hcases⟩ := heffect
    unfold Attended at hg
    rw [Classical.not_imp, not_or] at hg
    obtain ⟨⟨e,he⟩,hq,hb⟩ := hg
    rcases hcases with ⟨_,hbusy⟩ | ⟨⟨frame,hframe⟩,_⟩
    · exact ⟨hqueue ▸ hq,by omega⟩
    · rw [he] at hframe
      cases hframe
  | fail =>
    obtain ⟨hqueue,hbusy⟩ := heffect
    unfold Attended at hg
    rw [not_or] at hg
    exact ⟨hqueue ▸ hg.1,by omega⟩
  | size m => exact absurd trivial hg
  | pull => exact absurd trivial hg
  | complete => exact absurd trivial hg

/-- Nothing that can still happen helps: a later `doSend` leaves its message to others. -/
theorem stranded_step (hs : Stranded s) (h : Step b s e t) : Stranded t := by
  have heffect := step_effect h
  obtain ⟨hq,hb⟩ := hs
  cases e with
  | size m =>
    obtain ⟨hqueue,_,hbusy⟩ := heffect
    exact ⟨hqueue ▸ hq,(hbusy hq).trans hb⟩
  | push inProgress =>
    obtain ⟨hqueue,hbusy,_⟩ := heffect
    exact ⟨hqueue,hbusy.trans hb⟩
  | pull => exact absurd heffect.1 (by omega)
  | write m => exact absurd heffect.2.1 (by omega)
  | complete => exact absurd heffect.1 (by omega)
  | fail => exact absurd heffect.2 (by omega)

theorem not_stranded_iff (hidle : s.activities = []) :
    ¬ Stranded s ↔ (s.queue ≠ [] → s.writes ≠ []) := by
  have hbusy : s.busy = 0 ↔ s.writes = [] := by
    rw [Outgoing.busy, hidle, List.countP_nil, Nat.add_zero, List.length_eq_zero_iff]
  rw [Stranded, hbusy, not_and]

end Watch

theorem idleTransport_not_stranded : ¬ Stranded idleTransport := fun h => h.1 rfl

/-- When all threads are done, queued messages are being sent exactly if nobody ever left
the queue unattended. -/
theorem writing_iff_attended (b : Build) {t : Outgoing} {trace : List (Outgoing × SendEvent)}
    (hr : Run (Step b) idleTransport trace t) (hidle : t.activities = []) :
    (t.queue ≠ [] → t.writes ≠ []) ↔ Guarded (Attended b) trace := by
  rw [← not_stranded_iff hidle]
  have hends : (Guarded (Attended b) trace ∧ ¬ Stranded t) ∨
      (¬ Guarded (Attended b) trace ∧ Stranded t) :=
    hr.good_or_bad (fun _ _ _ => attended_step) (fun _ _ _ _ => stranded_of_not_attended)
      (fun _ _ _ => stranded_step) idleTransport_not_stranded
  rcases hends with ⟨hg,ht⟩ | ⟨hg,ht⟩
  · exact iff_of_true ht hg
  · exact iff_of_false (not_not_intro ht) hg

/-- A second `doSend` has seen the message of the first, whose write is outstanding. -/
def seenBehind (m m' : Message) (frame : OutgoingFrame) : Outgoing :=
  { sending m frame with activities := [.sized m' true] }

def seenBehindEvents (m m' : Message) : List SendEvent :=
  [.size m,.push false,.size m',.pull,.write m]

theorem seenBehind_run (b : Build) {m : Message} {frame : OutgoingFrame}
    (hframe : writeFrame b m = .ok frame) (m' : Message) : ∃ trace,
    trace.map Prod.snd = seenBehindEvents m m' ∧
      Run (Step b) idleTransport trace (seenBehind m m' frame) := by
  let behind : Activity := .sized m' true
  let sized : Outgoing := { idleTransport with activities := [.sized m false] }
  let pushed : Outgoing :=
    { idleTransport with queue := [m], activities := [.writing], sent := [m] }
  let second : Outgoing := { pushed with activities := [behind,.writing] }
  let pulled : Outgoing := { idleTransport with activities := [behind,.pulled m], sent := [m] }
  have hsize : Step b idleTransport (.size m) sized := Step.size idleTransport m
  have hpush : Step b sized (.push false) pushed := Step.push (s := sized) (List.nil_append _).symm
  have hsecond : Step b pushed (.size m') second := Step.size pushed m'
  have hpull : Step b second .pull pulled :=
    Step.pull (s := second) (List.singleton_append).symm rfl
  have hwrite : Step b pulled (.write m) (seenBehind m m' frame) := by
    have h := Step.write (b := b) (s := pulled) (List.singleton_append).symm
    rwa [writeMessage_of_ok hframe] at h
  refine ⟨[(idleTransport,.size m),(sized,.push false),(pushed,.size m'),(second,.pull),
    (pulled,.write m)],rfl,?_⟩
  exact Run.cons hsize (Run.cons hpush (Run.cons hsecond (Run.cons hpull (Run.cons hwrite (Run.nil _)))))

/-- The second `doSend` leaves its message in the queue while the first one is written. -/
theorem writing_iff_attended_behind : ∃ trace t,
    trace.map Prod.snd = seenBehindEvents emptyMessage emptyMessage ++ [.push true] ∧
      Run (Step ⟨.little,true⟩) idleTransport trace t ∧ t.activities = [] ∧
      t.queue = [emptyMessage] ∧ t.writes.length = 1 ∧
      ((t.queue ≠ [] → t.writes ≠ []) ↔ Guarded (Attended ⟨.little,true⟩) trace) := by
  obtain ⟨trace,hevents,hr⟩ := seenBehind_run ⟨.little,true⟩
    (writeFrame_eq ⟨.little,true⟩ emptyMessage_framable) emptyMessage
  have hpush := hr.append (Run.cons (Step.push (List.nil_append (_ :: [])).symm) (Run.nil _))
  refine ⟨_,_,?_,hpush,rfl,rfl,rfl,writing_iff_attended ⟨.little,true⟩ hpush rfl⟩
  rw [List.map_append, hevents]
  rfl

/-- The end of a write between the `size()` and the `push` of the second call: its message
stays in the queue. -/
def overtakenEvents (m m' : Message) : List SendEvent :=
  seenBehindEvents m m' ++ [.complete,.pull,.push true]

theorem overtaken_run (b : Build) {m : Message} {frame : OutgoingFrame}
    (hframe : writeFrame b m = .ok frame) (m' : Message) :
    ∃ trace t, trace.map Prod.snd = overtakenEvents m m' ∧ Run (Step b) idleTransport trace t ∧
      t.activities = [] ∧ t.writes = [] ∧ t.queue = [m'] := by
  let drained : Outgoing := { sent m frame with activities := [.sized m' true] }
  let completed : Outgoing := { drained with activities := [.writing,.sized m' true] }
  let stranded : Outgoing := { drained with queue := [m'], activities := [], sent := [m,m'] }
  have hwrites : (seenBehind m m' frame).writes = [] ++ ⟨frame.buffer,1⟩ :: [] := rfl
  have hcomplete : Step b (seenBehind m m' frame) .complete completed :=
    Step.complete hwrites fun _ => rfl
  have hdrained : Step b completed .pull drained :=
    Step.pullNothing (s := completed) (List.nil_append _).symm rfl
  have hstranded : Step b drained (.push true) stranded :=
    Step.push (s := drained) (List.nil_append _).symm
  obtain ⟨trace,hevents,hr⟩ := seenBehind_run b hframe m'
  have hrest : Run (Step b) (seenBehind m m' frame)
      [(_,.complete),(completed,.pull),(drained,.push true)] stranded :=
    Run.cons hcomplete (Run.cons hdrained (Run.cons hstranded (Run.nil _)))
  refine ⟨_,stranded,?_,hr.append hrest,rfl,rfl,rfl⟩
  rw [List.map_append, hevents]
  rfl

/-- All threads are done, one message is queued, and no write is outstanding. -/
theorem not_writing_overtaken : ∃ trace t,
    trace.map Prod.snd = overtakenEvents emptyMessage emptyMessage ∧
      Run (Step ⟨.little,true⟩) idleTransport trace t ∧ t.activities = [] ∧
      ¬ (t.queue ≠ [] → t.writes ≠ []) := by
  obtain ⟨trace,t,hevents,hr,hidle,hwrites,hqueue⟩ := overtaken_run ⟨.little,true⟩
    (writeFrame_eq ⟨.little,true⟩ emptyMessage_framable) emptyMessage
  refine ⟨trace,t,hevents,hr,hidle,fun h => ?_⟩
  exact h (by rw [hqueue]; exact List.cons_ne_nil _ _) hwrites

end Isml.TcpTransport
