import Isml.Transport.SendInterleaving

/-! # At most one write, and its frame

`doSend` takes the queue for the sign of a write in progress, but the message being
written has left the queue. While every `doSend` that finds the queue empty finds nobody
writing either, one writer works at a time and the frames go out whole and in order.
-/
namespace Isml.TcpTransport
open ByteOrder StringStream LabelledRun

/-- The frame of a message with all its bytes, if it can be serialized. -/
def completeFrame (b : Build) (m : Message) : Option (List Byte) :=
  (writeFrame b m).toOption.map OutgoingFrame.data

/-- At most one write is outstanding, the members it refers to are as it got them, and the
bytes sent and being sent are the frames of the messages that were sent first. -/
structure InOrder (b : Build) (s : Outgoing) : Prop where
  single : s.writes.length ≤ 1
  unassigned : ∀ w ∈ s.writes, w.assignments = s.assignments
  wire : s.failed = false → s.wire ++ s.writes.flatMap PendingWrite.bytes =
    ((s.sent.filterMap (completeFrame b)).take (s.completed + s.writes.length)).flatten

/-- A message whose frame the 16-bit length can count, or without a frame. -/
def Fits (b : Build) (m : Message) : Prop :=
  (∃ frame, writeFrame b m = .ok frame) → sizeOfMessageLength + m.serializedSize < 2 ^ 16

/-- A `doSend` that finds the queue empty finds nobody writing, and what is written has
a frame that fits. -/
def Alone (b : Build) (s : Outgoing) : SendEvent → Prop
  | .size _ => s.queue = [] → s.busy = 0
  | .write m => Fits b m
  | _ => True

/-- One writer, and each frame sent is on the wire, being written, in the hand of the
writer or in the queue. -/
structure SingleWriter (b : Build) (s : Outgoing) : Prop where
  busy : s.busy ≤ 1
  unassigned : ∀ w ∈ s.writes, w.assignments = s.assignments
  frames : s.failed = false → ∃ frames : List (List Byte), frames.length = s.completed ∧
    s.wire = frames.flatten ∧ s.sent.filterMap (completeFrame b) =
      frames ++ s.writes.map PendingWrite.bytes ++ (s.inHand ++ s.queue).filterMap (completeFrame b)

theorem buffer_of_fits {b : Build} {m : Message} {frame : OutgoingFrame} (hm : Fits b m)
    (h : writeFrame b m = .ok frame) : frame.buffer = frame.data := by
  obtain ⟨hlength,hdata⟩ := writeFrame_length h
  have hfits := hm ⟨frame,h⟩
  apply List.take_of_length_le
  rw [hdata, hlength, outgoingLength, BitVec.toNat_add, BitVec.toNat_ofNat, BitVec.toNat_ofNat]
  unfold sizeOfMessageLength at hfits ⊢
  omega

theorem SingleWriter.inOrder {b : Build} {s : Outgoing} (h : SingleWriter b s) : InOrder b s := by
  refine ⟨(Nat.le_add_right _ _).trans h.busy,h.unassigned,fun hf => ?_⟩
  obtain ⟨frames,hlength,hwire,hsent⟩ := h.frames hf
  rw [hsent, hwire, List.take_left' (by rw [List.length_append, List.length_map, hlength]),
    List.flatten_append, List.flatMap_def]

section OneWriter
variable {b : Build} {s : Outgoing} {m : Message} {xs ys : List Activity} {a : Activity}

theorem inHand_eq_nil (h : xs.countP Activity.committed = 0) :
    xs.filterMap Activity.inHand = [] := by
  rw [List.countP_eq_zero] at h
  rw [List.filterMap_eq_nil_iff]
  intro a ha
  cases a with
  | sized m inProgress => rfl
  | writing => exact absurd rfl (h _ ha)
  | pulled m => exact absurd rfl (h _ ha)

theorem inHand_split (hxs : xs.countP Activity.committed = 0) (hys : ys.countP Activity.committed = 0)
    (a : Activity) : (xs ++ a :: ys).filterMap Activity.inHand = a.inHand.toList := by
  rw [List.filterMap_append, List.filterMap_cons, inHand_eq_nil hxs, inHand_eq_nil hys]
  cases a.inHand <;> rfl

/-- Beside a thread that is in `writeMessage` nobody writes and nobody holds a message. -/
theorem alone_of_split (hb : s.busy ≤ 1) (h : s.activities = xs ++ a :: ys)
    (ha : a.committed = true) : s.writes = [] ∧ xs.countP Activity.committed = 0 ∧
      ys.countP Activity.committed = 0 := by
  rw [Outgoing.busy, h, List.countP_append, List.countP_cons, ha, if_pos rfl] at hb
  exact ⟨List.eq_nil_of_length_eq_zero (by omega),by omega,by omega⟩

theorem SingleWriter.size (h : SingleWriter b s) (m : Message) (hg : s.queue = [] → s.busy = 0) :
    SingleWriter b
      { s with activities := .sized m (decide (0 < s.queue.size)) :: s.activities } := by
  refine ⟨?_,h.unassigned,h.frames⟩
  have hold := h.busy
  unfold Outgoing.busy at hg hold ⊢
  rw [List.countP_cons, Activity.committed_sized]
  cases hq : s.queue with
  | nil =>
    have hnone := hg hq
    simp only [MessageQueue.size, List.length_nil, lt_irrefl, decide_false, Bool.not_false, if_true]
    omega
  | cons m' queue =>
    simp only [MessageQueue.size, List.length_cons, Nat.succ_pos, decide_true, Bool.not_true,
      Bool.false_eq_true, if_false]
    omega

theorem SingleWriter.push {inProgress : Bool} (h : SingleWriter b s)
    (hs : s.activities = xs ++ .sized m inProgress :: ys) : SingleWriter b
      { s with
        queue := s.queue.push m
        activities := xs ++ afterPush inProgress ++ ys
        sent := s.sent ++ [m] } := by
  refine ⟨?_,h.unassigned,fun hf => ?_⟩
  · have hold := h.busy
    cases inProgress <;> simp [Outgoing.busy, hs, List.countP_cons] at hold ⊢ <;> omega
  · obtain ⟨frames,hlength,hwire,hsent⟩ := h.frames hf
    refine ⟨frames,hlength,hwire,?_⟩
    cases inProgress <;> simp [Outgoing.inHand, hs, List.filterMap_cons, MessageQueue.push, hsent]

theorem SingleWriter.pull {queue : MessageQueue} (h : SingleWriter b s)
    (hs : s.activities = xs ++ .writing :: ys) (hq : s.queue = m :: queue) :
    SingleWriter b { s with queue := queue, activities := xs ++ .pulled m :: ys } := by
  obtain ⟨hwrites,hxs,hys⟩ := alone_of_split h.busy hs rfl
  refine ⟨?_,h.unassigned,fun hf => ?_⟩
  · simp [Outgoing.busy, List.countP_cons, hwrites, hxs, hys]
  · obtain ⟨frames,hlength,hwire,hsent⟩ := h.frames hf
    refine ⟨frames,hlength,hwire,?_⟩
    rw [hsent, Outgoing.inHand, Outgoing.inHand, hs, hq, inHand_split hxs hys, inHand_split hxs hys]
    rfl

/-- While a message is in the hand of the writer nothing is being written, and its frame comes
next. -/
theorem SingleWriter.frames_pulled (h : SingleWriter b s)
    (hs : s.activities = xs ++ .pulled m :: ys) (hf : s.failed = false) :
    ∃ frames : List (List Byte), frames.length = s.completed ∧ s.wire = frames.flatten ∧
      s.sent.filterMap (completeFrame b) =
        frames ++ (completeFrame b m).toList ++ s.queue.filterMap (completeFrame b) := by
  obtain ⟨hwrites,hxs,hys⟩ := alone_of_split h.busy hs rfl
  obtain ⟨frames,hlength,hwire,hsent⟩ := h.frames hf
  refine ⟨frames,hlength,hwire,?_⟩
  have hhand : s.inHand = [m] := by
    rw [Outgoing.inHand, hs, inHand_split hxs hys]
    rfl
  have hone : [m].filterMap (completeFrame b) = (completeFrame b m).toList := by
    rw [List.filterMap_cons]
    cases completeFrame b m <;> rfl
  rw [hsent, hhand, hwrites, List.map_nil, List.append_nil, List.filterMap_append, hone,
    List.append_assoc]

theorem SingleWriter.write (h : SingleWriter b s) (hm : Fits b m)
    (hs : s.activities = xs ++ .pulled m :: ys) :
    SingleWriter b (writeMessage b m { s with activities := xs ++ ys }) := by
  obtain ⟨hwrites,hxs,hys⟩ := alone_of_split h.busy hs rfl
  have hsent := h.frames_pulled hs
  cases hframe : writeFrame b m with
  | ok frame =>
    have hcomplete : completeFrame b m = some frame.buffer := by
      rw [completeFrame, hframe, buffer_of_fits hm hframe]
      rfl
    rw [hcomplete] at hsent
    rw [writeMessage, hframe]
    refine ⟨?_,?_,?_⟩
    · simp [Outgoing.busy, hwrites, hxs, hys]
    · simp [hwrites]
    · simpa [Outgoing.inHand, hwrites, inHand_eq_nil hxs, inHand_eq_nil hys] using hsent
  | error e =>
    have hnone : completeFrame b m = none := by
      rw [completeFrame, hframe]
      rfl
    rw [hnone] at hsent
    rw [writeMessage, hframe]
    refine ⟨?_,?_,?_⟩
    · simp [Outgoing.busy, hwrites, hxs, hys]
    · simp [hwrites]
    · simpa [Outgoing.inHand, hwrites, inHand_eq_nil hxs, inHand_eq_nil hys] using hsent

/-- The outstanding write is the only one, and nobody is in `writeMessage`. -/
theorem alone_of_write {w : PendingWrite} {ws vs : List PendingWrite} (hb : s.busy ≤ 1)
    (hw : s.writes = ws ++ w :: vs) : ws = [] ∧ vs = [] ∧
      s.activities.countP Activity.committed = 0 := by
  rw [Outgoing.busy, hw, List.length_append, List.length_cons] at hb
  exact ⟨List.eq_nil_of_length_eq_zero (by omega),List.eq_nil_of_length_eq_zero (by omega),by omega⟩

theorem SingleWriter.complete {w : PendingWrite} {ws vs : List PendingWrite} (h : SingleWriter b s)
    (hw : s.writes = ws ++ w :: vs) : SingleWriter b
      { s with
        activities := .writing :: s.activities
        writes := ws ++ vs
        wire := s.wire ++ w.bytes
        completed := s.completed + 1 } := by
  obtain ⟨rfl,rfl,hnobody⟩ := alone_of_write h.busy hw
  refine ⟨?_,?_,fun hf => ?_⟩
  · simp [Outgoing.busy, List.countP_cons, hnobody]
  · simp
  · obtain ⟨frames,hlength,hwire,hsent⟩ := h.frames hf
    refine ⟨frames ++ [w.bytes],?_,?_,?_⟩
    · rw [List.length_append, hlength, List.length_singleton]
    · rw [List.flatten_append, hwire, List.flatten_singleton]
    · rw [hsent, hw]
      simp [Outgoing.inHand, List.filterMap_cons]

theorem SingleWriter.fail {w : PendingWrite} {ws vs : List PendingWrite} {bytes : List Byte}
    (h : SingleWriter b s) (hw : s.writes = ws ++ w :: vs) : SingleWriter b
      { s with
        writes := ws ++ vs
        wire := s.wire ++ bytes
        failed := true } := by
  obtain ⟨rfl,rfl,hnobody⟩ := alone_of_write h.busy hw
  refine ⟨?_,?_,fun hf => ?_⟩
  · simp [Outgoing.busy, hnobody]
  · simp
  · cases hf

theorem SingleWriter.pullNothing (h : SingleWriter b s)
    (hs : s.activities = xs ++ .writing :: ys) (hq : s.queue = []) :
    SingleWriter b { s with queue := [], activities := xs ++ ys } := by
  obtain ⟨hwrites,hxs,hys⟩ := alone_of_split h.busy hs rfl
  refine ⟨?_,h.unassigned,fun hf => ?_⟩
  · simp [Outgoing.busy, hwrites, hxs, hys]
  · obtain ⟨frames,hlength,hwire,hsent⟩ := h.frames hf
    refine ⟨frames,hlength,hwire,?_⟩
    rw [hsent, hq, Outgoing.inHand, hs]
    simp [Outgoing.inHand, List.filterMap_cons]

end OneWriter

theorem SingleWriter.step {b : Build} {s t : Outgoing} {e : SendEvent} (h : SingleWriter b s)
    (hg : Alone b s e) (hstep : Step b s e t) : SingleWriter b t := by
  cases hstep with
  | size m => exact h.size m hg
  | push hs => exact h.push hs
  | pullNothing hs hq =>
    obtain ⟨hempty,rfl⟩ := MessageQueue.pull_eq_none.mp hq
    exact h.pullNothing hs hempty
  | pull hs hq => exact h.pull hs (MessageQueue.pull_eq_some.mp hq)
  | write hs => exact h.write hg hs
  | complete hw hbytes =>
    rw [hbytes (h.unassigned _ (by rw [hw]; exact List.mem_append_right _ List.mem_cons_self))]
    exact h.complete hw
  | fail hw => exact h.fail hw

theorem idleTransport_singleWriter (b : Build) : SingleWriter b idleTransport :=
  ⟨Nat.zero_le 1,by simp [idleTransport],fun _ => ⟨[],rfl,rfl,rfl⟩⟩

/-- One write at a time, and the frames in the order of the messages, in every state of
every run in which no `doSend` finds the queue empty while somebody is writing. -/
theorem inOrder_of_alone (b : Build) {t : Outgoing} {trace : List (Outgoing × SendEvent)}
    (hr : Run (Step b) idleTransport trace t) (hg : Guarded (Alone b) trace) :
    (∀ e ∈ trace, InOrder b e.1) ∧ InOrder b t := by
  have hstep : ∀ s e t, SingleWriter b s → Alone b s e → Step b s e t → SingleWriter b t :=
    fun s e t h => h.step
  have hidle := idleTransport_singleWriter b
  constructor
  · intro e he
    exact (hr.invariant_states hstep hidle hg e he).inOrder
  · exact (hr.invariant hstep hidle hg).inOrder

/-- The steps of a `doSend` that finds the queue empty and is not interrupted. -/
def doSendEvents (m : Message) : List SendEvent := [.size m,.push false,.pull,.write m]

theorem doSend_run (b : Build) {s : Outgoing} (hq : s.queue = []) (m : Message) :
    ∃ trace, trace.map Prod.snd = doSendEvents m ∧
      Run (Step b) s trace (writeMessage b m { s with sent := s.sent ++ [m] }) ∧
      (s.busy = 0 → Fits b m → Guarded (Alone b) trace) := by
  let sized : Outgoing := { s with activities := .sized m false :: s.activities }
  let pushed : Outgoing :=
    { s with queue := [m], activities := .writing :: s.activities, sent := s.sent ++ [m] }
  let pulled : Outgoing := { s with activities := .pulled m :: s.activities, sent := s.sent ++ [m] }
  have hsize : Step b s (.size m) sized := by
    have h := Step.size (b := b) s m
    have hnone : decide (0 < s.queue.size) = false := by
      rw [hq]
      rfl
    rwa [hnone] at h
  have hpush : Step b sized (.push false) pushed := by
    have h := Step.push (b := b) (s := sized) (List.nil_append _).symm
    simpa [sized, pushed, hq, MessageQueue.push] using h
  have hpull : Step b pushed .pull pulled := by
    have h := Step.pull (b := b) (s := pushed) (List.nil_append _).symm rfl
    simpa [pushed, pulled, hq] using h
  have hwrite : Step b pulled (.write m) (writeMessage b m { s with sent := s.sent ++ [m] }) :=
    Step.write (s := pulled) (List.nil_append _).symm
  refine ⟨[(s,.size m),(sized,.push false),(pushed,.pull),(pulled,.write m)],rfl,?_,?_⟩
  · exact Run.cons hsize (Run.cons hpush (Run.cons hpull (Run.cons hwrite (Run.nil _))))
  · intro hbusy hm
    simp [Alone, hbusy, hm]

/-- Whatever is written while a write is outstanding assigns the members it refers to. -/
theorem not_inOrder_writeMessage {b : Build} {s : Outgoing} {w : PendingWrite}
    (hw : w ∈ s.writes) (ha : w.assignments ≤ s.assignments) (m : Message) :
    ¬ InOrder b (writeMessage b m s) := by
  intro h
  have hassigned : w.assignments = s.assignments + 1 := by
    have hall := h.unassigned w
    unfold writeMessage at hall
    cases hframe : writeFrame b m with
    | ok frame =>
      rw [hframe] at hall
      exact hall (List.mem_append_left _ hw)
    | error e =>
      rw [hframe] at hall
      exact hall hw
  omega

theorem writeMessage_of_ok {b : Build} {m : Message} {frame : OutgoingFrame}
    (h : writeFrame b m = .ok frame) (s : Outgoing) : writeMessage b m s =
      { s with
        outgoing := frame
        assignments := s.assignments + 1
        writes := s.writes ++ [⟨frame.buffer,s.assignments + 1⟩] } := by
  rw [writeMessage, h]

/-- A message has been sent, and its write is outstanding. -/
def sending (m : Message) (frame : OutgoingFrame) : Outgoing :=
  { idleTransport with
    outgoing := frame
    assignments := 1
    writes := [⟨frame.buffer,1⟩]
    sent := [m] }

theorem sending_run (b : Build) {m : Message} {frame : OutgoingFrame}
    (hframe : writeFrame b m = .ok frame) : ∃ trace, trace.map Prod.snd = doSendEvents m ∧
      Run (Step b) idleTransport trace (sending m frame) ∧ (Fits b m → Guarded (Alone b) trace) := by
  obtain ⟨trace,hevents,hr,hg⟩ := doSend_run b (s := idleTransport) rfl m
  rw [writeMessage_of_ok hframe] at hr
  exact ⟨trace,hevents,hr,hg rfl⟩

/-- The write has ended, and its handler has found the queue empty. -/
def sent (m : Message) (frame : OutgoingFrame) : Outgoing :=
  { sending m frame with
    writes := []
    wire := frame.buffer
    completed := 1 }

theorem sent_run (b : Build) (m : Message) (frame : OutgoingFrame) : ∃ trace,
    trace.map Prod.snd = [.complete,.pull] ∧ Run (Step b) (sending m frame) trace (sent m frame) ∧
      Guarded (Alone b) trace := by
  let completed : Outgoing := { sent m frame with activities := [.writing] }
  have hwrites : (sending m frame).writes = [] ++ ⟨frame.buffer,1⟩ :: [] := rfl
  have hcomplete : Step b (sending m frame) .complete completed := Step.complete hwrites fun _ => rfl
  have hactivities : completed.activities = [] ++ .writing :: [] := rfl
  have hpull : Step b completed .pull (sent m frame) := Step.pullNothing hactivities rfl
  exact ⟨[(_,.complete),(_,.pull)],rfl,Run.cons hcomplete (Run.cons hpull (Run.nil _)),by simp [Alone]⟩

/-- Two calls of `doSend`, and the write of the first ends before the second. -/
theorem inOrder_of_alone_two : ∃ trace t,
    trace.map Prod.snd = doSendEvents emptyMessage ++ [.complete,.pull] ++ doSendEvents emptyMessage ∧
      Run (Step ⟨.little,true⟩) idleTransport trace t ∧ t.sent = [emptyMessage,emptyMessage] ∧
      t.completed = 1 ∧ t.writes.length = 1 ∧
      (∀ e ∈ trace, InOrder ⟨.little,true⟩ e.1) ∧ InOrder ⟨.little,true⟩ t := by
  have hframe := writeFrame_eq ⟨.little,true⟩ emptyMessage_framable
  have hfits : Fits ⟨.little,true⟩ emptyMessage := fun _ => emptyMessage_framable.fits
  obtain ⟨first,hfirst,hr,hg⟩ := sending_run ⟨.little,true⟩ hframe
  obtain ⟨between,hbetween,hr',hg'⟩ := sent_run ⟨.little,true⟩ emptyMessage _
  obtain ⟨second,hsecond,hr'',hg''⟩ := doSend_run ⟨.little,true⟩ (s := sent emptyMessage _) rfl emptyMessage
  have hrun := (hr.append hr').append hr''
  have hguarded : Guarded (Alone ⟨.little,true⟩) (first ++ between ++ second) := by
    intro e he
    rw [List.mem_append, List.mem_append] at he
    rcases he with (he | he) | he
    · exact hg hfits e he
    · exact hg' e he
    · exact hg'' rfl hfits e he
  refine ⟨_,_,?_,hrun,?_,?_,?_,inOrder_of_alone ⟨.little,true⟩ hrun hguarded⟩
  · rw [List.map_append, List.map_append, hfirst, hbetween, hsecond]
  all_goals
    rw [writeMessage_of_ok hframe]
    rfl

/-- Two calls of `doSend` one after the other, and the second frame is written while the
first still is. -/
theorem not_inOrder_empty : ∃ trace t,
    trace.map Prod.snd = doSendEvents emptyMessage ++ doSendEvents emptyMessage ∧
      Run (Step ⟨.little,true⟩) idleTransport trace t ∧
      t.writes.length = 2 ∧ ¬ InOrder ⟨.little,true⟩ t := by
  have hframe := writeFrame_eq ⟨.little,true⟩ emptyMessage_framable
  obtain ⟨trace,hevents,hr,_⟩ := sending_run ⟨.little,true⟩ hframe
  obtain ⟨rest,hevents',hr',_⟩ := doSend_run ⟨.little,true⟩ (s := sending emptyMessage _) rfl emptyMessage
  refine ⟨trace ++ rest,_,?_,hr.append hr',?_,?_⟩
  · rw [List.map_append, hevents, hevents']
  · rw [writeMessage_of_ok hframe]
    rfl
  · exact not_inOrder_writeMessage List.mem_cons_self le_rfl emptyMessage

end Isml.TcpTransport
