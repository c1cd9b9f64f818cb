import Isml.Transport.SendInterleaving

/-! # `TcpTransport::doReceive`

The test `size() > 0` and the `pull()` behind it are two critical sections of the incoming queue.
Any number of threads are between the two while the reader pushes messages, so the queue can be
empty when a thread that saw a message gets to its `pull()`.
-/
namespace Isml.TcpTransport
open LabelledRun

/-- The incoming queue and the threads inside `doReceive`, each with the answer of its test. Kept
for the statements are the messages pushed and the results of the calls, in the order of the
operations; a result is engaged or `std::nullopt`, and the message in it may be null. -/
structure Receiving where
  queue : MessageQueue
  receivers : List Bool
  pushed : List Message
  results : List (Option (Option Message))

inductive ReceiveEvent where
  | push (msg : Message)
  | size
  | pull
  | nothing

def idleReceiving : Receiving := ⟨[],[],[],[]⟩

inductive ReceiveStep : Receiving → ReceiveEvent → Receiving → Prop
  | push (s : Receiving) (msg : Message) : ReceiveStep s (.push msg)
      { s with queue := s.queue.push msg, pushed := s.pushed ++ [msg] }
  | size (s : Receiving) : ReceiveStep s .size
      { s with receivers := decide (0 < s.queue.size) :: s.receivers }
  | pull {s : Receiving} {xs ys : List Bool} {msg : Option Message} {queue : MessageQueue} :
      s.receivers = xs ++ true :: ys → s.queue.pull = (msg,queue) → ReceiveStep s .pull
        { s with queue := queue, receivers := xs ++ ys, results := s.results ++ [some msg] }
  | nothing {s : Receiving} {xs ys : List Bool} :
      s.receivers = xs ++ false :: ys → ReceiveStep s .nothing
        { s with receivers := xs ++ ys, results := s.results ++ [none] }

namespace Receiving

/-- The messages that were returned, in the order of the pulls. -/
def returned (s : Receiving) : List Message := s.results.filterMap Option.join

/-- The first messages pushed have been returned, each once and in their order, and the others
are in the queue. -/
def InPushOrder (s : Receiving) : Prop := s.pushed = s.returned ++ s.queue

/-- An engaged result holds a message. -/
def EngagedHold (s : Receiving) : Prop := some none ∉ s.results

structure Safe (s : Receiving) : Prop where
  engaged : s.EngagedHold
  order : s.InPushOrder

end Receiving

/-- A thread that saw a message finds one. -/
def StillThere (s : Receiving) : ReceiveEvent → Prop
  | .pull => s.queue ≠ []
  | _ => True

section Steps
variable {s t : Receiving} {e : ReceiveEvent}

theorem returned_append (results : List (Option (Option Message))) (r : Option (Option Message)) :
    (results ++ [r]).filterMap Option.join = results.filterMap Option.join ++ r.join.toList := by
  rw [List.filterMap_append]
  cases h : r.join with
  | none => rw [List.filterMap_cons_none h]; rfl
  | some m => rw [List.filterMap_cons_some h]; rfl

/-- Whatever the threads do, no message is lost, returned twice or overtaken. -/
theorem inPushOrder_step (h : s.InPushOrder) (hstep : ReceiveStep s e t) : t.InPushOrder := by
  unfold Receiving.InPushOrder Receiving.returned at h ⊢
  cases hstep with
  | push msg => rw [h, MessageQueue.push, List.append_assoc]
  | size => exact h
  | @pull _ _ msg queue _ hpull =>
    dsimp only
    rw [returned_append, h]
    cases msg with
    | none =>
      obtain ⟨hempty,rfl⟩ := MessageQueue.pull_eq_none.mp hpull
      rw [hempty]
      simp
    | some m =>
      rw [MessageQueue.pull_eq_some.mp hpull]
      simp
  | nothing =>
    dsimp only
    rw [returned_append, h]
    simp

theorem engagedHold_step (h : s.EngagedHold) (hg : StillThere s e) (hstep : ReceiveStep s e t) :
    t.EngagedHold := by
  unfold Receiving.EngagedHold at h ⊢
  cases hstep with
  | push msg => exact h
  | size => exact h
  | @pull _ _ msg queue _ hpull =>
    rw [List.mem_append, not_or]
    refine ⟨h,fun hnull => ?_⟩
    cases List.mem_singleton.mp hnull
    exact hg (MessageQueue.pull_eq_none.mp hpull).1
  | nothing =>
    rw [List.mem_append, not_or]
    exact ⟨h,fun hnull => nomatch List.mem_singleton.mp hnull⟩

/-- Whoever finds the queue empty returns an engaged result without a message. -/
theorem not_engagedHold_step (hg : ¬ StillThere s e) (hstep : ReceiveStep s e t) : ¬ t.EngagedHold := by
  cases hstep with
  | push msg => exact absurd trivial hg
  | size => exact absurd trivial hg
  | @pull xs ys msg queue _ hpull =>
    have hempty : s.queue = [] := not_not.mp hg
    rw [hempty] at hpull
    cases hpull
    exact fun hnone => hnone (List.mem_append_right _ (List.mem_singleton_self _))
  | nothing => exact absurd trivial hg

theorem safe_idleReceiving : idleReceiving.Safe := ⟨List.not_mem_nil,rfl⟩

/-- In every run the messages come out once and in the order of their pushes. -/
theorem inPushOrder_of_run {trace : List (Receiving × ReceiveEvent)}
    (hr : Run ReceiveStep idleReceiving trace t) : t.InPushOrder :=
  hr.preserved (fun _ _ _ h hstep => inPushOrder_step h hstep) safe_idleReceiving.order

/-- All states of a run are safe exactly if every thread that saw a message finds one. -/
theorem safe_iff {trace : List (Receiving × ReceiveEvent)} (hr : Run ReceiveStep idleReceiving trace t) :
    ((∀ e ∈ trace, e.1.Safe) ∧ t.Safe) ↔ Guarded StillThere trace := by
  have hstep : ∀ s e t, s.Safe → StillThere s e → ReceiveStep s e t → t.Safe := fun s e t h hg hstep =>
    ⟨engagedHold_step h.engaged hg hstep,inPushOrder_step h.order hstep⟩
  have hbreak : ∀ s e t, s.Safe → ¬ StillThere s e → ReceiveStep s e t → ¬ t.Safe :=
    fun s e t _ hg hstep h => not_engagedHold_step hg hstep h.engaged
  exact hr.states_iff_guarded (fun _ h => h) hstep hbreak safe_idleReceiving

end Steps

/-- Messages were pushed, and some threads have seen them. -/
def seenBy (n : ℕ) (queue : MessageQueue) : Receiving := ⟨queue,List.replicate n true,queue,[]⟩

theorem push_seenBy (queue : MessageQueue) (msg : Message) :
    ReceiveStep (seenBy 0 queue) (.push msg) (seenBy 0 (queue.push msg)) := .push (seenBy 0 queue) msg

theorem run_seenBy (queue : MessageQueue) (hqueue : 0 < queue.size) (n : ℕ) : ∃ trace,
    trace.map Prod.snd = List.replicate n .size ∧ Run ReceiveStep (seenBy 0 queue) trace (seenBy n queue) := by
  induction n with
  | zero => exact ⟨[],rfl,Run.nil _⟩
  | succ n ih =>
    obtain ⟨trace,hevents,hr⟩ := ih
    have hsize : ReceiveStep (seenBy n queue) .size (seenBy (n + 1) queue) := by
      have h := ReceiveStep.size (seenBy n queue)
      rwa [show decide (0 < (seenBy n queue).queue.size) = true from decide_eq_true hqueue] at h
    refine ⟨trace ++ [(seenBy n queue,.size)],?_,hr.append (Run.cons hsize (Run.nil _))⟩
    rw [List.map_append, hevents, List.replicate_succ']
    rfl

/-- Two threads see two messages, and each of them gets one. -/
theorem safe_iff_two : ∃ trace t, Run ReceiveStep idleReceiving trace t ∧
    trace.map Prod.snd = [.push emptyMessage,.push emptyMessage,.size,.size,.pull,.pull] ∧
    t.results = [some (some emptyMessage),some (some emptyMessage)] ∧
    (((∀ e ∈ trace, e.1.Safe) ∧ t.Safe) ↔ Guarded StillThere trace) := by
  obtain ⟨trace,hevents,hr⟩ := run_seenBy [emptyMessage,emptyMessage] Nat.two_pos 2
  have hpull := Run.cons (push_seenBy [] emptyMessage) (Run.cons (push_seenBy [emptyMessage] emptyMessage)
    (hr.append (Run.cons (.pull (List.nil_append (true :: _)).symm rfl)
      (Run.cons (.pull (List.nil_append (true :: _)).symm rfl) (Run.nil _)))))
  refine ⟨_,_,hpull,?_,rfl,safe_iff hpull⟩
  rw [List.map_cons, List.map_cons, List.map_append, hevents]
  rfl

/-- Two threads see the message, and the second to pull returns an engaged null. -/
theorem not_safe_two : ∃ trace t, Run ReceiveStep idleReceiving trace t ∧
    trace.map Prod.snd = [.push emptyMessage,.size,.size,.pull,.pull] ∧
    t.results = [some (some emptyMessage),some none] ∧ ¬ t.Safe := by
  obtain ⟨trace,hevents,hr⟩ := run_seenBy [emptyMessage] Nat.one_pos 2
  have hpull := Run.cons (push_seenBy [] emptyMessage) (hr.append
    (Run.cons (.pull (List.nil_append (true :: _)).symm rfl)
      (Run.cons (.pull (List.nil_append (true :: _)).symm rfl) (Run.nil _))))
  refine ⟨_,_,hpull,?_,rfl,fun h => ?_⟩
  · rw [List.map_cons, List.map_append, hevents]
    rfl
  · exact h.engaged (List.mem_cons_of_mem _ (List.mem_singleton_self _))

end Isml.TcpTransport
