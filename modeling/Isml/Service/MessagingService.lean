import Isml.Library.LabelledRun

/-! # `MessagingService`: a start and a stop beside each other

One thread is in `doStart`, one in `doStop`, and the worker that `doStart` launches runs
beside them. A step is one read or write of `m_state`, or one of the calls between them.
-/
namespace Isml
open LabelledRun

inductive ServiceState where
  | startPending
  | started
  | stopPending
  | stopped
  deriving DecidableEq, Repr

/-- Where `doStart` is: in front of its write, of `std::async`, of the assignment to `m_io`,
or at its end. -/
inductive Starting where
  | entered
  | pending
  | launched
  | returned
  deriving DecidableEq, Repr

/-- Where the worker is: not launched, in front of its first write, of the condition of its
loop, in `run`, in front of its last write, or at its end. -/
inductive IoWorker where
  | none
  | entered
  | looping
  | running
  | leaving
  | finished
  deriving DecidableEq, Repr

/-- Where `doStop` is: in front of its write, of `terminateAll`, of `stop`, of the wait for
the worker, or at its end, where an exception was caught or not. -/
inductive Stopping where
  | entered
  | pending
  | terminated
  | stopped
  | returned (caught : Bool)
  deriving DecidableEq, Repr

/-- `m_state`, whether `m_ioc` was stopped and `m_io` assigned, and the three threads. -/
structure MessagingService where
  state : ServiceState
  iocStopped : Bool
  io : Bool
  starting : Starting
  worker : IoWorker
  stopping : Stopping
  deriving DecidableEq, Repr

inductive ServiceEvent where
  | startPending
  | launch
  | assign
  | started
  | check
  | run
  | stopped
  | stopPending
  | terminateAll
  | stop
  | wait
  deriving DecidableEq, Repr

namespace MessagingService

def create : MessagingService := ⟨.stopped,false,false,.entered,.none,.entered⟩

/-- `run` returns when the context was stopped, and whenever a handler throws. `terminateAll`
may throw, and the wait does when there is nothing to wait for yet. -/
inductive Step : MessagingService → ServiceEvent → MessagingService → Prop
  | startPending {s : MessagingService} : s.starting = .entered →
      Step s .startPending { s with state := .startPending, starting := .pending }
  | launch {s : MessagingService} : s.starting = .pending →
      Step s .launch { s with worker := .entered, starting := .launched }
  | assign {s : MessagingService} : s.starting = .launched →
      Step s .assign { s with io := true, starting := .returned }
  | started {s : MessagingService} : s.worker = .entered →
      Step s .started { s with state := .started, worker := .looping }
  | check {s : MessagingService} : s.worker = .looping →
      Step s .check { s with worker := if s.state = .stopPending then .leaving else .running }
  | runReturns {s : MessagingService} : s.worker = .running → s.iocStopped = true →
      Step s .run { s with worker := .looping }
  | runThrows {s : MessagingService} : s.worker = .running →
      Step s .run { s with worker := .looping }
  | stopped {s : MessagingService} : s.worker = .leaving →
      Step s .stopped { s with state := .stopped, worker := .finished }
  | stopPending {s : MessagingService} : s.stopping = .entered →
      Step s .stopPending { s with state := .stopPending, stopping := .pending }
  | terminateAll {s : MessagingService} : s.stopping = .pending →
      Step s .terminateAll { s with stopping := .terminated }
  | terminateAllThrows {s : MessagingService} : s.stopping = .pending →
      Step s .terminateAll { s with stopping := .returned true }
  | stop {s : MessagingService} : s.stopping = .terminated →
      Step s .stop { s with iocStopped := true, stopping := .stopped }
  | wait {s : MessagingService} : s.stopping = .stopped → s.io = true → s.worker = .finished →
      Step s .wait { s with stopping := .returned false }
  | waitThrows {s : MessagingService} : s.stopping = .stopped → s.io = false →
      Step s .wait { s with stopping := .returned true }

/-- Behind the write of `doStop` the state is not `Started` again, and where `doStop` has
returned without an exception the service is stopped. -/
structure KeepsRequest (s : MessagingService) : Prop where
  requested : s.stopping ≠ .entered → s.state ≠ .started
  stopped : s.stopping = .returned false → s.state = .stopped

/-- The first write of the worker comes before the one of `doStop`. -/
def StartedFirst (s : MessagingService) : ServiceEvent → Prop
  | .started => s.stopping = .entered
  | _ => True

structure Requested (s : MessagingService) : Prop where
  keeps : KeepsRequest s
  pending : s.stopping = .entered → s.state ≠ .stopPending
  launched : s.worker ≠ .none → s.starting ≠ .entered ∧ s.starting ≠ .pending
  leaving : s.worker = .leaving ∨ s.worker = .finished → s.stopping ≠ .entered
  finished : s.worker = .finished → s.state = .stopped
  joined : s.stopping = .returned false → s.worker = .finished

section Steps
variable {s t : MessagingService} {e : ServiceEvent}

/-- Before the worker has finished `doStop` does not return without an exception. -/
theorem Requested.not_joined (h : Requested s) (hworker : s.worker ≠ .finished) :
    s.stopping ≠ .returned false := fun hjoined => hworker (h.joined hjoined)

theorem Requested.worker_none (h : Requested s)
    (hstarting : s.starting = .entered ∨ s.starting = .pending) : s.worker = .none := by
  by_contra hworker
  obtain ⟨hentered,hpending⟩ := h.launched hworker
  exact hstarting.elim hentered hpending

/-- A step of the worker up to its last write. -/
theorem Requested.work {worker : IoWorker} {state : ServiceState} (h : Requested s)
    (hbefore : s.worker ≠ .none) (hunfinished : s.worker ≠ .finished)
    (hworker : worker ≠ .finished) (hstate : s.stopping ≠ .entered → state ≠ .started)
    (hpending : s.stopping = .entered → state ≠ .stopPending)
    (hleaving : worker = .leaving → s.stopping ≠ .entered) :
    Requested { s with state := state, worker := worker } := by
  have hjoined := h.not_joined hunfinished
  refine ⟨⟨hstate,fun hj => absurd hj hjoined⟩,hpending,fun _ => h.launched hbefore,
    fun hleave => ?_,fun hf => absurd hf hworker,fun hj => absurd hj hjoined⟩
  exact hleaving (hleave.resolve_right hworker)

/-- A step of `doStop` behind its write. -/
theorem Requested.goOn {stopping : Stopping} {iocStopped : Bool} (h : Requested s)
    (hbefore : s.stopping ≠ .entered) (hafter : stopping ≠ .entered)
    (hjoined : stopping = .returned false → s.worker = .finished) :
    Requested { s with iocStopped := iocStopped, stopping := stopping } :=
  ⟨⟨fun _ => h.keeps.requested hbefore,fun hj => h.finished (hjoined hj)⟩,
    fun hentered => absurd hentered hafter,h.launched,fun _ => hafter,h.finished,hjoined⟩

theorem Requested.step (h : Requested s) (hg : StartedFirst s e) (hstep : Step s e t) :
    Requested t := by
  cases hstep with
  | startPending hstarting =>
    have hnone := h.worker_none (Or.inl hstarting)
    have hjoined := h.not_joined (by simp [hnone])
    exact ⟨⟨by simp,fun hj => absurd hj hjoined⟩,by simp,by simp [hnone],by simp [hnone],
      by simp [hnone],fun hj => absurd hj hjoined⟩
  | launch hstarting =>
    have hnone := h.worker_none (Or.inr hstarting)
    have hjoined := h.not_joined (by simp [hnone])
    exact ⟨⟨h.keeps.requested,h.keeps.stopped⟩,h.pending,by simp,by simp,by simp,
      fun hj => absurd hj hjoined⟩
  | assign hstarting =>
    exact ⟨⟨h.keeps.requested,h.keeps.stopped⟩,h.pending,fun _ => by simp,h.leaving,h.finished,h.joined⟩
  | started hworker =>
    exact h.work (by simp [hworker]) (by simp [hworker]) (by simp) (fun hrequest => absurd hg hrequest)
      (by simp) (by simp)
  | check hworker =>
    refine h.work (by simp [hworker]) (by simp [hworker]) (by split_ifs <;> simp) h.keeps.requested
      h.pending ?_
    split_ifs with hstate
    · -- only `doStop` writes what the worker has read
      exact fun _ hentered => h.pending hentered hstate
    · simp
  | runReturns hworker =>
    exact h.work (by simp [hworker]) (by simp [hworker]) (by simp) h.keeps.requested h.pending
      (by simp)
  | runThrows hworker =>
    exact h.work (by simp [hworker]) (by simp [hworker]) (by simp) h.keeps.requested h.pending
      (by simp)
  | stopped hworker =>
    have hrequest := h.leaving (Or.inl hworker)
    exact ⟨⟨by simp,fun _ => rfl⟩,by simp,fun _ => h.launched (by simp [hworker]),fun _ => hrequest,
      fun _ => rfl,fun _ => rfl⟩
  | stopPending hstopping =>
    have hworker : s.worker ≠ .finished := fun hf => h.leaving (Or.inr hf) hstopping
    exact ⟨⟨by simp,by simp⟩,by simp,h.launched,fun _ => by simp,fun hf => absurd hf hworker,by simp⟩
  | terminateAll hstopping => exact h.goOn (by simp [hstopping]) (by simp) (by simp)
  | terminateAllThrows hstopping => exact h.goOn (by simp [hstopping]) (by simp) (by simp)
  | stop hstopping => exact h.goOn (by simp [hstopping]) (by simp) (by simp)
  | wait hstopping hio hworker => exact h.goOn (by simp [hstopping]) (by simp) fun _ => hworker
  | waitThrows hstopping hio => exact h.goOn (by simp [hstopping]) (by simp) (by simp)

theorem not_keepsRequest_of_not_startedFirst (hg : ¬ StartedFirst s e) (hstep : Step s e t) :
    ¬ KeepsRequest t := by
  cases hstep with
  | started hworker => exact fun hkeeps => hkeeps.requested hg rfl
  | _ => exact absurd trivial hg

end Steps

theorem create_requested : Requested create :=
  ⟨⟨by simp [create],by simp [create]⟩,by simp [create],by simp [create],by simp [create],
    by simp [create],by simp [create]⟩

/-- The request is kept in every state of a run exactly if the worker does not write `Started`
behind the write of `doStop`. -/
theorem keepsRequest_iff {t : MessagingService} {trace : List (MessagingService × ServiceEvent)}
    (hr : Run Step create trace t) :
    ((∀ e ∈ trace, KeepsRequest e.1) ∧ KeepsRequest t) ↔ Guarded StartedFirst trace :=
  hr.states_iff_guarded (fun _ h => h.keeps) (fun _ _ _ h => h.step)
    (fun _ _ _ _ => not_keepsRequest_of_not_startedFirst) create_requested

/-- `doStop` writes its request between the launch of the worker and the first write of that. -/
def overtakenStart : List ServiceEvent := [.startPending,.launch,.assign,.stopPending,.started]

theorem overtakenStart_run : ∃ trace t, trace.map Prod.snd = overtakenStart ∧
    Run Step create trace t ∧ t.stopping = .pending ∧ t.state = .started := by
  let pending : MessagingService := { create with state := .startPending, starting := .pending }
  let launched : MessagingService := { pending with worker := .entered, starting := .launched }
  let assigned : MessagingService := { launched with io := true, starting := .returned }
  let requested : MessagingService := { assigned with state := .stopPending, stopping := .pending }
  let started : MessagingService := { requested with state := .started, worker := .looping }
  have hpending : Step create .startPending pending := Step.startPending rfl
  have hlaunch : Step pending .launch launched := Step.launch rfl
  have hassign : Step launched .assign assigned := Step.assign rfl
  have hrequest : Step assigned .stopPending requested := Step.stopPending rfl
  have hstarted : Step requested .started started := Step.started rfl
  refine ⟨[(create,.startPending),(pending,.launch),(launched,.assign),(assigned,.stopPending),
    (requested,.started)],started,rfl,?_,rfl,rfl⟩
  exact Run.cons hpending (Run.cons hlaunch (Run.cons hassign (Run.cons hrequest
    (Run.cons hstarted (Run.nil _)))))

theorem keepsRequest_iff_overtaken : ∃ trace t, trace.map Prod.snd = overtakenStart ∧
    Run Step create trace t ∧
      (((∀ e ∈ trace, KeepsRequest e.1) ∧ KeepsRequest t) ↔ Guarded StartedFirst trace) := by
  obtain ⟨trace,t,hevents,hr,_⟩ := overtakenStart_run
  exact ⟨trace,t,hevents,hr,keepsRequest_iff hr⟩

/-- The request is overwritten. -/
theorem not_keepsRequest_overtaken : ∃ trace t, trace.map Prod.snd = overtakenStart ∧
    Run Step create trace t ∧ t.stopping = .pending ∧ t.state = .started ∧ ¬ KeepsRequest t := by
  obtain ⟨trace,t,hevents,hr,hstopping,hstate⟩ := overtakenStart_run
  exact ⟨trace,t,hevents,hr,hstopping,hstate,fun h => h.requested (by simp [hstopping]) hstate⟩

end MessagingService

end Isml
