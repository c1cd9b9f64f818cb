import Isml.Service.MessagingService

/-! # When `doStop` returns

Where the worker has written `Started` before the request, the two threads come to an end whatever they
do. Where it has not, it goes on for ever, and so does the wait of `doStop`.
-/
namespace Isml
open LabelledRun

/-- The steps that `doStop` still has to take. -/
def Stopping.distance : Stopping → ℕ
  | .entered => 4
  | .pending => 3
  | .terminated => 2
  | .stopped => 1
  | .returned _ => 0

/-- The steps that the worker still has to take where the request is in `m_state`. -/
def IoWorker.distance : IoWorker → ℕ
  | .running => 3
  | .looping => 2
  | .leaving => 1
  | _ => 0

namespace MessagingService
variable {s t : MessagingService} {e : ServiceEvent}

/-- What is true while the worker writes before the request. -/
structure Settled (s : MessagingService) : Prop where
  requested : Requested s
  written : s.stopping ≠ .entered → s.worker ≠ .none → s.worker ≠ .entered →
    s.state = .stopPending ∨ s.worker = .finished
  iocStopped : s.stopping = .stopped → s.iocStopped = true
  launched : s.starting = .launched → s.worker ≠ .none
  assigned : s.io = true → s.starting = .returned ∧ s.worker ≠ .none

theorem create_settled : Settled create :=
  ⟨create_requested,by simp [create],by simp [create],by simp [create],by simp [create]⟩

/-- A step of the worker. -/
theorem Settled.work {worker : IoWorker} {state : ServiceState} (h : Settled s)
    (hworker : worker ≠ .none)
    (hrequested : Requested { s with state := state, worker := worker })
    (hwritten : s.stopping ≠ .entered → state = .stopPending ∨ worker = .finished) :
    Settled { s with state := state, worker := worker } :=
  ⟨hrequested,fun hstopping _ _ => hwritten hstopping,h.iocStopped,fun _ => hworker,
    fun hio => ⟨(h.assigned hio).1,hworker⟩⟩

/-- A step of `doStop` behind its write. -/
theorem Settled.goOn {stopping : Stopping} {iocStopped : Bool} (h : Settled s)
    (hbefore : s.stopping ≠ .entered)
    (hrequested : Requested { s with iocStopped := iocStopped, stopping := stopping })
    (hioc : stopping = .stopped → iocStopped = true) :
    Settled { s with iocStopped := iocStopped, stopping := stopping } :=
  ⟨hrequested,fun _ => h.written hbefore,hioc,h.launched,h.assigned⟩

theorem Settled.step (h : Settled s) (hg : StartedFirst s e) (hstep : Step s e t) : Settled t := by
  have hrequested := h.requested.step hg hstep
  have hpending : ∀ {worker}, s.worker = worker → worker = .looping ∨ worker = .running →
      s.stopping ≠ .entered → s.state = .stopPending := by
    rintro worker rfl hworker hstopping
    rcases hworker with hworker | hworker <;>
      simpa [hworker] using h.written hstopping (by simp [hworker]) (by simp [hworker])
  cases hstep with
  | startPending hstarting =>
    have hnone := h.requested.worker_none (Or.inl hstarting)
    exact ⟨hrequested,fun _ hworker => absurd hnone hworker,h.iocStopped,nofun,
      fun hio => absurd hnone (h.assigned hio).2⟩
  | launch hstarting =>
    refine ⟨hrequested,fun _ _ hworker => absurd rfl hworker,h.iocStopped,fun _ => nofun,fun hio => ?_⟩
    have hreturned := (h.assigned hio).1
    rw [hstarting] at hreturned
    cases hreturned
  | assign hstarting =>
    exact ⟨hrequested,h.written,h.iocStopped,nofun,fun _ => ⟨rfl,h.launched hstarting⟩⟩
  | started hworker =>
    exact h.work nofun hrequested fun hstopping => absurd hg hstopping
  | check hworker =>
    exact h.work (by split_ifs <;> nofun) hrequested
      fun hstopping => Or.inl (hpending hworker (Or.inl rfl) hstopping)
  | runReturns hworker | runThrows hworker =>
    exact h.work nofun hrequested
      fun hstopping => Or.inl (hpending hworker (Or.inr rfl) hstopping)
  | stopped hworker => exact h.work nofun hrequested fun _ => Or.inr rfl
  | stopPending => exact ⟨hrequested,fun _ _ _ => Or.inl rfl,nofun,h.launched,h.assigned⟩
  | terminateAll hstopping | terminateAllThrows hstopping | wait hstopping | waitThrows hstopping =>
    exact h.goOn (by simp [hstopping]) hrequested nofun
  | stop hstopping => exact h.goOn (by simp [hstopping]) hrequested fun _ => rfl

/-- The threads are behind the writes they compete with, the one of the worker was first. -/
structure Ending (s : MessagingService) : Prop where
  settled : Settled s
  io : s.io = true
  worker : s.worker ≠ .entered
  stopping : s.stopping ≠ .entered

def distance (s : MessagingService) : ℕ := s.stopping.distance + s.worker.distance

theorem Ending.state (h : Ending s) : s.state = .stopPending ∨ s.worker = .finished :=
  h.settled.written h.stopping (h.settled.assigned h.io).2 h.worker

/-- No thread can do anything else than come to its end. -/
theorem Ending.step (h : Ending s) (hstep : Step s e t) : Ending t ∧ t.distance < s.distance := by
  have hstarting := (h.settled.assigned h.io).1
  have hg : StartedFirst s e := by
    cases hstep with
    | started hworker => exact absurd hworker h.worker
    | _ => trivial
  have hsettled := h.settled.step hg hstep
  unfold distance
  cases hstep with
  | startPending hstart | launch hstart | assign hstart => simp [hstarting] at hstart
  | started hworker => exact absurd hworker h.worker
  | check hworker =>
    have hstate : s.state = .stopPending := by simpa [hworker] using h.state
    rw [hstate, if_pos rfl] at hsettled ⊢
    refine ⟨⟨hsettled,h.io,nofun,h.stopping⟩,?_⟩
    rw [hworker]
    exact Nat.lt_succ_self _
  | runReturns hworker | runThrows hworker =>
    refine ⟨⟨hsettled,h.io,nofun,h.stopping⟩,?_⟩
    rw [hworker]
    exact Nat.lt_succ_self _
  | stopped hworker =>
    refine ⟨⟨hsettled,h.io,nofun,h.stopping⟩,?_⟩
    rw [hworker]
    exact Nat.lt_succ_self _
  | stopPending hstopping => exact absurd hstopping h.stopping
  | terminateAll hstopping | terminateAllThrows hstopping | stop hstopping | wait hstopping
    | waitThrows hstopping =>
    refine ⟨⟨hsettled,h.io,h.worker,nofun⟩,?_⟩
    rw [hstopping]
    simp only [Stopping.distance]
    omega

/-- `doStop` is on its way to the wait. -/
def OnItsWay (s : MessagingService) : Prop :=
  s.stopping = .pending ∨ s.stopping = .terminated ∨ s.stopping = .stopped

/-- Until the wait is over somebody can go on, without an exception. -/
theorem Ending.exists_step (h : Ending s) (hway : OnItsWay s) :
    ∃ e t, Step s e t ∧ (OnItsWay t ∨ t.stopping = .returned false) := by
  rcases hway with hpending | hterminated | hstopped
  · exact ⟨.terminateAll,_,.terminateAll hpending,Or.inl (Or.inr (Or.inl rfl))⟩
  · exact ⟨.stop,_,.stop hterminated,Or.inl (Or.inr (Or.inr rfl))⟩
  · have hway : OnItsWay s := Or.inr (Or.inr hstopped)
    cases hworker : s.worker with
    | none => exact absurd hworker (h.settled.assigned h.io).2
    | entered => exact absurd hworker h.worker
    | looping => exact ⟨.check,_,.check hworker,Or.inl hway⟩
    | running => exact ⟨.run,_,.runReturns hworker (h.settled.iocStopped hstopped),Or.inl hway⟩
    | leaving => exact ⟨.stopped,_,.stopped hworker,Or.inl hway⟩
    | finished => exact ⟨.wait,_,.wait hstopped h.io hworker,Or.inr rfl⟩

theorem Ending.exists_returned (h : Ending s) (hway : OnItsWay s) :
    ∃ rest t, Run Step s rest t ∧ t.stopping = .returned false := by
  let Good (u : MessagingService) : Prop := Ending u ∧ (OnItsWay u ∨ u.stopping = .returned false)
  have hprogress : ∀ u, Good u → ¬ u.stopping = .returned false →
      ∃ e t, True ∧ Step u e t ∧ Good t ∧ t.distance < u.distance := by
    rintro u ⟨hu,hway⟩ hnot
    obtain ⟨e,t,hstep,ht⟩ := hu.exists_step (hway.resolve_right hnot)
    have hboth := hu.step hstep
    exact ⟨e,t,trivial,hstep,⟨hboth.1,ht⟩,hboth.2⟩
  obtain ⟨rest,t,hrest,_,_,ht⟩ := exists_run_to distance hprogress s ⟨h,Or.inl hway⟩
  exact ⟨rest,t,hrest,ht⟩

/-- The worker writes `Started` behind the request, or has done so. -/
structure Overtaken (s : MessagingService) : Prop where
  worker : s.worker = .entered ∨ s.state = .started ∧ (s.worker = .looping ∨ s.worker = .running)
  starting : s.starting ≠ .entered ∧ s.starting ≠ .pending
  stopping : s.stopping ≠ .entered ∧ s.stopping ≠ .returned false

theorem Overtaken.step (h : Overtaken s) (hstep : Step s e t) : Overtaken t := by
  obtain ⟨hworker,⟨hentered,hpending⟩,hrequested,hreturned⟩ := h
  cases hstep with
  | startPending hstarting => exact absurd hstarting hentered
  | launch hstarting => exact absurd hstarting hpending
  | assign => exact ⟨hworker,⟨nofun,nofun⟩,hrequested,hreturned⟩
  | started => exact ⟨Or.inr ⟨rfl,Or.inl rfl⟩,⟨hentered,hpending⟩,hrequested,hreturned⟩
  | check hlooping =>
    have hstate : s.state = .started := by simpa [hlooping] using hworker
    refine ⟨Or.inr ⟨hstate,Or.inr ?_⟩,⟨hentered,hpending⟩,hrequested,hreturned⟩
    dsimp only
    rw [hstate]
    rfl
  | runReturns hrunning | runThrows hrunning =>
    have hstate : s.state = .started := by simpa [hrunning] using hworker
    exact ⟨Or.inr ⟨hstate,Or.inl rfl⟩,⟨hentered,hpending⟩,hrequested,hreturned⟩
  | stopped hleaving => simp [hleaving] at hworker
  | stopPending hstopping => exact absurd hstopping hrequested
  | terminateAll | terminateAllThrows | stop | waitThrows =>
    exact ⟨hworker,⟨hentered,hpending⟩,nofun,nofun⟩
  | wait _ _ hfinished => simp [hfinished] at hworker

/-- A worker that writes behind the request has been or will be overtaken. -/
theorem overtaken_of_step (h : Settled s) (hg : ¬ StartedFirst s e) (hstep : Step s e t) : Overtaken t := by
  cases hstep with
  | started hworker =>
    have hstarting := h.requested.launched (by simp [hworker])
    have hjoined := h.requested.not_joined (by simp [hworker])
    exact ⟨Or.inr ⟨rfl,Or.inl rfl⟩,hstarting,hg,hjoined⟩
  | _ => exact absurd trivial hg

theorem OnItsWay.ne (h : OnItsWay s) : s.stopping ≠ .entered ∧ s.stopping ≠ .returned false := by
  rcases h with h | h | h <;> simp [h]

theorem OnItsWay.distance_le (h : OnItsWay s) : s.distance ≤ 6 := by
  unfold distance
  rcases h with h | h | h <;> rw [h] <;> cases s.worker <;> simp [Stopping.distance, IoWorker.distance]

/-- Once both calls are behind their launch and their write, `doStop` can return from its wait exactly if the
first write of the worker came before the request; then the two threads have at most six steps left. -/
theorem returns_iff {trace : List (MessagingService × ServiceEvent)} (hr : Run Step create trace s)
    (hio : s.io = true) (hway : OnItsWay s) :
    ((∃ rest t, Run Step s rest t ∧ t.stopping = .returned false) ↔
        Guarded StartedFirst trace ∧ s.worker ≠ .entered) ∧
      (Guarded StartedFirst trace ∧ s.worker ≠ .entered → ∀ rest t, Run Step s rest t →
        rest.length ≤ 6 ∧ (t.stopping = .returned false → t.worker = .finished ∧ t.state = .stopped)) := by
  have hending : Guarded StartedFirst trace ∧ s.worker ≠ .entered → Ending s := fun hfirst =>
    ⟨hr.invariant (fun _ _ _ h hg hstep => h.step hg hstep) create_settled hfirst.1,hio,hfirst.2,
      hway.ne.1⟩
  have hhangs : Overtaken s → ¬ ∃ rest t, Run Step s rest t ∧ t.stopping = .returned false := by
    rintro hs ⟨rest,t,hrest,hreturned⟩
    have ht := hrest.preserved (fun _ _ _ h hstep => h.step hstep) hs
    exact ht.stopping.2 hreturned
  constructor
  · constructor
    · intro hreturns
      rcases hr.good_or_bad (fun _ _ _ h hg hstep => Settled.step h hg hstep)
        (fun _ _ _ h hg hstep => overtaken_of_step h hg hstep) (fun _ _ _ h hstep => Overtaken.step h hstep)
        create_settled with ⟨hguarded,hsettled⟩ | ⟨_,hovertaken⟩
      · refine ⟨hguarded,fun hworker => hhangs ⟨Or.inl hworker,?_,hway.ne⟩ hreturns⟩
        exact hsettled.requested.launched (by simp [hworker])
      · exact absurd hreturns (hhangs hovertaken)
    · exact fun hfirst => (hending hfirst).exists_returned hway
  · intro hfirst rest t hrest
    have hs := hending hfirst
    have hlength := hrest.length_add_measure_le (fun _ _ _ h hstep => Ending.step h hstep) hs
    have hle := hway.distance_le
    have ht := hrest.preserved (fun _ _ _ h hstep => (Ending.step h hstep).1) hs
    have hrequested := ht.settled.requested
    exact ⟨by omega,fun hreturned => ⟨hrequested.joined hreturned,hrequested.keeps.stopped hreturned⟩⟩

/-- Both calls are made one after the other. -/
theorem returns_iff_ordered : ∃ trace s, trace.map Prod.snd =
      [.startPending,.launch,.assign,.started,.stopPending] ∧ Run Step create trace s ∧
    ((∃ rest t, Run Step s rest t ∧ t.stopping = .returned false) ↔
      Guarded StartedFirst trace ∧ s.worker ≠ .entered) := by
  have hr := Run.cons (Step.startPending (s := create) rfl) (Run.cons (Step.launch rfl)
    (Run.cons (Step.assign rfl) (Run.cons (Step.started rfl) (Run.cons (Step.stopPending rfl)
      (Run.nil _)))))
  exact ⟨_,_,rfl,hr,(returns_iff hr rfl (Or.inl rfl)).1⟩

end MessagingService

end Isml
