import Isml.Service.MessagingService
import Isml.Transport.SendInterleaving

/-! # Which sessions count as active

`Session::active` looks at the state of its transport. `doStart` writes it, and the handlers
of reads and writes that end in an error do; `doStop` cancels these operations and closes
the socket, and leaves it to their handlers to write that the transport stops.
-/
namespace Isml
open LabelledRun

/-- The values of an error code that the handlers tell apart. -/
inductive ErrorCode where
  | success
  | connectionRefused
  | eof
  | other (value : ℕ)
  deriving DecidableEq, Repr

/-- A transport with its `m_state`. `reading` says whether an `async_read` is outstanding,
`closing` counts the calls of `doStop` between `cancel` and `close`. Kept for the statements are
whether a call of `stop` has `returned` and whether a completion has `reported` an error. -/
structure Connection where
  state : ServiceState
  incoming : Incoming
  reading : Bool
  outgoing : Outgoing
  closing : ℕ
  returned : Bool
  reported : Bool

inductive ConnectionEvent where
  | send (e : SendEvent)
  | written (ec : ErrorCode)
  | read (ec : ErrorCode)
  | cancel (throws : Bool)
  | close (throws : Bool)

namespace Connection

def create (bytes : List ByteOrder.Byte) : Connection :=
  ⟨.stopped,TcpTransport.startReading bytes,false,TcpTransport.idleTransport,0,false,false⟩

def doStart (s : Connection) : Connection := { s with state := .started, reading := true }

def disconnected (ec : ErrorCode) (s : Connection) : Bool × Connection :=
  if ec = .connectionRefused ∨ ec = .eof then (true,{ s with state := .stopPending })
  else (false,s)

/-- How each of the three handlers begins, and whether it goes on with the next operation. -/
def handle (ec : ErrorCode) (s : Connection) : Bool × Connection :=
  match disconnected ec s with
  | (true,s) => (false,s)
  | (false,s) => if ec ≠ .success then (false,{ s with state := .stopPending }) else (true,s)

/-- `Session::active`. -/
def active (s : Connection) : Bool := s.state = .startPending || s.state = .started

/-- One step of a sender or of `doStop`, or a completed operation with its handler. Both calls
of `doStop` may throw, which ends it; what they do to the operations is up to the network. -/
inductive Step (b : Build) : Connection → ConnectionEvent → Connection → Prop
  | send {s : Connection} {e : SendEvent} {outgoing : Outgoing} :
      e ≠ .complete → e ≠ .fail → TcpTransport.Step b s.outgoing e outgoing →
        Step b s (.send e) { s with outgoing := outgoing }
  | written {s t : Connection} {outgoing : Outgoing} :
      handle .success s = (true,t) → TcpTransport.Step b s.outgoing .complete outgoing →
        Step b s (.written .success) { t with outgoing := outgoing }
  | notWritten {s t : Connection} {ec : ErrorCode} {outgoing : Outgoing} :
      handle ec s = (false,t) → TcpTransport.Step b s.outgoing .fail outgoing →
        Step b s (.written ec) { t with outgoing := outgoing, reported := true }
  | read {s t : Connection} {incoming : Incoming} :
      s.reading = true → handle .success s = (true,t) →
      TcpTransport.completeRead b.host s.incoming = some incoming →
        Step b s (.read .success) { t with incoming := incoming }
  | notRead {s t : Connection} {ec : ErrorCode} :
      s.reading = true → handle ec s = (false,t) →
        Step b s (.read ec) { t with reading := false, reported := true }
  | cancel (s : Connection) : Step b s (.cancel false) { s with closing := s.closing + 1 }
  | cancelThrows (s : Connection) : Step b s (.cancel true) { s with returned := true }
  | close {s : Connection} {throws : Bool} : 0 < s.closing →
      Step b s (.close throws) { s with closing := s.closing - 1, returned := true }

variable {b : Build} {s t : Connection} {e : ConnectionEvent} {ec : ErrorCode}

theorem handle_eq (ec : ErrorCode) (s : Connection) :
    handle ec s = if ec = .success then (true,s) else (false,{ s with state := .stopPending }) := by
  cases ec <;> simp [handle, disconnected]

theorem handle_success (h : handle ec s = (true,t)) : t = s := by
  rw [handle_eq] at h
  split_ifs at h
  · exact (Prod.mk.inj h).2.symm
  · cases h

theorem handle_failure (h : handle ec s = (false,t)) : t = { s with state := .stopPending } := by
  rw [handle_eq] at h
  split_ifs at h
  · cases h
  · exact (Prod.mk.inj h).2.symm

/-- When `stop` has returned or a completion has reported an error, the session is not active. -/
def Inactive (s : Connection) : Prop := s.returned = true ∨ s.reported = true → s.active = false

/-- `doStop` does not return before a completion has reported an error. -/
def ReturnsReported (s : Connection) : ConnectionEvent → Prop
  | .cancel true | .close _ => s.reported = true
  | _ => True

/-- The state is the one `doStart` has written until an error is reported. -/
structure Tracked (s : Connection) : Prop where
  started : s.reported = false → s.state = .started
  stopping : s.reported = true → s.state = .stopPending
  returned : s.returned = true → s.reported = true

theorem Tracked.inactive (h : Tracked s) : Inactive s := by
  intro hstopped
  have hreported : s.reported = true := hstopped.elim h.returned id
  simp [active, h.stopping hreported]

theorem Tracked.return (h : Tracked s) (hreported : s.reported = true) (closing : ℕ) :
    Tracked { s with closing := closing, returned := true } :=
  ⟨h.started,h.stopping,fun _ => hreported⟩

theorem Tracked.step (h : Tracked s) (hg : ReturnsReported s e) (hstep : Step b s e t) : Tracked t := by
  cases hstep with
  | send _ _ hsend => exact ⟨h.started,h.stopping,h.returned⟩
  | written hhandle hsend =>
    obtain rfl := handle_success hhandle
    exact ⟨h.started,h.stopping,h.returned⟩
  | notWritten hhandle hsend =>
    obtain rfl := handle_failure hhandle
    exact ⟨fun hnot => absurd hnot (by simp),fun _ => rfl,fun _ => rfl⟩
  | read hreading hhandle hread =>
    obtain rfl := handle_success hhandle
    exact ⟨h.started,h.stopping,h.returned⟩
  | notRead hreading hhandle =>
    obtain rfl := handle_failure hhandle
    exact ⟨fun hnot => absurd hnot (by simp),fun _ => rfl,fun _ => rfl⟩
  | cancel => exact ⟨h.started,h.stopping,h.returned⟩
  | cancelThrows => exact h.return hg s.closing
  | close hclosing => exact h.return hg _

/-- Nobody has written the state when `doStop` returns. -/
theorem Tracked.active_of_unreported (h : Tracked s) (hreported : ¬ s.reported = true) :
    s.active = true := by
  rw [Bool.not_eq_true] at hreported
  simp [active, h.started hreported]

theorem Tracked.not_inactive (h : Tracked s) (hg : ¬ ReturnsReported s e) (hstep : Step b s e t) :
    ¬ Inactive t := by
  have hreturned : ∀ closing : ℕ, ¬ s.reported = true →
      ¬ Inactive { s with closing := closing, returned := true } := by
    intro closing hreported hinactive
    have hactive : s.active = false := hinactive (Or.inl rfl)
    rw [h.active_of_unreported hreported] at hactive
    cases hactive
  cases hstep with
  | cancelThrows => exact hreturned s.closing hg
  | close hclosing => exact hreturned _ hg
  | _ => exact absurd trivial hg

theorem doStart_tracked (bytes : List ByteOrder.Byte) : Tracked (doStart (create bytes)) :=
  ⟨fun _ => rfl,by simp [doStart, create],by simp [doStart, create]⟩

/-- A stopped transport is inactive in every state of a run exactly if every `stop` of the run
returns after an error was reported. -/
theorem inactive_iff {bytes : List ByteOrder.Byte} {trace : List (Connection × ConnectionEvent)}
    (hr : Run (Step b) (doStart (create bytes)) trace t) :
    ((∀ e ∈ trace, Inactive e.1) ∧ Inactive t) ↔ Guarded ReturnsReported trace :=
  hr.states_iff_guarded (fun _ h => h.inactive) (fun _ _ _ h => h.step)
    (fun _ _ _ h => h.not_inactive) (doStart_tracked bytes)

/-- `stop` on a connection on which nothing happens. -/
def quietStopEvents : List ConnectionEvent := [.cancel false,.close false]

theorem quietStop_run (b : Build) : ∃ trace t, trace.map Prod.snd = quietStopEvents ∧
    Run (Step b) (doStart (create [])) trace t ∧ t.returned = true ∧ t.active = true := by
  let started : Connection := doStart (create [])
  let canceled : Connection := { started with closing := 1 }
  let closed : Connection := { started with returned := true }
  have hcancel : Step b started (.cancel false) canceled := Step.cancel started
  have hclose : Step b canceled (.close false) closed := Step.close Nat.one_pos
  refine ⟨[(started,.cancel false),(canceled,.close false)],closed,rfl,?_,rfl,rfl⟩
  exact Run.cons hcancel (Run.cons hclose (Run.nil _))

theorem inactive_iff_quietStop : ∃ trace t, trace.map Prod.snd = quietStopEvents ∧
    Run (Step ⟨.little,true⟩) (doStart (create [])) trace t ∧
      (((∀ e ∈ trace, Inactive e.1) ∧ Inactive t) ↔ Guarded ReturnsReported trace) := by
  obtain ⟨trace,t,hevents,hr,_⟩ := quietStop_run ⟨.little,true⟩
  exact ⟨trace,t,hevents,hr,inactive_iff hr⟩

/-- `stop` has returned and the session is still active. -/
theorem not_inactive_quietStop : ∃ trace t, trace.map Prod.snd = quietStopEvents ∧
    Run (Step ⟨.little,true⟩) (doStart (create [])) trace t ∧ t.returned = true ∧ t.active = true ∧
      ¬ Inactive t := by
  obtain ⟨trace,t,hevents,hr,hreturned,hactive⟩ := quietStop_run ⟨.little,true⟩
  refine ⟨trace,t,hevents,hr,hreturned,hactive,fun h => ?_⟩
  rw [h (Or.inl hreturned)] at hactive
  cases hactive

end Connection

end Isml
