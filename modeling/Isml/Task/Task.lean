import Isml.Base.Exceptions
import Isml.Library.LabelledRun
import Isml.Library.Threads

/-! # `Task`: one action, performed and cancelled by any number of threads

`run`, `runAsync` and the workers of an executor all call `Action::perform`. A step is
one operation on `m_status` or on the promise, the call of the function or its return;
between two steps of a thread all others may take theirs.
-/
namespace Isml
open Threads

inductive Status where
  | created
  | inProgress
  | completed
  | cancelled
  deriving DecidableEq, Repr

inductive CancellationResult where
  | success
  | taskAlreadyInProgress
  | taskAlreadyCompleted
  deriving DecidableEq, Repr

/-- What ends up in the future instead of a value: the exception of `perform` itself or
one of the function. -/
inductive TaskException (E : Type) where
  | invalidOperation (message : String)
  | thrown (e : E)
  deriving DecidableEq, Repr

/-- Where a call of `perform` is: in front of `isCancelled`, of the `set_exception` of a
cancelled task, of `trySetInProgress`, of `m_fn`, inside it, in front of the promise with
its outcome, in front of the `assert`, or back at its caller. -/
inductive Performing (T E : Type) where
  | entered
  | cancelled
  | starting
  | invoking
  | running
  | finished (outcome : Except E T)
  | completing
  | returned (invoked : Bool)

/-- `m_status`, `m_promise` and all calls of `perform`, and what ended the process. Kept for
the statements are how often `m_fn` was invoked and what the calls of `tryCancel` returned. -/
structure Task (T E : Type) where
  status : Status
  promise : Option (Except (TaskException E) T)
  performs : List (Performing T E)
  stopped : Option Fault
  invocations : ℕ
  cancellations : List CancellationResult

/-- `spurious` is what `compare_exchange_weak` is allowed to do although the values agree. -/
inductive TaskEvent (T E : Type) where
  | perform
  | isCancelled
  | setException
  | trySetInProgress (spurious : Bool)
  | invoke
  | leave (outcome : Except E T)
  | setOutcome
  | assertCompleted (spurious : Bool)
  | tryCancel (spurious : Bool)

namespace Task

/-- The value of the atomic and of `expected` afterwards, and the answer. -/
def compareExchangeWeak (spurious : Bool) (status expected desired : Status) :
    Status × Status × Bool :=
  if status = expected ∧ spurious = false then (desired,expected,true) else (status,status,false)

def isCompleted (status : Status) : Bool := status = .completed

def isCancelled (status : Status) : Bool := status = .cancelled

def tryCancel (spurious : Bool) (status : Status) : Status × CancellationResult :=
  match compareExchangeWeak spurious status .created .cancelled with
  | (status,_,true) => (status,.success)
  | (status,allowableStatus,false) =>
    if allowableStatus = .inProgress then (status,.taskAlreadyInProgress)
    else if allowableStatus = .completed then (status,.taskAlreadyCompleted)
    else (status,.success)

def trySetInProgress (spurious : Bool) (status : Status) : Status × Bool :=
  match compareExchangeWeak spurious status .created .inProgress with
  | (status,_,exchanged) => (status,exchanged)

def trySetCompleted (spurious : Bool) (status : Status) : Status × Bool :=
  match compareExchangeWeak spurious status .inProgress .completed with
  | (status,_,exchanged) => (status,exchanged)

def canceledTask (E : Type) : TaskException E :=
  .invalidOperation "Attempt to access the result of the canceled task"

variable {T E : Type}

def created : Task T E := ⟨.created,none,[],none,0,[]⟩

/-- What `set_value` or the `set_exception` of the handler stores. -/
def stored : Except E T → Except (TaskException E) T
  | .ok value => .ok value
  | .error e => .error (.thrown e)

/-- One step of a call, or a whole `tryCancel`. A promise that is satisfied already throws
out of the handlers of `perform`, which is `noexcept`. -/
inductive Step (ndebug : Bool) : Task T E → TaskEvent T E → Task T E → Prop
  | perform {s : Task T E} :
      s.stopped = none → Step ndebug s .perform { s with performs := .entered :: s.performs }
  | isCancelled {s : Task T E} {performs : List (Performing T E)} :
      s.stopped = none →
      Moves .entered (if isCancelled s.status then .cancelled else .starting) s.performs performs →
        Step ndebug s .isCancelled { s with performs := performs }
  | setException {s : Task T E} {performs : List (Performing T E)} :
      s.stopped = none → s.promise = none →
      Moves .cancelled (.returned false) s.performs performs → Step ndebug s .setException
        { s with promise := some (.error (canceledTask E)), performs := performs }
  | setExceptionAgain {s : Task T E} {r : Except (TaskException E) T} :
      s.stopped = none → s.promise = some r → .cancelled ∈ s.performs →
        Step ndebug s .setException { s with stopped := some (.thrown .promiseAlreadySatisfied) }
  | trySetInProgress {s : Task T E} {status : Status} {answer spurious : Bool}
      {performs : List (Performing T E)} :
      s.stopped = none → trySetInProgress spurious s.status = (status,answer) →
      Moves .starting (if answer then .invoking else .returned false) s.performs performs →
        Step ndebug s (.trySetInProgress spurious) { s with status := status, performs := performs }
  | invoke {s : Task T E} {performs : List (Performing T E)} :
      s.stopped = none → Moves .invoking .running s.performs performs →
        Step ndebug s .invoke { s with performs := performs, invocations := s.invocations + 1 }
  | leave {s : Task T E} {outcome : Except E T} {performs : List (Performing T E)} :
      s.stopped = none → Moves .running (.finished outcome) s.performs performs →
        Step ndebug s (.leave outcome) { s with performs := performs }
  | setOutcome {s : Task T E} {outcome : Except E T} {performs : List (Performing T E)} :
      s.stopped = none → s.promise = none →
      Moves (.finished outcome) .completing s.performs performs → Step ndebug s .setOutcome
        { s with promise := some (stored outcome), performs := performs }
  | setOutcomeAgain {s : Task T E} {outcome : Except E T} {r : Except (TaskException E) T} :
      s.stopped = none → s.promise = some r → .finished outcome ∈ s.performs →
        Step ndebug s .setOutcome { s with stopped := some (.thrown .promiseAlreadySatisfied) }
  | assertSkipped {s : Task T E} {spurious : Bool} {performs : List (Performing T E)} :
      s.stopped = none → ndebug = true → Moves .completing (.returned true) s.performs performs →
        Step ndebug s (.assertCompleted spurious) { s with performs := performs }
  | assertCompleted {s : Task T E} {status : Status} {spurious : Bool}
      {performs : List (Performing T E)} :
      s.stopped = none → ndebug = false → trySetCompleted spurious s.status = (status,true) →
      Moves .completing (.returned true) s.performs performs →
        Step ndebug s (.assertCompleted spurious) { s with status := status, performs := performs }
  | assertFailed {s : Task T E} {status : Status} {spurious : Bool} :
      s.stopped = none → ndebug = false → trySetCompleted spurious s.status = (status,false) →
      .completing ∈ s.performs → Step ndebug s (.assertCompleted spurious)
        { s with status := status, stopped := some .assertionFailed }
  | tryCancel {s : Task T E} {status : Status} {result : CancellationResult} {spurious : Bool} :
      s.stopped = none → tryCancel spurious s.status = (status,result) →
        Step ndebug s (.tryCancel spurious)
          { s with status := status, cancellations := s.cancellations ++ [result] }

section Status
variable {spurious : Bool} {status after : Status}

/-- An attempt to start changes a created task to one in progress or nothing. -/
theorem trySetInProgress_eq_true (h : trySetInProgress spurious status = (after,true)) :
    status = .created ∧ spurious = false ∧ after = .inProgress := by
  unfold trySetInProgress compareExchangeWeak at h
  split_ifs at h with hexpected
  · simp only [Prod.mk.injEq, and_true] at h
    exact ⟨hexpected.1,hexpected.2,h.symm⟩
  · simp at h

theorem trySetInProgress_eq_false (h : trySetInProgress spurious status = (after,false)) :
    after = status ∧ (status = .created → spurious = true) := by
  unfold trySetInProgress compareExchangeWeak at h
  split_ifs at h with hexpected
  · simp at h
  · simp only [Prod.mk.injEq, and_true] at h
    refine ⟨h.symm,fun hstatus => ?_⟩
    simpa [hstatus] using hexpected

theorem trySetCompleted_eq_true (h : trySetCompleted spurious status = (after,true)) :
    status = .inProgress ∧ spurious = false ∧ after = .completed := by
  unfold trySetCompleted compareExchangeWeak at h
  split_ifs at h with hexpected
  · simp only [Prod.mk.injEq, and_true] at h
    exact ⟨hexpected.1,hexpected.2,h.symm⟩
  · simp at h

theorem trySetCompleted_eq_false (h : trySetCompleted spurious status = (after,false)) :
    after = status := by
  unfold trySetCompleted compareExchangeWeak at h
  split_ifs at h
  · simp at h
  · simp only [Prod.mk.injEq, and_true] at h
    exact h.symm

/-- The result of `tryCancel` as a function of the status it found. -/
theorem tryCancel_eq (spurious : Bool) (status : Status) : tryCancel spurious status =
    match status with
    | .created => (if spurious then .created else .cancelled,.success)
    | .inProgress => (.inProgress,.taskAlreadyInProgress)
    | .completed => (.completed,.taskAlreadyCompleted)
    | .cancelled => (.cancelled,.success) := by
  cases spurious <;> cases status <;> rfl

end Status

end Task

end Isml
