import Isml.Base.Exceptions
import Isml.Library.LabelledRun
import Mathlib.Data.List.AList

/-! # `SessionManager`: the table of the sessions and its callbacks

The lock is held through each operation, callbacks included. A callback returns or throws;
which of the two it does, and the order an unordered map is visited in, come with the
operation. A null pointer that is dereferenced ends the run.
-/
namespace Isml
open LabelledRun

inductive Outcome where
  | returns
  | throws
  deriving DecidableEq, Repr

structure Session where
  id : SessionId
  deriving DecidableEq, Repr

/-- What `onSessionTerminating`, `shutdown` and `onSessionTerminated` do in a termination. -/
structure Termination where
  terminating : Outcome
  shutdown : Outcome
  terminated : Outcome
  deriving DecidableEq, Repr

/-- `onSessionTerminating` and `shutdown` return. -/
def Termination.Completes (behaviour : Termination) : Prop :=
  behaviour.terminating = .returns ∧ behaviour.shutdown = .returns

instance (behaviour : Termination) : Decidable behaviour.Completes :=
  inferInstanceAs (Decidable (_ ∧ _))

/-- The last id of the factory and `m_sessions`, whose values are pointers. -/
structure SessionManager where
  sessionId : SessionId
  sessions : AList fun _ : SessionId => Option Session
  crashed : Bool

inductive SessionOperation where
  | createSession (start opened : Outcome)
  | terminate (id : SessionId) (behaviour : Termination)
  | terminateAll (order : List SessionId) (behaviour : SessionId → Termination)
  | forEach (order : List SessionId) (action : SessionId → Outcome)
  | find (order : List SessionId) (predicate : SessionId → Bool)

namespace SessionManager

def create : SessionManager := ⟨0,∅,false⟩

/-- A null pointer is dereferenced. -/
def crash (s : SessionManager) : SessionManager := { s with crashed := true }

def generateId (s : SessionManager) : SessionId × SessionManager :=
  (s.sessionId + 1,{ s with sessionId := s.sessionId + 1 })

/-- The session an entry points to. -/
def sessionAt (key : SessionId) (s : SessionManager) : Option Session := (s.sessions.lookup key).join

/-- `m_sessions.insert`, which keeps what the table has under the key. -/
def insertSession (session : Session) (s : SessionManager) : SessionManager :=
  if session.id ∈ s.sessions then s
  else { s with sessions := s.sessions.insert session.id (some session) }

/-- The session opened and returned is the one the table has under the new id. -/
def createSession (start opened : Outcome) (s : SessionManager) : Option Session × SessionManager :=
  let (id,s) := s.generateId
  if start = .throws then (none,s)
  else
    let s := s.insertSession ⟨id⟩
    if opened = .throws then (none,s)
    else
      match s.sessionAt id with
      | some session => (some session,s)
      | none => (none,s.crash)

def hasSession (id : SessionId) (s : SessionManager) : Bool := id ∈ s.sessions

/-- The pointer is moved out of the entry first; the handler of exceptions leaves it so. -/
def terminateSessionNoLock (behaviour : Termination) (id : SessionId) (s : SessionManager) :
    SessionManager :=
  match s.sessions.lookup id with
  | none => s
  | some session =>
    let moved : SessionManager := { s with sessions := s.sessions.insert id none }
    if behaviour.terminating = .throws then moved
    else
      match session with
      | none => moved.crash
      | some _ =>
        if behaviour.shutdown = .throws then moved
        else { s with sessions := s.sessions.erase id }

def terminate (id : SessionId) (behaviour : Termination) (s : SessionManager) : SessionManager :=
  s.terminateSessionNoLock behaviour id

/-- The ids of the sessions under the keys, unless one of the pointers is null. -/
def sessionIds (s : SessionManager) (order : List SessionId) : Option (List SessionId) :=
  order.mapM fun key => (s.sessionAt key).map Session.id

/-- Nothing is done any more behind a crash. -/
def terminateEach (behaviour : SessionId → Termination) : List SessionId → SessionManager → SessionManager
  | [],s => s
  | id :: ids,s =>
    if s.crashed then s
    else terminateEach behaviour ids (s.terminateSessionNoLock (behaviour id) id)

def terminateAll (order : List SessionId) (behaviour : SessionId → Termination) (s : SessionManager) :
    SessionManager :=
  match s.sessionIds order with
  | none => s.crash
  | some ids => s.terminateEach behaviour ids

/-- The action is called with each pointer, and uses it, until it throws. -/
def forEach (action : SessionId → Outcome) : List SessionId → SessionManager → SessionManager
  | [],s => s
  | key :: order,s =>
    match s.sessionAt key with
    | none => s.crash
    | some session =>
      if action session.id = .throws then s else forEach action order s

/-- The first session the predicate holds of. -/
def find (predicate : SessionId → Bool) : List SessionId → SessionManager → Option Session × SessionManager
  | [],s => (none,s)
  | key :: order,s =>
    match s.sessionAt key with
    | none => (none,s.crash)
    | some session => if predicate session.id then (some session,s) else find predicate order s

def perform : SessionOperation → SessionManager → SessionManager
  | .createSession start opened,s => (s.createSession start opened).2
  | .terminate id behaviour,s => s.terminate id behaviour
  | .terminateAll order behaviour,s => s.terminateAll order behaviour
  | .forEach order action,s => s.forEach action order
  | .find order predicate,s => (s.find predicate order).2

/-- The table is visited in some order of its keys. -/
def Visits (s : SessionManager) : SessionOperation → Prop
  | .terminateAll order _ | .forEach order _ | .find order _ => order.Perm s.sessions.keys
  | _ => True

structure Step (s : SessionManager) (op : SessionOperation) (t : SessionManager) : Prop where
  running : s.crashed = false
  visits : s.Visits op
  result : s.perform op = t

section Insert
variable {s : SessionManager} {session : Session}

theorem insertSession_of_mem (h : session.id ∈ s.sessions) : s.insertSession session = s := if_pos h

theorem insertSession_of_notMem (h : session.id ∉ s.sessions) : s.insertSession session =
    { s with sessions := s.sessions.insert session.id (some session) } := if_neg h

theorem insertSession_crashed (session : Session) (s : SessionManager) :
    (s.insertSession session).crashed = s.crashed := by
  unfold insertSession
  split
  · rfl
  · rfl

theorem mem_insertSession (session : Session) (s : SessionManager) (id : SessionId) :
    id ∈ (s.insertSession session).sessions ↔ id = session.id ∨ id ∈ s.sessions := by
  by_cases h : session.id ∈ s.sessions
  · rw [insertSession_of_mem h]
    constructor
    · exact Or.inr
    · rintro (rfl | hid)
      · exact h
      · exact hid
  · rw [insertSession_of_notMem h]
    exact AList.mem_insert _

end Insert

section Terminate
variable {s t : SessionManager} {id : SessionId} {session : Session} {behaviour : Termination}

theorem terminateSessionNoLock_absent (h : s.sessions.lookup id = none) :
    s.terminateSessionNoLock behaviour id = s := by
  rw [terminateSessionNoLock, h]

theorem terminateSessionNoLock_completes (h : s.sessions.lookup id = some (some session))
    (hc : behaviour.Completes) :
    s.terminateSessionNoLock behaviour id = { s with sessions := s.sessions.erase id } := by
  rw [terminateSessionNoLock, h]
  simp only [hc.1, hc.2, reduceCtorEq, if_false]

/-- The entry is left without its pointer. -/
theorem terminateSessionNoLock_fails (h : s.sessions.lookup id = some (some session))
    (hc : ¬ behaviour.Completes) :
    s.terminateSessionNoLock behaviour id = { s with sessions := s.sessions.insert id none } := by
  rw [terminateSessionNoLock, h]
  dsimp only
  split_ifs with hterminating hshutdown
  · rfl
  · rfl
  · refine absurd ⟨?_,?_⟩ hc
    · cases hb : behaviour.terminating with
      | returns => rfl
      | throws => exact absurd hb hterminating
    · cases hb : behaviour.shutdown with
      | returns => rfl
      | throws => exact absurd hb hshutdown

end Terminate

section TerminateEach
variable {s : SessionManager}

/-- What the entry of a session is like after its termination. -/
def entryAfter (behaviour : Termination) (entry : Option (Option Session)) : Option (Option Session) :=
  if entry = none ∨ behaviour.Completes then none else some none

theorem terminateSessionNoLock_lookup (behaviour : Termination) {id : SessionId}
    (hid : s.sessions.lookup id ≠ some none) :
    (s.terminateSessionNoLock behaviour id).crashed = s.crashed ∧
      (s.terminateSessionNoLock behaviour id).sessions.lookup id =
        entryAfter behaviour (s.sessions.lookup id) ∧
      ∀ other, other ≠ id →
        (s.terminateSessionNoLock behaviour id).sessions.lookup other = s.sessions.lookup other := by
  cases hlookup : s.sessions.lookup id with
  | none =>
    rw [terminateSessionNoLock_absent hlookup]
    exact ⟨rfl,hlookup,fun _ _ => rfl⟩
  | some pointer =>
    cases pointer with
    | none => exact absurd hlookup hid
    | some session =>
      by_cases hc : behaviour.Completes
      · rw [terminateSessionNoLock_completes hlookup hc]
        refine ⟨rfl,?_,fun other hne => AList.lookup_erase_ne hne⟩
        simp [entryAfter, hc]
      · rw [terminateSessionNoLock_fails hlookup hc]
        refine ⟨rfl,?_,fun other hne => AList.lookup_insert_ne hne⟩
        simp [entryAfter, hc]

/-- Sessions that are terminated one after the other do not disturb each other. -/
theorem terminateEach_lookup (behaviour : SessionId → Termination) {ids : List SessionId}
    (hids : ids.Nodup) (hrunning : s.crashed = false)
    (hnull : ∀ id ∈ ids, s.sessions.lookup id ≠ some none) :
    (s.terminateEach behaviour ids).crashed = false ∧
      (∀ id ∈ ids, (s.terminateEach behaviour ids).sessions.lookup id =
        entryAfter (behaviour id) (s.sessions.lookup id)) ∧
      ∀ id, id ∉ ids →
        (s.terminateEach behaviour ids).sessions.lookup id = s.sessions.lookup id := by
  induction ids generalizing s with
  | nil => exact ⟨hrunning,fun _ hmem => absurd hmem List.not_mem_nil,fun _ _ => rfl⟩
  | cons first ids ih =>
    obtain ⟨hfirst,hrest⟩ := List.nodup_cons.mp hids
    have hterminate := terminateSessionNoLock_lookup (behaviour first) (hnull first List.mem_cons_self)
    obtain ⟨hcrashed,hentry,hothers⟩ := hterminate
    have hne : ∀ id ∈ ids, id ≠ first := fun id hid heq => hfirst (heq ▸ hid)
    obtain ⟨hend,hinside,houtside⟩ := ih hrest (hcrashed.trans hrunning) fun id hid => by
      rw [hothers id (hne id hid)]
      exact hnull id (List.mem_cons_of_mem _ hid)
    have hunfold : s.terminateEach behaviour (first :: ids) =
        (s.terminateSessionNoLock (behaviour first) first).terminateEach behaviour ids := by
      rw [terminateEach, hrunning]
      rfl
    rw [hunfold]
    refine ⟨hend,fun id hid => ?_,fun id hid => ?_⟩
    · rcases List.mem_cons.mp hid with rfl | hid
      · rw [houtside _ hfirst, hentry]
      · rw [hinside id hid, hothers id (hne id hid)]
    · rw [List.mem_cons, not_or] at hid
      rw [houtside id hid.2, hothers id hid.1]

end TerminateEach

end SessionManager

end Isml
