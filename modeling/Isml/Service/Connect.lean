import Isml.Net.Url
import Isml.Session.SessionManager

/-! # `MessagingService::connect`

The registry gives a factory for the protocol, the factory a transport, and the session
manager a session over it. Whatever leaves one of these calls with an exception becomes
a failure, and what the call has done until then stays done.
-/
namespace Isml
open Net

/-- `std::error_code`: the name of the category, and the value. -/
structure StdErrorCode where
  category : String
  value : ℤ
  deriving DecidableEq, Repr

/-- What `createTransport` does, and, where it makes a transport, what the construction of a
session over that does: the constructor starts it. `noexcept` turns an exception of the factory
into `std::terminate`; an empty result has no error to be read, and reading it throws. -/
inductive TransportCreation where
  | transport (start : Outcome)
  | nullTransport
  | error (code : StdErrorCode)
  | empty
  | throws
  deriving DecidableEq, Repr

structure TransportFactory where
  supports : CharString → Bool
  createTransport : Url → TransportCreation

/-- The factories in the order of their registration. -/
abbrev TransportRegistry := List TransportFactory

/-- `Result<Session::Ptr, std::error_code>`, or the end of the process. -/
inductive Connected where
  | success (session : Session)
  | failure (code : StdErrorCode)
  | terminated
  deriving DecidableEq, Repr

namespace TransportRegistry

def registerFactory (factory : TransportFactory) (registry : TransportRegistry) : TransportRegistry :=
  registry ++ [factory]

/-- Of the factories that support the protocol the last one is taken. -/
def getFactory (protocol : CharString) (registry : TransportRegistry) : Option TransportFactory :=
  registry.foldl (fun maybe factory => if factory.supports protocol then some factory else maybe)
    none

end TransportRegistry

/-- `TcpTransportFactory`. What the resolver and the socket do is given, errors as the values of
`std::system_category`. -/
def tcpTransportFactory {Endpoint : Type} (resolve : CharString → ℕ → Except ℤ Endpoint)
    (connect : Endpoint → Except ℤ Outcome) : TransportFactory where
  supports protocol := protocol == ['t', 'c', 'p']
  createTransport url :=
    match resolve url.hostname url.port.toNat with
    | .error value => .error ⟨"system",value⟩
    | .ok endpoint =>
      match connect endpoint with
      | .error value => .error ⟨"system",value⟩
      | .ok start => .transport start

namespace MessagingService

def protocolNotSupported : StdErrorCode := ⟨"generic",93⟩

/-- `static_cast<std::errc>(0xFF)`. -/
def internalError : StdErrorCode := ⟨"generic",0xFF⟩

/-- `opened` is what `onSessionOpened` does, which returns when there is no callback. An insertion
that runs out of memory is a construction that throws, as neither of them changes the table. -/
def connect (url : Url) (opened : Outcome) (registry : TransportRegistry) (s : SessionManager) :
    Connected × SessionManager :=
  match registry.getFactory url.protocol with
  | none => (.failure protocolNotSupported,s)
  | some factory =>
    match factory.createTransport url with
    | .throws => (.terminated,s)
    | .error code => (.failure code,s)
    | .empty => (.failure internalError,s)
    | .nullTransport => (.terminated,s)
    | .transport start =>
      match s.createSession start opened with
      | (some session,s) => (.success session,s)
      | (none,s) => (if s.crashed then .terminated else .failure internalError,s)

/-- A failure leaves the sessions as they were. -/
def KeepsSessions (url : Url) (opened : Outcome) (registry : TransportRegistry)
    (s : SessionManager) : Prop :=
  ∀ code t, connect url opened registry s = (.failure code,t) →
    ∀ id, t.hasSession id = s.hasSession id

/-- The session is in the table when the callback throws. -/
def ThrowsBehindInsertion (url : Url) (opened : Outcome) (registry : TransportRegistry)
    (s : SessionManager) : Prop :=
  (∃ factory, registry.getFactory url.protocol = some factory ∧
      factory.createTransport url = .transport .returns) ∧
    s.sessionId + 1 ∉ s.sessions ∧ opened = .throws

section Failure
variable {url : Url} {opened start : Outcome} {registry : TransportRegistry} {s t : SessionManager}
  {factory : TransportFactory} {code : StdErrorCode}

/-- The sessions behind the insertion of a new one. -/
theorem hasSession_insertSession (session : Session) (id : SessionId) :
    (s.insertSession session).hasSession id = true ↔ id = session.id ∨ s.hasSession id = true := by
  unfold SessionManager.hasSession
  rw [decide_eq_true_iff, decide_eq_true_iff]
  exact SessionManager.mem_insertSession session s id

theorem createSession_startThrows (opened : Outcome) (s : SessionManager) :
    s.createSession .throws opened = (none,s.generateId.2) := rfl

theorem createSession_openedThrows (s : SessionManager) : s.createSession .returns .throws =
    (none,s.generateId.2.insertSession ⟨s.sessionId + 1⟩) := rfl

/-- Where neither throws, a session is returned or the process ends. -/
theorem createSession_returns (s : SessionManager) :
    (∃ session t, s.createSession .returns .returns = (some session,t)) ∨
      ∃ t, s.createSession .returns .returns = (none,t) ∧ t.crashed = true := by
  unfold SessionManager.createSession
  simp only [reduceCtorEq, if_false]
  split
  · exact Or.inl ⟨_,_,rfl⟩
  · exact Or.inr ⟨_,rfl,rfl⟩

theorem connect_transport (hf : registry.getFactory url.protocol = some factory)
    (hc : factory.createTransport url = .transport start) : connect url opened registry s =
      match s.createSession start opened with
      | (some session,s) => (.success session,s)
      | (none,s) => (if s.crashed then .terminated else .failure internalError,s) := by
  unfold connect
  rw [hf]
  dsimp only
  rw [hc]

/-- Behind the callback that throws there is one session more, if its id is new. -/
theorem connect_openedThrows (hf : registry.getFactory url.protocol = some factory)
    (hc : factory.createTransport url = .transport .returns) (hrunning : s.crashed = false) :
    connect url .throws registry s =
      (.failure internalError,s.generateId.2.insertSession ⟨s.sessionId + 1⟩) := by
  have hcrashed : (s.generateId.2.insertSession ⟨s.sessionId + 1⟩).crashed = false :=
    (SessionManager.insertSession_crashed _ _).trans hrunning
  rw [connect_transport hf hc, createSession_openedThrows]
  dsimp only
  rw [hcrashed]
  rfl

/-- A failure has not reached the table, or comes from the callback. -/
theorem connect_failure (h : connect url opened registry s = (.failure code,t)) :
    t.sessions = s.sessions ∨
      (∃ factory, registry.getFactory url.protocol = some factory ∧
        factory.createTransport url = .transport .returns) ∧
      opened = .throws ∧ t = s.generateId.2.insertSession ⟨s.sessionId + 1⟩ := by
  cases hf : registry.getFactory url.protocol with
  | none =>
    unfold connect at h
    rw [hf] at h
    cases h
    exact Or.inl rfl
  | some factory =>
    cases hc : factory.createTransport url with
    | transport start =>
      rw [connect_transport hf hc] at h
      cases start with
      | throws =>
        rw [createSession_startThrows] at h
        cases congrArg Prod.snd h
        exact Or.inl rfl
      | returns =>
        cases opened with
        | throws =>
          rw [createSession_openedThrows] at h
          cases congrArg Prod.snd h
          exact Or.inr ⟨⟨factory,rfl,hc⟩,rfl,rfl⟩
        | returns =>
          rcases createSession_returns s with ⟨session,t',ht⟩ | ⟨t',ht,hcrashed⟩
          · rw [ht] at h
            cases h
          · rw [ht] at h
            dsimp only at h
            rw [hcrashed] at h
            cases h
    | nullTransport =>
      simp only [connect, hf, hc] at h
      cases h
    | error code' =>
      simp only [connect, hf, hc] at h
      cases h
      exact Or.inl rfl
    | empty =>
      simp only [connect, hf, hc] at h
      cases h
      exact Or.inl rfl
    | throws =>
      simp only [connect, hf, hc] at h
      cases h

end Failure

/-- A failed `connect` leaves no session behind, unless the callback throws for a new one. -/
theorem keepsSessions_iff (url : Url) (opened : Outcome) (registry : TransportRegistry)
    {s : SessionManager} (hrunning : s.crashed = false) :
    KeepsSessions url opened registry s ↔ ¬ ThrowsBehindInsertion url opened registry s := by
  constructor
  · rintro hkeeps ⟨⟨factory,hf,hc⟩,hnew,rfl⟩
    have hsame := hkeeps _ _ (connect_openedThrows hf hc hrunning) (s.sessionId + 1)
    have hold : s.hasSession (s.sessionId + 1) = false := decide_eq_false hnew
    rw [hold] at hsame
    have hafter := (hasSession_insertSession (s := s.generateId.2) ⟨s.sessionId + 1⟩
      (s.sessionId + 1)).mpr (Or.inl rfl)
    rw [hsame] at hafter
    cases hafter
  · intro hthrows code t hconnect id
    rcases connect_failure hconnect with hsessions | ⟨hfactory,hopened,rfl⟩
    · unfold SessionManager.hasSession
      rw [hsessions]
    · have hmem : s.sessionId + 1 ∈ s.sessions := by
        by_contra hnew
        exact hthrows ⟨hfactory,hnew,hopened⟩
      have hsame : s.generateId.2.insertSession ⟨s.sessionId + 1⟩ = s.generateId.2 :=
        SessionManager.insertSession_of_mem hmem
      rw [hsame]
      rfl

/-- The registry of a client of `tcp`, for which the system answers so. -/
def tcpRegistry (answer : Except ℤ Outcome) : TransportRegistry :=
  TransportRegistry.registerFactory (tcpTransportFactory (fun _ _ => .ok ()) fun _ => answer) []

def localUrl : Url := { Url.new with protocol := ['t', 'c', 'p'], port := 4096 }

/-- The connection is refused. -/
theorem keepsSessions_iff_refused :
    connect localUrl .throws (tcpRegistry (.error 111)) SessionManager.create =
        (.failure ⟨"system",111⟩,SessionManager.create) ∧
      KeepsSessions localUrl .throws (tcpRegistry (.error 111)) SessionManager.create := by
  refine ⟨rfl,?_⟩
  rw [keepsSessions_iff localUrl .throws (tcpRegistry (.error 111)) rfl]
  rintro ⟨⟨factory,hfactory,hcreate⟩,_,_⟩
  cases hfactory
  cases hcreate

/-- The callback throws for the first session: the call fails, and the session is there. -/
theorem not_keepsSessions_throws :
    (∃ t, connect localUrl .throws (tcpRegistry (.ok .returns)) SessionManager.create =
        (.failure internalError,t) ∧
      SessionManager.create.hasSession 1 = false ∧ t.hasSession 1 = true) ∧
      ¬ KeepsSessions localUrl .throws (tcpRegistry (.ok .returns)) SessionManager.create := by
  have hfails : ∃ t, connect localUrl .throws (tcpRegistry (.ok .returns)) SessionManager.create =
      (.failure internalError,t) ∧
      SessionManager.create.hasSession 1 = false ∧ t.hasSession 1 = true :=
    ⟨_,rfl,rfl,rfl⟩
  refine ⟨hfails,fun hkeeps => ?_⟩
  obtain ⟨t,hconnect,hbefore,hafter⟩ := hfails
  have hsame := hkeeps internalError t hconnect 1
  rw [hafter, hbefore] at hsame
  cases hsame

end MessagingService

end Isml
