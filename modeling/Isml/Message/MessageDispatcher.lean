import Isml.Message.Message

/-! # `MessageDispatcher`

Dispatchers are named by their addresses, and a graph says what is at each of them. Filters,
handlers and `onMessageRejected` are calls into the program around, which return or throw and may
change its state: everything but the dispatchers, the fields of the message included.
-/
namespace Isml

variable {ι σ : Type}

/-- A call that returns a value, or nothing if it throws, and leaves another state. -/
abbrev Callback (σ α : Type) := σ → Option α × σ

structure MessageDispatcher (ι σ : Type) where
  onMessageRejected : Message → Callback σ Unit
  handlers : AList fun _ : MessageType => Message → Callback σ Unit
  delegatedDispatchers : List ι
  filterChain : List (Message → Callback σ Bool)

/-- What a dispatcher does to the message. -/
inductive DispatchEvent (ι : Type) where
  | delegated (dispatcher : ι)
  | handled (dispatcher : ι)
  | rejected (dispatcher : ι)
  deriving DecidableEq

def DispatchEvent.isDelegation : DispatchEvent ι → Bool
  | .delegated _ => true
  | .handled _ | .rejected _ => false

inductive DispatchOutcome (ι : Type) where
  | handled (dispatcher : ι)
  | rejected (dispatcher : ι)
  | neither

/-- The calls of handlers and of `onMessageRejected`. -/
def DispatchOutcome.invocations : DispatchOutcome ι → List (DispatchEvent ι)
  | .handled d => [.handled d]
  | .rejected d => [.rejected d]
  | .neither => []

/-- The state around the dispatchers, and what they have done. -/
structure Dispatching (ι σ : Type) where
  state : σ
  events : List (DispatchEvent ι)

def Dispatching.record (e : DispatchEvent ι) (s : Dispatching ι σ) : Dispatching ι σ :=
  { s with events := s.events ++ [e] }

/-- A call of a callback from a dispatcher. -/
def Dispatching.call {α : Type} (f : Callback σ α) (s : Dispatching ι σ) : Option α × Dispatching ι σ :=
  ((f s.state).1,{ s with state := (f s.state).2 })

/-- `MessageFilterChain::matches`. -/
def MessageFilterChain.matches : List (Message → Callback σ Bool) → Message → Callback σ Bool
  | [],_,s => (some true,s)
  | filter :: filters,msg,s =>
    match filter msg s with
    | (some true,s) => MessageFilterChain.matches filters msg s
    | (some false,s) => (some false,s)
    | (none,s) => (none,s)

namespace MessageDispatcher

def hasHandler (type : MessageType) (d : MessageDispatcher ι σ) : Bool := decide (type ∈ d.handlers)

def searchWithinDelegatedDispatchers (g : ι → MessageDispatcher ι σ) (type : MessageType)
    (d : MessageDispatcher ι σ) : Option ι :=
  d.delegatedDispatchers.find? fun i => (g i).hasHandler type

/-- `catch (...)`. -/
def catchAll (r : Option Unit × Dispatching ι σ) : Option Unit × Dispatching ι σ :=
  match r with
  | (some _,s) => (some (),s)
  | (none,s) => (some (),s)

/-- `doDispatch` when there is a handler. -/
def handle (i : ι) (msg : Message) (d : MessageDispatcher ι σ) (s : Dispatching ι σ) :
    Option Unit × Dispatching ι σ :=
  match s.call (MessageFilterChain.matches d.filterChain msg) with
  | (none,s) => (none,s)
  | (some true,s) =>
    match d.handlers.lookup msg.type with
    | some handler => (s.record (.handled i)).call (handler msg)
    -- `at` throws
    | none => (none,s)
  | (some false,s) => (s.record (.rejected i)).call (d.onMessageRejected msg)

theorem hasHandler_of_search {g : ι → MessageDispatcher ι σ} {type : MessageType}
    {d : MessageDispatcher ι σ} {j : ι} (h : d.searchWithinDelegatedDispatchers g type = some j) :
    (g j).hasHandler type = true :=
  List.find?_some (p := fun i => (g i).hasHandler type) h

/-- `dispatch`, which calls `doDispatch`. A delegate has a handler, so it does not delegate. -/
def dispatch (g : ι → MessageDispatcher ι σ) (i : ι) (msg : Message) (s : Dispatching ι σ) :
    Option Unit × Dispatching ι σ :=
  catchAll <|
    if _h : (g i).hasHandler msg.type = true then handle i msg (g i) s
    else
      match _hsearch : (g i).searchWithinDelegatedDispatchers g msg.type with
      | some delegate => dispatch g delegate msg (s.record (.delegated delegate))
      | none => (some (),s)
  termination_by if (g i).hasHandler msg.type then 0 else 1
  decreasing_by
    rw [hasHandler_of_search _hsearch, if_pos rfl, if_neg _h]
    exact Nat.zero_lt_one

/-- The dispatcher a message is for: the one it is given to, if that has a handler, or else the
first of its delegates that has one. -/
inductive Target (g : ι → MessageDispatcher ι σ) (i : ι) (type : MessageType) : ι → Prop
  | own (h : (g i).hasHandler type = true) : Target g i type i
  | delegate {j : ι} {before behind : List ι} (h : (g i).hasHandler type = false)
      (hsplit : (g i).delegatedDispatchers = before ++ j :: behind)
      (hbefore : ∀ k ∈ before, (g k).hasHandler type = false) (hj : (g j).hasHandler type = true) :
      Target g i type j

/-- How an outcome comes about, and the state it leaves. -/
inductive ComesAbout (g : ι → MessageDispatcher ι σ) (i : ι) (msg : Message) (s : σ) :
    DispatchOutcome ι → σ → Prop
  | handled {d : ι} {t : σ} {handler : Message → Callback σ Unit} (hd : Target g i msg.type d)
      (hmatches : MessageFilterChain.matches (g d).filterChain msg s = (some true,t))
      (hhandler : (g d).handlers.lookup msg.type = some handler) :
      ComesAbout g i msg s (.handled d) (handler msg t).2
  | rejected {d : ι} {t : σ} (hd : Target g i msg.type d)
      (hmatches : MessageFilterChain.matches (g d).filterChain msg s = (some false,t)) :
      ComesAbout g i msg s (.rejected d) ((g d).onMessageRejected msg t).2
  | nobody (h : (g i).hasHandler msg.type = false)
      (hdelegates : ∀ j ∈ (g i).delegatedDispatchers, (g j).hasHandler msg.type = false) :
      ComesAbout g i msg s .neither s
  | filterThrew {d : ι} {t : σ} (hd : Target g i msg.type d)
      (hmatches : MessageFilterChain.matches (g d).filterChain msg s = (none,t)) :
      ComesAbout g i msg s .neither t

section Dispatch
variable {g : ι → MessageDispatcher ι σ} {i d : ι} {msg : Message} {s : σ} {es : List (DispatchEvent ι)}

/-- A dispatcher with a handler does exactly one thing. -/
theorem exists_handle (hd : Target g i msg.type d) (hhandler : (g d).hasHandler msg.type = true) :
    ∃ o, (handle d msg (g d) ⟨s,es⟩).2.events = es ++ DispatchOutcome.invocations o ∧
      ComesAbout g i msg s o (handle d msg (g d) ⟨s,es⟩).2.state := by
  obtain ⟨handler,hlookup⟩ := Option.isSome_iff_exists.mp
    (AList.lookup_isSome.mpr (of_decide_eq_true hhandler))
  unfold handle Dispatching.call
  cases hmatches : MessageFilterChain.matches (g d).filterChain msg s with
  | mk answer t =>
    cases answer with
    | none => exact ⟨.neither,(List.append_nil es).symm,.filterThrew hd hmatches⟩
    | some accepted =>
      cases accepted with
      | false => exact ⟨.rejected d,rfl,.rejected hd hmatches⟩
      | true =>
        dsimp only
        rw [hlookup]
        exact ⟨.handled d,rfl,.handled hd hmatches hlookup⟩

@[simp] theorem catchAll_fst (r : Option Unit × Dispatching ι σ) : (catchAll r).1 = some () := by
  obtain ⟨_ | _,s⟩ := r <;> rfl

@[simp] theorem catchAll_snd (r : Option Unit × Dispatching ι σ) : (catchAll r).2 = r.2 := by
  obtain ⟨_ | _,s⟩ := r <;> rfl

theorem dispatch_own (h : (g i).hasHandler msg.type = true) (s : Dispatching ι σ) :
    dispatch g i msg s = catchAll (handle i msg (g i) s) := by
  rw [dispatch, dif_pos h]

theorem dispatch_delegate (h : (g i).hasHandler msg.type = false)
    (hd : (g i).searchWithinDelegatedDispatchers g msg.type = some d) (s : Dispatching ι σ) :
    dispatch g i msg s = catchAll (dispatch g d msg (s.record (.delegated d))) := by
  rw [dispatch, dif_neg (by rw [h]; exact Bool.false_ne_true)]
  split
  · rename_i delegate hdelegate
    cases hd.symm.trans hdelegate
    rfl
  · rename_i hnone
    cases hd.symm.trans hnone

theorem dispatch_nobody (h : (g i).hasHandler msg.type = false)
    (hnone : (g i).searchWithinDelegatedDispatchers g msg.type = none) (s : Dispatching ι σ) :
    dispatch g i msg s = (some (),s) := by
  rw [dispatch, dif_neg (by rw [h]; exact Bool.false_ne_true)]
  split
  · rename_i delegate hdelegate
    cases hnone.symm.trans hdelegate
  · rfl

/-- Of the delegates the first one with a handler is found. -/
theorem target_of_search (h : (g i).hasHandler msg.type = false)
    (hd : (g i).searchWithinDelegatedDispatchers g msg.type = some d) : Target g i msg.type d := by
  obtain ⟨hhandler,before,behind,hsplit,hbefore⟩ := List.find?_eq_some_iff_append.mp hd
  refine .delegate h hsplit (fun k hk => ?_) hhandler
  simpa using hbefore k hk

/-- At most one delegation, and behind it one outcome. -/
theorem exists_dispatch (g : ι → MessageDispatcher ι σ) (i : ι) (msg : Message) (s : σ) :
    ∃ (delegations : List ι) (o : DispatchOutcome ι), delegations.length ≤ 1 ∧
      (dispatch g i msg ⟨s,[]⟩).2.events = delegations.map .delegated ++ o.invocations ∧
      ComesAbout g i msg s o (dispatch g i msg ⟨s,[]⟩).2.state := by
  cases hown : (g i).hasHandler msg.type with
  | true =>
    obtain ⟨o,hevents,ho⟩ := exists_handle (s := s) (.own hown) hown
    rw [dispatch_own hown, catchAll_snd]
    exact ⟨[],o,Nat.zero_le 1,hevents,ho⟩
  | false =>
    cases hsearch : (g i).searchWithinDelegatedDispatchers g msg.type with
    | none =>
      rw [dispatch_nobody hown hsearch]
      refine ⟨[],.neither,Nat.zero_le 1,rfl,.nobody hown fun j hj => ?_⟩
      simpa using List.find?_eq_none.mp hsearch j hj
    | some d =>
      have hhandler := hasHandler_of_search hsearch
      obtain ⟨o,hevents,ho⟩ := exists_handle (s := s) (target_of_search hown hsearch) hhandler
      rw [dispatch_delegate hown hsearch, catchAll_snd, dispatch_own hhandler, catchAll_snd]
      exact ⟨[d],o,le_rfl,hevents,ho⟩

theorem not_isDelegation {o : DispatchOutcome ι} {e : DispatchEvent ι} (he : e ∈ o.invocations) :
    e.isDelegation = false := by
  cases o with
  | handled d =>
    rw [List.mem_singleton.mp he]
    rfl
  | rejected d =>
    rw [List.mem_singleton.mp he]
    rfl
  | neither => cases he

theorem invocations_injective :
    Function.Injective (DispatchOutcome.invocations : DispatchOutcome ι → List (DispatchEvent ι)) := by
  intro o o' h
  cases o <;> cases o' <;> cases h <;> rfl

/-- `dispatch` returns, after at most one delegation, with exactly one outcome. -/
theorem dispatch_oneOutcome (g : ι → MessageDispatcher ι σ) (i : ι) (msg : Message) (s : σ) :
    let r := dispatch g i msg ⟨s,[]⟩
    r.1 = some () ∧ (r.2.events.filter DispatchEvent.isDelegation).length ≤ 1 ∧
      ∃! o : DispatchOutcome ι, (r.2.events.filter fun e => !e.isDelegation) = o.invocations ∧
        ComesAbout g i msg s o r.2.state := by
  obtain ⟨delegations,o,hlength,hevents,ho⟩ := exists_dispatch g i msg s
  have hdelegations : (dispatch g i msg ⟨s,[]⟩).2.events.filter DispatchEvent.isDelegation =
      delegations.map .delegated := by
    have hothers : o.invocations.filter DispatchEvent.isDelegation = [] :=
      List.filter_eq_nil_iff.mpr fun e he => by rw [not_isDelegation he]; exact Bool.false_ne_true
    have hall : (delegations.map DispatchEvent.delegated).filter DispatchEvent.isDelegation =
        delegations.map .delegated := List.filter_eq_self.mpr (List.forall_mem_map.mpr fun _ _ => rfl)
    rw [hevents, List.filter_append, hothers, hall, List.append_nil]
  have hinvocations : ((dispatch g i msg ⟨s,[]⟩).2.events.filter fun e => !e.isDelegation) = o.invocations := by
    have hnone : (delegations.map DispatchEvent.delegated).filter (fun e => !e.isDelegation) = [] :=
      List.filter_eq_nil_iff.mpr (List.forall_mem_map.mpr fun _ _ => Bool.false_ne_true)
    have hall : o.invocations.filter (fun e => !e.isDelegation) = o.invocations :=
      List.filter_eq_self.mpr fun e he => by rw [not_isDelegation he]; rfl
    rw [hevents, List.filter_append, hnone, hall, List.nil_append]
  refine ⟨?_,?_,o,⟨hinvocations,ho⟩,?_⟩
  · rw [dispatch, catchAll_fst]
  · rw [hdelegations, List.length_map]
    exact hlength
  · rintro o' ⟨ho',_⟩
    exact invocations_injective (ho'.symm.trans hinvocations)

end Dispatch

end MessageDispatcher

end Isml
