import Isml.Message.MessageDispatcher

/-! # Programs of dispatchers and filters

A program adds handlers, delegates and filters to dispatchers and gives messages to them, in any order.
What becomes of a message is said by the calls that came before it: the handler is the last one added
for its type, the delegate the first one added that has any, and the filters are asked in their order.
With filters whose rules only look at the message, that is a condition on the message alone.
-/
namespace Isml

variable {ι σ : Type}

/-- `MessageFilter::Policy`. -/
inductive Policy where
  | exactMatchingToAccessList
  | permitAllExceptForbidden
  | forbidAllExceptPermitted
  deriving DecidableEq, Repr

/-- The rules in the order they were added. -/
structure RuleBasedMessageFilter (σ : Type) where
  policy : Policy
  permitted : List (Message → Callback σ Bool)
  forbidden : List (Message → Callback σ Bool)

namespace RuleBasedMessageFilter

def create (policy : Policy) : RuleBasedMessageFilter σ := ⟨policy,[],[]⟩

/-- `RuleBasedMessageFilter()`: the first policy. -/
def new : RuleBasedMessageFilter σ := create .exactMatchingToAccessList

def permit (rule : Message → Callback σ Bool) (f : RuleBasedMessageFilter σ) : RuleBasedMessageFilter σ :=
  { f with permitted := f.permitted ++ [rule] }

def forbid (rule : Message → Callback σ Bool) (f : RuleBasedMessageFilter σ) : RuleBasedMessageFilter σ :=
  { f with forbidden := f.forbidden ++ [rule] }

/-- `any_of`: no rule is asked behind the first one that holds or throws. -/
def satisfies (msg : Message) : List (Message → Callback σ Bool) → Callback σ Bool
  | [],s => (some false,s)
  | rule :: rules,s =>
    match rule msg s with
    | (some true,s) => (some true,s)
    | (some false,s) => satisfies msg rules s
    | (none,s) => (none,s)

def negate (f : Callback σ Bool) : Callback σ Bool := fun s => ((f s).1.map not,(f s).2)

end RuleBasedMessageFilter

def RuleBasedMessageFilter.matches (f : RuleBasedMessageFilter σ) (msg : Message) : Callback σ Bool :=
  match f.policy with
  | .permitAllExceptForbidden => negate (satisfies msg f.forbidden)
  | .forbidAllExceptPermitted => satisfies msg f.permitted
  | .exactMatchingToAccessList => fun s =>
    match satisfies msg f.permitted s with
    | (some true,s) => negate (satisfies msg f.forbidden) s
    | r => r

/-- The calls of a program; a filter may be a null pointer. -/
inductive DispatcherCall (ι σ : Type) where
  | addHandler (dispatcher : ι) (type : MessageType) (handler : Message → Callback σ Unit)
  | addDelegatedDispatcher (dispatcher delegate : ι)
  | addFilter (dispatcher : ι) (filter : Option (Message → Callback σ Bool))
  | setOnMessageRejected (dispatcher : ι) (handler : Message → Callback σ Unit)
  | dispatch (dispatcher : ι) (msg : Message)

namespace MessageFilterChain

/-- `addFilter(filter)`. -/
def addFilter (filter : Option (Message → Callback σ Bool)) (filters : List (Message → Callback σ Bool)) :
    Result (List (Message → Callback σ Bool)) :=
  match filter with
  | none => raise (.invalidArgument "Message filter instance is null pointer")
  | some filter => .ok (filters ++ [filter])

end MessageFilterChain

namespace MessageDispatcher

def new : MessageDispatcher ι σ := ⟨fun _ s => (some (),s),∅,[],[]⟩

def addHandler (type : MessageType) (handler : Message → Callback σ Unit) (d : MessageDispatcher ι σ) :
    MessageDispatcher ι σ := { d with handlers := d.handlers.insert type handler }

def addDelegatedDispatcher (delegate : ι) (d : MessageDispatcher ι σ) : MessageDispatcher ι σ :=
  { d with delegatedDispatchers := d.delegatedDispatchers ++ [delegate] }

def addFilter (filter : Option (Message → Callback σ Bool)) (d : MessageDispatcher ι σ) :
    Result (MessageDispatcher ι σ) := do
  let filterChain ← MessageFilterChain.addFilter filter d.filterChain
  .ok { d with filterChain := filterChain }

end MessageDispatcher

/-- The dispatchers of a program, and what was done with its messages. -/
structure DispatcherProgram (ι σ : Type) where
  graph : ι → MessageDispatcher ι σ
  dispatching : Dispatching ι σ

namespace DispatcherProgram
open MessageDispatcher
variable [DecidableEq ι]

def create (state : σ) : DispatcherProgram ι σ := ⟨fun _ => MessageDispatcher.new,⟨state,[]⟩⟩

def change (i : ι) (f : MessageDispatcher ι σ → MessageDispatcher ι σ) (p : DispatcherProgram ι σ) :
    DispatcherProgram ι σ := { p with graph := Function.update p.graph i (f (p.graph i)) }

/-- An exception of `addFilter` reaches the program, which goes on. -/
def call (p : DispatcherProgram ι σ) : DispatcherCall ι σ → DispatcherProgram ι σ
  | .addHandler i type handler => p.change i (addHandler type handler)
  | .addDelegatedDispatcher i delegate => p.change i (addDelegatedDispatcher delegate)
  | .addFilter i filter =>
    match (p.graph i).addFilter filter with
    | .ok d => p.change i fun _ => d
    | .error _ => p
  | .setOnMessageRejected i handler => p.change i fun d => { d with onMessageRejected := handler }
  | .dispatch i msg => { p with dispatching := (dispatch p.graph i msg p.dispatching).2 }

def run (calls : List (DispatcherCall ι σ)) (state : σ) : DispatcherProgram ι σ :=
  calls.foldl call (create state)

end DispatcherProgram

/-! ## What the calls say -/

namespace DispatcherCall
variable [DecidableEq ι]

/-- The handler the call adds to the dispatcher for the type. -/
def handlerFor (i : ι) (type : MessageType) : DispatcherCall ι σ → Option (Message → Callback σ Unit)
  | .addHandler j type' handler => if j = i ∧ type' = type then some handler else none
  | _ => none

def delegateOf (i : ι) : DispatcherCall ι σ → Option ι
  | .addDelegatedDispatcher j delegate => if j = i then some delegate else none
  | _ => none

def filterOf (i : ι) : DispatcherCall ι σ → Option (Message → Callback σ Bool)
  | .addFilter j filter => if j = i then filter else none
  | _ => none

def rejectedOf (i : ι) : DispatcherCall ι σ → Option (Message → Callback σ Unit)
  | .setOnMessageRejected j handler => if j = i then some handler else none
  | _ => none

end DispatcherCall

/-- The last value that the calls give. -/
def lastOf {α β : Type} (f : α → Option β) (calls : List α) : Option β := calls.reverse.findSome? f

@[simp] theorem lastOf_append_singleton {α β : Type} (f : α → Option β) (calls : List α) (c : α) :
    lastOf f (calls ++ [c]) = (f c).or (lastOf f calls) := by
  simp [lastOf, List.findSome?_cons]
  cases f c <;> rfl

namespace DispatcherProgram
open MessageDispatcher
variable [DecidableEq ι] {calls : List (DispatcherCall ι σ)} {state : σ} {i : ι} {msg : Message}

/-- The dispatchers are what the calls say. -/
structure Configured (calls : List (DispatcherCall ι σ)) (g : ι → MessageDispatcher ι σ) : Prop where
  handlers : ∀ i type, (g i).handlers.lookup type = lastOf (DispatcherCall.handlerFor i type) calls
  delegates : ∀ i, (g i).delegatedDispatchers = calls.filterMap (DispatcherCall.delegateOf i)
  filters : ∀ i, (g i).filterChain = calls.filterMap (DispatcherCall.filterOf i)
  rejected : ∀ i, (g i).onMessageRejected =
    (lastOf (DispatcherCall.rejectedOf i) calls).getD fun _ s => (some (),s)

theorem filterMap_append_singleton {α β : Type} (f : α → Option β) (l : List α) (a : α) :
    (l ++ [a]).filterMap f = l.filterMap f ++ (f a).toList := by
  cases h : f a with
  | none => simp [h]
  | some b => simp [h]

theorem change_self (i : ι) (f : MessageDispatcher ι σ → MessageDispatcher ι σ) (p : DispatcherProgram ι σ) :
    (p.change i f).graph i = f (p.graph i) := Function.update_self _ _ _

theorem change_other {i j : ι} (h : j ≠ i) (f : MessageDispatcher ι σ → MessageDispatcher ι σ)
    (p : DispatcherProgram ι σ) : (p.change i f).graph j = p.graph j := Function.update_of_ne h _ _

/-- What a change leaves of its dispatcher it leaves of all. -/
theorem change_same {α : Type} (facet : MessageDispatcher ι σ → α) {i : ι}
    {f : MessageDispatcher ι σ → MessageDispatcher ι σ} {p : DispatcherProgram ι σ}
    (hf : facet (f (p.graph i)) = facet (p.graph i)) (j : ι) :
    facet ((p.change i f).graph j) = facet (p.graph j) := by
  by_cases hj : j = i
  · rw [hj, change_self, hf]
  · rw [change_other hj]

theorem configured_addHandler {p : DispatcherProgram ι σ} (h : Configured calls p.graph) (k : ι)
    (type : MessageType) (handler : Message → Callback σ Unit) :
    Configured (calls ++ [.addHandler k type handler]) (p.change k (addHandler type handler)).graph where
  handlers i type' := by
    rw [lastOf_append_singleton, DispatcherCall.handlerFor]
    by_cases hi : i = k
    · subst hi
      rw [change_self, addHandler]
      by_cases ht : type' = type
      · subst ht
        simp [AList.lookup_insert]
      · rw [AList.lookup_insert_ne ht, h.handlers, if_neg fun hc => ht hc.2.symm, Option.none_or]
    · rw [change_other hi, h.handlers, if_neg fun hc => hi hc.1.symm, Option.none_or]
  delegates i := by
    rw [change_same MessageDispatcher.delegatedDispatchers rfl, h.delegates]
    simp [DispatcherCall.delegateOf]
  filters i := by
    rw [change_same MessageDispatcher.filterChain rfl, h.filters]
    simp [DispatcherCall.filterOf]
  rejected i := by
    rw [change_same MessageDispatcher.onMessageRejected rfl, h.rejected, lastOf_append_singleton]
    rfl

theorem configured_addDelegatedDispatcher {p : DispatcherProgram ι σ} (h : Configured calls p.graph)
    (k delegate : ι) : Configured (calls ++ [.addDelegatedDispatcher k delegate])
      (p.change k (addDelegatedDispatcher delegate)).graph where
  handlers i type := by
    rw [change_same (fun d => d.handlers.lookup type) rfl, h.handlers, lastOf_append_singleton]
    rfl
  delegates i := by
    rw [filterMap_append_singleton, DispatcherCall.delegateOf, ← h.delegates]
    by_cases hi : i = k
    · subst hi
      rw [change_self, if_pos rfl]
      rfl
    · rw [change_other hi, if_neg (Ne.symm hi), Option.toList_none, List.append_nil]
  filters i := by
    rw [change_same MessageDispatcher.filterChain rfl, h.filters]
    simp [DispatcherCall.filterOf]
  rejected i := by
    rw [change_same MessageDispatcher.onMessageRejected rfl, h.rejected, lastOf_append_singleton]
    rfl

theorem configured_addFilter {p : DispatcherProgram ι σ} (h : Configured calls p.graph) (k : ι)
    (filter : Message → Callback σ Bool) :
    Configured (calls ++ [.addFilter k (some filter)])
      (p.change k fun d => { d with filterChain := d.filterChain ++ [filter] }).graph where
  handlers i type := by
    rw [change_same (fun d => d.handlers.lookup type) rfl, h.handlers, lastOf_append_singleton]
    rfl
  delegates i := by
    rw [change_same MessageDispatcher.delegatedDispatchers rfl, h.delegates]
    simp [DispatcherCall.delegateOf]
  filters i := by
    rw [filterMap_append_singleton, DispatcherCall.filterOf, ← h.filters]
    by_cases hi : i = k
    · subst hi
      rw [change_self, if_pos rfl]
      rfl
    · rw [change_other hi, if_neg (Ne.symm hi), Option.toList_none, List.append_nil]
  rejected i := by
    rw [change_same MessageDispatcher.onMessageRejected rfl, h.rejected, lastOf_append_singleton]
    rfl

theorem configured_setOnMessageRejected {p : DispatcherProgram ι σ} (h : Configured calls p.graph) (k : ι)
    (handler : Message → Callback σ Unit) : Configured (calls ++ [.setOnMessageRejected k handler])
      (p.change k fun d => { d with onMessageRejected := handler }).graph where
  handlers i type := by
    rw [change_same (fun d => d.handlers.lookup type) rfl, h.handlers, lastOf_append_singleton]
    rfl
  delegates i := by
    rw [change_same MessageDispatcher.delegatedDispatchers rfl, h.delegates]
    simp [DispatcherCall.delegateOf]
  filters i := by
    rw [change_same MessageDispatcher.filterChain rfl, h.filters]
    simp [DispatcherCall.filterOf]
  rejected i := by
    rw [lastOf_append_singleton, DispatcherCall.rejectedOf]
    by_cases hi : i = k
    · subst hi
      rw [change_self, if_pos rfl]
      rfl
    · rw [change_other hi, h.rejected, if_neg (Ne.symm hi), Option.none_or]

/-- A call that changes nothing says nothing. -/
theorem Configured.skip {g : ι → MessageDispatcher ι σ} {c : DispatcherCall ι σ} (h : Configured calls g)
    (hhandler : ∀ i type, c.handlerFor i type = none) (hdelegate : ∀ i, c.delegateOf i = none)
    (hfilter : ∀ i, c.filterOf i = none) (hrejected : ∀ i, c.rejectedOf i = none) :
    Configured (calls ++ [c]) g where
  handlers i type := by rw [h.handlers, lastOf_append_singleton, hhandler, Option.none_or]
  delegates i := by rw [h.delegates, filterMap_append_singleton, hdelegate]; simp
  filters i := by rw [h.filters, filterMap_append_singleton, hfilter]; simp
  rejected i := by rw [h.rejected, lastOf_append_singleton, hrejected, Option.none_or]

theorem configured_call {p : DispatcherProgram ι σ} (h : Configured calls p.graph) (c : DispatcherCall ι σ) :
    Configured (calls ++ [c]) (p.call c).graph := by
  cases c with
  | addHandler k type handler => exact configured_addHandler h k type handler
  | addDelegatedDispatcher k delegate => exact configured_addDelegatedDispatcher h k delegate
  | addFilter k filter =>
    cases filter with
    | none =>
      refine h.skip (fun _ _ => rfl) (fun _ => rfl) (fun i => ?_) fun _ => rfl
      simp [DispatcherCall.filterOf]
    | some filter => exact configured_addFilter h k filter
  | setOnMessageRejected k handler => exact configured_setOnMessageRejected h k handler
  | dispatch k msg => exact h.skip (fun _ _ => rfl) (fun _ => rfl) (fun _ => rfl) fun _ => rfl

theorem configured_create (state : σ) : Configured [] (create state : DispatcherProgram ι σ).graph where
  handlers _ _ := rfl
  delegates _ := rfl
  filters _ := rfl
  rejected _ := rfl

theorem run_append (before after : List (DispatcherCall ι σ)) (state : σ) :
    run (before ++ after) state = after.foldl call (run before state) := List.foldl_append ..

theorem configured_run (calls : List (DispatcherCall ι σ)) (state : σ) :
    Configured calls (run calls state).graph := by
  induction calls using List.reverseRecOn with
  | nil => exact configured_create state
  | append_singleton calls c ih =>
    rw [run_append]
    exact configured_call ih c

/-- The dispatcher that a message of the type is for, when the calls were made. -/
inductive RoutedTo (calls : List (DispatcherCall ι σ)) (i : ι) (type : MessageType) : ι → Prop
  | own {handler : Message → Callback σ Unit}
      (h : lastOf (DispatcherCall.handlerFor i type) calls = some handler) : RoutedTo calls i type i
  | delegate {j : ι} {before behind : List ι} {handler : Message → Callback σ Unit}
      (h : lastOf (DispatcherCall.handlerFor i type) calls = none)
      (hsplit : calls.filterMap (DispatcherCall.delegateOf i) = before ++ j :: behind)
      (hbefore : ∀ k ∈ before, lastOf (DispatcherCall.handlerFor k type) calls = none)
      (hj : lastOf (DispatcherCall.handlerFor j type) calls = some handler) : RoutedTo calls i type j

theorem Configured.hasHandler_eq {g : ι → MessageDispatcher ι σ} (h : Configured calls g) (i : ι)
    (type : MessageType) :
    (g i).hasHandler type = (lastOf (DispatcherCall.handlerFor i type) calls).isSome := by
  rw [← h.handlers, hasHandler, Bool.eq_iff_iff, decide_eq_true_iff, AList.lookup_isSome]

theorem Configured.target_iff {g : ι → MessageDispatcher ι σ} (h : Configured calls g) {type : MessageType}
    {d : ι} : Target g i type d ↔ RoutedTo calls i type d := by
  constructor
  · rintro (hown | ⟨hnone,hsplit,hbefore,hj⟩)
    · rw [h.hasHandler_eq] at hown
      obtain ⟨handler,hhandler⟩ := Option.isSome_iff_exists.mp hown
      exact .own hhandler
    · rw [h.hasHandler_eq] at hnone hj
      obtain ⟨handler,hhandler⟩ := Option.isSome_iff_exists.mp hj
      rw [h.delegates] at hsplit
      refine .delegate (by simpa using hnone) hsplit (fun k hk => ?_) hhandler
      have hk := hbefore k hk
      rw [h.hasHandler_eq] at hk
      simpa using hk
  · rintro (hown | ⟨hnone,hsplit,hbefore,hj⟩)
    · exact .own (by rw [h.hasHandler_eq, hown]; rfl)
    · refine .delegate (by rw [h.hasHandler_eq, hnone]; rfl) ((h.delegates i).trans hsplit) (fun k hk => ?_)
        (by rw [h.hasHandler_eq, hj]; rfl)
      rw [h.hasHandler_eq, hbefore k hk]
      rfl

theorem RoutedTo.unique {type : MessageType} {d d' : ι} (h : RoutedTo calls i type d)
    (h' : RoutedTo calls i type d') : d = d' := by
  cases h with
  | own hown =>
    cases h' with
    | own => rfl
    | delegate hnone => cases hown.symm.trans hnone
  | @delegate _ before behind _ hnone hsplit hbefore hj =>
    cases h' with
    | own hown => cases hown.symm.trans hnone
    | @delegate _ before' behind' _ _ hsplit' hbefore' hj' =>
      have hboth := hsplit.symm.trans hsplit'
      rcases List.append_eq_append_iff.mp hboth with ⟨rest,hrest,htail⟩ | ⟨rest,hrest,htail⟩
      · cases rest with
        | nil => exact (List.cons.inj htail).1
        | cons k rest =>
          have hk : d = k := (List.cons.inj htail).1
          cases (hbefore' d (by rw [hrest, hk]; simp)).symm.trans hj
      · cases rest with
        | nil => exact ((List.cons.inj htail).1).symm
        | cons k rest =>
          have hk : d' = k := (List.cons.inj htail).1
          cases (hbefore d' (by rw [hrest, hk]; simp)).symm.trans hj'

end DispatcherProgram

/-- The access lists of a rule-based filter whose rules only look at the message. -/
structure AccessList where
  policy : Policy
  permitted : List (Message → Bool)
  forbidden : List (Message → Bool)

namespace AccessList
open RuleBasedMessageFilter

/-- A rule that neither throws nor changes anything. -/
def rule (p : Message → Bool) : Message → Callback σ Bool := fun msg s => (some (p msg),s)

/-- The filter after `permit` and `forbid` of the rules. -/
def filter (a : AccessList) : RuleBasedMessageFilter σ :=
  a.forbidden.foldl (fun f p => f.forbid (rule p))
    (a.permitted.foldl (fun f p => f.permit (rule p)) (create a.policy))

/-- What the policy says. -/
def Accepts (a : AccessList) (msg : Message) : Prop :=
  (a.policy ≠ .permitAllExceptForbidden → ∃ p ∈ a.permitted, p msg = true) ∧
    (a.policy ≠ .forbidAllExceptPermitted → ∀ p ∈ a.forbidden, p msg = false)

variable (a : AccessList) (msg : Message) (s : σ)

theorem foldl_permit (ps : List (Message → Bool)) (f : RuleBasedMessageFilter σ) :
    ps.foldl (fun f p => f.permit (rule p)) f = { f with permitted := f.permitted ++ ps.map rule } := by
  induction ps generalizing f with
  | nil => simp
  | cons p ps ih =>
    rw [List.foldl_cons, ih]
    simp [permit]

theorem foldl_forbid (ps : List (Message → Bool)) (f : RuleBasedMessageFilter σ) :
    ps.foldl (fun f p => f.forbid (rule p)) f = { f with forbidden := f.forbidden ++ ps.map rule } := by
  induction ps generalizing f with
  | nil => simp
  | cons p ps ih =>
    rw [List.foldl_cons, ih]
    simp [forbid]

theorem filter_eq : (a.filter : RuleBasedMessageFilter σ) =
    ⟨a.policy,a.permitted.map rule,a.forbidden.map rule⟩ := by
  unfold filter
  rw [foldl_permit, foldl_forbid]
  simp [create]

theorem satisfies_rules (ps : List (Message → Bool)) :
    satisfies msg (ps.map rule) s = (some (ps.any fun p => p msg),s) := by
  induction ps with
  | nil => rfl
  | cons p ps ih =>
    rw [List.map_cons, satisfies, rule]
    cases hp : p msg with
    | false => simp [ih, hp]
    | true => simp [hp]

theorem matches_filter :
    ∃ accepted : Bool, a.filter.matches msg s = (some accepted,s) ∧ (accepted = true ↔ a.Accepts msg) := by
  unfold RuleBasedMessageFilter.matches
  rw [filter_eq]
  cases hpolicy : a.policy with
  | permitAllExceptForbidden =>
    refine ⟨!a.forbidden.any fun p => p msg,?_,?_⟩
    · simp only [negate, satisfies_rules]
      rfl
    · simp [Accepts, hpolicy]
  | forbidAllExceptPermitted =>
    refine ⟨a.permitted.any fun p => p msg,satisfies_rules msg s _,?_⟩
    simp [Accepts, hpolicy]
  | exactMatchingToAccessList =>
    refine ⟨(a.permitted.any fun p => p msg) && !a.forbidden.any fun p => p msg,?_,?_⟩
    · simp only [satisfies_rules, negate]
      cases a.permitted.any fun p => p msg <;> rfl
    · simp [Accepts, hpolicy]

/-- A chain of such filters asks all of them up to the first one that does not accept. -/
theorem matches_chain (as : List AccessList) :
    ∃ accepted : Bool, MessageFilterChain.matches (as.map fun a => a.filter.matches) msg s = (some accepted,s) ∧
      (accepted = true ↔ ∀ a ∈ as, a.Accepts msg) := by
  induction as with
  | nil => exact ⟨true,rfl,by simp⟩
  | cons a as ih =>
    obtain ⟨first,hfirst,haccepts⟩ := a.matches_filter msg s
    obtain ⟨rest,hrest,hall⟩ := ih
    rw [List.map_cons, MessageFilterChain.matches, hfirst]
    cases first with
    | false =>
      refine ⟨false,rfl,?_⟩
      have hno : ¬ a.Accepts msg := fun h => Bool.false_ne_true (haccepts.mpr h)
      simp [hno]
    | true =>
      refine ⟨rest,hrest,?_⟩
      rw [hall, List.forall_mem_cons, and_iff_right (haccepts.mp rfl)]

end AccessList

namespace DispatcherProgram
open MessageDispatcher
variable [DecidableEq ι] {calls : List (DispatcherCall ι σ)} {i : ι} {msg : Message}

omit [DecidableEq ι] in
theorem mem_events_iff {events : List (DispatchEvent ι)} {o : DispatchOutcome ι} {e : DispatchEvent ι}
    (h : (events.filter fun e => !e.isDelegation) = o.invocations) (he : e.isDelegation = false) :
    e ∈ events ↔ e ∈ o.invocations := by
  rw [← h, List.mem_filter, he]
  simp

theorem dispatch_unrouted {g : ι → MessageDispatcher ι σ} (hc : Configured calls g)
    (h : ∀ d, ¬ RoutedTo calls i msg.type d) (s : Dispatching ι σ) : (dispatch g i msg s).2 = s := by
  have hown : (g i).hasHandler msg.type = false := by
    by_contra hown
    exact h i (hc.target_iff.mp (.own (by simpa using hown)))
  cases hsearch : (g i).searchWithinDelegatedDispatchers g msg.type with
  | none => rw [dispatch_nobody hown hsearch]
  | some d => exact absurd (hc.target_iff.mp (target_of_search hown hsearch)) (h d)

/-- The outcomes, when every filter is an access list. -/
theorem outcome_cases {g : ι → MessageDispatcher ι σ} (hc : Configured calls g) {s t : σ}
    {lists : ι → List AccessList} {o : DispatchOutcome ι}
    (hlists : ∀ d, calls.filterMap (DispatcherCall.filterOf d) = (lists d).map fun a => a.filter.matches)
    (h : ComesAbout g i msg s o t) :
    (∃ d handler, o = .handled d ∧ RoutedTo calls i msg.type d ∧ (∀ a ∈ lists d, a.Accepts msg) ∧
        lastOf (DispatcherCall.handlerFor d msg.type) calls = some handler ∧ t = (handler msg s).2) ∨
      (∃ d, o = .rejected d ∧ RoutedTo calls i msg.type d ∧ ¬ ∀ a ∈ lists d, a.Accepts msg) ∨
      (o = .neither ∧ ∀ d, ¬ RoutedTo calls i msg.type d) := by
  have hasked : ∀ d, ∃ accepted : Bool,
      MessageFilterChain.matches (g d).filterChain msg s = (some accepted,s) ∧
        (accepted = true ↔ ∀ a ∈ lists d, a.Accepts msg) := by
    intro d
    rw [hc.filters, hlists]
    exact AccessList.matches_chain msg s (lists d)
  cases h with
  | @handled d t handler hd hmatches hhandler =>
    obtain ⟨accepted,haccepted,hall⟩ := hasked d
    cases haccepted.symm.trans hmatches
    rw [hc.handlers] at hhandler
    exact Or.inl ⟨d,handler,rfl,hc.target_iff.mp hd,hall.mp rfl,hhandler,rfl⟩
  | @rejected d t hd hmatches =>
    obtain ⟨accepted,haccepted,hall⟩ := hasked d
    cases haccepted.symm.trans hmatches
    exact Or.inr (Or.inl ⟨d,rfl,hc.target_iff.mp hd,fun hyes => Bool.false_ne_true (hall.mpr hyes)⟩)
  | nobody hnone hdelegates =>
    refine Or.inr (Or.inr ⟨rfl,fun d hd => ?_⟩)
    rcases hc.target_iff.mpr hd with hown | ⟨_,hsplit,_,hj⟩
    · cases hown.symm.trans hnone
    · cases hj.symm.trans (hdelegates d (by simp [hsplit]))
  | @filterThrew d _ hd hmatches =>
    obtain ⟨accepted,haccepted,_⟩ := hasked d
    cases haccepted.symm.trans hmatches

/-- After any calls a message given to a dispatcher is handled exactly when it is for some dispatcher
all of whose filters accept it, by the handler added there last; it is rejected there exactly when one
of them does not, and nothing is done with it when it is for none. -/
theorem dispatch_of_calls (calls : List (DispatcherCall ι σ)) (state : σ) (i : ι) (msg : Message)
    (lists : ι → List AccessList)
    (hlists : ∀ d, calls.filterMap (DispatcherCall.filterOf d) = (lists d).map fun a => a.filter.matches) :
    let p := run calls state
    let s := p.dispatching.state
    let r := dispatch p.graph i msg ⟨s,[]⟩
    (∀ d, .handled d ∈ r.2.events ↔ RoutedTo calls i msg.type d ∧ ∀ a ∈ lists d, a.Accepts msg) ∧
      (∀ d, .rejected d ∈ r.2.events ↔ RoutedTo calls i msg.type d ∧ ¬ ∀ a ∈ lists d, a.Accepts msg) ∧
      (∀ d handler, .handled d ∈ r.2.events →
        lastOf (DispatcherCall.handlerFor d msg.type) calls = some handler →
          r.2.state = (handler msg s).2) ∧
      ((∀ d, ¬ RoutedTo calls i msg.type d) → r.2 = ⟨s,[]⟩) := by
  intro p s r
  have hc : Configured calls p.graph := configured_run calls state
  obtain ⟨_,_,o,⟨hinvocations,habout⟩,_⟩ := dispatch_oneOutcome p.graph i msg s
  have hhandled : ∀ d, .handled d ∈ r.2.events ↔ .handled d ∈ o.invocations := fun d =>
    mem_events_iff hinvocations rfl
  have hrejected : ∀ d, .rejected d ∈ r.2.events ↔ .rejected d ∈ o.invocations := fun d =>
    mem_events_iff hinvocations rfl
  refine ⟨fun d => (hhandled d).trans ?_,fun d => (hrejected d).trans ?_,fun d handler => ?_,
    fun h => dispatch_unrouted hc h ⟨s,[]⟩⟩
  · rcases outcome_cases hc hlists habout with ⟨d',_,rfl,hd',hall,_⟩ | ⟨d',rfl,hd',hnot⟩ | ⟨rfl,hnone⟩
    · refine ⟨fun h => ?_,fun h => ?_⟩
      · cases List.mem_singleton.mp h
        exact ⟨hd',hall⟩
      · rw [hd'.unique h.1]
        exact List.mem_singleton_self _
    · refine ⟨fun h => (nomatch List.mem_singleton.mp h),fun h => ?_⟩
      rw [hd'.unique h.1] at hnot
      exact absurd h.2 hnot
    · exact ⟨fun h => (nomatch h),fun h => absurd h.1 (hnone d)⟩
  · rcases outcome_cases hc hlists habout with ⟨d',_,rfl,hd',hall,_⟩ | ⟨d',rfl,hd',hnot⟩ | ⟨rfl,hnone⟩
    · refine ⟨fun h => (nomatch List.mem_singleton.mp h),fun h => ?_⟩
      rw [hd'.unique h.1] at hall
      exact absurd hall h.2
    · refine ⟨fun h => ?_,fun h => ?_⟩
      · cases List.mem_singleton.mp h
        exact ⟨hd',hnot⟩
      · rw [hd'.unique h.1]
        exact List.mem_singleton_self _
    · exact ⟨fun h => (nomatch h),fun h => absurd h.1 (hnone d)⟩
  · intro hmem hlast
    rw [hhandled] at hmem
    rcases outcome_cases hc hlists habout with ⟨d',_,rfl,_,_,hlast',ht⟩ | ⟨d',rfl,_⟩ | ⟨rfl,_⟩
    · cases List.mem_singleton.mp hmem
      cases hlast.symm.trans hlast'
      exact ht
    · exact nomatch List.mem_singleton.mp hmem
    · exact nomatch hmem

/-- A delegate that counts the messages it is allowed to handle. -/
def countingCalls : List (DispatcherCall ℕ ℕ) :=
  [.addDelegatedDispatcher 0 1,.addHandler 1 7 fun _ n => (some (),n + 1),
    .addFilter 1 (some (AccessList.filter ⟨.forbidAllExceptPermitted,[fun m => m.id == 1],[]⟩).matches)]

theorem dispatch_of_calls_counting : let p := run countingCalls 0
    ∀ id, .handled 1 ∈ (dispatch p.graph 0 ⟨id,7,FieldSet.empty,none⟩ ⟨p.dispatching.state,[]⟩).2.events ↔
      id = 1 := by
  intro p id
  let lists (d : ℕ) : List AccessList :=
    if d = 1 then [⟨.forbidAllExceptPermitted,[fun m => m.id == 1],[]⟩] else []
  have hlists : ∀ d, countingCalls.filterMap (DispatcherCall.filterOf d) =
      (lists d).map fun a => a.filter.matches := by
    intro d
    by_cases hd : d = 1
    · subst hd
      rfl
    · simp [countingCalls, DispatcherCall.filterOf, lists, hd, Ne.symm hd]
  have hall := (dispatch_of_calls countingCalls 0 0 ⟨id,7,FieldSet.empty,none⟩ lists hlists).1 1
  have hrouted : RoutedTo countingCalls 0 7 1 :=
    .delegate rfl (List.nil_append [1]).symm (List.forall_mem_nil _) rfl
  rw [hall, and_iff_right hrouted]
  simp [lists, AccessList.Accepts]

end DispatcherProgram

end Isml
