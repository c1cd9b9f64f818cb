import Isml.Message.Message
import Isml.Session.SessionManager

/-! # `PubSubMessageChannel`

The mutex is held through each operation. An element of `m_subscribers` is a node of the map with
an address; a reference to the pointer in it is that address, which denotes nothing once the
element has been erased. The order an unordered map is visited in comes with a publish, and so
does the world around the channel, on which all that the sessions and the producer do may depend.
-/
namespace Isml

/-- What a `Session::Ptr` points to: an object, with the id it has for good. -/
structure Subscriber where
  object : ℕ
  id : SessionId
  deriving DecidableEq, Repr

inductive ReasonForLeaving where
  | unknown
  | subscriberTransportHasBeenStopped
  | subscriberLeftChannelOnHisOwn
  deriving DecidableEq, Repr

inductive SubscribeResult where
  | done
  | alreadySubscribed
  deriving DecidableEq, Repr

inductive UnsubscribeResult where
  | done
  | notFound
  deriving DecidableEq, Repr

/-- A node of the map, with the key and the pointer it holds. -/
structure Element where
  address : ℕ
  id : SessionId
  subscriber : Subscriber
  deriving DecidableEq, Repr

/-- A call of `onUnsubscribed`: the reference it is given, what that denotes when the handler runs,
and the reason. -/
structure Notification where
  reference : ℕ
  denotes : Option Subscriber
  reason : ReasonForLeaving
  deriving DecidableEq, Repr

/-- `m_subscribers`, and how many elements it has had so far. -/
structure PubSubMessageChannel where
  subscribers : List Element
  allocated : ℕ
  ids_nodup : (subscribers.map Element.id).Nodup
  keyed : ∀ e ∈ subscribers, e.id = e.subscriber.id
  addresses_nodup : (subscribers.map Element.address).Nodup
  address_lt : ∀ e ∈ subscribers, e.address < allocated

/-- What is outside of the channel: the counter that message ids are taken from, and all the rest. -/
structure World (ω : Type) where
  counter : MessageId
  rest : ω

/-- What the sessions do when `active` and `send` are called, exceptions included. -/
structure SessionCalls (ω : Type) where
  active : Subscriber → World ω → Bool × World ω
  send : Subscriber → Message → World ω → Outcome × World ω

/-- A message, or nothing when the producer throws. -/
abbrev Producer (ω : Type) := Subscriber → World ω → Option Message × World ω

inductive PublishEvent where
  | active (subscriber : Subscriber) (answer : Bool)
  | produced (subscriber : Subscriber) (message : Option Message)
  | sent (subscriber : Subscriber) (message : Message) (outcome : Outcome)

def PublishEvent.subscriber : PublishEvent → Subscriber
  | .active subscriber _ | .produced subscriber _ | .sent subscriber _ _ => subscriber

/-- One pass of a publishing loop; a subscriber that is not kept is noted as broken. -/
structure Pass (ω : Type) where
  events : List PublishEvent
  kept : Bool
  world : World ω

/-- An order in which the elements of the map can be visited. -/
structure IterationOrder where
  visited : List Element → List Element
  perm : ∀ l, (visited l).Perm l

namespace PubSubMessageChannel
variable {ω : Type}

def create : PubSubMessageChannel := ⟨[],0,List.nodup_nil,by simp,List.nodup_nil,by simp⟩

/-- `m_subscribers.insert` under an id that is not in the map. -/
def insert (s : PubSubMessageChannel) (subscriber : Subscriber)
    (h : subscriber.id ∉ s.subscribers.map Element.id) : PubSubMessageChannel where
  subscribers := ⟨s.allocated,subscriber.id,subscriber⟩ :: s.subscribers
  allocated := s.allocated + 1
  ids_nodup := List.nodup_cons.mpr ⟨h,s.ids_nodup⟩
  keyed := List.forall_mem_cons.mpr ⟨rfl,s.keyed⟩
  addresses_nodup := by
    refine List.nodup_cons.mpr ⟨fun hmem => ?_,s.addresses_nodup⟩
    obtain ⟨e,he,haddress⟩ := List.mem_map.mp hmem
    exact absurd haddress (Nat.ne_of_lt (s.address_lt e he))
  address_lt := by
    refine List.forall_mem_cons.mpr ⟨Nat.lt_succ_self _,fun e he => ?_⟩
    exact Nat.lt_succ_of_lt (s.address_lt e he)

def erase (s : PubSubMessageChannel) (id : SessionId) : PubSubMessageChannel where
  subscribers := s.subscribers.filter fun e => e.id ≠ id
  allocated := s.allocated
  ids_nodup := s.ids_nodup.sublist (List.filter_sublist.map _)
  keyed e he := s.keyed e (List.mem_of_mem_filter he)
  addresses_nodup := s.addresses_nodup.sublist (List.filter_sublist.map _)
  address_lt e he := s.address_lt e (List.mem_of_mem_filter he)

/-- What a reference to the pointer in an element denotes. -/
def deref (s : PubSubMessageChannel) (reference : ℕ) : Option Subscriber :=
  (s.subscribers.find? fun e => e.address = reference).map Element.subscriber

def internalSubscribe (subscriber : Subscriber) (s : PubSubMessageChannel) :
    SubscribeResult × PubSubMessageChannel :=
  if h : subscriber.id ∈ s.subscribers.map Element.id then (.alreadySubscribed,s)
  else (.done,s.insert subscriber h)

def helperUnsubscribe (id : SessionId) (reason : ReasonForLeaving) (s : PubSubMessageChannel) :
    UnsubscribeResult × List Notification × PubSubMessageChannel :=
  match s.subscribers.find? fun e => e.id = id with
  | some e =>
    -- `const auto&&` is bound to the pointer in the element, nothing is moved out of it
    let subscriber := e.address
    let s := s.erase id
    (.done,[⟨subscriber,s.deref subscriber,reason⟩],s)
  | none => (.notFound,[],s)

def internalUnsubscribe (subscriber : Subscriber) (s : PubSubMessageChannel) :
    UnsubscribeResult × List Notification × PubSubMessageChannel :=
  s.helperUnsubscribe subscriber.id .subscriberLeftChannelOnHisOwn

/-- The loop over `broken_subscriber_ids`. -/
def unsubscribeBroken : List SessionId → PubSubMessageChannel → List Notification × PubSubMessageChannel
  | [],s => ([],s)
  | id :: ids,s =>
    let (_,notifications,s) := s.helperUnsubscribe id .subscriberTransportHasBeenStopped
    let (rest,s) := s.unsubscribeBroken ids
    (notifications ++ rest,s)

/-- The body of the loop in `publishWithProducer`. -/
def publishPass (calls : SessionCalls ω) (producer : Producer ω) (e : Element) (w : World ω) : Pass ω :=
  let (active,w) := calls.active e.subscriber w
  if active then
    match producer e.subscriber w with
    | (some message,w) =>
      let (outcome,w) := calls.send e.subscriber message w
      ⟨[.active e.subscriber true,.produced e.subscriber (some message),
        .sent e.subscriber message outcome],outcome = .returns,w⟩
    | (none,w) => ⟨[.active e.subscriber true,.produced e.subscriber none],false,w⟩
  else ⟨[.active e.subscriber false],false,w⟩

/-- The body of the loop in `internal_send`; `clone` is `noexcept`. -/
def sendPass (calls : SessionCalls ω) (msg : Message) (e : Element) (w : World ω) : Pass ω :=
  let (active,w) := calls.active e.subscriber w
  if active then
    let (message,counter) := msg.clone w.counter
    let (outcome,w) := calls.send e.subscriber message { w with counter := counter }
    ⟨[.active e.subscriber true,.produced e.subscriber (some message),
      .sent e.subscriber message outcome],outcome = .returns,w⟩
  else ⟨[.active e.subscriber false],false,w⟩

/-- What happens in a publishing loop, the ids it notes, and the world behind it. -/
def forEachSubscriber (pass : Element → World ω → Pass ω) :
    List Element → World ω → List PublishEvent × List SessionId × World ω
  | [],w => ([],[],w)
  | e :: es,w =>
    let p := pass e w
    let (events,broken,w) := forEachSubscriber pass es p.world
    (p.events ++ events,if p.kept then broken else e.id :: broken,w)

/-- What a publish did, and what it leaves behind. -/
structure Published (ω : Type) where
  events : List PublishEvent
  notifications : List Notification
  channel : PubSubMessageChannel
  world : World ω

def publishWithProducer (calls : SessionCalls ω) (producer : Producer ω) (order : IterationOrder)
    (w : World ω) (s : PubSubMessageChannel) : Published ω :=
  let (events,broken,w) :=
    forEachSubscriber (publishPass calls producer) (order.visited s.subscribers) w
  let (notifications,s) := s.unsubscribeBroken broken
  ⟨events,notifications,s,w⟩

def internalSend (calls : SessionCalls ω) (msg : Message) (order : IterationOrder) (w : World ω)
    (s : PubSubMessageChannel) : Published ω :=
  let (events,broken,w) := forEachSubscriber (sendPass calls msg) (order.visited s.subscribers) w
  let (notifications,s) := s.unsubscribeBroken broken
  ⟨events,notifications,s,w⟩

section Elements
variable {s : PubSubMessageChannel} {e e' : Element} {id : SessionId}

theorem eq_of_id (he : e ∈ s.subscribers) (he' : e' ∈ s.subscribers) (h : e.id = e'.id) : e = e' :=
  List.inj_on_of_nodup_map s.ids_nodup he he' h

theorem eq_of_address (he : e ∈ s.subscribers) (he' : e' ∈ s.subscribers)
    (h : e.address = e'.address) : e = e' :=
  List.inj_on_of_nodup_map s.addresses_nodup he he' h

theorem eq_of_subscriber (he : e ∈ s.subscribers) (he' : e' ∈ s.subscribers)
    (h : e.subscriber = e'.subscriber) : e = e' := by
  apply eq_of_id he he'
  rw [s.keyed e he, s.keyed e' he', h]

theorem mem_erase : e ∈ (s.erase id).subscribers ↔ e ∈ s.subscribers ∧ e.id ≠ id := by
  rw [erase, List.mem_filter, decide_eq_true_iff]

/-- A search by a key finds the one element that has it. -/
theorem find_of_mem {κ : Type} [DecidableEq κ] {key : Element → κ} {l : List Element}
    (hkeys : (l.map key).Nodup) (he : e ∈ l) : (l.find? fun e' => key e' = key e) = some e := by
  cases hfind : l.find? fun e' => key e' = key e with
  | none =>
    have hnone := List.find?_eq_none.mp hfind e he
    exact absurd (decide_eq_true rfl) hnone
  | some e' =>
    have hkey : decide (key e' = key e) = true :=
      List.find?_some (p := fun e' => decide (key e' = key e)) hfind
    have hsame := List.inj_on_of_nodup_map hkeys (List.mem_of_find?_eq_some hfind) he
      (of_decide_eq_true hkey)
    rw [hsame]

theorem deref_of_mem (he : e ∈ s.subscribers) : s.deref e.address = some e.subscriber := by
  rw [deref, find_of_mem s.addresses_nodup he, Option.map_some]

/-- The address of an element that is erased is that of no other. -/
theorem deref_erased (he : e ∈ s.subscribers) : (s.erase e.id).deref e.address = none := by
  rw [deref, Option.map_eq_none_iff, List.find?_eq_none]
  intro e' he' haddress
  obtain ⟨hmem,hne⟩ := mem_erase.mp he'
  rw [eq_of_address hmem he (of_decide_eq_true haddress)] at hne
  exact hne rfl

theorem helperUnsubscribe_mem (reason : ReasonForLeaving) (he : e ∈ s.subscribers) :
    s.helperUnsubscribe e.id reason = (.done,[⟨e.address,none,reason⟩],s.erase e.id) := by
  rw [helperUnsubscribe, find_of_mem s.ids_nodup he]
  simp only [deref_erased he]

theorem helperUnsubscribe_notMem (reason : ReasonForLeaving) (h : id ∉ s.subscribers.map Element.id) :
    s.helperUnsubscribe id reason = (.notFound,[],s) := by
  have hfind : (s.subscribers.find? fun e => e.id = id) = none := by
    rw [List.find?_eq_none]
    intro e he hid
    exact h (List.mem_map.mpr ⟨e,he,of_decide_eq_true hid⟩)
  rw [helperUnsubscribe, hfind]

/-- The elements without those of a list, which are erased one by one. -/
theorem filter_erase {broken : List Element} (he : e ∈ s.subscribers) :
    ((s.erase e.id).subscribers.filter fun e' => e' ∉ broken) =
      s.subscribers.filter fun e' => e' ∉ e :: broken := by
  rw [erase, List.filter_filter]
  apply List.filter_congr
  intro e' he'
  have hid : e'.id ≠ e.id ↔ e' ≠ e := by
    constructor
    · intro hne hsame
      exact hne (congrArg Element.id hsame)
    · intro hne hsame
      exact hne (eq_of_id he' he hsame)
  rw [← Bool.decide_and]
  apply decide_eq_decide.mpr
  rw [List.mem_cons, not_or, hid]
  exact and_comm

/-- Each element noted as broken is reported once, in the order of the notes, and they are gone. -/
theorem unsubscribeBroken_map {broken : List Element} (hmem : ∀ e ∈ broken, e ∈ s.subscribers)
    (hnd : broken.Nodup) :
    (s.unsubscribeBroken (broken.map Element.id)).1 =
        (broken.map fun e => ⟨e.address,none,.subscriberTransportHasBeenStopped⟩) ∧
      (s.unsubscribeBroken (broken.map Element.id)).2.subscribers =
        (s.subscribers.filter fun e => e ∉ broken) ∧
      (s.unsubscribeBroken (broken.map Element.id)).2.allocated = s.allocated := by
  induction broken generalizing s with
  | nil => exact ⟨rfl,(List.filter_eq_self.mpr fun e _ => decide_eq_true List.not_mem_nil).symm,rfl⟩
  | cons e broken ih =>
    obtain ⟨hnotMem,hrest⟩ := List.nodup_cons.mp hnd
    have he := hmem e List.mem_cons_self
    have hleft : ∀ e' ∈ broken, e' ∈ (s.erase e.id).subscribers := by
      intro e' he'
      have hin := hmem e' (List.mem_cons_of_mem e he')
      refine mem_erase.mpr ⟨hin,fun hid => hnotMem ?_⟩
      rwa [← eq_of_id hin he hid]
    obtain ⟨hnotified,hsubscribers,hallocated⟩ := ih hleft hrest
    rw [List.map_cons, unsubscribeBroken, helperUnsubscribe_mem _ he]
    refine ⟨?_,hsubscribers.trans (filter_erase he),hallocated⟩
    rw [List.map_cons]
    exact congrArg (⟨e.address,none,.subscriberTransportHasBeenStopped⟩ :: ·) hnotified

end Elements

end PubSubMessageChannel

end Isml
