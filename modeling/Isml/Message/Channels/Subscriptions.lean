import Isml.Message.Channels.Unsubscription

/-! # Who gets which messages

Each publish of a run sends one message to whoever stays subscribed through it, and none to others. So a
subscriber has got one message for each publish since it subscribed, in their order, and whoever misses one
is not subscribed any more.
-/
namespace Isml

/-- The message of a `send` to the subscriber that returned. -/
def PublishEvent.received (subscriber : Subscriber) : PublishEvent → Option Message
  | .sent other message .returns => if other = subscriber then some message else none
  | _ => none

theorem PublishEvent.received_self (subscriber : Subscriber) (message : Message) :
    (sent subscriber message .returns).received subscriber = some message := if_pos rfl

theorem PublishEvent.received_of_ne {subscriber : Subscriber} {event : PublishEvent}
    (h : event.subscriber ≠ subscriber) : event.received subscriber = none := by
  cases event with
  | active | produced => rfl
  | sent other message outcome =>
    cases outcome with
    | returns => exact if_neg h
    | throws => rfl

/-- What a subscriber that stays gets in an operation. -/
inductive ChannelOperation.Delivers {ω : Type} (subscriber : Subscriber) :
    ChannelOperation ω → List Message → Prop
  | subscribe (other : Subscriber) : Delivers subscriber (.subscribe other) []
  | unsubscribe (other : Subscriber) : Delivers subscriber (.unsubscribe other) []
  | send {calls : SessionCalls ω} {msg : Message} {order : IterationOrder} {w : World ω}
      (counter : MessageId) : Delivers subscriber (.send calls msg order w) [(msg.clone counter).1]
  | publishWithProducer {calls : SessionCalls ω} {producer : Producer ω} {order : IterationOrder}
      {w w' : World ω} {message : Message} : (producer subscriber w').1 = some message →
        Delivers subscriber (.publishWithProducer calls producer order w) [message]

namespace PubSubMessageChannel
variable {ω : Type} {s t : PubSubMessageChannel} {op : ChannelOperation ω} {e : Element}

/-- What happens in an operation. -/
def events (s : PubSubMessageChannel) : ChannelOperation ω → List PublishEvent
  | .subscribe _ | .unsubscribe _ => []
  | .send calls msg order w => (s.internalSend calls msg order w).events
  | .publishWithProducer calls producer order w => (s.publishWithProducer calls producer order w).events

/-- What a subscriber gets in an operation. -/
def received (s : PubSubMessageChannel) (op : ChannelOperation ω) (subscriber : Subscriber) : List Message :=
  (s.events op).filterMap (PublishEvent.received subscriber)

section Treatment
variable {calls : SessionCalls ω} {made : Option Message → Prop} {subscriber : Subscriber}
  {events : List PublishEvent} {stays : Bool}

/-- One message is sent to who stays, and none or one that failed to who does not. -/
theorem Treated.received (h : Treated calls made subscriber events stays) :
    (stays = true → ∃ message, made (some message) ∧
      events.filterMap (PublishEvent.received subscriber) = [message]) ∧
      (stays = false → events.filterMap (PublishEvent.received subscriber) = []) := by
  cases h with
  | inactive => exact ⟨nofun,fun _ => rfl⟩
  | notProduced => exact ⟨nofun,fun _ => rfl⟩
  | @sent _ _ message outcome _ hmade =>
    cases outcome with
    | returns =>
      refine ⟨fun _ => ⟨message,hmade,?_⟩,nofun⟩
      exact List.filterMap_cons_some (PublishEvent.received_self subscriber message)
    | throws => exact ⟨nofun,fun _ => rfl⟩

theorem received_filter (events : List PublishEvent) :
    (events.filter fun event => event.subscriber = subscriber).filterMap
        (PublishEvent.received subscriber) =
      events.filterMap (PublishEvent.received subscriber) := by
  rw [List.filterMap_filter]
  refine List.filterMap_congr fun event _ => ?_
  by_cases h : event.subscriber = subscriber
  · exact if_pos (decide_eq_true h)
  · rw [PublishEvent.received_of_ne h, ite_self]

end Treatment

/-- What a publish does to one that was subscribed, and to others. -/
theorem Partitions.received {calls : SessionCalls ω} {made : Subscriber → Option Message → Prop}
    {p : Published ω} (h : Partitions calls made s p) (he : e ∈ s.subscribers) :
    (e ∈ p.channel.subscribers → ∃ message, made e.subscriber (some message) ∧
      p.events.filterMap (PublishEvent.received e.subscriber) = [message]) ∧
      (e ∉ p.channel.subscribers → p.events.filterMap (PublishEvent.received e.subscriber) = []) := by
  obtain ⟨stays,htreated,hstays⟩ := h.treated e he
  have hreceived := htreated.received
  rw [received_filter] at hreceived
  refine ⟨fun hmem => hreceived.1 (hstays.mp hmem),fun hnot => hreceived.2 ?_⟩
  exact Bool.eq_false_of_not_eq_true fun htrue => hnot (hstays.mpr htrue)

section Operations

theorem publish_partitions (calls : SessionCalls ω) (producer : Producer ω) (order : IterationOrder)
    (w : World ω) (s : PubSubMessageChannel) : Partitions calls (Produces producer) s
      (s.publishWithProducer calls producer order w) :=
  partitions_of_pass (fun e w => publishPass_treated calls e w producer) order s w _ rfl rfl

theorem send_partitions (calls : SessionCalls ω) (msg : Message) (order : IterationOrder)
    (w : World ω) (s : PubSubMessageChannel) : Partitions calls (fun _ => IsClone msg) s
      (s.internalSend calls msg order w) :=
  partitions_of_pass (fun e w => sendPass_treated calls e w msg) order s w _ rfl rfl

/-- Who stays through an operation gets what it delivers. -/
theorem delivers_of_stays (he : e ∈ s.subscribers) (hstays : e ∈ (s.perform op).2.subscribers) :
    op.Delivers e.subscriber (s.received op e.subscriber) := by
  cases op with
  | subscribe other => exact .subscribe other
  | unsubscribe other => exact .unsubscribe other
  | send calls msg order w =>
    have hpartitions := send_partitions calls msg order w s
    obtain ⟨message,⟨counter,hclone⟩,hreceived⟩ := (hpartitions.received he).1 hstays
    rw [received, events, hreceived]
    cases hclone
    exact .send counter
  | publishWithProducer calls producer order w =>
    have hpartitions := publish_partitions calls producer order w s
    obtain ⟨message,⟨w',hproduced⟩,hreceived⟩ := (hpartitions.received he).1 hstays
    rw [received, events, hreceived]
    exact .publishWithProducer hproduced

/-- Whoever is new has subscribed. -/
theorem eq_subscribe_of_new (hnew : e ∉ s.subscribers) (he : e ∈ (s.perform op).2.subscribers) :
    op = .subscribe e.subscriber := by
  cases op with
  | subscribe other =>
    by_cases h : other.id ∈ s.subscribers.map Element.id
    · rw [perform, internalSubscribe, dif_pos h] at he
      exact absurd he hnew
    · rw [perform, internalSubscribe, dif_neg h] at he
      rcases List.mem_cons.mp he with rfl | hmem
      · rfl
      · exact absurd hmem hnew
  | unsubscribe other =>
    obtain ⟨gone,h⟩ := outcomes_unsubscribe (ω := ω) s other
    rw [h.subscribers, List.nil_append] at he
    exact absurd (List.mem_of_mem_filter he) hnew
  | send calls msg order w => exact absurd ((send_partitions calls msg order w s).subscribers e he) hnew
  | publishWithProducer calls producer order w =>
    exact absurd ((publish_partitions calls producer order w s).subscribers e he) hnew

end Operations

/-- The messages of a subscriber in the steps of a run, one list for each step. -/
def history (subscriber : Subscriber) (trace : List (PubSubMessageChannel × ChannelOperation ω)) :
    List (List Message) :=
  trace.map fun e => e.1.received e.2 subscriber

/-- Every step of the run has delivered to the subscriber. -/
def DeliveredAll (subscriber : Subscriber) (trace : List (PubSubMessageChannel × ChannelOperation ω)) :
    Prop :=
  List.Forall₂ (ChannelOperation.Delivers subscriber) (trace.map Prod.snd) (history subscriber trace)

theorem Run.delivered {trace : List (PubSubMessageChannel × ChannelOperation ω)}
    (hr : LabelledRun.Run Step s trace t) (he : e ∈ t.subscribers) :
    (e ∈ s.subscribers ∧ DeliveredAll e.subscriber trace) ∨
      ∃ before m after, trace = before ++ (m,.subscribe e.subscriber) :: after ∧ e ∉ m.subscribers ∧
        DeliveredAll e.subscriber after := by
  induction hr with
  | nil s => exact Or.inl ⟨he,.nil⟩
  | @cons s m t op trace hstep _ ih =>
    cases hstep
    rcases ih he with ⟨hm,hdelivered⟩ | ⟨before,u,after,rfl,hnew,hdelivered⟩
    · by_cases hmem : e ∈ s.subscribers
      · exact Or.inl ⟨hmem,.cons (delivers_of_stays hmem hm) hdelivered⟩
      · have hop := eq_subscribe_of_new hmem hm
        subst hop
        exact Or.inr ⟨[],s,trace,rfl,hmem,hdelivered⟩
    · exact Or.inr ⟨(s,op) :: before,u,after,rfl,hnew,hdelivered⟩

end PubSubMessageChannel

end Isml
