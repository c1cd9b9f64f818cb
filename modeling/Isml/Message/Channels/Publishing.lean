import Isml.Message.Channels.PubSubMessageChannel

/-! # What a publish does to the subscribers

Each subscriber is asked once whether it is active, and gets a message of its own if it is. Those
who were not active, for whom no message was produced or to whom it was not sent, are noted while
the map is visited and leave the map behind the loop, in whatever order it was visited.
-/
namespace Isml.PubSubMessageChannel
variable {ω : Type}

/-- All that happened to one subscriber, and whether it stays: no message unless it is active, one
made as `made` says if it is, and one attempt to send that message if there is one. -/
inductive Treated (calls : SessionCalls ω) (made : Option Message → Prop) (subscriber : Subscriber) :
    List PublishEvent → Bool → Prop
  | inactive {w : World ω} : (calls.active subscriber w).1 = false →
      Treated calls made subscriber [.active subscriber false] false
  | notProduced {w : World ω} : (calls.active subscriber w).1 = true → made none →
      Treated calls made subscriber [.active subscriber true,.produced subscriber none] false
  | sent {w w' : World ω} {message : Message} {outcome : Outcome} :
      (calls.active subscriber w).1 = true → made (some message) →
      (calls.send subscriber message w').1 = outcome →
      Treated calls made subscriber [.active subscriber true,.produced subscriber (some message),
        .sent subscriber message outcome] (outcome = .returns)

theorem Treated.subscriber_eq {calls : SessionCalls ω} {made : Option Message → Prop}
    {subscriber : Subscriber} {events : List PublishEvent} {stays : Bool}
    (h : Treated calls made subscriber events stays) :
    ∀ event ∈ events, event.subscriber = subscriber := by
  intro event hevent
  cases h with
  | inactive _ =>
    rw [List.mem_singleton.mp hevent]
    rfl
  | notProduced _ _ =>
    simp only [List.mem_cons, List.not_mem_nil, or_false] at hevent
    rcases hevent with rfl | rfl <;> rfl
  | sent _ _ _ =>
    simp only [List.mem_cons, List.not_mem_nil, or_false] at hevent
    rcases hevent with rfl | rfl | rfl <;> rfl

/-- What the producer did for the subscriber. -/
def Produces (producer : Producer ω) (subscriber : Subscriber) (message : Option Message) : Prop :=
  ∃ w, (producer subscriber w).1 = message

/-- A clone of `msg`, with a new id. -/
def IsClone (msg : Message) (message : Option Message) : Prop :=
  ∃ counter, message = some (msg.clone counter).1

/-- The events of the subscriber are those of one treatment, which decides whether it stays; there
are no other events and no other subscribers. -/
structure Partitions (calls : SessionCalls ω) (made : Subscriber → Option Message → Prop)
    (s : PubSubMessageChannel) (p : Published ω) : Prop where
  treated : ∀ e ∈ s.subscribers, ∃ stays,
    Treated calls (made e.subscriber) e.subscriber
      (p.events.filter fun event => event.subscriber = e.subscriber) stays ∧
    (e ∈ p.channel.subscribers ↔ stays = true)
  events : ∀ event ∈ p.events, ∃ e ∈ s.subscribers, event.subscriber = e.subscriber
  subscribers : ∀ e ∈ p.channel.subscribers, e ∈ s.subscribers

/-- A producer that returns `msg->clone()`. -/
def cloneProducer (msg : Message) : Producer ω := fun _ w =>
  let (message,counter) := msg.clone w.counter
  (some message,{ w with counter := counter })

section Passes
variable (calls : SessionCalls ω) (e : Element) (w : World ω)

theorem publishPass_treated (producer : Producer ω) :
    Treated calls (Produces producer e.subscriber) e.subscriber
      (publishPass calls producer e w).events (publishPass calls producer e w).kept := by
  unfold publishPass
  cases hactive : calls.active e.subscriber w with
  | mk active w1 =>
    have hanswer := congrArg Prod.fst hactive
    cases active with
    | false => exact .inactive hanswer
    | true =>
      dsimp only
      rw [if_pos rfl]
      cases hproduced : producer e.subscriber w1 with
      | mk message w2 =>
        have hmessage := congrArg Prod.fst hproduced
        cases message with
        | none => exact .notProduced hanswer ⟨w1,hmessage⟩
        | some message => exact .sent hanswer ⟨w1,hmessage⟩ rfl

theorem sendPass_treated (msg : Message) :
    Treated calls (IsClone msg) e.subscriber (sendPass calls msg e w).events
      (sendPass calls msg e w).kept := by
  unfold sendPass
  cases hactive : calls.active e.subscriber w with
  | mk active w1 =>
    have hanswer := congrArg Prod.fst hactive
    cases active with
    | false => exact .inactive hanswer
    | true => exact .sent hanswer ⟨w1.counter,rfl⟩ rfl

/-- The two bodies are the same when the producer clones. -/
theorem publishPass_cloneProducer (msg : Message) :
    publishPass calls (cloneProducer msg) = sendPass calls msg := by
  funext e w
  unfold publishPass sendPass cloneProducer
  obtain ⟨active,w1⟩ := calls.active e.subscriber w
  cases active with
  | false => rfl
  | true => rfl

end Passes

theorem publishWithProducer_cloneProducer (calls : SessionCalls ω) (msg : Message)
    (order : IterationOrder) (w : World ω) (s : PubSubMessageChannel) :
    s.publishWithProducer calls (cloneProducer msg) order w = s.internalSend calls msg order w := by
  unfold publishWithProducer internalSend
  rw [publishPass_cloneProducer]

section Loop
variable {calls : SessionCalls ω} {pass : Element → World ω → Pass ω}
  {made : Subscriber → Option Message → Prop}

/-- In a log that begins with the events of one subscriber and goes on with those of others. -/
theorem filter_subscriber_first {first rest : List PublishEvent} {subscriber : Subscriber}
    (hfirst : ∀ event ∈ first, event.subscriber = subscriber)
    (hrest : ∀ event ∈ rest, event.subscriber ≠ subscriber) :
    ((first ++ rest).filter fun event => event.subscriber = subscriber) = first := by
  rw [List.filter_append, List.filter_eq_self.mpr fun event hevent => decide_eq_true (hfirst event hevent),
    List.filter_eq_nil_iff.mpr fun event hevent htrue => hrest event hevent (of_decide_eq_true htrue),
    List.append_nil]

theorem filter_subscriber_rest {first rest : List PublishEvent} {subscriber : Subscriber}
    (hfirst : ∀ event ∈ first, event.subscriber ≠ subscriber) :
    ((first ++ rest).filter fun event => event.subscriber = subscriber) =
      rest.filter fun event => event.subscriber = subscriber := by
  rw [List.filter_append,
    List.filter_eq_nil_iff.mpr fun event hevent htrue => hfirst event hevent (of_decide_eq_true htrue),
    List.nil_append]

/-- All events are about the elements visited. -/
theorem forEachSubscriber_subscriber
    (hpass : ∀ e w, Treated calls (made e.subscriber) e.subscriber (pass e w).events (pass e w).kept)
    (es : List Element) (w : World ω) :
    ∀ event ∈ (forEachSubscriber pass es w).1, ∃ e ∈ es, event.subscriber = e.subscriber := by
  induction es generalizing w with
  | nil => simp [forEachSubscriber]
  | cons e es ih =>
    intro event hevent
    rcases List.mem_append.mp hevent with hevent | hevent
    · exact ⟨e,List.mem_cons_self,(hpass e w).subscriber_eq event hevent⟩
    · obtain ⟨e',he',hsubscriber⟩ := ih (pass e w).world event hevent
      exact ⟨e',List.mem_cons_of_mem e he',hsubscriber⟩

/-- The loop treats the elements one by one, and notes those that do not stay. -/
theorem forEachSubscriber_spec
    (hpass : ∀ e w, Treated calls (made e.subscriber) e.subscriber (pass e w).events (pass e w).kept)
    {es : List Element} (hes : (es.map Element.subscriber).Nodup) (w : World ω) :
    ∃ broken : List Element, broken.Sublist es ∧
      (forEachSubscriber pass es w).2.1 = broken.map Element.id ∧
      ∀ e ∈ es, ∃ stays, Treated calls (made e.subscriber) e.subscriber
        ((forEachSubscriber pass es w).1.filter fun event => event.subscriber = e.subscriber) stays ∧
          (e ∉ broken ↔ stays = true) := by
  induction es generalizing w with
  | nil => exact ⟨[],List.Sublist.refl [],rfl,by simp⟩
  | cons e es ih =>
    obtain ⟨hnew,hrest⟩ := List.nodup_cons.mp hes
    obtain ⟨broken,hsub,hids,htreated⟩ := ih hrest (pass e w).world
    have he := hpass e w
    have hne : ∀ e' ∈ es, e'.subscriber ≠ e.subscriber := by
      intro e' he' hsame
      exact hnew (List.mem_map.mpr ⟨e',he',hsame⟩)
    have hnotMem : e ∉ broken := fun hmem => hne e (hsub.subset hmem) rfl
    -- the events of this pass are about `e`, those of the other passes are not
    have hothers : ∀ event ∈ (forEachSubscriber pass es (pass e w).world).1,
        event.subscriber ≠ e.subscriber := by
      intro event hevent
      obtain ⟨e',he',hsubscriber⟩ := forEachSubscriber_subscriber hpass es _ event hevent
      rw [hsubscriber]
      exact hne e' he'
    refine ⟨if (pass e w).kept then broken else e :: broken,?_,?_,?_⟩
    · split
      · exact hsub.cons e
      · exact hsub.cons_cons e
    · rw [forEachSubscriber]
      dsimp only
      rw [hids]
      split <;> rfl
    · intro e' hmem
      rcases List.mem_cons.mp hmem with rfl | hmem
      · have hevents := filter_subscriber_first he.subscriber_eq hothers
        refine ⟨(pass e' w).kept,hevents.symm ▸ he,?_⟩
        cases (pass e' w).kept <;> simp [hnotMem]
      · obtain ⟨stays,hstays,hiff⟩ := htreated e' hmem
        have hthis : ∀ event ∈ (pass e w).events, event.subscriber ≠ e'.subscriber := by
          intro event hevent
          rw [he.subscriber_eq event hevent]
          exact (hne e' hmem).symm
        refine ⟨stays,(filter_subscriber_rest hthis).symm ▸ hstays,?_⟩
        rw [← hiff]
        have hee : e' ≠ e := fun h => hne e' hmem (congrArg Element.subscriber h)
        split
        · exact Iff.rfl
        · rw [List.mem_cons, not_or, and_iff_right hee]

/-- What a publish leaves behind, whichever of the two bodies its loop has. -/
theorem publish_spec
    (hpass : ∀ e w, Treated calls (made e.subscriber) e.subscriber (pass e w).events (pass e w).kept)
    (order : IterationOrder) (s : PubSubMessageChannel) (w : World ω) :
    ∃ broken : List Element, broken.Nodup ∧ (∀ e ∈ broken, e ∈ s.subscribers) ∧
      (forEachSubscriber pass (order.visited s.subscribers) w).2.1 = broken.map Element.id ∧
      (∀ e ∈ s.subscribers, ∃ stays, Treated calls (made e.subscriber) e.subscriber
        ((forEachSubscriber pass (order.visited s.subscribers) w).1.filter fun event =>
          event.subscriber = e.subscriber) stays ∧ (e ∉ broken ↔ stays = true)) ∧
      ∀ event ∈ (forEachSubscriber pass (order.visited s.subscribers) w).1,
        ∃ e ∈ s.subscribers, event.subscriber = e.subscriber := by
  have hperm := order.perm s.subscribers
  have hnodup : (s.subscribers.map Element.subscriber).Nodup :=
    List.Nodup.map_on (fun e he e' he' h => eq_of_subscriber he he' h) s.ids_nodup.of_map
  have hvisited : ((order.visited s.subscribers).map Element.subscriber).Nodup :=
    (hperm.map Element.subscriber).nodup_iff.mpr hnodup
  obtain ⟨broken,hsub,hids,htreated⟩ := forEachSubscriber_spec hpass hvisited w
  refine ⟨broken,hvisited.of_map.sublist hsub,?_,hids,?_,?_⟩
  · intro e he
    exact hperm.subset (hsub.subset he)
  · intro e he
    exact htreated e (hperm.symm.subset he)
  · intro event hevent
    obtain ⟨e,he,hsubscriber⟩ := forEachSubscriber_subscriber hpass _ w event hevent
    exact ⟨e,hperm.subset he,hsubscriber⟩

theorem partitions_of_pass
    (hpass : ∀ e w, Treated calls (made e.subscriber) e.subscriber (pass e w).events (pass e w).kept)
    (order : IterationOrder) (s : PubSubMessageChannel) (w : World ω) (p : Published ω)
    (hevents : p.events = (forEachSubscriber pass (order.visited s.subscribers) w).1)
    (hchannel : p.channel =
      (s.unsubscribeBroken (forEachSubscriber pass (order.visited s.subscribers) w).2.1).2) :
    Partitions calls made s p := by
  obtain ⟨broken,hnodup,hmem,hids,htreated,hall⟩ := publish_spec hpass order s w
  obtain ⟨_,hsubscribers,_⟩ := unsubscribeBroken_map hmem hnodup
  rw [hids] at hchannel
  have hleft : ∀ e, e ∈ p.channel.subscribers ↔ e ∈ s.subscribers ∧ e ∉ broken := by
    intro e
    rw [hchannel, hsubscribers, List.mem_filter, decide_eq_true_iff]
  refine ⟨?_,hevents ▸ hall,fun e he => ((hleft e).mp he).1⟩
  intro e he
  obtain ⟨stays,hstays,hiff⟩ := htreated e he
  refine ⟨stays,hevents ▸ hstays,?_⟩
  rw [hleft, and_iff_right he, hiff]

end Loop

/-- Both publishing functions partition the subscribers, and with a producer that clones they have
the same effect. -/
theorem publishPartitions (calls : SessionCalls ω) (order : IterationOrder) (w : World ω)
    (s : PubSubMessageChannel) :
    (∀ producer, Partitions calls (Produces producer) s (s.publishWithProducer calls producer order w)) ∧
      ∀ msg, Partitions calls (fun _ => IsClone msg) s (s.internalSend calls msg order w) ∧
        s.publishWithProducer calls (cloneProducer msg) order w = s.internalSend calls msg order w := by
  refine ⟨fun producer => ?_,fun msg => ⟨?_,?_⟩⟩
  · apply partitions_of_pass (fun e w => publishPass_treated calls e w producer) order s w
    · rfl
    · rfl
  · apply partitions_of_pass (fun e w => sendPass_treated calls e w msg) order s w
    · rfl
    · rfl
  · exact publishWithProducer_cloneProducer calls msg order w s

end Isml.PubSubMessageChannel
