import Isml.Message.Channels.Publishing

/-! # Who is told that a subscription has ended

A subscription is an element of the map, known by its address. `onUnsubscribed` is called once for
each that ends, in the operation that ends it, but with a reference into an element that has been
erased by then.
-/
namespace Isml
open LabelledRun

/-- The operations, which exclude one another. A publish comes with what the sessions do in it, the
order the map is visited in, and the world it starts in. -/
inductive ChannelOperation (ω : Type) where
  | subscribe (subscriber : Subscriber)
  | unsubscribe (subscriber : Subscriber)
  | send (calls : SessionCalls ω) (msg : Message) (order : IterationOrder) (w : World ω)
  | publishWithProducer (calls : SessionCalls ω) (producer : Producer ω) (order : IterationOrder)
      (w : World ω)

/-- The reason that fits the operation; nobody leaves in a `subscribe`. -/
def ChannelOperation.reason {ω : Type} : ChannelOperation ω → ReasonForLeaving
  | .subscribe _ => .unknown
  | .unsubscribe _ => .subscriberLeftChannelOnHisOwn
  | .send _ _ _ _ | .publishWithProducer _ _ _ _ => .subscriberTransportHasBeenStopped

namespace PubSubMessageChannel
variable {ω : Type}

/-- The calls of `onUnsubscribed` in an operation, and the channel after it. -/
def perform (s : PubSubMessageChannel) : ChannelOperation ω → List Notification × PubSubMessageChannel
  | .subscribe subscriber => ([],(s.internalSubscribe subscriber).2)
  | .unsubscribe subscriber => (s.internalUnsubscribe subscriber).2
  | .send calls msg order w =>
    let p := s.internalSend calls msg order w
    (p.notifications,p.channel)
  | .publishWithProducer calls producer order w =>
    let p := s.publishWithProducer calls producer order w
    (p.notifications,p.channel)

inductive Step : PubSubMessageChannel → ChannelOperation ω → PubSubMessageChannel → Prop
  | perform (s : PubSubMessageChannel) (op : ChannelOperation ω) : Step s op (s.perform op).2

/-- The elements that are there before a step and not behind it. -/
def ended (s t : PubSubMessageChannel) : List Element := s.subscribers.filter fun e => e ∉ t.subscribers

/-- The handler is called once for each subscription that ends, and with the reason that fits. -/
def EndedReported (s : PubSubMessageChannel) (op : ChannelOperation ω) (t : PubSubMessageChannel) : Prop :=
  ((s.perform op).1.map fun n => (n.reference,n.reason)).Perm
    ((s.ended t).map fun e => (e.address,op.reason))

/-- The session that was stored is what the argument of the handler denotes. -/
def ReportsLive (s : PubSubMessageChannel) (op : ChannelOperation ω) : Prop :=
  ∀ n ∈ (s.perform op).1, ∃ e ∈ s.subscribers, e.address = n.reference ∧ n.denotes = some e.subscriber

/-- Over a whole run, each subscription has been reported once or is still there. -/
def ReportedOnce (trace : List (PubSubMessageChannel × ChannelOperation ω)) (t : PubSubMessageChannel) :
    Prop :=
  ((trace.flatMap fun e => (e.1.perform e.2).1.map Notification.reference) ++
    t.subscribers.map Element.address).Perm (List.range t.allocated)

/-- Everyone is active when asked, gets a message, and it is sent. -/
def AllSent (calls : SessionCalls ω) (producer : Producer ω) : List Element → World ω → Prop
  | [],_ => True
  | e :: es,w => ∃ message w1 w2 w3, calls.active e.subscriber w = (true,w1) ∧
      producer e.subscriber w1 = (some message,w2) ∧
      calls.send e.subscriber message w2 = (.returns,w3) ∧ AllSent calls producer es w3

/-- No subscription ends in the operation: who leaves is not there, and everyone is reached. -/
def EndsNothing (s : PubSubMessageChannel) : ChannelOperation ω → Prop
  | .subscribe _ => True
  | .unsubscribe subscriber => subscriber.id ∉ s.subscribers.map Element.id
  | .send calls msg order w => AllSent calls (cloneProducer msg) (order.visited s.subscribers) w
  | .publishWithProducer calls producer order w =>
      AllSent calls producer (order.visited s.subscribers) w

/-- The loop goes on from a pass that has sent a message. -/
theorem publishPass_kept_iff (calls : SessionCalls ω) (producer : Producer ω) (e : Element)
    (w w3 : World ω) :
    (publishPass calls producer e w).kept = true ∧ (publishPass calls producer e w).world = w3 ↔
      ∃ message w1 w2, calls.active e.subscriber w = (true,w1) ∧
        producer e.subscriber w1 = (some message,w2) ∧
        calls.send e.subscriber message w2 = (.returns,w3) := by
  constructor
  · rintro ⟨hkept,rfl⟩
    unfold publishPass at hkept ⊢
    cases hactive : calls.active e.subscriber w with
    | mk active w1 =>
      rw [hactive] at hkept
      cases active with
      | false => cases hkept
      | true =>
        dsimp only at hkept ⊢
        rw [if_pos rfl] at hkept ⊢
        cases hproduced : producer e.subscriber w1 with
        | mk message w2 =>
          rw [hproduced] at hkept
          cases message with
          | none => cases hkept
          | some message =>
            have hreturns : (calls.send e.subscriber message w2).1 = .returns := of_decide_eq_true hkept
            exact ⟨message,w1,w2,rfl,hproduced,Prod.ext hreturns rfl⟩
  · rintro ⟨message,w1,w2,hactive,hproduced,hsent⟩
    simp only [publishPass, hactive, if_true, hproduced, hsent, decide_true, and_self]

theorem allSent_iff (calls : SessionCalls ω) (producer : Producer ω) (es : List Element) (w : World ω) :
    (forEachSubscriber (publishPass calls producer) es w).2.1 = [] ↔ AllSent calls producer es w := by
  induction es generalizing w with
  | nil => exact ⟨fun _ => trivial,fun _ => rfl⟩
  | cons e es ih =>
    have hiff := publishPass_kept_iff calls producer e w
    have hrest := ih (publishPass calls producer e w).world
    rw [AllSent, forEachSubscriber]
    dsimp only
    constructor
    · intro h
      cases hkept : (publishPass calls producer e w).kept with
      | false =>
        rw [hkept] at h
        cases h
      | true =>
        rw [hkept, if_pos rfl] at h
        obtain ⟨message,w1,w2,hactive,hproduced,hsent⟩ := (hiff _).mp ⟨hkept,rfl⟩
        exact ⟨message,w1,w2,_,hactive,hproduced,hsent,hrest.mp h⟩
    · rintro ⟨message,w1,w2,w3,hactive,hproduced,hsent,hall⟩
      obtain ⟨hkept,hworld⟩ := (hiff w3).mpr ⟨message,w1,w2,hactive,hproduced,hsent⟩
      rw [hkept, if_pos rfl, hrest, hworld]
      exact hall

/-- What an operation can do: some elements are gone and reported, each with a reference that
denotes nothing; a new element has an address that none had before. -/
structure Outcomes (s : PubSubMessageChannel) (op : ChannelOperation ω) (gone fresh : List Element) :
    Prop where
  nodup : gone.Nodup
  mem : ∀ e ∈ gone, e ∈ s.subscribers
  notifications : (s.perform op).1 = gone.map fun e => ⟨e.address,none,op.reason⟩
  subscribers : (s.perform op).2.subscribers = fresh ++ s.subscribers.filter fun e => e ∉ gone
  addresses : fresh.map Element.address = List.range' s.allocated fresh.length
  allocated : (s.perform op).2.allocated = s.allocated + fresh.length
  endsNothing : gone = [] ↔ s.EndsNothing op

section Operations
variable {s : PubSubMessageChannel}

theorem filter_notMem_nil (l : List Element) : (l.filter fun e => e ∉ ([] : List Element)) = l :=
  List.filter_eq_self.mpr fun _ _ => decide_eq_true List.not_mem_nil

theorem outcomes_unchanged {op : ChannelOperation ω} (h : s.perform op = ([],s))
    (hends : s.EndsNothing op) : s.Outcomes op [] [] where
  nodup := List.nodup_nil
  mem _ he := absurd he List.not_mem_nil
  notifications := congrArg Prod.fst h
  subscribers := by rw [h, filter_notMem_nil, List.nil_append]
  addresses := rfl
  allocated := by rw [h, List.length_nil, Nat.add_zero]
  endsNothing := iff_of_true rfl hends

theorem outcomes_subscribe (s : PubSubMessageChannel) (subscriber : Subscriber) :
    ∃ fresh, s.Outcomes (.subscribe subscriber : ChannelOperation ω) [] fresh := by
  by_cases h : subscriber.id ∈ s.subscribers.map Element.id
  · refine ⟨[],outcomes_unchanged ?_ trivial⟩
    rw [perform, internalSubscribe, dif_pos h]
  · have hperform : s.perform (.subscribe subscriber : ChannelOperation ω) = ([],s.insert subscriber h) := by
      rw [perform, internalSubscribe, dif_neg h]
    refine ⟨[⟨s.allocated,subscriber.id,subscriber⟩],List.nodup_nil,by simp,?_,?_,rfl,?_,?_⟩
    · exact congrArg Prod.fst hperform
    · rw [hperform, filter_notMem_nil]
      rfl
    · rw [hperform]
      rfl
    · exact iff_of_true rfl trivial

theorem outcomes_unsubscribe (s : PubSubMessageChannel) (subscriber : Subscriber) :
    ∃ gone, s.Outcomes (.unsubscribe subscriber : ChannelOperation ω) gone [] := by
  by_cases h : subscriber.id ∈ s.subscribers.map Element.id
  · obtain ⟨e,he,hid⟩ := List.mem_map.mp h
    have hperform : s.perform (.unsubscribe subscriber : ChannelOperation ω) =
        ([⟨e.address,none,.subscriberLeftChannelOnHisOwn⟩],s.erase e.id) := by
      rw [perform, internalUnsubscribe, ← hid, helperUnsubscribe_mem _ he]
    refine ⟨[e],List.nodup_singleton e,?_,?_,?_,rfl,?_,?_⟩
    · intro e' he'
      rwa [List.mem_singleton.mp he']
    · exact congrArg Prod.fst hperform
    · rw [hperform, ← filter_erase he, filter_notMem_nil, List.nil_append]
    · rw [hperform]
      rfl
    · exact iff_of_false (List.cons_ne_nil e []) fun hne => hne h
  · refine ⟨[],outcomes_unchanged ?_ h⟩
    rw [perform, internalUnsubscribe, helperUnsubscribe_notMem _ h]

/-- A publish ends the subscriptions that its loop noted. -/
theorem outcomes_publish (s : PubSubMessageChannel) (calls : SessionCalls ω) (producer : Producer ω)
    (order : IterationOrder) (w : World ω) :
    ∃ gone, s.Outcomes (.publishWithProducer calls producer order w) gone [] := by
  obtain ⟨broken,hnodup,hmem,hids,-⟩ :=
    publish_spec (fun e w => publishPass_treated calls e w producer) order s w
  obtain ⟨hnotified,hsubscribers,hallocated⟩ := unsubscribeBroken_map hmem hnodup
  have hperform : s.perform (.publishWithProducer calls producer order w) =
      s.unsubscribeBroken (broken.map Element.id) := by
    rw [← hids]
    rfl
  refine ⟨broken,hnodup,hmem,?_,?_,rfl,?_,?_⟩
  · rw [hperform, hnotified]
    rfl
  · rw [hperform, hsubscribers, List.nil_append]
  · rw [hperform, hallocated]
    rfl
  · rw [EndsNothing, ← allSent_iff, hids, List.map_eq_nil_iff]

theorem outcomes_send (s : PubSubMessageChannel) (calls : SessionCalls ω) (msg : Message)
    (order : IterationOrder) (w : World ω) : ∃ gone, s.Outcomes (.send calls msg order w) gone [] := by
  obtain ⟨gone,h⟩ := outcomes_publish s calls (cloneProducer msg) order w
  have hperform : s.perform (.send calls msg order w) =
      s.perform (.publishWithProducer calls (cloneProducer msg) order w) := by
    rw [perform, perform, publishWithProducer_cloneProducer]
  refine ⟨gone,h.nodup,h.mem,?_,?_,rfl,?_,h.endsNothing⟩
  · rw [hperform, h.notifications]
    rfl
  · rw [hperform, h.subscribers]
  · rw [hperform, h.allocated]

theorem exists_outcomes (s : PubSubMessageChannel) (op : ChannelOperation ω) :
    ∃ gone fresh, s.Outcomes op gone fresh := by
  cases op with
  | subscribe subscriber =>
    obtain ⟨fresh,h⟩ := outcomes_subscribe s subscriber
    exact ⟨[],fresh,h⟩
  | unsubscribe subscriber =>
    obtain ⟨gone,h⟩ := outcomes_unsubscribe s subscriber
    exact ⟨gone,[],h⟩
  | send calls msg order w =>
    obtain ⟨gone,h⟩ := outcomes_send s calls msg order w
    exact ⟨gone,[],h⟩
  | publishWithProducer calls producer order w =>
    obtain ⟨gone,h⟩ := outcomes_publish s calls producer order w
    exact ⟨gone,[],h⟩

end Operations

section Steps
variable {s : PubSubMessageChannel} {op : ChannelOperation ω} {gone fresh : List Element}

/-- The elements that are gone are those the step has ended. -/
theorem Outcomes.ended_perm (h : s.Outcomes op gone fresh) :
    (s.ended (s.perform op).2).Perm gone := by
  have hnodup : (s.ended (s.perform op).2).Nodup := s.ids_nodup.of_map.filter _
  apply (List.perm_ext_iff_of_nodup hnodup h.nodup).mpr
  intro e
  rw [ended, List.mem_filter, decide_eq_true_iff, h.subscribers, List.mem_append, List.mem_filter,
    decide_eq_true_iff, not_or, not_and, not_not]
  constructor
  · rintro ⟨hmem,-,hgone⟩
    exact hgone hmem
  · intro hgone
    have hmem := h.mem e hgone
    refine ⟨hmem,fun hfresh => ?_,fun _ => hgone⟩
    have haddress : e.address ∈ fresh.map Element.address := List.mem_map_of_mem hfresh
    rw [h.addresses, List.mem_range'_1] at haddress
    exact absurd (s.address_lt e hmem) (Nat.not_lt_of_le haddress.1)

theorem Outcomes.endedReported (h : s.Outcomes op gone fresh) : s.EndedReported op (s.perform op).2 := by
  unfold EndedReported
  rw [h.notifications, List.map_map]
  exact (h.ended_perm.map fun e => (e.address,op.reason)).symm

theorem Outcomes.reportsLive_iff (h : s.Outcomes op gone fresh) : s.ReportsLive op ↔ s.EndsNothing op := by
  rw [← h.endsNothing, ReportsLive, h.notifications]
  constructor
  · intro hlive
    cases gone with
    | nil => rfl
    | cons e gone =>
      obtain ⟨_,_,_,hdenotes⟩ := hlive ⟨e.address,none,op.reason⟩ List.mem_cons_self
      cases hdenotes
  · rintro rfl n hn
    cases hn

/-- What is reported, and what is there afterwards, is what was there and what is new. -/
theorem Outcomes.addresses_perm (h : s.Outcomes op gone fresh) :
    ((s.perform op).1.map Notification.reference ++
        (s.perform op).2.subscribers.map Element.address).Perm
      (s.subscribers.map Element.address ++ List.range' s.allocated fresh.length) := by
  have hgone : gone.Perm (s.subscribers.filter fun e => e ∈ gone) := by
    apply (List.perm_ext_iff_of_nodup h.nodup (s.ids_nodup.of_map.filter _)).mpr
    intro e
    rw [List.mem_filter, decide_eq_true_iff]
    exact ⟨fun hmem => ⟨h.mem e hmem,hmem⟩,fun hmem => hmem.2⟩
  have hsplit : (gone ++ s.subscribers.filter fun e => e ∉ gone).Perm s.subscribers := by
    refine (hgone.append_right _).trans ?_
    have hperm := List.filter_append_perm (fun e => decide (e ∈ gone)) s.subscribers
    simpa only [decide_not] using hperm
  rw [h.notifications, h.subscribers, List.map_map, ← h.addresses, List.map_append, ← List.append_assoc]
  change ((gone.map Element.address ++ fresh.map Element.address) ++ _).Perm _
  rw [← List.map_append, ← List.map_append, ← List.map_append]
  apply List.Perm.map
  have hmove : (gone ++ fresh ++ s.subscribers.filter fun e => e ∉ gone).Perm
      ((gone ++ s.subscribers.filter fun e => e ∉ gone) ++ fresh) := by
    rw [List.append_assoc, List.append_assoc]
    exact List.perm_append_comm.append_left gone
  exact hmove.trans (hsplit.append_right fresh)

theorem Step.endedReported {t : PubSubMessageChannel} (hstep : Step s op t) : s.EndedReported op t := by
  cases hstep
  obtain ⟨gone,fresh,h⟩ := exists_outcomes s op
  exact h.endedReported

end Steps

/-- What the operations of a run report, with what is there in the end, is what was there in the
beginning and what has come since. -/
theorem Run.addresses_perm {s t : PubSubMessageChannel}
    {trace : List (PubSubMessageChannel × ChannelOperation ω)} (hr : Run Step s trace t) :
    ∃ n, t.allocated = s.allocated + n ∧
      ((trace.flatMap fun e => (e.1.perform e.2).1.map Notification.reference) ++
        t.subscribers.map Element.address).Perm
          (s.subscribers.map Element.address ++ List.range' s.allocated n) := by
  induction hr with
  | nil s => exact ⟨0,rfl,by simp⟩
  | @cons s m t op trace hstep _ ih =>
    cases hstep
    obtain ⟨n,hallocated,hperm⟩ := ih
    obtain ⟨gone,fresh,h⟩ := exists_outcomes s op
    have hfirst := h.addresses_perm
    rw [h.allocated] at hallocated hperm
    refine ⟨fresh.length + n,hallocated.trans (Nat.add_assoc ..),?_⟩
    rw [List.flatMap_cons, List.append_assoc]
    refine (hperm.append_left _).trans ?_
    rw [← List.append_assoc, List.range'_append_1.symm, ← List.append_assoc]
    exact hfirst.append_right _

/-- In every run, the subscriptions that end are reported once, in the operation that ends them and
with its reason, and no others. The argument of the handler denotes the session that was stored
exactly in the runs in which no subscription ends. -/
theorem reportedOnceAndLive_iff {t : PubSubMessageChannel}
    {trace : List (PubSubMessageChannel × ChannelOperation ω)} (hr : Run Step create trace t) :
    (∀ e ∈ transitions trace t, EndedReported e.1 e.2.1 e.2.2) ∧ ReportedOnce trace t ∧
      ((∀ e ∈ transitions trace t, ReportsLive e.1 e.2.1) ↔ Guarded EndsNothing trace) := by
  refine ⟨?_,?_,?_⟩
  · intro e he
    obtain ⟨_,hstep⟩ := hr.step_of_mem_transitions he
    exact hstep.endedReported
  · obtain ⟨n,hallocated,hperm⟩ := Run.addresses_perm hr
    have hn : t.allocated = n := hallocated.trans (Nat.zero_add n)
    rw [ReportedOnce, hn, List.range_eq_range']
    exact hperm
  · have hkeeps : ∀ (s : PubSubMessageChannel) (op : ChannelOperation ω) (t : PubSubMessageChannel),
        True → s.EndsNothing op → Step s op t → True := fun _ _ _ _ _ _ => trivial
    have hlive : ∀ (s : PubSubMessageChannel) (op : ChannelOperation ω) (t : PubSubMessageChannel),
        True → Step s op t → (s.ReportsLive op ↔ s.EndsNothing op) := by
      intro s op t _ _
      obtain ⟨gone,fresh,h⟩ := exists_outcomes s op
      exact h.reportsLive_iff
    exact hr.transitions_iff_guarded hkeeps hlive trivial

/-- Sessions that are active and send, in a world of nothing but the counter. -/
def reachable : SessionCalls Unit := ⟨fun _ w => (true,w),fun _ _ w => (.returns,w)⟩

def inOrder : IterationOrder := ⟨fun l => l,fun l => List.Perm.refl l⟩

/-- A session subscribes, and gets a message. -/
theorem reportedOnceAndLive_iff_subscribe : ∃ msg : Message, ∃ trace t,
    trace.map Prod.snd = [ChannelOperation.subscribe ⟨0,1⟩,.send reachable msg inOrder ⟨0,()⟩] ∧
      (∀ e ∈ transitions trace t, EndedReported e.1 e.2.1 e.2.2) ∧ ReportedOnce trace t ∧
      ((∀ e ∈ transitions trace t, ReportsLive e.1 e.2.1) ↔ Guarded EndsNothing trace) := by
  let msg : Message := (Message.new 0 (MessageDescriptor.new 7) none).1
  have hr := Run.cons (Step.perform create (.subscribe ⟨0,1⟩))
    (Run.cons (Step.perform _ (.send reachable msg inOrder ⟨0,()⟩)) (Run.nil _))
  exact ⟨msg,_,_,rfl,reportedOnceAndLive_iff hr⟩

/-- A session subscribes and leaves: the reference the handler gets denotes nothing. -/
theorem not_reportsLive_unsubscribe : ∃ trace t,
    Run (@Step Unit) create trace t ∧
      trace.map Prod.snd = [.subscribe ⟨0,1⟩,.unsubscribe ⟨0,1⟩] ∧
      (trace.flatMap fun e => (e.1.perform e.2).1) = [⟨0,none,.subscriberLeftChannelOnHisOwn⟩] ∧
      ¬ ∀ e ∈ transitions trace t, ReportsLive e.1 e.2.1 := by
  have hr := Run.cons (Step.perform create (.subscribe ⟨0,1⟩ : ChannelOperation Unit))
    (Run.cons (Step.perform _ (.unsubscribe ⟨0,1⟩)) (Run.nil _))
  refine ⟨_,_,hr,rfl,rfl,fun hlive => ?_⟩
  obtain ⟨_,_,_,hdenotes⟩ := hlive _ (List.mem_cons_of_mem _ List.mem_cons_self)
    ⟨0,none,.subscriberLeftChannelOnHisOwn⟩ List.mem_cons_self
  cases hdenotes

end PubSubMessageChannel

end Isml
