import Isml.Serialization.BinaryScan
import Isml.Transport.PayloadRoundTrip

/-! # Where a decoded message ends up, and from which payloads messages are decoded

A message that was decoded goes to a pending request or into the queue, except when its
field `srcMsgId` cannot be used. Decoding does not look at the state of the stream, so
most incomplete payloads make messages as well.
-/
namespace Isml.TcpTransport
open ByteOrder StringStream BinarySerializer

section HandOver
variable {m : Message} {s : Receiver}

/-- The identifier a field of type `MessageId` holds. -/
def messageIdOf (f : Field) : MessageId := BitVec.ofNat 32 f.value.toBits

/-- The message can be handed over: a field `srcMsgId` is a `MessageId`, and a promise
pending under its value is not satisfied yet. -/
def Correlatable (s : Receiver) (m : Message) : Prop :=
  ∀ f, m.fieldset.get srcMsgId = some f → f.valueType = messageIdType.name ∧
    ∀ r, s.pendingRequests.lookup (messageIdOf f) = some r → r.satisfied = false

/-- The message was given to the one promise registered under the value of its field
`srcMsgId`, or it was appended to the queue; nothing else happened to either. -/
def Accounted (s : Receiver) (m : Message) (s' : Receiver) : Prop :=
  (∃ f, m.fieldset.get srcMsgId = some f ∧ f.valueType = messageIdType.name ∧
      s.pendingRequests.lookup (messageIdOf f) = some ⟨false⟩ ∧
      s'.futures = s.futures ++ [(messageIdOf f,m)] ∧
      s'.pendingRequests = s.pendingRequests.erase (messageIdOf f) ∧
      s'.incomingMessages = s.incomingMessages) ∨
    (s'.incomingMessages = s.incomingMessages ++ [m] ∧ s'.futures = s.futures ∧
      s'.pendingRequests = s.pendingRequests)

theorem Accounted.ne {s' : Receiver} (h : Accounted s m s') : s' ≠ s := by
  rintro rfl
  rcases h with ⟨f,_,_,_,hf,_⟩ | ⟨hq,_⟩
  · simpa using congrArg List.length hf
  · simpa using congrArg List.length hq

theorem hasField_iff : m.hasField srcMsgId = true ↔ ∃ f, m.fieldset.get srcMsgId = some f := by
  unfold Message.hasField
  rw [FieldSet.contains_iff, List.mem_map]
  constructor
  · rintro ⟨f,hf,hname⟩
    exact ⟨f,m.fieldset.get_eq_some_iff.mpr ⟨hf,hname⟩⟩
  · rintro ⟨f,hf⟩
    exact ⟨f,m.fieldset.get_eq_some_iff.mp hf⟩

theorem field_eq {f : Field} (hf : m.fieldset.get srcMsgId = some f) :
    m.field messageIdType srcMsgId = if f.valueType = messageIdType.name then .ok f
      else raise (.fieldDoesNotExist "Message doesn't contain specified field" srcMsgId
        m.sessionId m.id) := by
  have hhas : m.fieldset.contains srcMsgId = true := hasField_iff.mpr ⟨f,hf⟩
  unfold Message.field FieldSet.getOf FieldSet.containsOf
  rw [hhas, hf]
  by_cases ht : f.valueType = messageIdType.name
  · simp [ht]
  · simp [ht]

theorem handOver_accounted (h : Correlatable s m) :
    ∃ s', handOver m s = .ok s' ∧ Accounted s m s' := by
  unfold handOver
  cases hhas : m.hasField srcMsgId with
  | false => exact ⟨_,rfl,Or.inr ⟨rfl,rfl,rfl⟩⟩
  | true =>
    obtain ⟨f,hf⟩ := hasField_iff.mp hhas
    obtain ⟨ht,hr⟩ := h f hf
    rw [if_pos rfl, field_eq hf, if_pos ht, ok_bind]
    dsimp only
    cases hl : s.pendingRequests.lookup (messageIdOf f) with
    | none =>
      unfold messageIdOf at hl
      rw [hl]
      exact ⟨_,rfl,Or.inr ⟨rfl,rfl,rfl⟩⟩
    | some r =>
      have hfree := hr r hl
      have hreq : r = ⟨false⟩ := by
        cases r
        rw [← hfree]
      subst hreq
      have hlookup := hl
      unfold messageIdOf at hl
      rw [hl]
      exact ⟨_,rfl,Or.inl ⟨f,hf,ht,hlookup,rfl,rfl,rfl⟩⟩

theorem handOver_throws (h : ¬ Correlatable s m) : ∃ e, handOver m s = raise e := by
  unfold Correlatable at h
  push Not at h
  obtain ⟨f,hf,h⟩ := h
  unfold handOver
  rw [if_pos (hasField_iff.mpr ⟨f,hf⟩), field_eq hf]
  by_cases ht : f.valueType = messageIdType.name
  · obtain ⟨r,hr,hsat⟩ := h ht
    have hsat : r.satisfied = true := by simpa using hsat
    unfold messageIdOf at hr
    rw [if_pos ht, ok_bind]
    dsimp only
    rw [hr]
    dsimp only
    rw [if_pos hsat]
    exact ⟨_,rfl⟩
  · rw [if_neg ht]
    exact ⟨_,rfl⟩

end HandOver

section MessageRead
variable {b : Build} {factory : MessageFactory} {counter : MessageId} {junk : Junk}
  {payload : List Byte} {s s' : Receiver} {m : Message} {stream : IStream}

/-- A decoded message is handed over; a failure of that is caught. -/
theorem onMessageRead_decoded
    (h : createMessageFromStream b factory s.session counter junk (IStream.ofBytes payload) =
      .ok (some m,stream)) :
    (Correlatable s m ∧ ∃ s', onMessageRead b factory counter junk payload s = .ok s' ∧
        Accounted s m s') ∨
      (¬ Correlatable s m ∧ onMessageRead b factory counter junk payload s = .ok s) := by
  have htry : tryMessageRead b factory counter junk payload s = handOver m s := by
    unfold tryMessageRead
    rw [h, ok_bind]
  unfold onMessageRead
  rw [htry]
  by_cases hc : Correlatable s m
  · obtain ⟨s',hs',hacc⟩ := handOver_accounted hc
    left
    rw [hs']
    exact ⟨hc,s',rfl,hacc⟩
  · obtain ⟨e,he⟩ := handOver_throws hc
    right
    rw [he]
    exact ⟨hc,rfl⟩

theorem not_accounted_of_not_correlatable
    (h : createMessageFromStream b factory s.session counter junk (IStream.ofBytes payload) =
      .ok (some m,stream)) (hc : ¬ Correlatable s m) :
    ¬ ∃ s', onMessageRead b factory counter junk payload s = .ok s' ∧ Accounted s m s' := by
  rintro ⟨s',hs',hacc⟩
  rcases onMessageRead_decoded h with ⟨hc',_⟩ | ⟨_,hsame⟩
  · exact hc hc'
  · cases hsame.symm.trans hs'
    exact hacc.ne rfl

/-- A decoded message is given to one request or queued, exactly when its `srcMsgId`
does not get in the way. -/
theorem accounted_iff
    (h : createMessageFromStream b factory s.session counter junk (IStream.ofBytes payload) =
      .ok (some m,stream)) :
    (∃ s', onMessageRead b factory counter junk payload s = .ok s' ∧ Accounted s m s') ↔
      Correlatable s m := by
  constructor
  · intro hacc
    by_contra hc
    exact not_accounted_of_not_correlatable h hc hacc
  · intro hc
    rcases onMessageRead_decoded h with ⟨_,hs'⟩ | ⟨hc',_⟩
    · exact hs'
    · exact absurd hc hc'

end MessageRead

/-- The two bytes of a message type at the front of a payload, missing ones as zero. -/
def messageTypeOf (payload : List Byte) : MessageType :=
  BitVec.ofNat 16 (ByteOrder.ofBytes (payload.take 2))

theorem readMessageType_ofBytes (b : Build) (payload : List Byte) :
    (readMessageType b (IStream.ofBytes payload)).1 = messageTypeOf payload := by
  unfold readMessageType messageTypeOf
  dsimp only
  rw [readIntegral_fst b.host (by decide)]
  by_cases hlen : 2 ≤ payload.length
  · simp [IStream.ofBytes, IStream.read, hlen]
  · have hzero : b.host.toMemory 2 0 = List.replicate 2 0 := by cases b.host <;> rfl
    have hread : ((IStream.ofBytes payload).read 2 (b.host.toMemory 2 0)).1 =
        payload ++ List.replicate (2 - payload.length) 0 := by
      simp only [IStream.ofBytes, IStream.read, Bool.false_eq_true, if_neg hlen, ↓reduceIte, hzero,
        List.drop_replicate]
    rw [hread, ofBytes_append_zeros, List.take_of_length_le (by omega)]

theorem left_readMessageType (b : Build) (payload : List Byte) :
    (readMessageType b (IStream.ofBytes payload)).2.left =
      if 2 ≤ payload.length then some (payload.drop 2) else none := by
  unfold readMessageType
  dsimp only
  rw [readIntegral_snd, left_read]
  rfl

/-- The bytes behind complete encodings of the types, one after the other. -/
def scanFields : List Ty → List Byte → Option (List Byte)
  | [], bytes => some bytes
  | t :: ts, bytes => (scan t bytes).bind (scanFields ts)

/-- The payload starts with a registered message type in two bytes, and complete
encodings of all fields of a message of this type follow. -/
def Complete (factory : MessageFactory) (payload : List Byte) : Prop :=
  2 ≤ payload.length ∧ ∃ d rest, factory.descriptors.lookup (messageTypeOf payload) = some d ∧
    scanFields ((Message.new 0 d none).1.fields.map fun f => f.type) (payload.drop 2) = some rest

theorem left_deserializeFields {b : Build} {junk : Junk} {fs gs : List Field} {s s' : IStream}
    (hf : ∀ f ∈ fs, Fresh f.type f.value)
    (h : FieldSet.deserializeFields b junk fs s = .ok (gs,s')) :
    s'.left = s.left.bind (scanFields (fs.map fun f => f.type)) := by
  induction fs generalizing gs s with
  | nil =>
    cases h
    exact (Option.bind_fun_some _).symm
  | cons f fs ih =>
    obtain ⟨⟨g,s1⟩,hg,h⟩ := bind_eq_ok.mp h
    obtain ⟨⟨gs',s2⟩,hgs,h⟩ := bind_eq_ok.mp h
    cases h
    obtain ⟨_,v,hv,_⟩ := Field.deserialize_eq_ok hg
    have hfirst := left_deserialize b f.type (hf f List.mem_cons_self) hv
    rw [ih (fun f' hf' => hf f' (List.mem_cons_of_mem f hf')) hgs, hfirst, Option.bind_assoc]
    rfl

theorem deserializeFields_supported {b : Build} {junk : Junk} {fs gs : List Field} {s s' : IStream}
    (h : FieldSet.deserializeFields b junk fs s = .ok (gs,s')) :
    ∀ f ∈ fs, CompositeSerializer.supportedBy f.serializers = true := by
  induction fs generalizing gs s with
  | nil => simp
  | cons f fs ih =>
    obtain ⟨⟨g,s1⟩,hg,h⟩ := bind_eq_ok.mp h
    obtain ⟨⟨gs',s2⟩,hgs,h⟩ := bind_eq_ok.mp h
    cases h
    intro f' hf'
    rcases List.mem_cons.mp hf' with rfl | hf'
    · exact (Field.deserialize_eq_ok hg).1
    · exact ih hgs f' hf'

theorem deserializeFields_total {b : Build} (hb : b.ndebug = true) (junk : Junk) {fs : List Field}
    (hf : ∀ f ∈ fs, CompositeSerializer.supportedBy f.serializers = true) (s : IStream) :
    ∃ gs s', FieldSet.deserializeFields b junk fs s = .ok (gs,s') := by
  induction fs generalizing s with
  | nil => exact ⟨[],s,rfl⟩
  | cons f fs ih =>
    obtain ⟨v,s1,hv⟩ := deserialize_total hb f.type (junk.child fs.length) f.value s
    have hsup := Field.deserialize_supported b (junk.child fs.length) (hf f List.mem_cons_self) s
    obtain ⟨gs,s2,hgs⟩ := ih (fun f' hf' => hf f' (List.mem_cons_of_mem f hf')) s1
    exact ⟨_,s2,bind_eq_ok.mpr ⟨_,hsup.trans (bind_eq_ok.mpr ⟨_,hv,rfl⟩),bind_eq_ok.mpr ⟨_,hgs,rfl⟩⟩⟩

theorem new_fresh (counter : MessageId) (d : MessageDescriptor) (session : Option SessionId) :
    ∀ f ∈ (Message.new counter d session).1.fields, Fresh f.type f.value := by
  intro f hf
  rw [Message.new_fields] at hf
  obtain ⟨e,_,rfl⟩ := List.mem_map.mp (List.mem_rotate.mp hf)
  exact fresh_default e.type

theorem new_fields_eq (counter counter' : MessageId) (d : MessageDescriptor)
    (session session' : Option SessionId) :
    (Message.new counter d session).1.fields = (Message.new counter' d session').1.fields := by
  rw [Message.new_fields, Message.new_fields]

/-- Every read of the decoder obtained what it asked for exactly when the payload is complete. -/
theorem complete_iff_not_failed {b : Build} {factory : MessageFactory} {session : Option SessionId}
    {counter : MessageId} {junk : Junk} {payload : List Byte} {m : Message} {s : IStream}
    (h : createMessageFromStream b factory session counter junk (IStream.ofBytes payload) =
      .ok (some m,s)) : s.failed = false ↔ Complete factory payload := by
  obtain ⟨d,id,hd,_,_,hfields⟩ := createMessageFromStream_eq_ok h
  have hleft := left_deserializeFields (new_fresh counter d (some id)) hfields
  rw [left_readMessageType, new_fields_eq counter 0 d (some id) none] at hleft
  rw [readMessageType_ofBytes] at hd
  constructor
  · intro hs
    have hsome : s.left = some s.rest := by simp [IStream.left, hs]
    rw [hsome] at hleft
    by_cases hlen : 2 ≤ payload.length
    · rw [if_pos hlen, Option.bind_some] at hleft
      exact ⟨hlen,d,s.rest,hd,hleft.symm⟩
    · rw [if_neg hlen] at hleft
      cases hleft
  · rintro ⟨hlen,d',rest,hd',hscan⟩
    cases hd.symm.trans hd'
    rw [if_pos hlen, Option.bind_some, hscan, left_eq_some] at hleft
    rw [hleft]

/-- No payload of the type is ever delivered: the type is not registered, the session is
not owned yet, a field has no `BinarySerializer`, or `srcMsgId` is no `MessageId`. -/
def Undeliverable (factory : MessageFactory) (session : Option SessionId) (type : MessageType) :
    Prop :=
  session = none ∨ ∀ d, factory.descriptors.lookup type = some d → ∃ f ∈ d.fieldDescriptors,
    CompositeSerializer.supportedBy f.serializers = false ∨
      (f.name = srcMsgId ∧ f.type.name ≠ messageIdType.name)

/-- Whatever the build and the uninitialized locals, the queue, the requests and the
futures change on a complete payload only. -/
def DeliversOnlyComplete (factory : MessageFactory) (s : Receiver) (payload : List Byte) : Prop :=
  ∀ (b : Build) (counter : MessageId) (junk : Junk) (s' : Receiver),
    onMessageRead b factory counter junk payload s = .ok s' → s' = s ∨ Complete factory payload

theorem decoded_descriptor {b : Build} {counter : MessageId} {d : MessageDescriptor}
    {session : Option SessionId} {junk : Junk} {s s' : IStream} {m : Message}
    (h : FieldSet.deserializeFields b junk (Message.new counter d session).1.fields s =
      .ok (m.fields,s')) (f : FieldDescriptor) :
    f ∈ d.fieldDescriptors ↔ ∃ g ∈ m.fields, g.toFieldDescriptor = f := by
  have hmap := FieldSet.deserializeFields_descriptors h
  rw [Message.new_fields, List.map_rotate, map_createField] at hmap
  rw [← List.mem_rotate (n := 1), ← hmap, List.mem_map]

theorem onMessageRead_undeliverable {b : Build} {factory : MessageFactory} {counter : MessageId}
    {junk : Junk} {payload : List Byte} {s s' : Receiver}
    (hu : Undeliverable factory s.session (messageTypeOf payload))
    (h : onMessageRead b factory counter junk payload s = .ok s') : s' = s := by
  cases hm : createMessageFromStream b factory s.session counter junk (IStream.ofBytes payload) with
  | error e =>
    have htry : tryMessageRead b factory counter junk payload s = .error e := by
      unfold tryMessageRead
      rw [hm, error_bind]
    unfold onMessageRead at h
    rw [htry] at h
    cases e with
    | thrown e => exact (Except.ok.inj h).symm
    | assertionFailed => cases h
  | ok r =>
    obtain ⟨message,stream⟩ := r
    cases message with
    | none =>
      have htry : tryMessageRead b factory counter junk payload s = .ok s := by
        unfold tryMessageRead
        rw [hm, ok_bind]
      unfold onMessageRead at h
      rw [htry] at h
      exact (Except.ok.inj h).symm
    | some m =>
      obtain ⟨d,id,hd,hid,_,hfields⟩ := createMessageFromStream_eq_ok hm
      rw [readMessageType_ofBytes] at hd
      rcases hu with hnone | hall
      · rw [hnone] at hid
        cases hid
      · obtain ⟨f,hf,hbad⟩ := hall d hd
        obtain ⟨g,hg,rfl⟩ := (decoded_descriptor hfields f).mp hf
        rcases hbad with hunsup | ⟨hname,htype⟩
        · have hmem : ∃ e ∈ (Message.new counter d (some id)).1.fields,
              e.toFieldDescriptor = g.toFieldDescriptor := by
            rw [Message.new_fields]
            refine ⟨_,List.mem_rotate.mpr (List.mem_map_of_mem hf),rfl⟩
          obtain ⟨e,he,hdesc⟩ := hmem
          have hsup := deserializeFields_supported hfields e he
          rw [hdesc, hunsup] at hsup
          cases hsup
        · have hc : ¬ Correlatable s m := by
            intro hc
            exact htype (hc g (m.fieldset.get_eq_some_iff.mpr ⟨hg,hname⟩)).1
          rcases onMessageRead_decoded hm with ⟨hc',_⟩ | ⟨_,hsame⟩
          · exact absurd hc' hc
          · cases hsame.symm.trans h
            rfl

/-- A payload of a type that can be delivered is delivered, complete or not, in a build
without assertions. -/
theorem onMessageRead_deliverable {factory : MessageFactory} {payload : List Byte} {s : Receiver}
    (hp : ∀ id r, s.pendingRequests.lookup id = some r → r.satisfied = false)
    (hu : ¬ Undeliverable factory s.session (messageTypeOf payload)) (host : Endian)
    (counter : MessageId) (junk : Junk) :
    ∃ s', onMessageRead ⟨host,true⟩ factory counter junk payload s = .ok s' ∧ s' ≠ s := by
  unfold Undeliverable at hu
  push Not at hu
  obtain ⟨hsession,d,hd,hgood⟩ := hu
  obtain ⟨id,hid⟩ := Option.ne_none_iff_exists'.mp hsession
  have hsup : ∀ f ∈ (Message.new counter d (some id)).1.fields,
      CompositeSerializer.supportedBy f.serializers = true := by
    intro f hf
    rw [Message.new_fields] at hf
    obtain ⟨e,he,rfl⟩ := List.mem_map.mp (List.mem_rotate.mp hf)
    have hsupported := (hgood e he).1
    rwa [ne_eq, Bool.not_eq_false] at hsupported
  obtain ⟨gs,stream,hgs⟩ := deserializeFields_total (b := ⟨host,true⟩) rfl junk hsup
    (readMessageType ⟨host,true⟩ (IStream.ofBytes payload)).2
  have hlookup : factory.descriptors.lookup
      (readMessageType ⟨host,true⟩ (IStream.ofBytes payload)).1 = some d := by
    rw [readMessageType_ofBytes]
    exact hd
  obtain ⟨m,hm,_,rfl⟩ := createMessageFromStream_of_fields hlookup hgs
  rw [← hid] at hm
  have hc : Correlatable s m := by
    intro f hf
    obtain ⟨hmem,hname⟩ := m.fieldset.get_eq_some_iff.mp hf
    have hdesc := (decoded_descriptor hgs f.toFieldDescriptor).mpr ⟨f,hmem,rfl⟩
    refine ⟨(hgood _ hdesc).2 hname,fun r hr => hp _ r hr⟩
  rcases onMessageRead_decoded hm with ⟨_,s',hs',hacc⟩ | ⟨hc',_⟩
  · exact ⟨s',hs',hacc.ne⟩
  · exact absurd hc hc'

theorem DeliversOnlyComplete.complete_or {factory : MessageFactory} {payload : List Byte}
    {s : Receiver} (hp : ∀ id r, s.pendingRequests.lookup id = some r → r.satisfied = false)
    (h : DeliversOnlyComplete factory s payload) :
    Complete factory payload ∨ Undeliverable factory s.session (messageTypeOf payload) := by
  by_contra hnot
  rw [not_or] at hnot
  obtain ⟨s',hs',hne⟩ := onMessageRead_deliverable hp hnot.2 .little 0 onesJunk
  rcases h ⟨.little,true⟩ 0 onesJunk s' hs' with hsame | hcomplete
  · exact hne hsame
  · exact hnot.1 hcomplete

/-- Incomplete payloads are kept out exactly where nothing is ever delivered. -/
theorem deliversOnlyComplete_iff {factory : MessageFactory} {payload : List Byte} {s : Receiver}
    (hp : ∀ id r, s.pendingRequests.lookup id = some r → r.satisfied = false) :
    DeliversOnlyComplete factory s payload ↔
      Complete factory payload ∨ Undeliverable factory s.session (messageTypeOf payload) := by
  constructor
  · exact DeliversOnlyComplete.complete_or hp
  · rintro (hcomplete | hu) b counter junk s' hs'
    · exact Or.inr hcomplete
    · exact Or.inl (onMessageRead_undeliverable hu hs')

/-- A receiver of the session 0 without pending requests. -/
def idleReceiver : Receiver := ⟨some 0,∅,∅,[],[]⟩

theorem idleReceiver_unsatisfied : ∀ id r, idleReceiver.pendingRequests.lookup id = some r →
    r.satisfied = false := by
  intro id r h
  cases h

theorem int_not_undeliverable {factory : MessageFactory} {d : MessageDescriptor}
    (hd : factory.descriptors.lookup 7 = some d) (hl : d.fieldDescriptors = [intDescriptor "value"]) :
    ¬ Undeliverable factory idleReceiver.session 7 := by
  rintro (h | h)
  · cases h
  · obtain ⟨f,hf,hbad⟩ := h d hd
    rw [hl, List.mem_singleton] at hf
    subst hf
    rcases hbad with h | ⟨h,_⟩
    · cases h
    · exact absurd h (by decide)

theorem deliversOnlyComplete_iff_int : ∃ factory d,
    (MessageDescriptor.new 7).registerFields [intDescriptor "value"] = .ok d ∧
      MessageFactory.empty.addDescriptor d = (true,factory) ∧
      (DeliversOnlyComplete factory idleReceiver [7] ↔ Complete factory [7] ∨
        Undeliverable factory idleReceiver.session (messageTypeOf [7])) := by
  obtain ⟨factory,d,hd,hadd,_,_⟩ := exists_int_factory
  exact ⟨factory,d,hd,hadd,deliversOnlyComplete_iff idleReceiver_unsatisfied⟩

/-- One byte of the type 7, which has an `int` field, is delivered as a message. -/
theorem not_deliversOnlyComplete_int : ∃ factory d,
    (MessageDescriptor.new 7).registerFields [intDescriptor "value"] = .ok d ∧
      MessageFactory.empty.addDescriptor d = (true,factory) ∧
      ¬ DeliversOnlyComplete factory idleReceiver [7] := by
  obtain ⟨factory,d,hd,hadd,hlookup,hl⟩ := exists_int_factory
  refine ⟨factory,d,hd,hadd,fun h => ?_⟩
  rcases h.complete_or idleReceiver_unsatisfied with ⟨hlen,_⟩ | hu
  · exact absurd hlen (by decide)
  · exact int_not_undeliverable hlookup hl hu

/-- A field `srcMsgId` of 16 bits. -/
def shortSrcMsgId : FieldDescriptor :=
  ⟨srcMsgId,.integral .unsignedShort,⟨[.binary],List.nodup_singleton _⟩⟩

/-- The payload 05 00 01 00 is a complete message of the type 5 with that field. -/
theorem exists_short_srcMsgId : ∃ factory d m stream,
    (MessageDescriptor.new 5).registerFields [shortSrcMsgId] = .ok d ∧
      MessageFactory.empty.addDescriptor d = (true,factory) ∧
      createMessageFromStream ⟨.little,true⟩ factory idleReceiver.session 0 onesJunk
        (IStream.ofBytes [5,0,1,0]) = .ok (some m,stream) ∧ ¬ Correlatable idleReceiver m := by
  have hnd : ([shortSrcMsgId].map FieldDescriptor.name).Nodup := by decide
  obtain ⟨factory,d,hd,hadd,hlookup,hl⟩ := exists_factory 5 hnd
  have hsup : ∀ f ∈ (Message.new 0 d (some 0)).1.fields,
      CompositeSerializer.supportedBy f.serializers = true := by
    intro f hf
    rw [Message.new_fields, hl] at hf
    cases List.mem_singleton.mp hf
    rfl
  obtain ⟨gs,stream,hgs⟩ := deserializeFields_total (b := ⟨.little,true⟩) rfl onesJunk hsup
    (readMessageType ⟨.little,true⟩ (IStream.ofBytes [5,0,1,0])).2
  have htype : (readMessageType ⟨.little,true⟩ (IStream.ofBytes [5,0,1,0])).1 = 5 := by
    rw [readMessageType_ofBytes]
    decide
  obtain ⟨m,hm,_,rfl⟩ := createMessageFromStream_of_fields (htype.symm ▸ hlookup) hgs
  refine ⟨factory,d,m,stream,hd,hadd,hm,fun hc => ?_⟩
  have hmem : shortSrcMsgId ∈ d.fieldDescriptors := by
    rw [hl]
    exact List.mem_singleton_self _
  obtain ⟨g,hg,hdesc⟩ := (decoded_descriptor hgs shortSrcMsgId).mp hmem
  have hname : g.name = srcMsgId := congrArg FieldDescriptor.name hdesc
  have hvalue : g.valueType = IntegralType.unsignedShort.name :=
    congrArg (fun d : FieldDescriptor => d.type.name) hdesc
  have hid := (hc g (m.fieldset.get_eq_some_iff.mpr ⟨hg,hname⟩)).1
  rw [hvalue] at hid
  exact absurd hid (by decide)

theorem accounted_iff_short : ∃ factory m,
    (∃ stream, createMessageFromStream ⟨.little,true⟩ factory idleReceiver.session 0 onesJunk
      (IStream.ofBytes [5,0,1,0]) = .ok (some m,stream)) ∧
    ((∃ s', onMessageRead ⟨.little,true⟩ factory 0 onesJunk [5,0,1,0] idleReceiver = .ok s' ∧
      Accounted idleReceiver m s') ↔ Correlatable idleReceiver m) := by
  obtain ⟨factory,_,m,stream,_,_,hm,_⟩ := exists_short_srcMsgId
  exact ⟨factory,m,⟨stream,hm⟩,accounted_iff hm⟩

/-- The message decoded from it is given to nobody. -/
theorem not_accounted_short : ∃ factory d m,
    (MessageDescriptor.new 5).registerFields [shortSrcMsgId] = .ok d ∧
      MessageFactory.empty.addDescriptor d = (true,factory) ∧
      (∃ stream, createMessageFromStream ⟨.little,true⟩ factory idleReceiver.session 0 onesJunk
        (IStream.ofBytes [5,0,1,0]) = .ok (some m,stream)) ∧
      ¬ ∃ s', onMessageRead ⟨.little,true⟩ factory 0 onesJunk [5,0,1,0] idleReceiver = .ok s' ∧
        Accounted idleReceiver m s' := by
  obtain ⟨factory,d,m,stream,hd,hadd,hm,hc⟩ := exists_short_srcMsgId
  exact ⟨factory,d,m,hd,hadd,⟨stream,hm⟩,not_accounted_of_not_correlatable hm hc⟩

end Isml.TcpTransport
