import Isml.Serialization.ShortReads
import Isml.Transport.FrameSync
import Isml.Message.FieldOrder

/-! # What a peer makes of the payload of a frame

The writer puts the fields behind the length, the reader expects a message type in
front of them. The reader therefore takes the first two bytes of the fields away, and a
message that needs all its bytes cannot come back from the others.
-/
namespace Isml.TcpTransport
open ByteOrder StringStream BinarySerializer

/-- Whatever a message of the type contains, a peer with the same factory gets it back
from what `writeMessage` puts behind the length. -/
def PayloadRoundTrip (factory : MessageFactory) (type : MessageType) : Prop :=
  ∀ (b b' : Build) (counter counter' : MessageId) (session session' : SessionId) (junk : Junk)
    (values : String → Val) (r : Message × MessageId),
    factory.createMessage counter type (some session) = .ok r → (r.1.fill values).Writable →
      ∃ frame, writeFrame b (r.1.fill values) = .ok frame ∧
        ∃ m s, createMessageFromStream b' factory (some session') counter' junk
            (IStream.ofBytes (frame.buffer.drop sizeOfMessageLength)) = .ok (some m,s) ∧
          m.SameContents (r.1.fill values)

/-- Fields that need more bytes than there are do not all become their probes. -/
theorem deserializeFields_short {b : Build} (hb : b.ndebug = false) {ds : List FieldDescriptor}
    {gs : List Field} {s s' : IStream} (hs : s.available < (ds.map fun d => minSize d.type).sum)
    (h : FieldSet.deserializeFields b onesJunk (ds.map FieldDescriptor.createField) s = .ok (gs,s')) :
    ∃ g ∈ gs, ¬ Same g.value (probe g.type) := by
  induction ds generalizing gs s with
  | nil => simp at hs
  | cons d ds ih =>
    obtain ⟨⟨g,s1⟩,hg,h⟩ := bind_eq_ok.mp h
    obtain ⟨⟨gs',s2⟩,hgs,h⟩ := bind_eq_ok.mp h
    cases h
    obtain ⟨_,v,hv,rfl⟩ := Field.deserialize_eq_ok hg
    rw [List.map_cons, List.sum_cons] at hs
    by_cases hfirst : s.available < minSize d.type
    · exact ⟨_,List.mem_cons_self,deserialize_short_ne hb d.type hfirst hv⟩
    · have hcons := deserialize_consumed b d.type (fresh_default d.type) hv
      have hpos : 0 < (ds.map fun d => minSize d.type).sum := by omega
      obtain ⟨g,hg,hne⟩ := ih (hcons.short hpos hs) hgs
      exact ⟨g,List.mem_cons_of_mem _ hg,hne⟩

/-- The probe of each field of a descriptor, by the name of the field. -/
def probes (d : MessageDescriptor) (name : String) : Val :=
  ((d.fieldDescriptors.find? fun f => f.name = name).map fun f => probe f.type).getD .absent

theorem probes_eq {d : MessageDescriptor} {f : FieldDescriptor} (hf : f ∈ d.fieldDescriptors) :
    probes d f.name = probe f.type := by
  have hfind := List.find?_of_nodup_map d.names_nodup hf
  simp only [probes, hfind, Option.map_some, Option.getD_some]

section Probes
variable (counter : MessageId) (d : MessageDescriptor) (session : Option SessionId)

/-- A new message with every field set to its probe. -/
def probeMessage : Message := (Message.new counter d session).1.fill (probes d)

theorem probeMessage_field {f : Field} (hf : f ∈ (probeMessage counter d session).fields) :
    f.toFieldDescriptor ∈ d.fieldDescriptors ∧ f.value = probe f.type := by
  rw [probeMessage, Message.fill_fields, Message.new_fields] at hf
  obtain ⟨g,hg,rfl⟩ := List.mem_map.mp hf
  obtain ⟨e,he,rfl⟩ := List.mem_map.mp (List.mem_rotate.mp hg)
  exact ⟨he,probes_eq he⟩

theorem probeMessage_writable
    (hbin : ∀ f ∈ d.fieldDescriptors, CompositeSerializer.supportedBy f.serializers = true)
    (hsize : ∀ f ∈ d.fieldDescriptors, f.type.Within 65535 f.type.default) :
    (probeMessage counter d session).Writable := by
  intro f hf
  obtain ⟨hmem,hvalue⟩ := probeMessage_field counter d session hf
  refine ⟨hbin _ hmem,?_,?_⟩
  · rw [hvalue]
    exact probe_hasType f.type
  · rw [hvalue]
    exact probe_within (hsize _ hmem)

theorem probeMessage_encoding_length : (probeMessage counter d session).encoding.length =
    ((d.fieldDescriptors.rotate 1).map fun f => minSize f.type).sum := by
  have hfields : (probeMessage counter d session).fields =
      (d.fieldDescriptors.rotate 1).map fun f => f.createField.set (probes d f.name) := by
    rw [probeMessage, Message.fill_fields, Message.new_fields, ← List.map_rotate, List.map_map]
    rfl
  rw [Message.encoding, hfields, List.flatMap_map, List.length_flatMap]
  refine congrArg List.sum (List.map_congr_left fun f hf => ?_)
  rw [Field.encoding_length]
  change size f.type (probes d f.name) = minSize f.type
  rw [probes_eq (List.mem_rotate.mp hf), size_probe]

end Probes

theorem payload_length_le {b : Build} {m : Message} {frame : OutgoingFrame}
    (hf : writeFrame b m = .ok frame) :
    (frame.buffer.drop sizeOfMessageLength).length ≤ m.encoding.length := by
  have hdata := (writeFrame_length hf).2
  rw [OutgoingFrame.buffer, List.length_drop, List.length_take, Message.encoding_length]
  omega

theorem readMessageType_nil (b : Build) : (readMessageType b (IStream.ofBytes [])).1 = 0 := by
  unfold readMessageType
  dsimp only
  rw [readIntegral_fst b.host (by decide)]
  cases b.host <;> rfl

/-- A round trip gives the descriptor no room for anything. -/
theorem PayloadRoundTrip.eq_zero {factory : MessageFactory} {type : MessageType}
    {d : MessageDescriptor} (hd : factory.descriptors.lookup type = some d)
    (hbin : ∀ f ∈ d.fieldDescriptors, CompositeSerializer.supportedBy f.serializers = true)
    (hsize : ∀ f ∈ d.fieldDescriptors, f.type.Within 65535 f.type.default)
    (h : PayloadRoundTrip factory type) : type = 0 ∧ d.fieldDescriptors = [] := by
  have hw := probeMessage_writable 0 d (some 0) hbin hsize
  obtain ⟨frame,hframe,m,s,hm,hsame⟩ := h ⟨.little,false⟩ ⟨.little,false⟩ 0 0 0 0 onesJunk (probes d) _
    (MessageFactory.createMessage_registered 0 0 hd) hw
  have hlen := payload_length_le hframe
  have htotal := probeMessage_encoding_length 0 d (some 0)
  rw [probeMessage] at htotal
  rw [htotal] at hlen
  obtain ⟨d',id,hd',_,htype,hfields⟩ := createMessageFromStream_eq_ok hm
  -- the type that was read is the one of the message
  have hread : (readMessageType ⟨.little,false⟩
      (IStream.ofBytes (frame.buffer.drop sizeOfMessageLength))).1 = type := by
    rw [← htype, hsame.1]
    exact factory.keyed type d hd
  rw [hread, hd] at hd'
  cases hd'
  cases hds : d.fieldDescriptors with
  | nil =>
    rw [hds] at hlen
    have hnil : frame.buffer.drop sizeOfMessageLength = [] :=
      List.length_eq_zero_iff.mp (by simpa using hlen)
    rw [hnil, readMessageType_nil] at hread
    exact ⟨hread.symm,rfl⟩
  | cons f fs =>
    exfalso
    have hpos : 0 < ((d.fieldDescriptors.rotate 1).map fun f => minSize f.type).sum := by
      rw [(List.rotate_perm d.fieldDescriptors 1 |>.map _).sum_eq, hds, List.map_cons, List.sum_cons]
      exact Nat.add_pos_left (minSize_pos f.type) _
    have hshort := (readIntegral_consumed .little 2 0
      (IStream.ofBytes (frame.buffer.drop sizeOfMessageLength))).short hpos
      (by rw [available_ofBytes]; omega)
    rw [Message.new_fields, ← List.map_rotate] at hfields
    obtain ⟨g,hg,hne⟩ := deserializeFields_short rfl hshort hfields
    have hget : m.fieldset.get g.name = some g := m.fieldset.get_eq_some_iff.mpr ⟨hg,rfl⟩
    have hrel := hsame.2 g.name
    rw [hget] at hrel
    cases hother : (probeMessage 0 d (some 0)).fieldset.get g.name with
    | none =>
      unfold probeMessage at hother
      rw [hother] at hrel
      cases hrel
    | some f =>
      have hf := ((probeMessage 0 d (some 0)).fieldset.get_eq_some_iff.mp hother).1
      obtain ⟨_,hvalue⟩ := probeMessage_field 0 d (some 0) hf
      unfold probeMessage at hother
      rw [hother] at hrel
      cases hrel with
      | some hmatch =>
        have hsv := hmatch.value
        rw [hvalue, ← hmatch.descriptor] at hsv
        exact hne hsv

theorem fields_new_nil (counter : MessageId) {d : MessageDescriptor} (session : Option SessionId)
    (h : d.fieldDescriptors = []) : (Message.new counter d session).1.fields = [] := by
  rw [Message.new_fields, h]
  rfl

theorem writeFrame_nil (b : Build) {m : Message} (h : m.fields = []) :
    ∃ frame, writeFrame b m = .ok frame ∧ frame.buffer.drop sizeOfMessageLength = [] := by
  have hencoding : m.encoding = [] := by rw [Message.encoding, h]; rfl
  have hm : Framable m := by
    constructor
    · intro f hf
      rw [h] at hf
      cases hf
    · rw [← Message.encoding_length, hencoding]
      decide
  refine ⟨_,writeFrame_eq b hm,?_⟩
  rw [buffer_eq hm, hencoding, List.append_nil]
  exact List.drop_of_length_le (by simp [sizeOfMessageLength])

/-- Payloads survive the way to a peer exactly for the type 0 when it has no fields. -/
theorem payloadRoundTrip_iff {factory : MessageFactory} {type : MessageType} {d : MessageDescriptor}
    (hd : factory.descriptors.lookup type = some d)
    (hbin : ∀ f ∈ d.fieldDescriptors, CompositeSerializer.supportedBy f.serializers = true)
    (hsize : ∀ f ∈ d.fieldDescriptors, f.type.Within 65535 f.type.default) :
    PayloadRoundTrip factory type ↔ type = 0 ∧ d.fieldDescriptors = [] := by
  constructor
  · exact PayloadRoundTrip.eq_zero hd hbin hsize
  · rintro ⟨rfl,hnil⟩ b b' counter counter' session session' junk values r hr _
    rw [MessageFactory.createMessage_registered counter session hd] at hr
    cases hr
    have hfields : ((Message.new counter d (some session)).1.fill values).fields = [] := by
      rw [Message.fill_fields, fields_new_nil counter (some session) hnil]
      rfl
    obtain ⟨frame,hframe,hpayload⟩ := writeFrame_nil b hfields
    have hread := readMessageType_nil b'
    have hdecode : FieldSet.deserializeFields b' junk (Message.new counter' d (some session')).1.fields
        (readMessageType b' (IStream.ofBytes [])).2 =
          .ok ([],(readMessageType b' (IStream.ofBytes [])).2) := by
      rw [fields_new_nil counter' (some session') hnil]
      rfl
    obtain ⟨m,hm,htype,hmfields⟩ := createMessageFromStream_of_fields (hread.symm ▸ hd) hdecode
    refine ⟨frame,hframe,m,_,hpayload.symm ▸ hm,Message.SameContents.of_fields ?_ ?_⟩
    · rw [htype, hread]
      exact (factory.keyed 0 d hd).symm
    · rw [hfields, hmfields]
      exact .nil

theorem exists_int_factory : ∃ (factory : MessageFactory) (d : MessageDescriptor),
    (MessageDescriptor.new 7).registerFields [intDescriptor "value"] = .ok d ∧
      MessageFactory.empty.addDescriptor d = (true,factory) ∧
      factory.descriptors.lookup 7 = some d ∧ d.fieldDescriptors = [intDescriptor "value"] :=
  exists_factory 7 (by decide)

theorem intField_supported {d : MessageDescriptor} (hl : d.fieldDescriptors = [intDescriptor "value"]) :
    ∀ f ∈ d.fieldDescriptors, CompositeSerializer.supportedBy f.serializers = true ∧
      f.type.Within 65535 f.type.default := by
  intro f hf
  rw [hl, List.mem_singleton] at hf
  subst hf
  exact ⟨rfl,trivial⟩

theorem payloadRoundTrip_iff_int : ∃ factory d,
    (MessageDescriptor.new 7).registerFields [intDescriptor "value"] = .ok d ∧
      MessageFactory.empty.addDescriptor d = (true,factory) ∧
      (PayloadRoundTrip factory 7 ↔ (7 : MessageType) = 0 ∧ d.fieldDescriptors = []) := by
  obtain ⟨factory,d,hd,hadd,hlookup,hl⟩ := exists_int_factory
  have hs := intField_supported hl
  exact ⟨factory,d,hd,hadd,payloadRoundTrip_iff hlookup (fun f hf => (hs f hf).1) fun f hf => (hs f hf).2⟩

/-- The type 7 with one `int` field does not survive. -/
theorem not_payloadRoundTrip_int : ∃ factory d,
    (MessageDescriptor.new 7).registerFields [intDescriptor "value"] = .ok d ∧
      MessageFactory.empty.addDescriptor d = (true,factory) ∧ ¬ PayloadRoundTrip factory 7 := by
  obtain ⟨factory,d,hd,hadd,hlookup,hl⟩ := exists_int_factory
  have hs := intField_supported hl
  refine ⟨factory,d,hd,hadd,fun h => ?_⟩
  have hzero := h.eq_zero hlookup (fun f hf => (hs f hf).1) fun f hf => (hs f hf).2
  exact absurd hzero.1 (by decide)

end Isml.TcpTransport
