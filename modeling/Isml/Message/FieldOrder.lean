import Isml.Message.Message

/-! # The order of fields on the wire

The wire format is positional. Registration and the constructor of a message each
put an element before the last one, so each of them turns the order by one place;
copying a descriptor or a field set turns it around. What remains of the order of
registration, of the original of a clone and of the original of a copied descriptor
follows from that.
-/
namespace Isml
open ByteOrder StringStream

/-- What a set writes: its fields are the given ones in the given order, and the bytes
are their encodings one after the other, for all values that can be written. -/
def FieldSet.WritesInOrder (s : FieldSet) (fs : List FieldDescriptor) : Prop :=
  s.toList.map Field.toFieldDescriptor = fs ∧
    ∀ (b : Build) (values : String → Val), (∀ f ∈ (s.fill values).toList, f.Encodable) →
      (s.fill values).serialize b [] =
        .ok (fs.flatMap fun f => BinarySerializer.encode f.type (values f.name))

theorem FieldSet.writesInOrder_iff {s : FieldSet} {fs : List FieldDescriptor} :
    s.WritesInOrder fs ↔ s.toList.map Field.toFieldDescriptor = fs := by
  constructor
  · exact fun h => h.1
  · rintro rfl
    refine ⟨rfl,fun b values h => ?_⟩
    rw [FieldSet.serialize_eq b h, FieldSet.toList_fill, List.nil_append, List.flatMap_map,
      List.flatMap_map]
    rfl

theorem map_createField (fs : List FieldDescriptor) :
    (fs.map FieldDescriptor.createField).map Field.toFieldDescriptor = fs := by
  rw [List.map_map]
  exact List.map_id' fs

/-- Every message of the descriptor the fields were registered on, in this order and on
a fresh descriptor, writes them in this order. -/
def RegistrationOrder (type : MessageType) (fs : List FieldDescriptor) : Prop :=
  ∃ d, (MessageDescriptor.new type).registerFields fs = .ok d ∧
    ∀ counter session, (Message.new counter d session).1.fieldset.WritesInOrder fs

/-- Two turns by one place: the third field is written first. -/
theorem registrationOrder_iff_rotate (type : MessageType) {fs : List FieldDescriptor}
    (hnd : (fs.map FieldDescriptor.name).Nodup) : RegistrationOrder type fs ↔ fs.rotate 2 = fs := by
  obtain ⟨d,hd,_,hl⟩ := MessageDescriptor.registerFields_fresh type hnd
  have hfields : ∀ counter session,
      (Message.new counter d session).1.fieldset.toList.map Field.toFieldDescriptor = fs.rotate 2 := by
    intro counter session
    have hnew := Message.new_fields counter d session
    change (Message.new counter d session).1.fields.map Field.toFieldDescriptor = fs.rotate 2
    rw [hnew, hl, List.map_rotate, map_createField, List.rotate_rotate]
  constructor
  · rintro ⟨d',hd',h⟩
    cases hd.symm.trans hd'
    have hw := h 0 none
    rw [FieldSet.writesInOrder_iff, hfields] at hw
    exact hw
  · intro h
    refine ⟨d,hd,fun counter session => ?_⟩
    rw [FieldSet.writesInOrder_iff, hfields]
    exact h

theorem addFields_writesInOrder_iff {fs : List FieldDescriptor}
    (hnd : (fs.map FieldDescriptor.name).Nodup) :
    (FieldSet.addFields fs).WritesInOrder fs ↔ fs.rotate 1 = fs := by
  rw [FieldSet.writesInOrder_iff, FieldSet.toList_addFields hnd, List.map_rotate, map_createField]

theorem rotate_eq_self_iff_length_le {α : Type*} {l : List α} (hnd : l.Nodup) {n : ℕ} (hn : 0 < n)
    (hn2 : n ≤ 2) : l.rotate n = l ↔ l.length ≤ n := by
  rw [hnd.rotate_eq_self_iff]
  constructor
  · rintro (h | rfl)
    · by_contra hlt
      rw [Nat.mod_eq_of_lt (by omega)] at h
      omega
    · simp
  · intro h
    rcases l with _ | ⟨x,l⟩
    · exact Or.inr rfl
    · left
      rw [List.length_cons] at h ⊢
      have hcases : l.length + 1 = 1 ∨ (l.length + 1 = 2 ∧ n = 2) := by omega
      rcases hcases with h1 | ⟨h2,rfl⟩
      · rw [h1, Nat.mod_one]
      · rw [h2]

/-- Fields are written in the order of their registration exactly when there are not
more than two of them, and in the order of their addition to a set exactly when there
is not more than one. -/
theorem registrationOrder_iff (type : MessageType) {fs : List FieldDescriptor}
    (hnd : (fs.map FieldDescriptor.name).Nodup) :
    (RegistrationOrder type fs ∧ (FieldSet.addFields fs).WritesInOrder fs ↔ fs.length ≤ 1) ∧
      (RegistrationOrder type fs ↔ fs.length ≤ 2) := by
  have hfs := hnd.of_map
  rw [registrationOrder_iff_rotate type hnd, addFields_writesInOrder_iff hnd,
    rotate_eq_self_iff_length_le hfs (by omega) (by omega),
    rotate_eq_self_iff_length_le hfs (by omega) (by omega)]
  omega

/-- A factory to which one descriptor was added, with the given fields registered on it. -/
theorem exists_factory (type : MessageType) {fs : List FieldDescriptor}
    (hnd : (fs.map FieldDescriptor.name).Nodup) :
    ∃ (factory : MessageFactory) (d : MessageDescriptor),
      (MessageDescriptor.new type).registerFields fs = .ok d ∧
        MessageFactory.empty.addDescriptor d = (true,factory) ∧
        factory.descriptors.lookup type = some d ∧ d.fieldDescriptors = fs.rotate 1 := by
  obtain ⟨d,hd,htype,hl⟩ := MessageDescriptor.registerFields_fresh type hnd
  have hadd : (MessageFactory.empty.addDescriptor d).1 = true := by
    unfold MessageFactory.addDescriptor
    rw [if_neg (by simp [MessageFactory.empty])]
  have hlookup := MessageFactory.lookup_addDescriptor hadd
  rw [htype] at hlookup
  exact ⟨(MessageFactory.empty.addDescriptor d).2,d,hd,Prod.ext hadd rfl,hlookup,hl⟩

/-- `registerField<CompositeSerializer<BinarySerializer>, int>(name)`. -/
def intDescriptor (name : String) : FieldDescriptor :=
  ⟨name,.integral .int,⟨[.binary],List.nodup_singleton _⟩⟩

theorem registrationOrder_iff_three :
    let fs := ["a","b","c"].map intDescriptor
    (RegistrationOrder 7 fs ∧ (FieldSet.addFields fs).WritesInOrder fs ↔ fs.length ≤ 1) ∧
      (RegistrationOrder 7 fs ↔ fs.length ≤ 2) :=
  registrationOrder_iff 7 (by decide)

/-- Three fields, which go out as the third, the first and the second. -/
theorem not_registrationOrder_three :
    let fs := ["a","b","c"].map intDescriptor
    ¬ (RegistrationOrder 7 fs ∧ (FieldSet.addFields fs).WritesInOrder fs) := by
  rintro fs ⟨h,_⟩
  rw [registrationOrder_iff_rotate 7 (by decide)] at h
  exact absurd (congrArg (List.map FieldDescriptor.name) h) (by decide)

/-- The ways a descriptor is copied. -/
inductive IsCopy : MessageDescriptor → MessageDescriptor → Prop
  | construct (d : MessageDescriptor) : IsCopy d (MessageDescriptor.ofCopy d)
  | assign (d target : MessageDescriptor) : IsCopy d (target.copyAssign d)
  | add {d d' : MessageDescriptor} {f : MessageFactory} :
      (f.addDescriptorCopy d).1 = true →
      (f.addDescriptorCopy d).2.descriptors.lookup d.type = some d' → IsCopy d d'
  | factory {d d' : MessageDescriptor} {f : MessageFactory} {type : MessageType} :
      f.descriptors.lookup type = some d →
      (MessageFactory.ofCopy f).descriptors.lookup type = some d' → IsCopy d d'
  | factoryAssign {d d' : MessageDescriptor} {f target : MessageFactory} {type : MessageType} :
      f.descriptors.lookup type = some d →
      (target.copyAssign f).descriptors.lookup type = some d' → IsCopy d d'

/-- Whichever way it was made, a copy is of the same type and has its fields turned around. -/
theorem IsCopy.spec {d d' : MessageDescriptor} (h : IsCopy d d') :
    d'.type = d.type ∧ d'.fieldDescriptors = d.fieldDescriptors.reverse := by
  have hcopy : ∀ target : MessageDescriptor, (target.copy d).type = d.type ∧
      (target.copy d).fieldDescriptors = d.fieldDescriptors.reverse := fun target =>
    ⟨rfl,target.fieldDescriptors_copy d⟩
  cases h with
  | construct => exact hcopy _
  | assign target => exact hcopy target
  | add hins hl =>
    cases (MessageFactory.lookup_addDescriptor hins).symm.trans hl
    exact hcopy _
  | factory hd hd' | factoryAssign hd hd' =>
    have hlookup := (MessageFactory.lookup_ofCopy _ _).symm.trans hd'
    rw [hd] at hlookup
    cases hlookup
    exact hcopy _

/-- The wire layout of two descriptors is the same: messages built from them serialize
their fields in the same order, and what a message of the first writes, a message of
the second reads back. -/
def SameLayout (d d' : MessageDescriptor) : Prop :=
  ∀ (counter counter' : MessageId) (session session' : Option SessionId),
    let m := (Message.new counter d session).1
    let m' := (Message.new counter' d' session').1
    m'.fields.map Field.toFieldDescriptor = m.fields.map Field.toFieldDescriptor ∧
      ∀ (b b' : Build) (junk : Junk) (values : String → Val), (m.fill values).Writable →
        ∃ bytes, (m.fill values).serialize b [] = .ok bytes ∧
          ∃ r, m'.deserialize b' junk (IStream.ofBytes bytes) = .ok (r,IStream.ofBytes []) ∧
            r.SameContents (m.fill values)

theorem sameLayout_of_fieldDescriptors {d d' : MessageDescriptor} (ht : d'.type = d.type)
    (hl : d'.fieldDescriptors = d.fieldDescriptors) : SameLayout d d' := by
  intro counter counter' session session' m m'
  have hm : m.fields = (d.fieldDescriptors.map FieldDescriptor.createField).rotate 1 :=
    Message.new_fields counter d session
  have hm' : m'.fields = (d.fieldDescriptors.map FieldDescriptor.createField).rotate 1 := by
    rw [← hl]
    exact Message.new_fields counter' d' session'
  refine ⟨by rw [hm, hm'],fun b b' junk values hw => ?_⟩
  refine ⟨(m.fill values).encoding,Message.serialize_eq b hw.encodable [],?_⟩
  have hcreate : m'.fields = (m.fill values).fields.map fun f => f.toFieldDescriptor.createField := by
    rw [hm', Message.fill_fields, hm, ← List.map_rotate, List.map_map, List.map_map]
    rfl
  have hread := Message.deserialize_encoding b' junk m' hw ht hcreate []
  rwa [List.append_nil] at hread

theorem IsCopy.length_le {d d' : MessageDescriptor} (h : IsCopy d d') (hs : SameLayout d d') :
    d.fieldDescriptors.length ≤ 1 := by
  have horder := (hs 0 0 none none).1
  rw [Message.new_fields, Message.new_fields, h.spec.2, List.map_rotate, List.map_rotate,
    map_createField, map_createField, List.rotate_eq_rotate] at horder
  exact (List.reverse_eq_self_iff_length_le d.names_nodup.of_map).mp horder

/-- A copied descriptor keeps the wire layout exactly when it has at most one field. -/
theorem isCopy_sameLayout_iff {d d' : MessageDescriptor} (h : IsCopy d d') :
    SameLayout d d' ↔ d.fieldDescriptors.length ≤ 1 := by
  constructor
  · exact h.length_le
  · intro hlen
    obtain ⟨ht,hl⟩ := h.spec
    have hrev := (List.reverse_eq_self_iff_length_le d.names_nodup.of_map).mpr hlen
    exact sameLayout_of_fieldDescriptors ht (hl.trans hrev)

theorem twoInts_nodup : ((["a","b"].map intDescriptor).map FieldDescriptor.name).Nodup := by decide

theorem isCopy_sameLayout_iff_two :
    ∃ d, (MessageDescriptor.new 7).registerFields (["a","b"].map intDescriptor) = .ok d ∧
      (SameLayout d (MessageDescriptor.ofCopy d) ↔ d.fieldDescriptors.length ≤ 1) := by
  obtain ⟨d,hd,_⟩ := MessageDescriptor.registerFields_fresh 7 twoInts_nodup
  exact ⟨d,hd,isCopy_sameLayout_iff (.construct d)⟩

/-- A descriptor with two fields and its copy. -/
theorem not_sameLayout_two :
    ∃ d, (MessageDescriptor.new 7).registerFields (["a","b"].map intDescriptor) = .ok d ∧
      IsCopy d (MessageDescriptor.ofCopy d) ∧ ¬ SameLayout d (MessageDescriptor.ofCopy d) := by
  obtain ⟨d,hd,_,hl⟩ := MessageDescriptor.registerFields_fresh 7 twoInts_nodup
  refine ⟨d,hd,.construct d,fun hs => ?_⟩
  have hlen := (IsCopy.construct d).length_le hs
  rw [hl] at hlen
  exact absurd hlen (by decide)

/-- The messages that come from a descriptor: created from it, given other values, cloned. -/
inductive Derived (d : MessageDescriptor) : Message → Prop
  | create (counter : MessageId) (session : Option SessionId) :
      Derived d (Message.new counter d session).1
  | fill {m : Message} (values : String → Val) : Derived d m → Derived d (m.fill values)
  | clone {m : Message} (counter : MessageId) : Derived d m → Derived d (m.clone counter).1

theorem Derived.setField {d : MessageDescriptor} {m m' : Message} {t : Ty} {name : String} {v : Val}
    (h : Derived d m) (hset : m.setField t name v = .ok m') : Derived d m' := by
  obtain ⟨values,rfl⟩ := Message.setField_eq_fill hset
  exact h.fill values

/-- A clone is the same message on the wire: the same bytes, and a message newly
created from the descriptor reads them back to the contents of the original. -/
def CloneOnWire (d : MessageDescriptor) (m : Message) : Prop :=
  ∀ (counter : MessageId) (b : Build),
    (m.clone counter).1.serialize b [] = m.serialize b [] ∧
      (m.Writable → ∀ (counter' : MessageId) (session : Option SessionId) (b' : Build) (junk : Junk),
        ∃ bytes, (m.clone counter).1.serialize b [] = .ok bytes ∧
          ∃ r, (Message.new counter' d session).1.deserialize b' junk (IStream.ofBytes bytes) =
            .ok (r,IStream.ofBytes []) ∧ r.SameContents m)

/-- Reading the fields from the last to the first gives the same encodings in a row. -/
def Message.Reversible (m : Message) : Prop :=
  m.fields.reverse.flatMap Field.encoding = m.fields.flatMap Field.encoding

/-- The fields of a derived message lie in the order of a new one or against it. -/
theorem Derived.spec {d : MessageDescriptor} {m : Message} (h : Derived d m) :
    m.type = d.type ∧
      (m.fields.map Field.toFieldDescriptor = d.fieldDescriptors.rotate 1 ∨
        m.fields.map Field.toFieldDescriptor = (d.fieldDescriptors.rotate 1).reverse) := by
  induction h with
  | create counter session =>
    refine ⟨rfl,Or.inl ?_⟩
    rw [Message.new_fields, List.map_rotate, map_createField]
  | fill values _ ih =>
    rwa [Message.fill_type, Message.fill_fields, List.map_map]
  | clone counter _ ih =>
    obtain ⟨ht,hl⟩ := ih
    refine ⟨ht,?_⟩
    rw [Message.clone_fields, List.map_reverse, List.reverse_eq_iff, List.reverse_inj]
    exact hl.symm

/-- A new message of the descriptor reads back what a message in its order writes. -/
theorem deserialize_new {d : MessageDescriptor} {m : Message} (ht : m.type = d.type)
    (hl : m.fields.map Field.toFieldDescriptor = d.fieldDescriptors.rotate 1) (hw : m.Writable)
    (counter : MessageId) (session : Option SessionId) (b : Build) (junk : Junk) :
    ∃ r, (Message.new counter d session).1.deserialize b junk (IStream.ofBytes m.encoding) =
      .ok (r,IStream.ofBytes []) ∧ r.SameContents m := by
  have hcreate : (Message.new counter d session).1.fields =
      m.fields.map fun f => f.toFieldDescriptor.createField := by
    rw [Message.new_fields, ← List.map_rotate, ← hl, List.map_map]
    rfl
  have hread := Message.deserialize_encoding b junk _ hw ht.symm hcreate []
  rwa [List.append_nil] at hread

theorem Message.Encodable.clone {m : Message} (h : m.Encodable) (counter : MessageId) :
    (m.clone counter).1.Encodable := by
  intro f hf
  rw [Message.clone_fields, List.mem_reverse] at hf
  exact h f hf

theorem Message.Writable.clone {m : Message} (h : m.Writable) (counter : MessageId) :
    (m.clone counter).1.Writable := by
  intro f hf
  rw [Message.clone_fields, List.mem_reverse] at hf
  exact h f hf

theorem serialize_clone {m : Message} (h : m.Encodable) (counter : MessageId) (b : Build) :
    (m.clone counter).1.serialize b [] = .ok (m.fields.reverse.flatMap Field.encoding) := by
  rw [Message.serialize_eq b (h.clone counter), List.nil_append, Message.encoding,
    Message.clone_fields]

theorem CloneOnWire.reversible {d : MessageDescriptor} {m : Message} (hwire : CloneOnWire d m)
    (h : m.Encodable) : m.Reversible := by
  have hbytes := (hwire 0 ⟨.little,false⟩).1
  rw [serialize_clone h, Message.serialize_eq _ h] at hbytes
  exact Except.ok.inj hbytes

/-- A clone is the same message on the wire exactly when the encodings of the fields of
the original read the same from the last to the first. -/
theorem cloneOnWire_iff {d : MessageDescriptor} {m : Message} (hd : Derived d m)
    (h : m.Encodable) : CloneOnWire d m ↔ m.Reversible := by
  constructor
  · intro hwire
    exact hwire.reversible h
  · intro hrev counter b
    have hbytes := serialize_clone h counter b
    refine ⟨by rw [hbytes, hrev, Message.serialize_eq b h]; rfl,fun hw counter' session b' junk => ?_⟩
    refine ⟨_,hbytes,?_⟩
    obtain ⟨ht,hl | hl⟩ := hd.spec
    · rw [hrev]
      exact deserialize_new ht hl hw counter' session b' junk
    · -- the clone of a message in the opposite order is in the order of the descriptor
      have hcl : (m.clone counter).1.fields.map Field.toFieldDescriptor =
          d.fieldDescriptors.rotate 1 := by
        rw [Message.clone_fields, List.map_reverse, hl, List.reverse_reverse]
      obtain ⟨r,hr,htype,hget⟩ := deserialize_new (m := (m.clone counter).1) ht hcl
        (hw.clone counter) counter' session b' junk
      refine ⟨r,?_,htype,fun name => ?_⟩
      · rwa [Message.encoding, Message.clone_fields] at hr
      · have hsame := hget name
        rwa [Message.clone_get] at hsame

/-- A message with two `int` fields, 1 and 2. -/
theorem exists_two_ints : ∃ d m, (MessageDescriptor.new 7).registerFields
      (["a","b"].map intDescriptor) = .ok d ∧ Derived d m ∧ m.Encodable ∧
    m.fields = [⟨intDescriptor "a",.bits 1⟩,⟨intDescriptor "b",.bits 2⟩] := by
  obtain ⟨d,hd,_,hl⟩ := MessageDescriptor.registerFields_fresh 7 twoInts_nodup
  let values : String → Val := fun name => .bits (if name = "a" then 1 else 2)
  let m := (Message.new 0 d none).1.fill values
  have hfields : m.fields = [⟨intDescriptor "a",.bits 1⟩,⟨intDescriptor "b",.bits 2⟩] := by
    have hnew := Message.new_fields 0 d none
    rw [hl] at hnew
    rw [Message.fill_fields, hnew]
    rfl
  refine ⟨d,m,hd,.fill values (.create 0 none),?_,hfields⟩
  intro f hf
  rw [hfields] at hf
  have htype : f.toFieldDescriptor.type = .integral .int ∧ f.serializers = ⟨[.binary],List.nodup_singleton _⟩ ∧
      (f.value = .bits 1 ∨ f.value = .bits 2) := by
    simp only [List.mem_cons, List.not_mem_nil, or_false] at hf
    rcases hf with rfl | rfl
    · exact ⟨rfl,rfl,Or.inl rfl⟩
    · exact ⟨rfl,rfl,Or.inr rfl⟩
  obtain ⟨ht,hs,hv⟩ := htype
  refine ⟨by rw [hs]; rfl,?_,by rw [ht]; trivial⟩
  rw [ht]
  rcases hv with hv | hv
  · exact ⟨1,hv,by decide⟩
  · exact ⟨2,hv,by decide⟩

theorem cloneOnWire_iff_two : ∃ d m, (MessageDescriptor.new 7).registerFields
      (["a","b"].map intDescriptor) = .ok d ∧ Derived d m ∧ m.fields.length = 2 ∧
    (CloneOnWire d m ↔ m.Reversible) := by
  obtain ⟨d,m,hd,hm,he,hfields⟩ := exists_two_ints
  exact ⟨d,m,hd,hm,by rw [hfields]; rfl,cloneOnWire_iff hm he⟩

/-- The clone of a message with the fields 1 and 2 writes 2 and then 1. -/
theorem not_cloneOnWire_two : ∃ d m, (MessageDescriptor.new 7).registerFields
      (["a","b"].map intDescriptor) = .ok d ∧ Derived d m ∧ m.Encodable ∧
    m.fields = [⟨intDescriptor "a",.bits 1⟩,⟨intDescriptor "b",.bits 2⟩] ∧ ¬ CloneOnWire d m := by
  obtain ⟨d,m,hd,hm,he,hfields⟩ := exists_two_ints
  refine ⟨d,m,hd,hm,he,hfields,fun hwire => ?_⟩
  have hrev := hwire.reversible he
  unfold Message.Reversible at hrev
  rw [hfields] at hrev
  exact absurd hrev (by decide)

end Isml
