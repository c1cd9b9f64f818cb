import Isml.Message.MessageDescriptor

/-! # `Message` and `MessageFactory`

A message takes its type and its fields from a descriptor. A factory keeps the
descriptors under their types.
-/
namespace Isml
open ByteOrder StringStream

/-- `++id` of the process-wide counter: the new identifier and the counter. -/
def generateId (counter : MessageId) : MessageId × MessageId := (counter + 1,counter + 1)

/-- The session is known to a message by its identifier. -/
structure Message where
  id : MessageId
  type : MessageType
  fieldset : FieldSet
  session : Option SessionId

namespace Message

/-- `Message(descriptor, session)` and the counter after it. -/
def new (counter : MessageId) (d : MessageDescriptor) (session : Option SessionId) :
    Message × MessageId :=
  let (id,counter) := generateId counter
  (⟨id,d.type,
    d.fieldDescriptors.foldl (fun s descriptor => (s.add descriptor.createField).2) FieldSet.empty,
    session⟩,counter)

def ofCopy (counter : MessageId) (other : Message) : Message × MessageId :=
  let (id,counter) := generateId counter
  (⟨id,other.type,FieldSet.ofCopy other.fieldset,other.session⟩,counter)

def clone (counter : MessageId) (m : Message) : Message × MessageId := ofCopy counter m

def hasField (m : Message) (name : String) : Bool := m.fieldset.contains name

def sessionId (m : Message) : SessionId := m.session.getD kBadSessionId

/-- `field<T>(name)`. -/
def field (t : Ty) (m : Message) (name : String) : Result Field :=
  match m.fieldset.getOf t name with
  | some f => .ok f
  | none => raise (.fieldDoesNotExist "Message doesn't contain specified field" name m.sessionId m.id)

/-- `field<T>(name).set(v)`. -/
def setField (t : Ty) (name : String) (v : Val) (m : Message) : Result Message :=
  match m.fieldset.setOf t name v with
  | some s => .ok { m with fieldset := s }
  | none => raise (.fieldDoesNotExist "Message doesn't contain specified field" name m.sessionId m.id)

/-- The message after every field was set to the value given for its name. -/
def fill (values : String → Val) (m : Message) : Message :=
  { m with fieldset := m.fieldset.fill values }

def serialize (b : Build) (m : Message) (out : OStream) : Result OStream := m.fieldset.serialize b out

def deserialize (b : Build) (junk : Junk) (m : Message) (s : IStream) :
    Result (Message × IStream) := do
  let (fieldset,s) ← m.fieldset.deserialize b junk s
  .ok ({ m with fieldset := fieldset },s)

def serializedSize (m : Message) : ℕ := m.fieldset.serializedSize

/-- The fields in the order they are serialized in. -/
def fields (m : Message) : List Field := m.fieldset.toList

/-- The bytes of a message whose fields can all be written. -/
def encoding (m : Message) : List Byte := m.fields.flatMap Field.encoding

def Encodable (m : Message) : Prop := ∀ f ∈ m.fields, f.Encodable

def Writable (m : Message) : Prop := ∀ f ∈ m.fields, f.Writable

/-- The two messages have the same type and each name leads to the same contents. -/
def SameContents (m m' : Message) : Prop :=
  m.type = m'.type ∧
    ∀ name, Option.Rel Field.Matches (m.fieldset.get name) (m'.fieldset.get name)

variable (counter : MessageId) (d : MessageDescriptor) (session : Option SessionId)

/-- The constructor puts the first field descriptor's field last. -/
theorem new_fields : (new counter d session).1.fields =
    (d.fieldDescriptors.map FieldDescriptor.createField).rotate 1 :=
  FieldSet.toList_addFields d.names_nodup

theorem clone_fields (m : Message) : (m.clone counter).1.fields = m.fields.reverse :=
  FieldSet.toList_assign FieldSet.empty m.fieldset

/-- By name a clone cannot be told from the original. -/
theorem clone_get (m : Message) (name : String) :
    (m.clone counter).1.fieldset.get name = m.fieldset.get name := by
  apply FieldSet.get_congr
  intro f
  have hc := clone_fields counter m
  unfold fields at hc
  rw [hc, List.mem_reverse]

@[simp] theorem fill_type (values : String → Val) (m : Message) : (m.fill values).type = m.type := rfl

@[simp] theorem fill_fields (values : String → Val) (m : Message) :
    (m.fill values).fields = m.fields.map fun f => f.set (values f.name) :=
  m.fieldset.toList_fill values

theorem setField_eq_fill {t : Ty} {name : String} {v : Val} {m m' : Message}
    (h : m.setField t name v = .ok m') : ∃ values, m' = m.fill values := by
  unfold setField at h
  split at h
  · rename_i s hs
    obtain ⟨values,rfl⟩ := FieldSet.setOf_eq_fill hs
    cases h
    exact ⟨values,rfl⟩
  · cases h

theorem Writable.encodable {m : Message} (h : m.Writable) : m.Encodable :=
  fun f hf => (h f hf).encodable

theorem serialize_eq (b : Build) {m : Message} (h : m.Encodable) (out : OStream) :
    m.serialize b out = .ok (out ++ m.encoding) :=
  m.fieldset.serialize_eq b h out

theorem encoding_length (m : Message) : m.encoding.length = m.serializedSize :=
  m.fieldset.encoding_length

theorem serialize_length {b : Build} {m : Message} {out out' : OStream}
    (h : m.serialize b out = .ok out') : out'.length = out.length + m.serializedSize :=
  m.fieldset.serialize_length h

theorem SameContents.of_fields {m m' : Message} (ht : m.type = m'.type)
    (h : List.Forall₂ Field.Matches m.fields m'.fields) : m.SameContents m' :=
  ⟨ht,fun name => FieldSet.get_matches h name⟩

theorem deserialize_eq_ok {b : Build} {junk : Junk} {m r : Message} {s s' : IStream}
    (h : m.deserialize b junk s = .ok (r,s')) :
    r.type = m.type ∧ FieldSet.deserializeFields b junk m.fields s = .ok (r.fields,s') := by
  obtain ⟨⟨fieldset,s1⟩,hf,h⟩ := bind_eq_ok.mp h
  cases h
  refine ⟨rfl,?_⟩
  rcases m.fieldset.deserialize_eq b junk s with ⟨e,_,he⟩ | ⟨fs,s2,fieldset',hfs,hd,rfl⟩
  · cases he.symm.trans hf
  · cases hd.symm.trans hf
    exact hfs

theorem deserialize_of_fields {b : Build} {junk : Junk} {m : Message} {fs : List Field}
    {s s' : IStream} (h : FieldSet.deserializeFields b junk m.fields s = .ok (fs,s')) :
    ∃ r, m.deserialize b junk s = .ok (r,s') ∧ r.type = m.type ∧ r.fields = fs := by
  rcases m.fieldset.deserialize_eq b junk s with ⟨e,he,_⟩ | ⟨fs',s2,fieldset,hfs,hd,hl⟩
  · cases he.symm.trans h
  · cases hfs.symm.trans h
    exact ⟨⟨m.id,m.type,fieldset,m.session⟩,bind_eq_ok.mpr ⟨_,hd,rfl⟩,rfl,hl⟩

/-- A message whose fields are newly created and lie in the same order reads the
contents of the other back. -/
theorem deserialize_encoding (b : Build) (junk : Junk) (m0 : Message) {m : Message} (hm : m.Writable)
    (ht : m0.type = m.type)
    (h0 : m0.fields = m.fields.map fun f => f.toFieldDescriptor.createField) (r : List Byte) :
    ∃ m', m0.deserialize b junk ⟨m.encoding ++ r,false⟩ = .ok (m',⟨r,false⟩) ∧ m'.SameContents m := by
  obtain ⟨gs,hgs,hmatch⟩ := FieldSet.deserializeFields_encoding b junk hm r
  rw [← h0] at hgs
  obtain ⟨m',hm',htype,hfields⟩ := deserialize_of_fields hgs
  exact ⟨m',hm',SameContents.of_fields (htype.trans ht) (hfields.symm ▸ hmatch)⟩

end Message

/-- The descriptors are kept under their own types. -/
structure MessageFactory where
  descriptors : AList fun _ : MessageType => MessageDescriptor
  keyed : ∀ type d, descriptors.lookup type = some d → d.type = type

namespace MessageFactory

def empty : MessageFactory := ⟨∅,by simp⟩

def swap (f other : MessageFactory) : MessageFactory × MessageFactory := (other,f)

/-- `addDescriptor(std::move(descriptor))`. -/
def addDescriptor (descriptor : MessageDescriptor) (f : MessageFactory) : Bool × MessageFactory :=
  if descriptor.type ∈ f.descriptors then (false,f)
  else (true,
    { descriptors := f.descriptors.insert descriptor.type descriptor
      keyed := by
        intro type d h
        by_cases ht : type = descriptor.type
        · subst ht
          rw [AList.lookup_insert] at h
          cases h
          rfl
        · rw [AList.lookup_insert_ne ht] at h
          exact f.keyed type d h })

theorem lookup_addDescriptor {descriptor : MessageDescriptor} {f : MessageFactory}
    (h : (f.addDescriptor descriptor).1 = true) :
    (f.addDescriptor descriptor).2.descriptors.lookup descriptor.type = some descriptor := by
  unfold addDescriptor at h ⊢
  by_cases ht : descriptor.type ∈ f.descriptors
  · rw [if_pos ht] at h
    cases h
  · rw [if_neg ht]
    exact AList.lookup_insert f.descriptors

/-- `addDescriptor(descriptor)` with an lvalue: the parameter is copied from it. -/
def addDescriptorCopy (descriptor : MessageDescriptor) (f : MessageFactory) :
    Bool × MessageFactory :=
  f.addDescriptor (MessageDescriptor.ofCopy descriptor)

/-- `addDescriptor(type, configure)`. -/
def addDescriptorWith (type : MessageType)
    (configure : MessageDescriptor → Result MessageDescriptor) (f : MessageFactory) :
    Result (Bool × MessageFactory) := do
  let descriptor ← configure (MessageDescriptor.new type)
  .ok (f.addDescriptor descriptor)

def hasDescriptor (f : MessageFactory) (type : MessageType) : Bool := decide (type ∈ f.descriptors)

/-- `session` is what `shared_from_this()` gives: nothing when no `shared_ptr` owns it. -/
def createMessage (counter : MessageId) (type : MessageType) (session : Option SessionId)
    (f : MessageFactory) : Result (Message × MessageId) :=
  match f.descriptors.lookup type with
  | none => raise (.unknownMessageType
      "There is no registered descriptor for this message type" type)
  | some descriptor =>
    match session with
    | none => raise .badWeakPtr
    | some id => .ok (Message.new counter descriptor (some id))

/-- The copy of an `unordered_map` copies each of its values. -/
def copyDescriptors (m : AList fun _ : MessageType => MessageDescriptor) :
    AList fun _ : MessageType => MessageDescriptor where
  entries := m.entries.map fun e => ⟨e.1,MessageDescriptor.ofCopy e.2⟩
  nodupKeys := by
    have h : (m.entries.map fun e => (⟨e.1,MessageDescriptor.ofCopy e.2⟩ :
        Sigma fun _ : MessageType => MessageDescriptor)).keys = m.entries.keys := List.map_map ..
    rw [List.NodupKeys, h]
    exact m.nodupKeys

theorem lookup_copyDescriptors (m : AList fun _ : MessageType => MessageDescriptor)
    (type : MessageType) : (copyDescriptors m).lookup type =
      (m.lookup type).map MessageDescriptor.ofCopy := by
  have hlist : ∀ es : List (Sigma fun _ : MessageType => MessageDescriptor),
      (es.map fun e => (⟨e.1,MessageDescriptor.ofCopy e.2⟩ :
        Sigma fun _ : MessageType => MessageDescriptor)).dlookup type =
        (es.dlookup type).map MessageDescriptor.ofCopy := by
    intro es
    induction es with
    | nil => rfl
    | cons e es ih =>
      obtain ⟨t,d⟩ := e
      by_cases h : t = type
      · subst h
        simp
      · simpa [List.dlookup_cons_ne, Ne.symm h] using ih
  exact hlist m.entries

def ofCopy (other : MessageFactory) : MessageFactory where
  descriptors := copyDescriptors other.descriptors
  keyed := by
    intro type d h
    rw [lookup_copyDescriptors, Option.map_eq_some_iff] at h
    obtain ⟨d',hd',rfl⟩ := h
    exact other.keyed type d' hd'

theorem lookup_ofCopy (other : MessageFactory) (type : MessageType) :
    (ofCopy other).descriptors.lookup type =
      (other.descriptors.lookup type).map MessageDescriptor.ofCopy :=
  lookup_copyDescriptors other.descriptors type

def copyAssign (_ other : MessageFactory) : MessageFactory := ofCopy other

/-- The new factory and what is left of the other. -/
def ofMove (other : MessageFactory) : MessageFactory × MessageFactory := empty.swap other

def moveAssign (f other : MessageFactory) : MessageFactory × MessageFactory := f.swap other

theorem createMessage_registered (counter : MessageId) {type : MessageType} (id : SessionId)
    {f : MessageFactory} {d : MessageDescriptor} (h : f.descriptors.lookup type = some d) :
    f.createMessage counter type (some id) = .ok (Message.new counter d (some id)) := by
  rw [createMessage, h]

theorem createMessage_eq_ok {counter : MessageId} {type : MessageType} {session : Option SessionId}
    {f : MessageFactory} {r : Message × MessageId} (h : f.createMessage counter type session = .ok r) :
    ∃ d id, f.descriptors.lookup type = some d ∧ session = some id ∧
      r = Message.new counter d (some id) := by
  unfold createMessage at h
  split at h
  · cases h
  · rename_i d hd
    cases session with
    | none => cases h
    | some id => exact ⟨d,id,hd,rfl,(Except.ok.inj h).symm⟩

end MessageFactory

end Isml
