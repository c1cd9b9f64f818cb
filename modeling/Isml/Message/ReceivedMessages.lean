import Isml.Serialization.ReceivedValues
import Isml.Message.FieldOrder

/-! # Messages that were received

A message that was read from any bytes can be written again, and what is written determines it: two
messages with the fields of one descriptor begin the same bytes only if they have the same contents.
-/
namespace Isml
open ByteOrder StringStream

/-- Every field has a type whose objects any bytes make contents for. -/
def MessageDescriptor.Receivable (d : MessageDescriptor) : Prop :=
  ∀ f ∈ d.fieldDescriptors, f.type.Receivable

namespace Field

/-- The contents of the field can be written by the binary serializer. -/
def Sendable (f : Field) : Prop := BinarySerializer.Sendable f.type f.value

end Field

namespace Message
variable {d : MessageDescriptor} {m m' : Message}

/-- A new message of the descriptor reads what a message in its order has written, whatever follows. -/
theorem deserialize_written (ht : m.type = d.type)
    (hl : m.fields.map Field.toFieldDescriptor = d.fieldDescriptors.rotate 1) (hw : m.Writable)
    (counter : MessageId) (session : Option SessionId) (b : Build) (junk : Junk) (rest : List Byte) :
    ∃ r, (new counter d session).1.deserialize b junk (IStream.ofBytes (m.encoding ++ rest)) =
      .ok (r,IStream.ofBytes rest) ∧ r.SameContents m := by
  have hcreate : (new counter d session).1.fields =
      m.fields.map fun f => f.toFieldDescriptor.createField := by
    rw [new_fields, ← List.map_rotate, ← hl, List.map_map]
    rfl
  exact deserialize_encoding b junk _ hw ht.symm hcreate rest

theorem SameContents.symm (h : m.SameContents m') : m'.SameContents m := by
  refine ⟨h.1.symm,fun name => ?_⟩
  have hname := h.2 name
  generalize m.fieldset.get name = f at hname ⊢
  generalize m'.fieldset.get name = g at hname ⊢
  cases hname with
  | none => exact .none
  | some hfg => exact .some ⟨hfg.descriptor.symm,hfg.value.symm⟩

theorem SameContents.trans {m'' : Message} (h : m.SameContents m') (h' : m'.SameContents m'') :
    m.SameContents m'' := by
  refine ⟨h.1.trans h'.1,fun name => ?_⟩
  have hname := h.2 name
  have hname' := h'.2 name
  generalize m.fieldset.get name = f at hname ⊢
  generalize m'.fieldset.get name = g at hname hname'
  generalize m''.fieldset.get name = k at hname' ⊢
  cases hname with
  | none => exact hname'
  | some hfg =>
    cases hname' with
    | some hgk => exact .some ⟨hfg.descriptor.trans hgk.descriptor,hfg.value.trans hgk.value⟩

/-- No message of the descriptor, with its fields in the order of a newly created one, is a beginning of
another one: the bytes of one, with something behind, are the bytes of the other, with something behind,
only if the contents are the same. -/
theorem uniquelyDecodable (ht : m.type = d.type)
    (hl : m.fields.map Field.toFieldDescriptor = d.fieldDescriptors.rotate 1) (hw : m.Writable)
    (ht' : m'.type = d.type)
    (hl' : m'.fields.map Field.toFieldDescriptor = d.fieldDescriptors.rotate 1) (hw' : m'.Writable)
    {rest rest' : List Byte} (h : m.encoding ++ rest = m'.encoding ++ rest') :
    m.SameContents m' ∧ rest = rest' := by
  obtain ⟨r,hr,hsame⟩ := deserialize_written ht hl hw 0 none ⟨.little,true⟩ (fun _ => 0) rest
  obtain ⟨r',hr',hsame'⟩ := deserialize_written ht' hl' hw' 0 none ⟨.little,true⟩ (fun _ => 0) rest'
  rw [h] at hr
  cases hr.symm.trans hr'
  exact ⟨hsame.symm.trans hsame',rfl⟩

/-- Two messages with different identifiers, and what follows the first one. -/
theorem uniquelyDecodable_twice : ∃ m m' : Message, m.id ≠ m'.id ∧
    ∀ rest, m.encoding ++ [5] = m'.encoding ++ rest → m.SameContents m' ∧ [5] = rest := by
  have hnd : (["value"].map intDescriptor |>.map FieldDescriptor.name).Nodup := List.nodup_singleton _
  obtain ⟨d,_,ht,hl⟩ := MessageDescriptor.registerFields_fresh 3 hnd
  let m (counter : MessageId) : Message := (new counter d none).1.fill fun _ => .bits 2
  have hfields : ∀ counter, (m counter).fields = [⟨intDescriptor "value",.bits 2⟩] := by
    intro counter
    rw [fill_fields, new_fields, hl]
    rfl
  have horder : ∀ counter, (m counter).fields.map Field.toFieldDescriptor = d.fieldDescriptors.rotate 1 := by
    intro counter
    rw [hfields, hl]
    rfl
  have hwritable : ∀ counter, (m counter).Writable := by
    intro counter f hf
    rw [hfields] at hf
    obtain rfl := List.mem_singleton.mp hf
    exact ⟨rfl,⟨2,rfl,by decide⟩,trivial⟩
  have hids : (m 0).id ≠ (m 1).id := (by decide : (1 : MessageId) ≠ 2)
  exact ⟨m 0,m 1,hids,fun rest h =>
    uniquelyDecodable rfl (horder 0) (hwritable 0) rfl (horder 1) (hwritable 1) h⟩

end Message

end Isml
