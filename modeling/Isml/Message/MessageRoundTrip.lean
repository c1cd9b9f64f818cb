import Isml.Message.FieldOrder

/-! # Round trip of messages

Two messages created from one descriptor have their fields in the same order, whatever
values one of them was given, and reading never goes behind the encoding of the last field.
-/
namespace Isml.Message
open ByteOrder StringStream

section SameDescriptor
variable (d : MessageDescriptor) (counter counter' : MessageId) (session session' : Option SessionId)
  (values : String → Val)

/-- New values leave the order of the fields alone. -/
theorem new_fields_of_fill : (new counter' d session').1.fields =
    ((new counter d session).1.fill values).fields.map fun f => f.toFieldDescriptor.createField := by
  rw [fill_fields, new_fields, new_fields, ← List.map_rotate, List.map_map, List.map_map]
  rfl

/-- The fields of a new message take over what was written for those of another one. -/
theorem deserializeFields_fill (b : Build) (junk : Junk)
    (hw : ((new counter d session).1.fill values).Writable) (r : List Byte) :
    ∃ gs, FieldSet.deserializeFields b junk (new counter' d session').1.fields
        ⟨((new counter d session).1.fill values).encoding ++ r,false⟩ = .ok (gs,⟨r,false⟩) ∧
      List.Forall₂ Field.Matches gs ((new counter d session).1.fill values).fields := by
  rw [new_fields_of_fill d counter counter' session session' values]
  exact FieldSet.deserializeFields_encoding b junk hw r

end SameDescriptor

/-- What a message writes, whatever its fields were set to, is as long as announced, and another
message of the descriptor takes the same contents from it and leaves what follows. -/
theorem messageRoundTrip (b b' : Build) (junk : Junk) (d : MessageDescriptor)
    (counter counter' : MessageId) (session session' : Option SessionId) (values : String → Val)
    (hw : ((new counter d session).1.fill values).Writable) (out : OStream) (r : List Byte) :
    ∃ bytes, ((new counter d session).1.fill values).serialize b out = .ok (out ++ bytes) ∧
      ((new counter d session).1.fill values).serializedSize = bytes.length ∧
      ∃ m, (new counter' d session').1.deserialize b' junk (IStream.ofBytes (bytes ++ r)) =
          .ok (m,IStream.ofBytes r) ∧
        m.SameContents ((new counter d session).1.fill values) := by
  refine ⟨_,serialize_eq b hw.encodable out,(encoding_length _).symm,?_⟩
  have hlayout := new_fields_of_fill d counter counter' session session' values
  exact deserialize_encoding b' junk (new counter' d session').1 hw rfl hlayout r

/-- A message with the two `int` fields 1 and 2, with one byte behind it. -/
theorem messageRoundTrip_two : ∃ d,
    (MessageDescriptor.new 7).registerFields (["a","b"].map intDescriptor) = .ok d ∧
      ∃ values, ∃ bytes, ((new 0 d none).1.fill values).serialize ⟨.little,true⟩ [] = .ok ([] ++ bytes) ∧
        ((new 0 d none).1.fill values).serializedSize = bytes.length ∧
        ∃ m, (new 4 d (some 1)).1.deserialize ⟨.big,false⟩ (fun _ => 77) (IStream.ofBytes (bytes ++ [5])) =
            .ok (m,IStream.ofBytes [5]) ∧
          m.SameContents ((new 0 d none).1.fill values) := by
  obtain ⟨d,hd,_,hl⟩ := MessageDescriptor.registerFields_fresh 7 twoInts_nodup
  let values : String → Val := fun name => .bits (if name = "a" then 1 else 2)
  have hw : ((new 0 d none).1.fill values).Writable := by
    intro f hf
    rw [fill_fields, new_fields, hl] at hf
    obtain ⟨g,hg,rfl⟩ := List.mem_map.mp hf
    obtain ⟨e,he,rfl⟩ := List.mem_map.mp (List.mem_rotate.mp hg)
    obtain ⟨name,_,rfl⟩ := List.mem_map.mp (List.mem_rotate.mp he)
    refine ⟨rfl,⟨_,rfl,?_⟩,trivial⟩
    split_ifs <;> decide
  exact ⟨d,hd,values,messageRoundTrip ⟨.little,true⟩ ⟨.big,false⟩ (fun _ => 77) d 0 4 none (some 1)
    values hw [] [5]⟩

end Isml.Message
