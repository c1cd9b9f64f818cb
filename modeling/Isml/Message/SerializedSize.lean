import Isml.Message.FieldOrder

/-! # Sizes and what is written

The size of a value or a message is counted by a recursion of its own. Without assertions it is
the number of bytes the serializer appends, whatever is in the stream and however large the
containers are.
-/
namespace Isml
open ByteOrder

/-- Whatever is in the stream, the same `size` bytes are put behind it. -/
def AppendsBytes (size : ℕ) (write : OStream → Result OStream) : Prop :=
  ∃ bytes : List Byte, bytes.length = size ∧ ∀ out, write out = .ok (out ++ bytes)

theorem AppendsBytes.of_length {size : ℕ} {write : OStream → Result OStream} {bytes : List Byte}
    (hwrite : ∀ out, write out = .ok (out ++ bytes))
    (hsize : ∀ {out out'}, write out = .ok out' → out'.length = out.length + size) :
    AppendsBytes size write := by
  refine ⟨bytes,?_,hwrite⟩
  have hlength := hsize (hwrite [])
  rw [List.nil_append, List.length_nil, Nat.zero_add] at hlength
  exact hlength

theorem BinarySerializer.appendsBytes_size (host : Endian) (t : Ty) (v : Val) :
    AppendsBytes (size t v) (serialize ⟨host,true⟩ t v) := by
  obtain ⟨bytes,hbytes⟩ := serialize_appends host t v
  apply AppendsBytes.of_length hbytes
  intro out out' h
  exact serialize_length h

namespace Message

/-- `BinarySerializer` is among the serializers of every field. -/
def Supported (m : Message) : Prop :=
  ∀ f ∈ m.fields, CompositeSerializer.supportedBy f.serializers = true

theorem Encodable.supported {m : Message} (h : m.Encodable) : m.Supported :=
  fun f hf => (h f hf).supported

theorem appendsBytes_serializedSize (host : Endian) {m : Message} (h : m.Supported) :
    AppendsBytes m.serializedSize (m.serialize ⟨host,true⟩) := by
  choose enc henc using fun f : Field => BinarySerializer.serialize_appends host f.type f.value
  have hfield : ∀ f ∈ m.fields, ∀ out, f.serialize ⟨host,true⟩ out = .ok (out ++ enc f) := by
    intro f hf out
    rw [Field.serialize, CompositeSerializer.serialize_binary ⟨host,true⟩ (h f hf), henc]
  have hwrite : ∀ out, m.serialize ⟨host,true⟩ out = .ok (out ++ m.fields.flatMap enc) := by
    intro out
    exact BinarySerializer.foldlM_append hfield out
  exact AppendsBytes.of_length hwrite serialize_length

end Message

/-- Sizes are exact: those of the values of every type, and those of the messages. -/
theorem serializedSize_exact (host : Endian) :
    (∀ t v, AppendsBytes (BinarySerializer.size t v) (BinarySerializer.serialize ⟨host,true⟩ t v)) ∧
      ∀ m : Message, m.Supported → AppendsBytes m.serializedSize (m.serialize ⟨host,true⟩) :=
  ⟨BinarySerializer.appendsBytes_size host,fun _ => Message.appendsBytes_serializedSize host⟩

/-- A vector of 70000 bytes, more than the count in front of it can say, and a message of two
fields. -/
theorem serializedSize_exact_70000 :
    AppendsBytes (2 + 70000) (BinarySerializer.serialize ⟨.big,true⟩
      (.sequence "std::vector" (.integral .unsignedChar)) (.items (List.replicate 70000 (.bits 0)))) ∧
      ∃ m : Message, m.fields = [⟨intDescriptor "a",.bits 1⟩,⟨intDescriptor "b",.bits 2⟩] ∧
        AppendsBytes m.serializedSize (m.serialize ⟨.big,true⟩) := by
  obtain ⟨hvalue,hmessage⟩ := serializedSize_exact .big
  constructor
  · have hbytes := hvalue (.sequence "std::vector" (.integral .unsignedChar))
      (.items (List.replicate 70000 (.bits 0)))
    rwa [BinarySerializer.size_replicate] at hbytes
  · obtain ⟨_,m,_,_,he,hfields⟩ := exists_two_ints
    exact ⟨m,hfields,hmessage m he.supported⟩

end Isml
