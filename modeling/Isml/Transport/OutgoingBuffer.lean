import Isml.Transport.WriteInFlight

/-! # The outgoing buffer and what is copied into it

The buffer has as many bytes as `m_outgoing_data_length` says, which is counted modulo `2 ^ 16`,
and the whole stream is copied into it.
-/
namespace Isml

namespace OutgoingFrame

/-- `std::copy` writes no byte behind the end of the buffer. -/
def CopiedInside (frame : OutgoingFrame) : Prop := frame.data.length ≤ frame.length.toNat

/-- `async_write` is asked to send every byte of the stream. -/
def SentWhole (frame : OutgoingFrame) : Prop := frame.buffer = frame.data

theorem sentWhole_iff (frame : OutgoingFrame) : frame.SentWhole ↔ frame.CopiedInside :=
  List.take_eq_self_iff frame.data

end OutgoingFrame

namespace TcpTransport

/-- Of the sum of the sizes its 16 low bits are left. -/
theorem outgoingLength_mod (m : Message) :
    (outgoingLength m).toNat = (sizeOfMessageLength + m.serializedSize) % 2 ^ 16 := by
  rw [outgoingLength, BitVec.toNat_add, BitVec.toNat_ofNat, BitVec.toNat_ofNat, ← Nat.add_mod]

theorem copiedInside_iff {b : Build} {m : Message} {frame : OutgoingFrame}
    (h : writeFrame b m = .ok frame) :
    frame.CopiedInside ↔ sizeOfMessageLength + m.serializedSize < 2 ^ 16 := by
  obtain ⟨hlength,hdata⟩ := writeFrame_length h
  rw [OutgoingFrame.CopiedInside, hlength, hdata, outgoingLength_mod]
  constructor
  · intro hle
    exact hle.trans_lt (Nat.mod_lt _ (by decide))
  · intro hlt
    exact (Nat.mod_eq_of_lt hlt).ge

/-- A message whose fields can be encoded has a frame. -/
theorem exists_writeFrame (b : Build) {m : Message} (h : m.Encodable) :
    ∃ frame, writeFrame b m = .ok frame :=
  ⟨_,bind_eq_ok.mpr ⟨_,Message.serialize_eq b h _,rfl⟩⟩

/-- The copy of a message stays inside the buffer, and the whole frame is sent, exactly if the
sizes add up to a 16-bit number. -/
theorem copiedInside_and_sentWhole_iff (b : Build) {m : Message} (h : m.Encodable) :
    ∃ frame, writeFrame b m = .ok frame ∧
      (frame.CopiedInside ∧ frame.SentWhole ↔ sizeOfMessageLength + m.serializedSize < 2 ^ 16) := by
  obtain ⟨frame,hframe⟩ := exists_writeFrame b h
  refine ⟨frame,hframe,?_⟩
  rw [frame.sentWhole_iff, and_self]
  exact copiedInside_iff hframe

/-- `registerField<CompositeSerializer<BinarySerializer>, std::vector<unsigned char>>(name)`. -/
def bytesDescriptor (name : String) : FieldDescriptor :=
  ⟨name,.sequence "std::vector" (.integral .unsignedChar),⟨[.binary],List.nodup_singleton _⟩⟩

theorem exists_bytesMessage {n : ℕ} (hn : n ≤ 65535) : ∃ m : Message,
    m.fields = [⟨bytesDescriptor "data",.items (List.replicate n (.bits 0))⟩] ∧ m.Writable ∧
      m.serializedSize = 2 + n := by
  let value := Val.items (List.replicate n (.bits 0))
  have hnames : ([bytesDescriptor "data"].map FieldDescriptor.name).Nodup := List.nodup_singleton _
  obtain ⟨d,-,-,hl⟩ := MessageDescriptor.registerFields_fresh 7 hnames
  let m : Message := (Message.new 0 d none).1.fill fun _ => value
  have hfields : m.fields = [⟨bytesDescriptor "data",value⟩] := by
    rw [Message.fill_fields, Message.new_fields, hl]
    rfl
  refine ⟨m,hfields,fun f hf => ?_,?_⟩
  · rw [hfields] at hf
    rw [List.mem_singleton.mp hf]
    refine ⟨rfl,⟨rfl,fun x hx => ?_⟩,?_,fun _ _ => trivial⟩
    · exact ⟨0,List.eq_of_mem_replicate hx,by decide⟩
    · exact (List.length_replicate ..).trans_le hn
  · have hsize : m.serializedSize = (m.fields.map Field.serializedSize).sum := rfl
    rw [hsize, hfields, List.map_singleton, List.sum_singleton]
    have hbytes := BinarySerializer.size_replicate "std::vector" (.integral .unsignedChar) n (.bits 0)
    exact hbytes.trans (congrArg (2 + ·) (Nat.mul_one n))

theorem copiedInside_and_sentWhole_iff_one : ∃ m : Message,
    m.fields = [⟨bytesDescriptor "data",.items [.bits 0]⟩] ∧
      ∃ frame, writeFrame ⟨.little,true⟩ m = .ok frame ∧
        (frame.CopiedInside ∧ frame.SentWhole ↔ sizeOfMessageLength + m.serializedSize < 2 ^ 16) := by
  obtain ⟨m,hfields,hw,-⟩ := exists_bytesMessage (by decide : 1 ≤ 65535)
  exact ⟨m,hfields,copiedInside_and_sentWhole_iff ⟨.little,true⟩ hw.encodable⟩

/-- A vector of 65532 bytes makes a stream of 65536 bytes, and a buffer of none. -/
theorem not_copiedInside_65532 : ∃ m : Message, m.Writable ∧
    m.fields = [⟨bytesDescriptor "data",.items (List.replicate 65532 (.bits 0))⟩] ∧
      ∃ frame, writeFrame ⟨.little,true⟩ m = .ok frame ∧ frame.length = 0 ∧
        frame.data.length = 65536 ∧ ¬ frame.CopiedInside ∧ ¬ frame.SentWhole := by
  obtain ⟨m,hfields,hw,hsize⟩ := exists_bytesMessage (by decide : 65532 ≤ 65535)
  obtain ⟨frame,hframe⟩ := exists_writeFrame ⟨.little,true⟩ hw.encodable
  obtain ⟨hlength,hdata⟩ := writeFrame_length hframe
  have hnot : ¬ frame.CopiedInside := by
    rw [copiedInside_iff hframe, hsize]
    decide
  refine ⟨m,hw,hfields,frame,hframe,?_,?_,hnot,fun hwhole => hnot (frame.sentWhole_iff.mp hwhole)⟩
  · rw [hlength]
    apply BitVec.eq_of_toNat_eq
    rw [outgoingLength_mod, hsize]
    rfl
  · rw [hdata, hsize]
    rfl

end TcpTransport

end Isml
