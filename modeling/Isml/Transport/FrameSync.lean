import Isml.Transport.TcpTransport

/-! # Frame boundaries over a whole stream

The length a writer puts in front of a frame counts its own two bytes, and the reader
asks for as many bytes as the length says after them. The reader is run on the frames
of any sequence of messages; one frame is enough to set it off the boundaries.
-/
namespace Isml.TcpTransport
open ByteOrder StringStream

theorem completeRead_delivered {host : Endian} {s s' : Incoming} (h : completeRead host s = some s') :
    s.delivered <+: s'.delivered := by
  unfold completeRead at h
  split at h
  · obtain ⟨⟨bytes,unread⟩,_,rfl⟩ := Option.map_eq_some_iff.mp h
    exact List.prefix_rfl
  · obtain ⟨⟨payload,unread⟩,_,rfl⟩ := Option.map_eq_some_iff.mp h
    exact List.prefix_append _ _

theorem completeReads_delivered (host : Endian) (n : ℕ) (s : Incoming) :
    s.delivered <+: (completeReads host n s).delivered := by
  induction n generalizing s with
  | zero => exact List.prefix_rfl
  | succ n ih =>
    rw [completeReads]
    cases h : completeRead host s with
    | none => exact List.prefix_rfl
    | some s' => exact (completeRead_delivered h).trans (ih s')

/-- A read uses up at least one of the bytes, or ends the reading of a message. -/
def Incoming.measure (s : Incoming) : ℕ :=
  s.unread.length + if s.operation = .message then 1 else 0

theorem completeRead_measure {host : Endian} {s s' : Incoming} (h : completeRead host s = some s') :
    Incoming.measure s' < Incoming.measure s := by
  unfold completeRead at h
  split at h
  · rename_i hop
    obtain ⟨⟨bytes,unread⟩,hread,rfl⟩ := Option.map_eq_some_iff.mp h
    unfold asyncRead at hread
    split at hread
    · rename_i hle
      cases hread
      simp only [Incoming.measure, hop, List.length_drop, sizeOfMessageLength, reduceCtorEq,
        ↓reduceIte] at hle ⊢
      omega
    · cases hread
  · rename_i hop
    obtain ⟨⟨payload,unread⟩,hread,rfl⟩ := Option.map_eq_some_iff.mp h
    unfold asyncRead at hread
    split at hread
    · cases hread
      simp only [Incoming.measure, hop, List.length_drop, reduceCtorEq, ↓reduceIte]
      omega
    · cases hread

theorem completeReads_stuck {host : Endian} {n : ℕ} {s : Incoming} (h : Incoming.measure s < n) :
    completeRead host (completeReads host n s) = none := by
  induction n generalizing s with
  | zero => omega
  | succ n ih =>
    rw [completeReads]
    cases hs : completeRead host s with
    | none => exact hs
    | some s' =>
      have hless := completeRead_measure hs
      exact ih (by omega)

/-- `receive` follows the reader to the point where it waits for bytes that are not there. -/
theorem receive_stuck (host : Endian) (bytes : List Byte) :
    completeRead host (receive host bytes) = none :=
  completeReads_stuck (by simp [Incoming.measure, startReading])

/-- The first payload: as many bytes as the first two say, from the third on. -/
theorem receive_delivered_head (host : Endian) {prefixBytes : List Byte}
    (hp : prefixBytes.length = 2) (rest : List Byte) :
    (receive host (prefixBytes ++ rest)).delivered = [] ∨
      ∃ tail, (receive host (prefixBytes ++ rest)).delivered =
        (rest.take (host.ofMemory prefixBytes),2 + host.ofMemory prefixBytes) :: tail := by
  have hlt : host.ofMemory prefixBytes < 2 ^ 16 := by
    have hbound := Endian.ofMemory_lt host prefixBytes
    rwa [hp] at hbound
  have hfirst : completeRead host (startReading (prefixBytes ++ rest)) =
      some ⟨.message,BitVec.ofNat 16 (host.ofMemory prefixBytes),rest,2,[]⟩ := by
    simp [completeRead, startReading, asyncRead, sizeOfMessageLength, hp]
  have hfuel : (prefixBytes ++ rest).length + 1 = rest.length + 1 + 1 + 1 := by
    rw [List.length_append, hp]
    omega
  unfold receive
  rw [hfuel, completeReads, hfirst]
  dsimp only
  rw [completeReads]
  cases hsecond : completeRead host
      ⟨.message,BitVec.ofNat 16 (host.ofMemory prefixBytes),rest,2,[]⟩ with
  | none => exact Or.inl rfl
  | some s =>
    right
    obtain ⟨⟨payload,unread⟩,hread,rfl⟩ := Option.map_eq_some_iff.mp hsecond
    have hnat : (BitVec.ofNat 16 (host.ofMemory prefixBytes)).toNat = host.ofMemory prefixBytes := by
      rw [BitVec.toNat_ofNat, Nat.mod_eq_of_lt hlt]
    unfold asyncRead at hread
    split at hread
    · cases hread
      obtain ⟨tail,htail⟩ := completeReads_delivered host (rest.length + 1)
        ⟨.messageLength,BitVec.ofNat 16 (host.ofMemory prefixBytes),
          rest.drop (BitVec.ofNat 16 (host.ofMemory prefixBytes)).toNat,
          2 + (BitVec.ofNat 16 (host.ofMemory prefixBytes)).toNat,
          [(rest.take (BitVec.ofNat 16 (host.ofMemory prefixBytes)).toNat,
            2 + (BitVec.ofNat 16 (host.ofMemory prefixBytes)).toNat)]⟩
      refine ⟨tail,?_⟩
      rw [hnat] at htail
      simpa [hnat] using htail.symm
    · cases hread

/-- A message whose frame the 16-bit length can count. -/
structure Framable (m : Message) : Prop where
  encodable : m.Encodable
  fits : sizeOfMessageLength + m.serializedSize < 2 ^ 16

theorem outgoingLength_toNat {m : Message} (h : Framable m) :
    (outgoingLength m).toNat = 2 + m.serializedSize := by
  have hfits := h.fits
  unfold sizeOfMessageLength at hfits
  rw [outgoingLength, BitVec.toNat_add, BitVec.toNat_ofNat, BitVec.toNat_ofNat, sizeOfMessageLength]
  omega

/-- The frame of a message: its length with the two bytes of the length counted, and
the encodings of the fields. -/
theorem writeFrame_eq (b : Build) {m : Message} (h : Framable m) :
    writeFrame b m = .ok ⟨outgoingLength m,toBytes 2 (2 + m.serializedSize) ++ m.encoding⟩ := by
  have hlen := outgoingLength_toNat h
  have hfits := h.fits
  unfold sizeOfMessageLength at hfits
  unfold writeFrame
  dsimp only
  rw [sizeOfMessageLength, hlen,
    BinarySerializer.writeIntegral_eq b.host (by decide) (by omega : 2 + m.serializedSize < 256 ^ 2),
    Message.serialize_eq b h.encodable, ok_bind, List.nil_append]

theorem buffer_eq {m : Message} (h : Framable m) :
    (⟨outgoingLength m,toBytes 2 (2 + m.serializedSize) ++ m.encoding⟩ : OutgoingFrame).buffer =
      toBytes 2 (2 + m.serializedSize) ++ m.encoding := by
  apply List.take_of_length_le
  rw [outgoingLength_toNat h, List.length_append, toBytes_length, Message.encoding_length]

/-- The payload of each frame and the number of bytes up to its end. -/
def boundaries : ℕ → List OutgoingFrame → List (List Byte × ℕ)
  | _, [] => []
  | start, frame :: frames =>
    (frame.buffer.drop 2,start + frame.buffer.length) ::
      boundaries (start + frame.buffer.length) frames

/-- The reader cuts the frames of the messages, written one after the other, exactly at
their boundaries. -/
def FramesInSync (b : Build) (host : Endian) (ms : List Message) : Prop :=
  ∃ frames, ms.mapM (writeFrame b) = .ok frames ∧
    (receive host (frames.flatMap OutgoingFrame.buffer)).delivered = boundaries 0 frames

theorem ofMemory_toBytes_ne (host : Endian) {n : ℕ} (h : n < 2 ^ 16) :
    2 + host.ofMemory (toBytes 2 n) ≠ n := by
  cases host with
  | little =>
    rw [Endian.ofMemory, ofBytes_toBytes_of_lt h]
    omega
  | big =>
    have hvalue : Endian.ofMemory .big (toBytes 2 n) = n / 256 % 256 + 256 * (n % 256) := by
      simp [Endian.ofMemory, toBytes, ByteOrder.ofBytes]
    have hhigh : n / 256 % 256 = n / 256 := Nat.mod_eq_of_lt (by omega)
    have hsplit := Nat.div_add_mod n 256
    rw [hvalue, hhigh]
    intro he
    -- the two values differ by a multiple of 255, never by two
    generalize n / 256 = high at hsplit he
    generalize n % 256 = low at hsplit he
    omega

/-- The first frame is already cut in the wrong place. -/
theorem FramesInSync.eq_nil {b : Build} {host : Endian} {ms : List Message}
    (h : ∀ m ∈ ms, Framable m) (hsync : FramesInSync b host ms) : ms = [] := by
  cases ms with
  | nil => rfl
  | cons m ms =>
    exfalso
    obtain ⟨frames,hframes,hdelivered⟩ := hsync
    have hm := h m List.mem_cons_self
    rw [List.mapM_cons, writeFrame_eq b hm, ok_bind] at hframes
    obtain ⟨fs,_,hfs⟩ := bind_eq_ok.mp hframes
    cases hfs
    have hfits := hm.fits
    unfold sizeOfMessageLength at hfits
    rw [List.flatMap_cons, boundaries, buffer_eq hm, List.append_assoc] at hdelivered
    rcases receive_delivered_head host (toBytes_length 2 (2 + m.serializedSize))
        (m.encoding ++ fs.flatMap OutgoingFrame.buffer) with hnil | ⟨tail,hcons⟩
    · rw [hnil] at hdelivered
      cases hdelivered
    · rw [hcons] at hdelivered
      have hpos := congrArg Prod.snd (List.cons.inj hdelivered).1
      simp only [Nat.zero_add, List.length_append, toBytes_length, Message.encoding_length] at hpos
      exact ofMemory_toBytes_ne host hfits hpos

/-- Writer and reader stay in step only while no message is sent. -/
theorem framesInSync_iff (b : Build) (host : Endian) {ms : List Message}
    (h : ∀ m ∈ ms, Framable m) : FramesInSync b host ms ↔ ms = [] := by
  constructor
  · exact FramesInSync.eq_nil h
  · rintro rfl
    exact ⟨[],rfl,rfl⟩

/-- A message of a type without fields. -/
def emptyMessage : Message := (Message.new 0 (MessageDescriptor.new 7) none).1

theorem emptyMessage_framable : Framable emptyMessage := by
  have hfields : emptyMessage.fields = [] := Message.new_fields 0 (MessageDescriptor.new 7) none
  constructor
  · intro f hf
    rw [hfields] at hf
    cases hf
  · rw [← Message.encoding_length, Message.encoding, hfields]
    decide

theorem emptyMessages_framable : ∀ m ∈ [emptyMessage,emptyMessage], Framable m := by
  intro m hm
  have he : m = emptyMessage := by simpa using hm
  rw [he]
  exact emptyMessage_framable

theorem framesInSync_iff_empty : FramesInSync ⟨.little,true⟩ .little [emptyMessage,emptyMessage] ↔
    [emptyMessage,emptyMessage] = [] :=
  framesInSync_iff ⟨.little,true⟩ .little emptyMessages_framable

/-- Two empty messages: the frame of the second is taken for the payload of the first. -/
theorem not_framesInSync_empty :
    ¬ FramesInSync ⟨.little,true⟩ .little [emptyMessage,emptyMessage] := by
  intro hsync
  have hnil := hsync.eq_nil emptyMessages_framable
  cases hnil

example : (receive .little [2,0,2,0]).delivered = [([2,0],4)] := by decide

end Isml.TcpTransport
