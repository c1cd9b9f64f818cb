import Isml.Message.Message

/-! # `TcpTransport`: frames, and what happens to a payload

The outgoing side turns a message into the bytes one `async_write` is given. The
incoming side reads a length and then that many bytes, in turn; a payload is decoded
and its message handed to the request it answers or to the incoming queue.
-/
namespace Isml
open ByteOrder StringStream

/-- The outgoing data of a transport: its length, and the contents of the string
stream its buffer is filled from. -/
structure OutgoingFrame where
  length : MessageLength
  data : List Byte
  deriving DecidableEq, Repr

/-- The bytes `async_write` is asked to send. -/
def OutgoingFrame.buffer (frame : OutgoingFrame) : List Byte := frame.data.take frame.length.toNat

/-- A promise of a pending request. -/
structure Request where
  satisfied : Bool
  deriving DecidableEq, Repr

/-- The part of a transport that handles a payload. `session` is the session the
transport belongs to, or nothing as long as no `shared_ptr` owns that; `futures` lists
the values the futures of requests have become ready with. -/
structure Receiver where
  session : Option SessionId
  pendingRequests : AList fun _ : MessageId => Request
  pendingRequestsTs : AList fun _ : MessageId => ℕ
  incomingMessages : List Message
  futures : List (MessageId × Message)

inductive ReadOperation where
  | messageLength
  | message
  deriving DecidableEq, Repr

/-- The reading side: the outstanding `async_read`, `m_incoming_data_length`, the bytes
of the connection that are still unread and the number of those that were read, and the
payloads given to `onMessageRead`, each with the number of bytes read until then. -/
structure Incoming where
  operation : ReadOperation
  length : MessageLength
  unread : List Byte
  consumed : ℕ
  delivered : List (List Byte × ℕ)
  deriving DecidableEq, Repr

namespace TcpTransport

def sizeOfMessageLength : ℕ := 2

/-- `m_outgoing_data_length` after the two additions, each modulo `2 ^ 16`. -/
def outgoingLength (m : Message) : MessageLength :=
  BitVec.ofNat 16 sizeOfMessageLength + BitVec.ofNat 16 m.serializedSize

/-- `writeMessage` up to the call of `async_write`. -/
def writeFrame (b : Build) (m : Message) : Result OutgoingFrame := do
  let length := outgoingLength m
  let data ← m.serialize b
    (BinarySerializer.writeIntegral b.host sizeOfMessageLength length.toNat [])
  .ok ⟨length,data⟩

/-- The stream a frame is made from is as long as the sizes say, whatever the length member holds. -/
theorem writeFrame_length {b : Build} {m : Message} {frame : OutgoingFrame}
    (h : writeFrame b m = .ok frame) :
    frame.length = outgoingLength m ∧ frame.data.length = sizeOfMessageLength + m.serializedSize := by
  obtain ⟨data,hdata,h⟩ := bind_eq_ok.mp h
  cases h
  have hlen := Message.serialize_length hdata
  rw [BinarySerializer.writeIntegral, BinarySerializer.writeObject_length, List.length_nil,
    Nat.zero_add] at hlen
  exact ⟨rfl,hlen⟩

/-- `async_read` with `transfer_all`: it completes when all its bytes are there. -/
def asyncRead (n : ℕ) (unread : List Byte) : Option (List Byte × List Byte) :=
  if n ≤ unread.length then some (unread.take n,unread.drop n) else none

/-- The completion of the outstanding read: the handlers of `readMessageLength` and of
`readMessage`. The length is read into the member as it lies in memory. -/
def completeRead (host : Endian) (s : Incoming) : Option Incoming :=
  match s.operation with
  | .messageLength =>
    (asyncRead sizeOfMessageLength s.unread).map fun (bytes,unread) =>
      { s with
        operation := .message
        length := BitVec.ofNat 16 (host.ofMemory bytes)
        unread := unread
        consumed := s.consumed + sizeOfMessageLength }
  | .message =>
    (asyncRead s.length.toNat s.unread).map fun (payload,unread) =>
      { s with
        operation := .messageLength
        unread := unread
        consumed := s.consumed + s.length.toNat
        delivered := s.delivered ++ [(payload,s.consumed + s.length.toNat)] }

/-- `doStart` on a connection that brings the given bytes. -/
def startReading (bytes : List Byte) : Incoming := ⟨.messageLength,0,bytes,0,[]⟩

def completeReads (host : Endian) : ℕ → Incoming → Incoming
  | 0, s => s
  | n + 1, s =>
    match completeRead host s with
    | none => s
    | some s' => completeReads host n s'

/-- The reader after it has got everything out of the given bytes. -/
def receive (host : Endian) (bytes : List Byte) : Incoming :=
  completeReads host (bytes.length + 1) (startReading bytes)

/-- `MessageType type {}` and the read of it. -/
def readMessageType (b : Build) (s : IStream) : MessageType × IStream :=
  let (type,s) := BinarySerializer.readIntegral b.host 2 0 s
  (BitVec.ofNat 16 type,s)

def createMessageFromStream (b : Build) (factory : MessageFactory) (session : Option SessionId)
    (counter : MessageId) (junk : Junk) (s : IStream) : Result (Option Message × IStream) := do
  let (type,s) := readMessageType b s
  if !factory.hasDescriptor type then .ok (none,s)
  else do
    let (message,_) ← factory.createMessage counter type session
    let (message,s) ← message.deserialize b junk s
    .ok (some message,s)

theorem createMessageFromStream_eq_ok {b : Build} {factory : MessageFactory}
    {session : Option SessionId} {counter : MessageId} {junk : Junk} {s s' : IStream} {r : Message}
    (h : createMessageFromStream b factory session counter junk s = .ok (some r,s')) :
    ∃ d id, factory.descriptors.lookup (readMessageType b s).1 = some d ∧ session = some id ∧
      r.type = (readMessageType b s).1 ∧
      FieldSet.deserializeFields b junk (Message.new counter d (some id)).1.fields
        (readMessageType b s).2 = .ok (r.fields,s') := by
  unfold createMessageFromStream at h
  dsimp only at h
  split at h
  · cases h
  · obtain ⟨⟨message,c⟩,hm,h⟩ := bind_eq_ok.mp h
    obtain ⟨⟨r',s1⟩,hr,h⟩ := bind_eq_ok.mp h
    cases h
    obtain ⟨d,id,hd,hid,hnew⟩ := MessageFactory.createMessage_eq_ok hm
    obtain ⟨htype,hfields⟩ := Message.deserialize_eq_ok hr
    have hmessage : message = (Message.new counter d (some id)).1 := congrArg Prod.fst hnew
    rw [hmessage] at htype hfields
    exact ⟨d,id,hd,hid,htype.trans (factory.keyed _ d hd),hfields⟩

theorem createMessageFromStream_of_fields {b : Build} {factory : MessageFactory}
    {session : SessionId} {counter : MessageId} {junk : Junk} {s s' : IStream}
    {d : MessageDescriptor} {fs : List Field}
    (hd : factory.descriptors.lookup (readMessageType b s).1 = some d)
    (h : FieldSet.deserializeFields b junk (Message.new counter d (some session)).1.fields
      (readMessageType b s).2 = .ok (fs,s')) :
    ∃ r, createMessageFromStream b factory (some session) counter junk s = .ok (some r,s') ∧
      r.type = (readMessageType b s).1 ∧ r.fields = fs := by
  have hhas : factory.hasDescriptor (readMessageType b s).1 = true := by
    simpa [MessageFactory.hasDescriptor] using AList.lookup_isSome.mp (by rw [hd]; rfl)
  obtain ⟨r,hr,htype,hfields⟩ := Message.deserialize_of_fields h
  refine ⟨r,?_,htype.trans (factory.keyed _ d hd),hfields⟩
  unfold createMessageFromStream
  dsimp only
  rw [hhas, Bool.not_true, if_neg Bool.false_ne_true,
    MessageFactory.createMessage_registered counter session hd, ok_bind]
  exact bind_eq_ok.mpr ⟨_,hr,rfl⟩

/-- `MessageId` as a type of fields. -/
def messageIdType : Ty := .integral .unsignedInt

def srcMsgId : String := "srcMsgId"

/-- The message is decoded: it goes to the request it answers, if that is pending, and
into the queue otherwise. -/
def handOver (message : Message) (s : Receiver) : Result Receiver :=
  if message.hasField srcMsgId then do
    let field ← message.field messageIdType srcMsgId
    let id : MessageId := BitVec.ofNat 32 field.value.toBits
    match s.pendingRequests.lookup id with
    | some promise =>
      if promise.satisfied then raise .promiseAlreadySatisfied
      else .ok { s with
        pendingRequests := s.pendingRequests.erase id
        pendingRequestsTs := s.pendingRequestsTs.erase id
        futures := s.futures ++ [(id,message)] }
    | none => .ok { s with incomingMessages := s.incomingMessages ++ [message] }
  else .ok { s with incomingMessages := s.incomingMessages ++ [message] }

/-- The body of the `try` block of `onMessageRead`. -/
def tryMessageRead (b : Build) (factory : MessageFactory) (counter : MessageId) (junk : Junk)
    (payload : List Byte) (s : Receiver) : Result Receiver := do
  let (message,_) ← createMessageFromStream b factory s.session counter junk
    (IStream.ofBytes payload)
  match message with
  | some message => handOver message s
  | none => .ok s

/-- Exceptions are caught and nothing is done about them; nothing was changed before
any of them. -/
def onMessageRead (b : Build) (factory : MessageFactory) (counter : MessageId) (junk : Junk)
    (payload : List Byte) (s : Receiver) : Result Receiver :=
  match tryMessageRead b factory counter junk payload s with
  | .ok s' => .ok s'
  | .error (.thrown _) => .ok s
  | .error .assertionFailed => .error .assertionFailed

end TcpTransport

end Isml
