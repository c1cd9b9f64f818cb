import Isml.Message.ReceivedMessages
import Isml.Session.SessionCreation
import Isml.Transport.ReceivePath

/-! # What a peer says, and what the receiving side makes of it

A peer that puts the number of bytes in front of each payload, as the reader takes it, and the type of
a message in front of its fields, is understood: its messages are handed over once each and in order,
however the network cuts its bytes and whatever the threads of `doReceive` and the requests do. Of a
peer that sends anything else, whatever is handed over is well formed.
-/
namespace Isml
open ByteOrder StringStream LabelledRun

namespace TcpTransport

section Accounting
variable {ticksPerSecond : ℕ} {b : Build} {factory : MessageFactory} {s t : ReceivePath} {e : PathEvent}
  {r r' : Receiver}

/-- A message that was handed over went into the queue, where it is still or was returned, or made the
future of a request ready. -/
structure Accounting (s : ReceivePath) : Prop where
  queued : s.queued = s.returned ++ s.queue
  replies : s.replies = s.requester.receiver.futures.map Prod.snd

@[simp] theorem handedOver_self (r : Receiver) : r.handedOver r = [] := by
  simp [Receiver.handedOver]

@[simp] theorem handedOver_queue (m : Message) (r : Receiver) :
    r.handedOver { r with incomingMessages := r.incomingMessages ++ [m] } = [(true,m)] := by
  simp [Receiver.handedOver]

end Accounting

section AnyPeer
variable {ticksPerSecond : ℕ} {b : Build} {factory : MessageFactory} {s t : ReceivePath} {e : PathEvent}

/-- The message was made from the payload. -/
def MadeFrom (b : Build) (factory : MessageFactory) (m : Message) (payload : List Byte) : Prop :=
  ∃ session counter junk stream, createMessageFromStream b factory session counter junk
    (IStream.ofBytes payload) = .ok (some m,stream)

/-- The messages that were handed over were made from different payloads, in their order. -/
def EachFromItsOwn (b : Build) (factory : MessageFactory) (s : ReceivePath) : Prop :=
  ∃ payloads, payloads.Sublist (s.incoming.delivered.map Prod.fst) ∧
    List.Forall₂ (MadeFrom b factory) (s.handled.map Prod.snd) payloads

/-- What holds whatever a peer sends, and whatever else happens. -/
structure PathKept (ticksPerSecond : ℕ) (b : Build) (factory : MessageFactory) (s : ReceivePath) :
    Prop where
  framed : Framed b.host s.arrived s.incoming
  made : EachFromItsOwn b factory s
  accounting : Accounting s
  tabled : Tabled ticksPerSecond s.requester

theorem PathKept.delivered (h : PathKept ticksPerSecond b factory s) :
    s.incoming.delivered.map Prod.fst <+: payloadsOf b.host s.arrived ∧
      (completeRead b.host s.incoming = none →
        s.incoming.delivered.map Prod.fst = payloadsOf b.host s.arrived) := by
  have hall := h.framed []
  rw [List.append_nil, List.append_nil] at hall
  refine ⟨⟨_,hall.symm⟩,fun hnone => ?_⟩
  rw [hall, payloadsOf_unframed hnone, List.append_nil]

end AnyPeer

section Protocol
open SessionCreation
variable {ticksPerSecond : ℕ} {b : Build} {factory : MessageFactory} {s t : ReceivePath} {e : PathEvent}
  {host : Endian} {ms : List (Message × List Byte)}

/-- A payload on the connection, as the reader takes it. -/
def frameOf (host : Endian) (payload : List Byte) : List Byte :=
  host.toMemory sizeOfMessageLength payload.length ++ payload

/-- The bytes the peer sends for its messages. -/
def streamOf (host : Endian) (ms : List (Message × List Byte)) : List Byte :=
  ms.flatMap fun m => frameOf host m.2

theorem payloadsOf_streamOf (hfits : ∀ m ∈ ms, m.2.length < 2 ^ 16) :
    payloadsOf host (streamOf host ms) = ms.map Prod.snd := by
  induction ms with
  | nil => exact cuts_iff.mp (.short (by simp [streamOf]))
  | cons m ms ih =>
    obtain ⟨hm,hms⟩ := List.forall_mem_cons.mp hfits
    have hvalue : host.ofMemory (host.toMemory sizeOfMessageLength m.2.length) = m.2.length :=
      Endian.ofMemory_toMemory host hm
    have hstream : streamOf host (m :: ms) =
        host.toMemory sizeOfMessageLength m.2.length ++ (m.2 ++ streamOf host ms) := by
      simp [streamOf, frameOf]
    have hcut := payloadsOf_frame (Endian.toMemory_length host sizeOfMessageLength m.2.length)
      (show host.ofMemory _ ≤ (m.2 ++ streamOf host ms).length by rw [hvalue]; simp)
    rw [hvalue, List.take_left, List.drop_left] at hcut
    rw [hstream, hcut, ih hms, List.map_cons]

/-- The messages that were handed over are the first ones of the peer. -/
structure ReadInOrder (host : Endian) (ms : List (Message × List Byte)) (s : ReceivePath) : Prop where
  arrived : s.arrived <+: streamOf host ms
  received : ∃ read behind, ms = read ++ behind ∧
    s.incoming.delivered.map Prod.fst = read.map Prod.snd ∧
    List.Forall₂ Message.SameContents (s.handled.map Prod.snd) (read.map Prod.fst)

/-- The payload that is read is the next one. -/
theorem ReadInOrder.next (h : ReadInOrder host ms s) (hfits : ∀ m ∈ ms, m.2.length < 2 ^ 16)
    {incoming : Incoming} {payload : List Byte} {consumed : ℕ} (hframed : Framed host s.arrived incoming)
    (hdelivered : incoming.delivered = s.incoming.delivered ++ [(payload,consumed)]) :
    ∃ read m behind, ms = read ++ m :: behind ∧ m.2 = payload ∧
      s.incoming.delivered.map Prod.fst = read.map Prod.snd ∧
      List.Forall₂ Message.SameContents (s.handled.map Prod.snd) (read.map Prod.fst) := by
  obtain ⟨read,behind,hms,hread,hsame⟩ := h.received
  obtain ⟨more,hmore⟩ := h.arrived
  have hall := hframed more
  rw [hmore, payloadsOf_streamOf hfits, hdelivered, hms, List.map_append, List.map_append, hread,
    List.append_assoc, List.append_cancel_left_eq] at hall
  cases behind with
  | nil => simp at hall
  | cons m behind =>
    have hm : m.2 = payload := by simpa using (List.cons.inj hall).1
    exact ⟨read,m,behind,hms,hm,hread,hsame⟩

end Protocol

end TcpTransport

end Isml
