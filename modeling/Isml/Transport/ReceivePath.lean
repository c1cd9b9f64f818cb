import Isml.Transport.Segmentation
import Isml.Transport.PendingRequests
import Isml.Transport.ConcurrentReceive

/-! # The receiving side of a transport as a whole

Bytes arrive in pieces of any size, reads complete when all their bytes are there, a message that was
read goes to a request or into the queue, and threads in `doReceive` take messages out of the queue;
the requests come and expire meanwhile. All of these are steps of one state, in any order.
-/
namespace Isml
open ByteOrder StringStream LabelledRun

/-- The reader, the requests with the incoming queue, and the threads inside `doReceive`, each with the
answer of its test. Kept for the statements are all bytes that have arrived, the messages that were
handed over, each with whether it went into the queue, and the results of `doReceive`. -/
structure ReceivePath where
  incoming : Incoming
  requester : Requester
  receivers : List Bool
  arrived : List Byte
  handled : List (Bool × Message)
  results : List (Option (Option Message))

namespace ReceivePath

def queue (s : ReceivePath) : MessageQueue := s.requester.receiver.incomingMessages

/-- The messages that were returned, in the order of the pulls. -/
def returned (s : ReceivePath) : List Message := s.results.filterMap Option.join

/-- The messages that went into the queue, in this order. -/
def queued (s : ReceivePath) : List Message := (s.handled.filter Prod.fst).map Prod.snd

/-- The messages that went to requests, in this order. -/
def replies (s : ReceivePath) : List Message := (s.handled.filter fun h => !h.1).map Prod.snd

def idle (session : Option SessionId) (now : ℕ) : ReceivePath :=
  ⟨TcpTransport.startReading [],TcpTransport.idleRequester session now,[],[],[],[]⟩

end ReceivePath

/-- The messages by which a receiver has grown. -/
def Receiver.handedOver (r r' : Receiver) : List (Bool × Message) :=
  (r'.incomingMessages.drop r.incomingMessages.length).map (fun m => (true,m)) ++
    (r'.futures.drop r.futures.length).map fun f => (false,f.2)

namespace TcpTransport

section Framing
variable {host : Endian} {ticksPerSecond : ℕ} {b : Build} {factory : MessageFactory} {s t : ReceivePath}
  {e : PathEvent}

/-- The bytes that are not part of a payload yet: a length that was read, and what is behind it. -/
def unframed (host : Endian) (s : Incoming) : List Byte :=
  match s.operation with
  | .messageLength => s.unread
  | .message => host.toMemory sizeOfMessageLength s.length.toNat ++ s.unread

/-- What the reader has delivered and what it has still to cut are what the stream is cut into, now
and whatever arrives later. -/
def Framed (host : Endian) (arrived : List Byte) (s : Incoming) : Prop :=
  ∀ more, payloadsOf host (arrived ++ more) =
    s.delivered.map Prod.fst ++ payloadsOf host (unframed host s ++ more)

theorem toMemory_length_read (host : Endian) (b₀ b₁ : Byte) :
    host.toMemory sizeOfMessageLength (BitVec.ofNat 16 (host.ofMemory [b₀,b₁])).toNat = [b₀,b₁] := by
  have hlt := ofMemory_pair_lt host b₀ b₁
  have hpair : [b₀,b₁].length = 2 := rfl
  rw [BitVec.toNat_ofNat, Nat.mod_eq_of_lt hlt]
  exact Endian.toMemory_ofMemory host [b₀,b₁]

theorem payloadsOf_frame {header rest : List Byte} (hlen : header.length = 2)
    (hle : host.ofMemory header ≤ rest.length) : payloadsOf host (header ++ rest) =
      rest.take (host.ofMemory header) :: payloadsOf host (rest.drop (host.ofMemory header)) := by
  obtain ⟨b₀,b₁,rfl⟩ : ∃ b₀ b₁, header = [b₀,b₁] := List.length_eq_two.mp hlen
  exact cuts_iff.mp (.frame hle (cuts_payloadsOf host _))

/-- What the completion of a read makes of the reader. -/
theorem completeRead_cases {s s' : Incoming} (h : completeRead host s = some s') :
    (s.operation = .messageLength ∧ s'.delivered = s.delivered ∧ unframed host s' = s.unread) ∨
      s.operation = .message ∧ s.length.toNat ≤ s.unread.length ∧
        unframed host s' = s.unread.drop s.length.toNat ∧ ∃ consumed,
          s'.delivered = s.delivered ++ [(s.unread.take s.length.toNat,consumed)] := by
  unfold completeRead at h
  cases hop : s.operation with
  | messageLength =>
    left
    simp only [hop] at h
    obtain ⟨⟨bytes,unread⟩,hread,rfl⟩ := Option.map_eq_some_iff.mp h
    rcases hunread : s.unread with _ | ⟨b₀,_ | ⟨b₁,rest⟩⟩
    · simp [asyncRead, hunread, sizeOfMessageLength] at hread
    · simp [asyncRead, hunread, sizeOfMessageLength] at hread
    · simp only [asyncRead, hunread, sizeOfMessageLength, List.length_cons] at hread
      obtain ⟨rfl,rfl⟩ : bytes = [b₀,b₁] ∧ unread = rest := by simpa [eq_comm] using hread
      refine ⟨rfl,rfl,?_⟩
      simp only [unframed, toMemory_length_read]
      rfl
  | message =>
    right
    simp only [hop] at h
    obtain ⟨⟨payload,unread⟩,hread,rfl⟩ := Option.map_eq_some_iff.mp h
    unfold asyncRead at hread
    split_ifs at hread with hle
    cases hread
    exact ⟨rfl,hle,rfl,_,rfl⟩

theorem Framed.completeRead {arrived : List Byte} {s s' : Incoming} (h : Framed host arrived s)
    (hread : completeRead host s = some s') : Framed host arrived s' := by
  intro more
  rw [h more]
  rcases completeRead_cases hread with ⟨hop,hdelivered,hunframed⟩ | ⟨hop,hle,hunframed,_,hdelivered⟩
  · rw [hdelivered, hunframed]
    simp only [unframed, hop]
  · have hlt : s.length.toNat < 256 ^ sizeOfMessageLength := s.length.isLt
    have hvalue := Endian.ofMemory_toMemory host hlt
    have hcut := payloadsOf_frame (Endian.toMemory_length host sizeOfMessageLength s.length.toNat)
      (show host.ofMemory _ ≤ (s.unread ++ more).length by rw [hvalue, List.length_append]; omega)
    rw [hvalue, List.take_append_of_le_length hle, List.drop_append_of_le_length hle] at hcut
    have hs : unframed host s = host.toMemory sizeOfMessageLength s.length.toNat ++ s.unread := by
      simp only [unframed, hop]
    rw [hs, hunframed, hdelivered, List.append_assoc, hcut]
    simp

/-- Where the reader waits there is no frame left in what it has not cut. -/
theorem payloadsOf_unframed {s : Incoming} (h : completeRead host s = none) :
    payloadsOf host (unframed host s) = [] := by
  unfold completeRead at h
  unfold unframed
  cases hop : s.operation with
  | messageLength =>
    simp only [hop, Option.map_eq_none_iff, asyncRead] at h
    split_ifs at h with hle
    exact cuts_iff.mp (.short (Nat.lt_of_not_le hle))
  | message =>
    simp only [hop, Option.map_eq_none_iff, asyncRead] at h
    split_ifs at h with hle
    have hlen : (host.toMemory sizeOfMessageLength s.length.toNat).length = 2 := Endian.toMemory_length _ _ _
    have hlt : s.length.toNat < 256 ^ sizeOfMessageLength := s.length.isLt
    have hvalue := Endian.ofMemory_toMemory host hlt
    obtain ⟨b₀,b₁,hheader⟩ := List.length_eq_two.mp hlen
    rw [hheader] at hvalue
    rw [hheader]
    have hshort : s.unread.length < host.ofMemory [b₀,b₁] := by
      rw [hvalue]
      exact Nat.lt_of_not_le hle
    exact cuts_iff.mp (.waiting hshort)

end Framing

end TcpTransport

end Isml
