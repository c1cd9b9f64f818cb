import Isml.Transport.PeerMessages

/-! # The requests a peer has answered

What makes the futures of requests ready with messages is what was handed over to them, one message for
each. Of a peer that keeps to the format of the reader these are its own messages, each used once, and
each names the request it is for.
-/
namespace Isml
open ByteOrder StringStream LabelledRun

/-- The message a future became ready with. -/
def Completion.message : Completion → Option Message
  | .reply m => some m
  | .expired _ => none

/-- The messages that futures became ready with, in this order. -/
def Requester.answers (s : Requester) : List Message := s.completed.filterMap fun c => c.2.message

namespace TcpTransport

section Answers
variable {ticksPerSecond : ℕ} {b : Build} {factory : MessageFactory} {s t : ReceivePath} {e : PathEvent}
  {q q' : Requester} {r r' : Receiver}

end Answers

section Conversation
open SessionCreation
variable {ticksPerSecond : ℕ} {b : Build} {factory : MessageFactory} {s : ReceivePath}
  {ms : List (Message × List Byte)}

end Conversation

end TcpTransport

end Isml
