import Isml.Library.LabelledRun
import Isml.Transport.FrameSync

/-! # `TcpTransport`: the outgoing queue and everybody who works on it

Any number of threads are inside `doSend` while handlers of completed writes run
beside them. A step is one locked operation of the queue, one passage from a pulled
message to `async_write`, or the end of an outstanding write; between two steps of a
thread all others may take theirs.
-/
namespace Isml
open ByteOrder StringStream LabelledRun

abbrev MessageQueue := List Message

namespace MessageQueue

def push (m : Message) (queue : MessageQueue) : MessageQueue := queue ++ [m]

def pull : MessageQueue → Option Message × MessageQueue
  | [] => (none,[])
  | m :: queue => (some m,queue)

def size (queue : MessageQueue) : ℕ := queue.length

theorem pull_eq_some {queue rest : MessageQueue} {m : Message} :
    queue.pull = (some m,rest) ↔ queue = m :: rest := by
  cases queue <;> simp [pull]

theorem pull_eq_none {queue rest : MessageQueue} :
    queue.pull = (none,rest) ↔ queue = [] ∧ rest = [] := by
  cases queue with
  | nil => simp [pull, eq_comm]
  | cons m queue => simp [pull]

end MessageQueue

/-- Where a thread is: in `doSend` with the answer of `size()`, in front of the `pull()`
of `writeMessage`, or behind it with a message. -/
inductive Activity where
  | sized (msg : Message) (inProgress : Bool)
  | writing
  | pulled (msg : Message)

/-- An outstanding `async_write`: what was in the buffer it refers to, and how often the
outgoing members had been assigned when it was called. -/
structure PendingWrite where
  bytes : List Byte
  assignments : ℕ

/-- The outgoing side of a transport. `outgoing` is `m_outgoing_data_length` and what
`m_outgoing_data_buffer` is filled from. Kept for the statements are `assignments`, which
counts the assignments to the two, the bytes of the writes that ended, the number of those
that `completed`, whether one `failed`, and the messages `sent`, in the order of their pushes. -/
structure Outgoing where
  queue : MessageQueue
  activities : List Activity
  outgoing : OutgoingFrame
  assignments : ℕ
  writes : List PendingWrite
  wire : List Byte
  completed : ℕ
  failed : Bool
  sent : List Message

inductive SendEvent where
  | size (msg : Message)
  | push (inProgress : Bool)
  | pull
  | write (msg : Message)
  | complete
  | fail

namespace TcpTransport

def idleTransport : Outgoing := ⟨[],[],⟨0,[]⟩,0,[],[],0,false,[]⟩

/-- The rest of `doSend` behind the push. -/
def afterPush (inProgress : Bool) : List Activity := if !inProgress then [.writing] else []

/-- The rest of `writeMessage` behind the pull. When the message cannot be serialized the
exception leaves it after the length was assigned. -/
def writeMessage (b : Build) (m : Message) (s : Outgoing) : Outgoing :=
  match writeFrame b m with
  | .ok frame =>
    { s with
      outgoing := frame
      assignments := s.assignments + 1
      writes := s.writes ++ [⟨frame.buffer,s.assignments + 1⟩] }
  | .error _ =>
    { s with
      outgoing := ⟨outgoingLength m,s.outgoing.data⟩
      assignments := s.assignments + 1 }

/-- One step of one thread, or the end of a write. A write sends what its buffer holds,
as long as that is not assigned again; what it sends otherwise is not known. -/
inductive Step (b : Build) : Outgoing → SendEvent → Outgoing → Prop
  | size (s : Outgoing) (m : Message) : Step b s (.size m)
      { s with activities := .sized m (decide (0 < s.queue.size)) :: s.activities }
  | push {s : Outgoing} {m : Message} {inProgress : Bool} {xs ys : List Activity} :
      s.activities = xs ++ .sized m inProgress :: ys → Step b s (.push inProgress)
        { s with
          queue := s.queue.push m
          activities := xs ++ afterPush inProgress ++ ys
          sent := s.sent ++ [m] }
  | pullNothing {s : Outgoing} {queue : MessageQueue} {xs ys : List Activity} :
      s.activities = xs ++ .writing :: ys → s.queue.pull = (none,queue) →
        Step b s .pull { s with queue := queue, activities := xs ++ ys }
  | pull {s : Outgoing} {m : Message} {queue : MessageQueue} {xs ys : List Activity} :
      s.activities = xs ++ .writing :: ys → s.queue.pull = (some m,queue) →
        Step b s .pull { s with queue := queue, activities := xs ++ .pulled m :: ys }
  | write {s : Outgoing} {m : Message} {xs ys : List Activity} :
      s.activities = xs ++ .pulled m :: ys →
        Step b s (.write m) (writeMessage b m { s with activities := xs ++ ys })
  | complete {s : Outgoing} {w : PendingWrite} {bytes : List Byte} {ws vs : List PendingWrite} :
      s.writes = ws ++ w :: vs → (w.assignments = s.assignments → bytes = w.bytes) →
        Step b s .complete
          { s with
            activities := .writing :: s.activities
            writes := ws ++ vs
            wire := s.wire ++ bytes
            completed := s.completed + 1 }
  | fail {s : Outgoing} {w : PendingWrite} {bytes : List Byte} {ws vs : List PendingWrite} :
      s.writes = ws ++ w :: vs →
        Step b s .fail
          { s with
            writes := ws ++ vs
            wire := s.wire ++ bytes
            failed := true }

end TcpTransport

namespace Activity
variable (m : Message) (inProgress : Bool)

/-- The thread is in `writeMessage` or will get there. -/
def committed : Activity → Bool
  | .sized _ inProgress => !inProgress
  | .writing | .pulled _ => true

@[simp] theorem committed_sized : (sized m inProgress).committed = !inProgress := rfl

@[simp] theorem committed_writing : writing.committed = true := rfl

@[simp] theorem committed_pulled : (pulled m).committed = true := rfl

/-- The message the thread holds in `writeMessage`. -/
def inHand : Activity → Option Message
  | .pulled m => some m
  | _ => none

@[simp] theorem inHand_sized : (sized m inProgress).inHand = none := rfl

@[simp] theorem inHand_writing : writing.inHand = none := rfl

@[simp] theorem inHand_pulled : (pulled m).inHand = some m := rfl

end Activity

namespace Outgoing

/-- The outstanding writes and the threads that will look after the queue. -/
def busy (s : Outgoing) : ℕ := s.writes.length + s.activities.countP Activity.committed

/-- The messages that were pulled and are not written yet. -/
def inHand (s : Outgoing) : List Message := s.activities.filterMap Activity.inHand

end Outgoing

namespace TcpTransport

@[simp] theorem afterPush_true : afterPush true = [] := rfl

@[simp] theorem afterPush_false : afterPush false = [.writing] := rfl

end TcpTransport

end Isml
