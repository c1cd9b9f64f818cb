import Isml.Message.SerializedSize
import Isml.Transport.OutgoingBuffer
import Isml.Transport.PendingRequests

/-! # A request that cannot be sent

`doRequest` enters a request in both tables and then sends its message. A field whose serializers
do not support the binary context makes the sending throw, several calls deep and only when the
queue was empty; the exception passes `doRequest`, which does not take the entries out again.
-/
namespace Isml
open LabelledRun StringStream

namespace Message

/-- The values are of the types of their fields, with containers of sizes that can be. -/
def Typed (m : Message) : Prop := ∀ f ∈ m.fields,
  f.type.HasType f.value ∧ f.type.Within BinarySerializer.maxContainerSize.toNat f.value

theorem Typed.encodable {m : Message} (h : m.Typed) (hs : m.Supported) : m.Encodable :=
  fun f hf => ⟨hs f hf,(h f hf).1,(h f hf).2⟩

end Message

namespace TcpTransport

/-- The exception of a call that leaves with one, or the assertion that stops it. -/
def faultOf {α : Type} : Result α → Option Fault
  | .ok _ => none
  | .error e => some e

/-- `writeMessage` of a thread that nobody interferes with. -/
def pullAndWrite (b : Build) (s : Outgoing) : Option Fault × Outgoing :=
  match s.queue.pull with
  | (none,queue) => (none,{ s with queue := queue })
  | (some m,queue) => (faultOf (writeFrame b m),writeMessage b m { s with queue := queue })

/-- `doSend` of a thread that nobody interferes with. -/
def doSend (b : Build) (msg : Message) (s : Outgoing) : Option Fault × Outgoing :=
  let inProgress := decide (0 < s.queue.size)
  let s := { s with queue := s.queue.push msg, sent := s.sent ++ [msg] }
  if !inProgress then pullAndWrite b s else (none,s)

/-- The two sides of a transport. -/
structure Client where
  requester : Requester
  outgoing : Outgoing

/-- `doRequest` with the exception that leaves it, if one does. -/
def Client.doRequest (b : Build) (msg : Message) (s : Client) : Option Fault × Client :=
  let requester := TcpTransport.doRequest msg s.requester
  let (fault,outgoing) := doSend b msg s.outgoing
  (fault,⟨requester,outgoing⟩)

/-- A request that throws leaves the tables and the outgoing queue as they were. -/
def LeavesNoTrace (b : Build) (msg : Message) (s : Client) : Prop :=
  ∀ e, (s.doRequest b msg).1 = some (.thrown e) →
    let t := (s.doRequest b msg).2
    t.requester.receiver.pendingRequests = s.requester.receiver.pendingRequests ∧
      t.requester.receiver.pendingRequestsTs = s.requester.receiver.pendingRequestsTs ∧
      t.outgoing.queue = s.outgoing.queue

section Send
variable {b : Build} {s : Outgoing} {msg : Message}

/-- A message behind others is left to their writer. -/
theorem doSend_behind (h : s.queue ≠ []) :
    doSend b msg s = (none,{ s with queue := s.queue.push msg, sent := s.sent ++ [msg] }) := by
  have hsize : decide (0 < s.queue.size) = true := decide_eq_true (List.length_pos_iff.mpr h)
  unfold doSend
  simp only [hsize, Bool.not_true, Bool.false_eq_true, if_false]

/-- A message that finds the queue empty is written at once. -/
theorem doSend_first (h : s.queue = []) : doSend b msg s =
    (faultOf (writeFrame b msg),writeMessage b msg { s with sent := s.sent ++ [msg] }) := by
  obtain ⟨queue,activities,outgoing,assignments,writes,wire,completed,failed,sent⟩ := s
  cases h
  rfl

theorem writeMessage_queue (s : Outgoing) : (writeMessage b msg s).queue = s.queue := by
  unfold writeMessage
  split <;> rfl

/-- Taken by itself `doSend` is a run of the steps that threads take. -/
theorem doSend_steps (b : Build) (msg : Message) (s : Outgoing) :
    ∃ trace, Run (Step b) s trace (doSend b msg s).2 := by
  by_cases hq : s.queue = []
  · obtain ⟨trace,_,hr,_⟩ := doSend_run b hq msg
    rw [doSend_first hq]
    exact ⟨trace,hr⟩
  · have hsize := Step.size (b := b) s msg
    rw [show decide (0 < s.queue.size) = true from decide_eq_true (List.length_pos_iff.mpr hq)] at hsize
    have hpush := Step.push (b := b)
      (s := { s with activities := .sized msg true :: s.activities }) (List.nil_append _).symm
    rw [doSend_behind hq]
    exact ⟨_,Run.cons hsize (Run.cons hpush (Run.nil _))⟩

end Send

section Throws
variable {b : Build} {msg : Message}

/-- The first field that is not supported throws; those in front of it can be written. -/
theorem serializeFields_unsupported {fs : List Field}
    (h : ∀ f ∈ fs, f.type.HasType f.value ∧ f.type.Within BinarySerializer.maxContainerSize.toNat f.value)
    (hs : ¬ ∀ f ∈ fs, CompositeSerializer.supportedBy f.serializers = true) (out : OStream) :
    fs.foldlM (fun out field => Field.serialize b field out) out =
      raise (.io "Serializer is not supported") := by
  induction fs generalizing out with
  | nil => exact absurd (by simp) hs
  | cons f fs ih =>
    obtain ⟨hf,hfs⟩ := List.forall_mem_cons.mp h
    rw [List.foldlM_cons]
    by_cases hsupported : CompositeSerializer.supportedBy f.serializers = true
    · rw [Field.serialize_eq b ⟨hsupported,hf.1,hf.2⟩, ok_bind]
      exact ih hfs (fun hall => hs (List.forall_mem_cons.mpr ⟨hsupported,hall⟩)) _
    · rw [Field.serialize, CompositeSerializer.serialize_unsupported b (by simpa using hsupported)]
      rfl

theorem faultOf_supported (h : msg.Typed) (hs : msg.Supported) : faultOf (writeFrame b msg) = none := by
  obtain ⟨frame,hframe⟩ := exists_writeFrame b (h.encodable hs)
  rw [hframe]
  rfl

theorem faultOf_unsupported (h : msg.Typed) (hs : ¬ msg.Supported) :
    faultOf (writeFrame b msg) = some (.thrown (.io "Serializer is not supported")) := by
  have hserialize : msg.serialize b (BinarySerializer.writeIntegral b.host sizeOfMessageLength
      (outgoingLength msg).toNat []) = raise (.io "Serializer is not supported") :=
    serializeFields_unsupported h hs _
  unfold writeFrame
  dsimp only
  rw [hserialize]
  rfl

theorem insertNew_eq_self_iff {β : Type} {map : AList fun _ : MessageId => β} {id : MessageId}
    {value : β} : insertNew id value map = map ↔ id ∈ map := by
  constructor
  · intro h
    by_contra hid
    rw [insertNew_of_notMem hid] at h
    exact hid (h ▸ (AList.mem_insert map).mpr (Or.inl rfl))
  · exact fun hid => if_pos hid

/-- A request throws exactly if it finds the queue empty and a field is not supported. -/
theorem doRequest_thrown_iff (h : msg.Typed) (s : Client) :
    (∃ e, (s.doRequest b msg).1 = some (.thrown e)) ↔ s.outgoing.queue = [] ∧ ¬ msg.Supported := by
  have hfault : (s.doRequest b msg).1 = (doSend b msg s.outgoing).1 := rfl
  rw [hfault]
  by_cases hq : s.outgoing.queue = []
  · rw [doSend_first hq]
    by_cases hs : msg.Supported
    · rw [faultOf_supported h hs]
      exact iff_of_false (fun ⟨_,he⟩ => nomatch he) fun hno => hno.2 hs
    · rw [faultOf_unsupported h hs]
      exact iff_of_true ⟨_,rfl⟩ ⟨hq,hs⟩
  · rw [doSend_behind hq]
    exact iff_of_false (fun ⟨_,he⟩ => nomatch he) fun hno => hq hno.1

/-- No trace is left exactly if nothing throws or both tables had an entry under the identifier. -/
theorem leavesNoTrace_iff (b : Build) {msg : Message} (h : msg.Typed) (s : Client) :
    LeavesNoTrace b msg s ↔ s.outgoing.queue ≠ [] ∨ msg.Supported ∨
      (msg.id ∈ s.requester.receiver.pendingRequests ∧ msg.id ∈ s.requester.receiver.pendingRequestsTs) := by
  constructor
  · intro htrace
    by_contra hnone
    rw [not_or, not_or, not_not] at hnone
    obtain ⟨hq,hs,hid⟩ := hnone
    obtain ⟨e,he⟩ := (doRequest_thrown_iff (b := b) h s).mpr ⟨hq,hs⟩
    obtain ⟨hpending,hts,_⟩ := htrace e he
    exact hid ⟨insertNew_eq_self_iff.mp hpending,insertNew_eq_self_iff.mp hts⟩
  · intro hcond e he
    obtain ⟨hq,hs⟩ := (doRequest_thrown_iff h s).mp ⟨e,he⟩
    obtain ⟨hpending,hts⟩ := (hcond.resolve_left (not_not.mpr hq)).resolve_left hs
    refine ⟨insertNew_eq_self_iff.mpr hpending,insertNew_eq_self_iff.mpr hts,?_⟩
    have hafter : (s.doRequest b msg).2.outgoing = (doSend b msg s.outgoing).2 := rfl
    rw [hafter, doSend_first hq, writeMessage_queue]

/-- `registerField<CompositeSerializer<JsonSerializer>, int>(name)`. -/
def jsonDescriptor (name : String) : FieldDescriptor :=
  ⟨name,.integral .int,⟨[.other "JsonSerializer"],List.nodup_singleton _⟩⟩

theorem exists_jsonMessage :
    ∃ m : Message, m.fields = [(jsonDescriptor "a").createField] ∧ m.Typed ∧ ¬ m.Supported := by
  have hnames : ([jsonDescriptor "a"].map FieldDescriptor.name).Nodup := List.nodup_singleton _
  obtain ⟨d,-,-,hl⟩ := MessageDescriptor.registerFields_fresh 7 hnames
  have hfields : (Message.new 0 d none).1.fields = [(jsonDescriptor "a").createField] := by
    rw [Message.new_fields, hl, List.rotate_singleton, List.map_singleton, List.rotate_singleton]
  refine ⟨(Message.new 0 d none).1,hfields,fun f hf => ?_,fun hs => ?_⟩
  · rw [hfields] at hf
    rw [List.mem_singleton.mp hf]
    exact ⟨Ty.default_hasType _,trivial⟩
  · have hfield := hs (jsonDescriptor "a").createField (by rw [hfields]; exact List.mem_cons_self)
    exact absurd hfield (by decide)

def idleClient : Client := ⟨idleRequester none 0,idleTransport⟩

theorem leavesNoTrace_iff_json : ∃ m : Message, m.fields = [(jsonDescriptor "a").createField] ∧
    (LeavesNoTrace ⟨.little,true⟩ m idleClient ↔ idleClient.outgoing.queue ≠ [] ∨ m.Supported ∨
      (m.id ∈ idleClient.requester.receiver.pendingRequests ∧
        m.id ∈ idleClient.requester.receiver.pendingRequestsTs)) := by
  obtain ⟨m,hfields,hm,_⟩ := exists_jsonMessage
  exact ⟨m,hfields,leavesNoTrace_iff ⟨.little,true⟩ hm idleClient⟩

/-- The request throws, and its entries stay. -/
theorem not_leavesNoTrace_json : ∃ m : Message, m.fields = [(jsonDescriptor "a").createField] ∧
    (idleClient.doRequest ⟨.little,true⟩ m).1 = some (.thrown (.io "Serializer is not supported")) ∧
      ¬ LeavesNoTrace ⟨.little,true⟩ m idleClient := by
  obtain ⟨m,hfields,hm,hs⟩ := exists_jsonMessage
  have hthrown : (idleClient.doRequest ⟨.little,true⟩ m).1 =
      some (.thrown (.io "Serializer is not supported")) := faultOf_unsupported hm hs
  refine ⟨m,hfields,hthrown,fun htrace => ?_⟩
  obtain ⟨hpending,_⟩ := htrace _ hthrown
  exact AList.notMem_empty m.id (insertNew_eq_self_iff.mp hpending)

end Throws

end TcpTransport

end Isml
