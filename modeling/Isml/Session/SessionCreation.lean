import Isml.Message.MessageRoundTrip
import Isml.Session.SessionManager
import Isml.Transport.PendingRequests

/-! # Frames that arrive while their session is created

The constructor of a session starts its transport, and `std::make_shared` makes the session
known to `shared_from_this` only behind the constructor. The I/O thread takes frames as soon
as the transport has started, and needs the shared pointer for every message it creates.
-/
namespace Isml
open ByteOrder LabelledRun StringStream TcpTransport

/-- Where `createSession` is: in front of the factory of ids, in the constructor of the session in
front of `start` and behind it, behind `make_shared`, behind the insertion into the table, or at
its end; or `start` has thrown. -/
inductive Creating where
  | entered
  | constructing (id : SessionId)
  | started (id : SessionId)
  | owned (id : SessionId)
  | inserted (id : SessionId)
  | returned
  | failed
  deriving DecidableEq, Repr

namespace Creating

/-- The transport has started to read. -/
def reading : Creating → Bool
  | .started _ | .owned _ | .inserted _ | .returned => true
  | _ => false

/-- `shared_from_this` works. -/
def owning : Creating → Bool
  | .owned _ | .inserted _ | .returned => true
  | _ => false

/-- The session is known outside of `createSession`. -/
def shared : Creating → Bool
  | .inserted _ | .returned => true
  | _ => false

end Creating

/-- One call of `createSession` and the transport of its session. -/
structure SessionCreation where
  manager : SessionManager
  place : Creating
  requester : Requester

inductive CreationEvent where
  | generateId
  | start (outcome : Outcome)
  | own
  | insert
  | opened (outcome : Outcome)
  | read (factory : MessageFactory) (counter : MessageId) (junk : Junk) (payload : List Byte)
  | receive
  | elapse (ticks : ℕ)
  | request (msg : Message)
  | removeExpired (visits : List Visit)

/-- A well-formed frame without its length: the type of the message, which is registered, and the
encodings of the fields of a message of this type. -/
def IsFrame (factory : MessageFactory) (m : Message) (payload : List Byte) : Prop :=
  ∃ d values, factory.descriptors.lookup d.type = some d ∧
    m = (Message.new 0 d none).1.fill values ∧ m.Writable ∧
    payload = toBytes 2 m.type.toNat ++ m.encoding

namespace SessionCreation

def create (manager : SessionManager) (now : ℕ) : SessionCreation :=
  ⟨manager,.entered,idleRequester none now⟩

/-- A step of `createSession`, a frame taken by the I/O thread, or something done by somebody who
has got the session. -/
inductive Step (b : Build) (ticksPerSecond : ℕ) :
    SessionCreation → CreationEvent → SessionCreation → Prop
  | generateId {s : SessionCreation} : s.place = .entered → Step b ticksPerSecond s .generateId
      { s with manager := s.manager.generateId.2, place := .constructing s.manager.generateId.1 }
  | start {s : SessionCreation} {id : SessionId} : s.place = .constructing id →
      Step b ticksPerSecond s (.start .returns) { s with place := .started id }
  | startThrows {s : SessionCreation} {id : SessionId} : s.place = .constructing id →
      Step b ticksPerSecond s (.start .throws) { s with place := .failed }
  | own {s : SessionCreation} {id : SessionId} : s.place = .started id → Step b ticksPerSecond s .own
      { s with
        place := .owned id
        requester := { s.requester with receiver := { s.requester.receiver with session := some id } } }
  | insert {s : SessionCreation} {id : SessionId} : s.place = .owned id →
      Step b ticksPerSecond s .insert
        { s with manager := s.manager.insertSession ⟨id⟩, place := .inserted id }
  | opened {s : SessionCreation} {id : SessionId} {outcome : Outcome} : s.place = .inserted id →
      Step b ticksPerSecond s (.opened outcome) { s with place := .returned }
  | read {s : SessionCreation} {requester : Requester} {factory : MessageFactory}
      {counter : MessageId} {junk : Junk} {payload : List Byte} : s.place.reading = true →
      readReply b factory counter junk payload s.requester = .ok requester →
        Step b ticksPerSecond s (.read factory counter junk payload) { s with requester := requester }
  | receive {s : SessionCreation} {m : Message} {ms : List Message} : s.place.shared = true →
      s.requester.receiver.incomingMessages = m :: ms → Step b ticksPerSecond s .receive
        { s with requester := { s.requester with
          receiver := { s.requester.receiver with incomingMessages := ms } } }
  | elapse (s : SessionCreation) (ticks : ℕ) : Step b ticksPerSecond s (.elapse ticks)
      { s with requester := { s.requester with now := s.requester.now + ticks } }
  | request {s : SessionCreation} {msg : Message} : s.place.shared = true →
      Step b ticksPerSecond s (.request msg) { s with requester := doRequest msg s.requester }
  | removeExpired {s : SessionCreation} {visits : List Visit} : s.place.shared = true →
      TcpTransport.Visits s.requester visits → Step b ticksPerSecond s (.removeExpired visits)
        { s with requester := removeExpiredRequests ticksPerSecond visits s.requester }

/-- The message of a well-formed frame is in the queue or was given to a pending request. -/
def NotLost (s : SessionCreation) (e : CreationEvent) (t : SessionCreation) : Prop :=
  match e with
  | .read factory _ _ payload => ∀ m, IsFrame factory m payload →
      ∃ m', m'.SameContents m ∧ Accounted s.requester.receiver m' t.requester.receiver
  | _ => True

/-- A field `srcMsgId` of the message is a `MessageId`. -/
def Correlates (m : Message) : Prop :=
  ∀ f, m.fieldset.get srcMsgId = some f → f.valueType = messageIdType.name

/-- When a well-formed frame is taken, `make_shared` has returned, and a field `srcMsgId` of its
message is a `MessageId`. -/
def TakenOwned (s : SessionCreation) : CreationEvent → Prop
  | .read factory _ _ payload => ∀ m, IsFrame factory m payload → s.place.owning = true ∧ Correlates m
  | _ => True

/-- No promise that is pending is satisfied. -/
def Unsatisfied (r : Receiver) : Prop :=
  ∀ id promise, r.pendingRequests.lookup id = some promise → promise.satisfied = false

structure Steady (s : SessionCreation) : Prop where
  unsatisfied : Unsatisfied s.requester.receiver
  owned : s.place.owning = true → ∃ id, s.requester.receiver.session = some id
  unowned : s.place.owning = false → s.requester.receiver.session = none

theorem Unsatisfied.shrink {r r' : Receiver} (h : Unsatisfied r) (hr : Shrinks r r') :
    Unsatisfied r' :=
  fun id promise hpromise => h id promise (hr.lookup id promise hpromise)

theorem unsatisfied_doRequest {q : Requester} (h : Unsatisfied q.receiver) (msg : Message) :
    Unsatisfied (doRequest msg q).receiver := by
  intro id promise hpromise
  change (insertNew msg.id ⟨false⟩ q.receiver.pendingRequests).lookup id = some promise at hpromise
  unfold insertNew at hpromise
  split_ifs at hpromise
  · exact h id promise hpromise
  · by_cases hid : id = msg.id
    · rw [hid, AList.lookup_insert] at hpromise
      cases hpromise
      rfl
    · rw [AList.lookup_insert_ne hid] at hpromise
      exact h id promise hpromise

variable {b : Build} {ticksPerSecond : ℕ} {s t : SessionCreation} {e : CreationEvent}

theorem Steady.of_requester {requester : Requester} (h : Steady s)
    (hr : Unsatisfied requester.receiver ∧
      requester.receiver.session = s.requester.receiver.session) :
    Steady { s with requester := requester } := by
  refine ⟨hr.1,fun howning => ?_,fun howning => ?_⟩
  · obtain ⟨id,hid⟩ := h.owned howning
    exact ⟨id,hr.2.trans hid⟩
  · exact hr.2.trans (h.unowned howning)

theorem Steady.shrink {requester : Requester} (h : Steady s)
    (hr : Shrinks s.requester.receiver requester.receiver) :
    Steady { s with requester := requester } :=
  h.of_requester ⟨h.unsatisfied.shrink hr,hr.session⟩

theorem Steady.move {place : Creating} {manager : SessionManager} (h : Steady s)
    (hsame : s.place.owning = place.owning) :
    Steady { s with manager := manager, place := place } :=
  ⟨h.unsatisfied,fun howning => h.owned (hsame.trans howning),
    fun howning => h.unowned (hsame.trans howning)⟩

theorem Steady.step (h : Steady s) (hstep : Step b ticksPerSecond s e t) : Steady t := by
  cases hstep with
  | generateId hplace => exact h.move (by rw [hplace]; rfl)
  | start hplace => exact h.move (by rw [hplace]; rfl)
  | startThrows hplace => exact h.move (by rw [hplace]; rfl)
  | own hplace => exact ⟨h.unsatisfied,fun _ => ⟨_,rfl⟩,fun hnot => by cases hnot⟩
  | insert hplace => exact h.move (by rw [hplace]; rfl)
  | opened hplace => exact h.move (by rw [hplace]; rfl)
  | read hreading hread => exact h.shrink (shrinks_readReply hread)
  | receive hshared hqueue => exact h.of_requester ⟨h.unsatisfied,rfl⟩
  | elapse ticks => exact h.of_requester ⟨h.unsatisfied,rfl⟩
  | request hshared => exact h.of_requester ⟨unsatisfied_doRequest h.unsatisfied _,rfl⟩
  | removeExpired hshared hvisits => exact h.shrink (shrinks_removeExpiredRequests _ _)

section Frames
variable {factory : MessageFactory} {counter : MessageId} {junk : Junk} {payload : List Byte}
  {m m' : Message} {r r' : Receiver}

theorem readMessageType_append (b : Build) (type : MessageType) (rest : List Byte) :
    readMessageType b (IStream.ofBytes (toBytes 2 type.toNat ++ rest)) = (type,IStream.ofBytes rest) := by
  have hread : BinarySerializer.readIntegral b.host 2 0 ⟨toBytes 2 type.toNat ++ rest,false⟩ =
      (type.toNat,⟨rest,false⟩) :=
    BinarySerializer.readIntegral_encode b.host (by decide) type.isLt 0 rest
  have hsame : BitVec.ofNat 16 type.toNat = type := by
    rw [BitVec.ofNat_toNat, BitVec.setWidth_eq]
  unfold readMessageType IStream.ofBytes
  rw [hread]
  dsimp only
  rw [hsame]

/-- When the session is owned, a well-formed frame becomes a message with the same contents. -/
theorem createMessageFromStream_frame (b : Build) (hframe : IsFrame factory m payload)
    (id : SessionId) (counter : MessageId) (junk : Junk) :
    ∃ m' stream, createMessageFromStream b factory (some id) counter junk (IStream.ofBytes payload) =
      .ok (some m',stream) ∧ m'.SameContents m := by
  obtain ⟨d,values,hd,rfl,hw,rfl⟩ := hframe
  obtain ⟨gs,hgs,hmatch⟩ :=
    Message.deserializeFields_fill d 0 counter none (some id) values b junk hw []
  rw [List.append_nil] at hgs
  have htype := readMessageType_append b d.type ((Message.new 0 d none).1.fill values).encoding
  obtain ⟨m',hm,ht,hfields⟩ := createMessageFromStream_of_fields
    (s := IStream.ofBytes (toBytes 2 d.type.toNat ++
      ((Message.new 0 d none).1.fill values).encoding))
    (by rw [htype]; exact hd) (by rw [htype]; exact hgs)
  refine ⟨m',_,hm,Message.SameContents.of_fields ?_ ?_⟩
  · rw [ht, htype]
    rfl
  · rw [hfields]
    exact hmatch

theorem onMessageRead_thrown {b : Build} {e : Exception}
    (h : tryMessageRead b factory counter junk payload r = raise e) :
    onMessageRead b factory counter junk payload r = .ok r := by
  unfold onMessageRead
  rw [h]
  rfl

/-- Without an owner a well-formed frame is dropped: `shared_from_this` throws. -/
theorem onMessageRead_unowned (b : Build) (hframe : IsFrame factory m payload)
    (hsession : r.session = none) (counter : MessageId) (junk : Junk) :
    createMessageFromStream b factory r.session counter junk (IStream.ofBytes payload) =
        raise .badWeakPtr ∧
      onMessageRead b factory counter junk payload r = .ok r := by
  obtain ⟨d,values,hd,rfl,_,rfl⟩ := hframe
  have htype := readMessageType_append b d.type ((Message.new 0 d none).1.fill values).encoding
  have hhas : factory.hasDescriptor d.type = true := by
    simpa [MessageFactory.hasDescriptor] using AList.lookup_isSome.mp (by rw [hd]; rfl)
  have hm : createMessageFromStream b factory r.session counter junk (IStream.ofBytes
      (toBytes 2 d.type.toNat ++ ((Message.new 0 d none).1.fill values).encoding)) =
        raise .badWeakPtr := by
    unfold createMessageFromStream
    rw [htype, hsession]
    dsimp only
    rw [hhas, Bool.not_true, if_neg Bool.false_ne_true, MessageFactory.createMessage, hd]
    rfl
  have htry : tryMessageRead b factory counter junk
      (toBytes 2 d.type.toNat ++ ((Message.new 0 d none).1.fill values).encoding) r =
        raise .badWeakPtr := by
    unfold tryMessageRead
    rw [hm]
    rfl
  exact ⟨hm,onMessageRead_thrown htry⟩

theorem correlates_iff_of_same (h : m'.SameContents m) : Correlates m' ↔ Correlates m := by
  have hrel := h.2 srcMsgId
  unfold Correlates
  cases hm' : m'.fieldset.get srcMsgId with
  | none =>
    rw [hm'] at hrel
    cases hm : m.fieldset.get srcMsgId with
    | none => exact Iff.rfl
    | some f =>
      rw [hm] at hrel
      cases hrel
  | some g =>
    rw [hm'] at hrel
    cases hm : m.fieldset.get srcMsgId with
    | none =>
      rw [hm] at hrel
      cases hrel
    | some f =>
      rw [hm] at hrel
      cases hrel with
      | some hmatch =>
        have htype : g.valueType = f.valueType :=
          congrArg (fun d : FieldDescriptor => d.type.name) hmatch.descriptor
        simp [htype]

theorem correlatable_iff (h : Unsatisfied r) (m : Message) : Correlatable r m ↔ Correlates m :=
  ⟨fun hc f hf => (hc f hf).1,fun hc f hf => ⟨hc f hf,fun promise hpromise => h _ promise hpromise⟩⟩

/-- A well-formed frame is accounted for when the session is owned and the message correlates. -/
theorem accounted_frame_iff (h : Unsatisfied r) (hframe : IsFrame factory m payload)
    (hr : onMessageRead b factory counter junk payload r = .ok r') :
    (∃ m', m'.SameContents m ∧ Accounted r m' r') ↔ (∃ id, r.session = some id) ∧ Correlates m := by
  constructor
  · rintro ⟨m',_,hacc⟩
    have hsession : ∃ id, r.session = some id := by
      by_contra hnone
      have hundeliverable : Undeliverable factory r.session (messageTypeOf payload) :=
        Or.inl (Option.eq_none_iff_forall_ne_some.mpr fun id hid => hnone ⟨id,hid⟩)
      exact hacc.ne (onMessageRead_undeliverable hundeliverable hr)
    obtain ⟨id,hid⟩ := hsession
    obtain ⟨m'',stream,hm,hsame⟩ := createMessageFromStream_frame b hframe id counter junk
    rw [← hid] at hm
    rcases onMessageRead_decoded hm with ⟨hc,_⟩ | ⟨_,hunchanged⟩
    · exact ⟨⟨id,hid⟩,(correlates_iff_of_same hsame).mp ((correlatable_iff h m'').mp hc)⟩
    · cases hunchanged.symm.trans hr
      exact absurd rfl hacc.ne
  · rintro ⟨⟨id,hid⟩,hcorrelates⟩
    obtain ⟨m',stream,hm,hsame⟩ := createMessageFromStream_frame b hframe id counter junk
    rw [← hid] at hm
    have hc : Correlatable r m' :=
      (correlatable_iff h m').mpr ((correlates_iff_of_same hsame).mpr hcorrelates)
    rcases onMessageRead_decoded hm with ⟨_,r'',hr'',hacc⟩ | ⟨hnot,_⟩
    · cases hr''.symm.trans hr
      exact ⟨m',hsame,hacc⟩
    · exact absurd hc hnot

end Frames

theorem Steady.session_iff (h : Steady s) :
    (∃ id, s.requester.receiver.session = some id) ↔ s.place.owning = true := by
  constructor
  · rintro ⟨id,hid⟩
    by_contra hnot
    rw [h.unowned (by simpa using hnot)] at hid
    cases hid
  · exact h.owned

theorem notLost_iff_takenOwned (h : Steady s) (hstep : Step b ticksPerSecond s e t) :
    NotLost s e t ↔ TakenOwned s e := by
  cases hstep with
  | read hreading hread =>
    obtain ⟨receiver,hr,hq⟩ := bind_eq_ok.mp hread
    cases hq
    refine forall_congr' fun m => forall_congr' fun hframe => ?_
    exact (accounted_frame_iff h.unsatisfied hframe hr).trans (and_congr_left' h.session_iff)
  | _ => exact Iff.rfl

theorem create_steady (manager : SessionManager) (now : ℕ) : Steady (create manager now) where
  unsatisfied id promise hpromise := by cases hpromise
  owned howning := by cases howning
  unowned _ := rfl

/-- No frame of a run is lost exactly if each is taken behind `make_shared`, and no message of them
has a field `srcMsgId` of another type. -/
theorem notLost_iff {manager : SessionManager} {now : ℕ}
    {trace : List (SessionCreation × CreationEvent)}
    (hr : Run (Step b ticksPerSecond) (create manager now) trace t) :
    (∀ e ∈ transitions trace t, NotLost e.1 e.2.1 e.2.2) ↔ Guarded TakenOwned trace :=
  hr.transitions_iff_guarded (fun _ _ _ h _ => h.step)
    (fun _ _ _ h => notLost_iff_takenOwned h) (create_steady manager now)

/-- A frame of a type without fields between the start of the transport and `make_shared`. -/
def earlyFrameEvents (factory : MessageFactory) : List CreationEvent :=
  [.generateId,.start .returns,.read factory 0 (fun _ => 0) [7,0],.own]

theorem exists_empty_frame : ∃ factory m,
    MessageFactory.empty.addDescriptor (MessageDescriptor.new 7) = (true,factory) ∧
      IsFrame factory m [7,0] := by
  have hnil : (([] : List FieldDescriptor).map FieldDescriptor.name).Nodup := List.nodup_nil
  obtain ⟨factory,d,hd,hadd,hlookup,hl⟩ := exists_factory 7 hnil
  cases hd
  have hfields : ((Message.new 0 (MessageDescriptor.new 7) none).1.fill fun _ => .absent).fields = [] := by
    rw [Message.fill_fields, fields_new_nil 0 none rfl]
    rfl
  refine ⟨factory,_,hadd,MessageDescriptor.new 7,fun _ => .absent,hlookup,rfl,?_,?_⟩
  · intro f hf
    rw [hfields] at hf
    cases hf
  · rw [Message.encoding, hfields]
    rfl

theorem earlyFrame_run (b : Build) {factory : MessageFactory} {m : Message}
    (hframe : IsFrame factory m [7,0]) : ∃ trace t, trace.map Prod.snd = earlyFrameEvents factory ∧
      Run (Step b 1) (create SessionManager.create 0) trace t ∧
      t.requester.receiver.session = some 1 ∧ t.requester.receiver.incomingMessages = [] ∧
      t.requester.receiver.futures = [] ∧ ¬ Guarded TakenOwned trace := by
  let entered : SessionCreation := create SessionManager.create 0
  let manager : SessionManager := entered.manager.generateId.2
  let constructing : SessionCreation := ⟨manager,.constructing 1,entered.requester⟩
  let started : SessionCreation := ⟨manager,.started 1,entered.requester⟩
  let owned : SessionCreation := ⟨manager,.owned 1,idleRequester (some 1) 0⟩
  have hgenerate : Step b 1 entered .generateId constructing := Step.generateId rfl
  have hstart : Step b 1 constructing (.start .returns) started := Step.start rfl
  have hdropped : readReply b factory 0 (fun _ => 0) [7,0] started.requester = .ok started.requester := by
    unfold readReply
    rw [(onMessageRead_unowned b hframe rfl 0 fun _ => 0).2]
    rfl
  have hread : Step b 1 started (.read factory 0 (fun _ => 0) [7,0]) started := Step.read rfl hdropped
  have hown : Step b 1 started .own owned := Step.own rfl
  refine ⟨[(entered,.generateId),(constructing,.start .returns),
    (started,.read factory 0 (fun _ => 0) [7,0]),(started,.own)],owned,rfl,?_,rfl,rfl,rfl,fun hg => ?_⟩
  · exact Run.cons hgenerate (Run.cons hstart (Run.cons hread (Run.cons hown (Run.nil _))))
  · have htaken : TakenOwned started (.read factory 0 (fun _ => 0) [7,0]) :=
      hg (started,.read factory 0 (fun _ => 0) [7,0]) (by simp)
    have howning : started.place.owning = true := (htaken m hframe).1
    cases howning

theorem notLost_iff_earlyFrame : ∃ factory trace t,
    MessageFactory.empty.addDescriptor (MessageDescriptor.new 7) = (true,factory) ∧
      trace.map Prod.snd = earlyFrameEvents factory ∧
      Run (Step ⟨.little,true⟩ 1) (create SessionManager.create 0) trace t ∧
      ((∀ e ∈ transitions trace t, NotLost e.1 e.2.1 e.2.2) ↔ Guarded TakenOwned trace) := by
  obtain ⟨factory,m,hadd,hframe⟩ := exists_empty_frame
  obtain ⟨trace,t,hevents,hr,_⟩ := earlyFrame_run ⟨.little,true⟩ hframe
  exact ⟨factory,trace,t,hadd,hevents,hr,notLost_iff hr⟩

/-- The session is created, and the frame that came before is nowhere. -/
theorem not_notLost_earlyFrame : ∃ factory m trace t,
    MessageFactory.empty.addDescriptor (MessageDescriptor.new 7) = (true,factory) ∧
      IsFrame factory m [7,0] ∧ trace.map Prod.snd = earlyFrameEvents factory ∧
      Run (Step ⟨.little,true⟩ 1) (create SessionManager.create 0) trace t ∧
      t.requester.receiver.session = some 1 ∧ t.requester.receiver.incomingMessages = [] ∧
      t.requester.receiver.futures = [] ∧
      ¬ ∀ e ∈ transitions trace t, NotLost e.1 e.2.1 e.2.2 := by
  obtain ⟨factory,m,hadd,hframe⟩ := exists_empty_frame
  obtain ⟨trace,t,hevents,hr,hsession,hqueue,hfutures,hg⟩ := earlyFrame_run ⟨.little,true⟩ hframe
  refine ⟨factory,m,trace,t,hadd,hframe,hevents,hr,hsession,hqueue,hfutures,fun hall => hg ?_⟩
  exact (hr.transitions_iff_guarded (fun _ _ _ h _ => h.step)
    (fun _ _ _ h => notLost_iff_takenOwned h) (create_steady _ _)).mp hall

end SessionCreation

end Isml
