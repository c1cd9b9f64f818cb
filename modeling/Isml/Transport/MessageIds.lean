import Isml.Transport.PendingRequests

/-! # The identifiers of messages

One counter of the process numbers all messages that are constructed or copied, for
all transports. An identifier is that of one message, and of no pending request,
until the counter has gone around.
-/
namespace Isml
open ByteOrder LabelledRun StringStream

/-- The counter, the messages that exist and that no request has taken, and the transports. -/
structure Process (ι : Type*) where
  counter : MessageId
  live : List Message
  requesters : ι → Requester

inductive ProcessEvent (ι : Type*)
  | construct (d : MessageDescriptor) (session : Option SessionId)
  | copy (other : Message)
  | destroy (msg : Message)
  | request (i : ι) (msg : Message)
  | read (i : ι) (b : Build) (factory : MessageFactory) (junk : Junk) (payload : List Byte)
  | removeExpired (i : ι) (visits : List Visit)
  | elapse (i : ι) (ticks : ℕ)
  | session (i : ι) (session : Option SessionId)

namespace TcpTransport

/-- The type in front of the fields of a payload. -/
def payloadType (b : Build) (payload : List Byte) : MessageType :=
  (readMessageType b (IStream.ofBytes payload)).1

/-- The counter after `createMessageFromStream`. -/
def readCounter (b : Build) (factory : MessageFactory) (session : Option SessionId)
    (counter : MessageId) (payload : List Byte) : MessageId :=
  if !factory.hasDescriptor (payloadType b payload) then counter
  else
    match factory.createMessage counter (payloadType b payload) session with
    | .ok (_,counter) => counter
    | .error _ => counter

/-- The messages that a payload has brought: those put into the queue and those futures became
ready with. -/
def received (s t : Receiver) : List Message :=
  t.incomingMessages.drop s.incomingMessages.length ++
    (t.futures.drop s.futures.length).map Prod.snd

section Read
variable {b : Build} {factory : MessageFactory} {session : Option SessionId}
  {counter : MessageId} {junk : Junk} {payload : List Byte}

theorem readCounter_eq : readCounter b factory session counter payload =
    if factory.hasDescriptor (payloadType b payload) && session.isSome then counter + 1
    else counter := by
  unfold readCounter
  cases hd : factory.hasDescriptor (payloadType b payload) with
  | false => rfl
  | true =>
    have hmem : payloadType b payload ∈ factory.descriptors := decide_eq_true_iff.mp hd
    obtain ⟨d,hlookup⟩ := Option.isSome_iff_exists.mp (AList.lookup_isSome.mpr hmem)
    unfold MessageFactory.createMessage
    rw [hlookup]
    cases session with
    | none => rfl
    | some id => rfl

/-- A message that a payload brings has the next identifier. -/
theorem createMessageFromStream_id {stream : IStream} {m : Message}
    (h : createMessageFromStream b factory session counter junk (IStream.ofBytes payload) =
      .ok (some m,stream)) :
    m.id = counter + 1 ∧ factory.hasDescriptor (payloadType b payload) = true ∧
      session.isSome = true := by
  unfold createMessageFromStream at h
  dsimp only at h
  split at h
  · cases h
  · rename_i hd
    rw [Bool.not_eq_true', Bool.not_eq_false] at hd
    obtain ⟨⟨message,c⟩,hm,h⟩ := bind_eq_ok.mp h
    obtain ⟨⟨r,s1⟩,hr,h⟩ := bind_eq_ok.mp h
    cases h
    obtain ⟨d,id,_,rfl,hnew⟩ := MessageFactory.createMessage_eq_ok hm
    obtain ⟨⟨fieldset,s2⟩,_,hr⟩ := bind_eq_ok.mp hr
    cases hr
    refine ⟨?_,hd,rfl⟩
    exact congrArg (fun r => r.1.id) hnew

theorem received_self (r : Receiver) : received r r = [] := by
  simp [received]

/-- A payload brings at most one message, which has the next identifier. -/
theorem readReply_received {s t : Requester}
    (h : readReply b factory counter junk payload s = .ok t) :
    (received s.receiver t.receiver).length ≤ 1 ∧
      ∀ m ∈ received s.receiver t.receiver, m.id = counter + 1 ∧
        factory.hasDescriptor (payloadType b payload) = true ∧
        s.receiver.session.isSome = true := by
  obtain ⟨receiver,hread,ht⟩ := bind_eq_ok.mp h
  cases ht
  rcases onMessageRead_eq_ok hread with rfl | ⟨m,stream,hcreate,hm⟩
  · rw [received_self]
    exact ⟨Nat.zero_le 1,fun _ hm => absurd hm List.not_mem_nil⟩
  · have hone : received s.receiver receiver = [m] := by
      rcases handOver_eq_ok hm with rfl | ⟨f,rfl⟩
      · simp [received]
      · simp [received, answered]
    rw [hone]
    refine ⟨Nat.le_refl 1,?_⟩
    intro m' hm'
    rw [List.mem_singleton.mp hm']
    exact createMessageFromStream_id hcreate

end Read

theorem doRequest_ids {msg : Message} {s : Requester} {k : MessageId}
    (h : k ∈ (doRequest msg s).receiver.pendingRequests) :
    k = msg.id ∨ k ∈ s.receiver.pendingRequests := by
  unfold doRequest insertNew at h
  dsimp only at h
  split at h
  · exact Or.inr h
  · exact (AList.mem_insert _).mp h

end TcpTransport

namespace Process
open TcpTransport
variable {ι : Type*}

/-- A process that has not made a message yet. -/
def start (session : ι → Option SessionId) (now : ι → ℕ) : Process ι :=
  ⟨0,[],fun i => idleRequester (session i) (now i)⟩

/-- A constructed message and the counter after it. -/
def create (r : Message × MessageId) (p : Process ι) : Process ι :=
  { p with counter := r.2, live := r.1 :: p.live }

/-- The step calls `generateId`. A payload does if its type is registered and the session of the
transport is there. -/
def generates (p : Process ι) : ProcessEvent ι → Bool
  | .construct _ _ => true
  | .copy _ => true
  | .read i b factory _ payload =>
    factory.hasDescriptor (payloadType b payload) && (p.requesters i).receiver.session.isSome
  | _ => false

/-- No message has the bad identifier, not even one that is destroyed in the same step, and a
request makes an entry of its own for the future that it returns. -/
structure NoCollision (p : Process ι) (e : ProcessEvent ι) (q : Process ι) : Prop where
  live : ∀ m ∈ q.live, m.id ≠ kBadMsgId
  generated : generates p e = true → q.counter ≠ kBadMsgId
  request : ∀ i msg, e = .request i msg →
    msg.id ∉ (p.requesters i).receiver.pendingRequests ∧
      (q.requesters i).receiver.pendingRequests =
        (p.requesters i).receiver.pendingRequests.insert msg.id ⟨false⟩

/-- The identifiers of the messages that exist are different, and neither they nor those of the
pending requests are ahead of the counter. -/
structure Fresh (p : Process ι) : Prop where
  nonzero : ∀ m ∈ p.live, m.id ≠ kBadMsgId
  bounded : ∀ m ∈ p.live, m.id ≤ p.counter
  nodup : (p.live.map Message.id).Nodup
  pending : ∀ i, ∀ k ∈ (p.requesters i).receiver.pendingRequests,
    k ≤ p.counter ∧ k ∉ p.live.map Message.id

section Steps
variable [DecidableEq ι]

def setRequester (i : ι) (t : Requester) (p : Process ι) : Process ι :=
  { p with requesters := Function.update p.requesters i t }

@[simp] theorem setRequester_self (i : ι) (t : Requester) (p : Process ι) :
    (p.setRequester i t).requesters i = t := Function.update_self ..

/-- Whoever holds a message may copy it, destroy it or pass it to a request; a message that is
sent is destroyed in the end. -/
inductive Step (ticksPerSecond : ℕ) : Process ι → ProcessEvent ι → Process ι → Prop
  | construct (p : Process ι) (d : MessageDescriptor) (session : Option SessionId) :
      Step ticksPerSecond p (.construct d session) (p.create (Message.new p.counter d session))
  | copy {p : Process ι} {other : Message} : other ∈ p.live →
      Step ticksPerSecond p (.copy other) (p.create (Message.ofCopy p.counter other))
  | destroy {p : Process ι} {xs ys : List Message} {msg : Message} : p.live = xs ++ msg :: ys →
      Step ticksPerSecond p (.destroy msg) { p with live := xs ++ ys }
  | request {p : Process ι} {i : ι} {xs ys : List Message} {msg : Message} :
      p.live = xs ++ msg :: ys →
      Step ticksPerSecond p (.request i msg)
        (setRequester i (doRequest msg (p.requesters i)) { p with live := xs ++ ys })
  | read {p : Process ι} {i : ι} {b : Build} {factory : MessageFactory} {junk : Junk}
      {payload : List Byte} {t : Requester} :
      readReply b factory p.counter junk payload (p.requesters i) = .ok t →
      Step ticksPerSecond p (.read i b factory junk payload) (setRequester i t
        { p with
          counter := readCounter b factory (p.requesters i).receiver.session p.counter payload
          live := received (p.requesters i).receiver t.receiver ++ p.live })
  | removeExpired {p : Process ι} {i : ι} {visits : List Visit} : Visits (p.requesters i) visits →
      Step ticksPerSecond p (.removeExpired i visits)
        (p.setRequester i (removeExpiredRequests ticksPerSecond visits (p.requesters i)))
  | elapse (p : Process ι) (i : ι) (ticks : ℕ) :
      Step ticksPerSecond p (.elapse i ticks)
        (p.setRequester i { p.requesters i with now := (p.requesters i).now + ticks })
  | session (p : Process ι) (i : ι) (session : Option SessionId) :
      Step ticksPerSecond p (.session i session) (p.setRequester i
        { p.requesters i with
          receiver := { (p.requesters i).receiver with session := session } })

end Steps

section Counter
variable {p : Process ι}

theorem lt_add_one {x c : MessageId} (h : x ≤ c) (hc : c + 1 ≠ 0) : x < c + 1 := by
  bv_omega

theorem add_one_ne_zero_iff {c : MessageId} : c + 1 ≠ 0 ↔ c.toNat + 1 < 2 ^ 32 := by
  constructor
  · intro h
    bv_omega
  · intro h
    bv_omega

theorem toNat_add_one {c : MessageId} (h : c.toNat + 1 < 2 ^ 32) : (c + 1).toNat = c.toNat + 1 := by
  bv_omega

/-- The messages made under the next identifier, at most one of them. -/
theorem Fresh.generate (h : p.Fresh) (hc : p.counter + 1 ≠ 0) {ms : List Message}
    (hid : ∀ m ∈ ms, m.id = p.counter + 1) (hone : ms.length ≤ 1) :
    Fresh { p with counter := p.counter + 1, live := ms ++ p.live } := by
  have hold : ∀ m ∈ p.live, m.id ≠ p.counter + 1 := by
    intro m hm
    exact BitVec.ne_of_lt (lt_add_one (h.bounded m hm) hc)
  refine ⟨?_,?_,?_,?_⟩
  · intro m hm
    rcases List.mem_append.mp hm with hnew | hm
    · rw [hid m hnew]
      exact hc
    · exact h.nonzero m hm
  · intro m hm
    rcases List.mem_append.mp hm with hnew | hm
    · rw [hid m hnew]
      exact BitVec.le_refl _
    · exact BitVec.le_of_lt (lt_add_one (h.bounded m hm) hc)
  · rw [List.map_append, List.nodup_append]
    refine ⟨?_,h.nodup,?_⟩
    · apply List.nodup_iff_count_le_one.mpr
      intro k
      exact List.count_le_length.trans (by rwa [List.length_map])
    · intro k hk k' hk'
      obtain ⟨m,hm,rfl⟩ := List.mem_map.mp hk
      obtain ⟨m',hm',rfl⟩ := List.mem_map.mp hk'
      rw [hid m hm]
      exact (hold m' hm').symm
  · intro i k hk
    obtain ⟨hle,hout⟩ := h.pending i k hk
    have hlt := lt_add_one hle hc
    refine ⟨BitVec.le_of_lt hlt,?_⟩
    rw [List.map_append, List.mem_append, not_or]
    refine ⟨?_,hout⟩
    intro hmem
    obtain ⟨m,hm,rfl⟩ := List.mem_map.mp hmem
    exact BitVec.ne_of_lt hlt (hid m hm)

theorem Fresh.generate_one (h : p.Fresh) (hc : p.counter + 1 ≠ 0) {m : Message}
    (hid : m.id = p.counter + 1) : Fresh { p with counter := p.counter + 1, live := m :: p.live } := by
  have hids : ∀ m' ∈ [m], m'.id = p.counter + 1 := by
    intro m' hm'
    rwa [List.mem_singleton.mp hm']
  exact h.generate hc hids le_rfl

theorem Fresh.remove (h : p.Fresh) {xs ys : List Message} {msg : Message}
    (hlive : p.live = xs ++ msg :: ys) :
    Fresh { p with live := xs ++ ys } ∧ msg.id ∉ (xs ++ ys).map Message.id := by
  have hperm : p.live.Perm (msg :: (xs ++ ys)) := hlive ▸ List.perm_middle
  have hnd := (hperm.map Message.id).nodup_iff.mp h.nodup
  rw [List.map_cons, List.nodup_cons] at hnd
  have hsub : ∀ m ∈ xs ++ ys, m ∈ p.live := fun m hm => hperm.mem_iff.mpr (List.mem_cons_of_mem _ hm)
  refine ⟨⟨fun m hm => h.nonzero m (hsub m hm),fun m hm => h.bounded m (hsub m hm),hnd.2,?_⟩,hnd.1⟩
  intro i k hk
  obtain ⟨hle,hout⟩ := h.pending i k hk
  refine ⟨hle,fun hmem => hout ?_⟩
  obtain ⟨m,hm,rfl⟩ := List.mem_map.mp hmem
  exact List.mem_map_of_mem (hsub m hm)

theorem fresh_start (session : ι → Option SessionId) (now : ι → ℕ) : (start session now).Fresh where
  nonzero _ hm := absurd hm List.not_mem_nil
  bounded _ hm := absurd hm List.not_mem_nil
  nodup := List.nodup_nil
  pending _ k hk := absurd hk (AList.notMem_empty k)

/-- A transport that has no new pending requests. -/
theorem Fresh.setRequester [DecidableEq ι] (h : p.Fresh) {i : ι} {t : Requester}
    (ht : ∀ k ∈ t.receiver.pendingRequests, k ∈ (p.requesters i).receiver.pendingRequests) :
    (p.setRequester i t).Fresh := by
  refine ⟨h.nonzero,h.bounded,h.nodup,?_⟩
  intro j k hk
  by_cases hj : j = i
  · subst hj
    have hkt : k ∈ t.receiver.pendingRequests := by
      simpa only [Process.setRequester, Function.update_self] using hk
    exact h.pending j k (ht k hkt)
  · have hkj : k ∈ (p.requesters j).receiver.pendingRequests := by
      simpa only [Process.setRequester, Function.update_of_ne hj] using hk
    exact h.pending j k hkj

end Counter

section Runs
variable [DecidableEq ι] {ticksPerSecond : ℕ} {p q : Process ι} {e : ProcessEvent ι}

theorem Step.counter_eq (h : Step ticksPerSecond p e q) :
    q.counter = if generates p e then p.counter + 1 else p.counter := by
  cases h with
  | construct d session => rfl
  | copy hm => rfl
  | destroy hlive => rfl
  | request hlive => rfl
  | read hread => exact readCounter_eq
  | removeExpired hv => rfl
  | elapse i ticks => rfl
  | session i session => rfl

theorem Fresh.request (h : p.Fresh) {xs ys : List Message} {msg : Message}
    (hlive : p.live = xs ++ msg :: ys) (i : ι) :
    (Process.setRequester i (doRequest msg (p.requesters i)) { p with live := xs ++ ys }).Fresh := by
  obtain ⟨hrest,hout⟩ := h.remove hlive
  have hmem : msg ∈ p.live := hlive ▸ List.mem_append_right xs List.mem_cons_self
  refine ⟨hrest.nonzero,hrest.bounded,hrest.nodup,?_⟩
  intro j k hk
  by_cases hj : j = i
  · subst hj
    have hkr : k ∈ (doRequest msg (p.requesters j)).receiver.pendingRequests := by
      simpa only [Process.setRequester, Function.update_self] using hk
    rcases doRequest_ids hkr with rfl | hold
    · exact ⟨h.bounded msg hmem,hout⟩
    · exact hrest.pending j k hold
  · have hkj : k ∈ (p.requesters j).receiver.pendingRequests := by
      simpa only [Process.setRequester, Function.update_of_ne hj] using hk
    exact hrest.pending j k hkj

/-- As long as the counter does not go around, identifiers stay fresh. -/
theorem Fresh.step (h : p.Fresh) (hc : generates p e = true → p.counter + 1 ≠ 0)
    (hstep : Step ticksPerSecond p e q) : q.Fresh := by
  cases hstep with
  | construct d session =>
    exact h.generate_one (m := (Message.new p.counter d session).1) (hc rfl) rfl
  | @copy other hm =>
    exact h.generate_one (m := (Message.ofCopy p.counter other).1) (hc rfl) rfl
  | destroy hlive => exact (h.remove hlive).1
  | request hlive => exact h.request hlive _
  | @read i b factory junk payload t hread =>
    have hshrinks := shrinks_readReply hread
    obtain ⟨hone,hids⟩ := readReply_received hread
    rw [readCounter_eq]
    split
    · rename_i hgen
      exact (h.generate (hc hgen) (fun m hm => (hids m hm).1) hone).setRequester fun k => hshrinks.mem
    · rename_i hgen
      have hnone : received (p.requesters i).receiver t.receiver = [] := by
        apply List.eq_nil_iff_forall_not_mem.mpr
        intro m hm
        exact hgen (by rw [(hids m hm).2.1, (hids m hm).2.2, Bool.and_self])
      rw [hnone, List.nil_append]
      exact h.setRequester fun k => hshrinks.mem
  | removeExpired hv => exact h.setRequester fun k => (shrinks_removeExpiredRequests _ _).mem
  | elapse i ticks => exact h.setRequester fun k hk => hk
  | session i session => exact h.setRequester fun k hk => hk

/-- The next identifier is not the bad one, if one is taken. -/
def InRange (p : Process ι) (e : ProcessEvent ι) : Prop :=
  generates p e = true → p.counter + 1 ≠ 0

theorem Fresh.noCollision_iff_inRange (h : p.Fresh) (hstep : Step ticksPerSecond p e q) :
    NoCollision p e q ↔ InRange p e := by
  constructor
  · intro hno hgen
    have hq := hno.generated hgen
    rw [hstep.counter_eq, if_pos hgen] at hq
    exact hq
  · intro hc
    refine ⟨(h.step hc hstep).nonzero,?_,?_⟩
    · intro hgen
      rw [hstep.counter_eq, if_pos hgen]
      exact hc hgen
    · rintro i msg rfl
      cases hstep with
      | @request _ xs ys _ hlive =>
        have hmem : msg ∈ p.live := hlive ▸ List.mem_append_right xs List.mem_cons_self
        have hnew : msg.id ∉ (p.requesters i).receiver.pendingRequests :=
          fun hk => (h.pending i _ hk).2 (List.mem_map_of_mem hmem)
        refine ⟨hnew,?_⟩
        rw [setRequester_self]
        exact insertNew_of_notMem hnew _

/-- The identifiers that are taken are counted from where the counter stands. -/
theorem guarded_inRange_iff {trace : List (Process ι × ProcessEvent ι)}
    (hr : Run (Step ticksPerSecond) p trace q) : Guarded InRange trace ↔
      p.counter.toNat + trace.countP (fun e => generates e.1 e.2) < 2 ^ 32 := by
  induction hr with
  | nil p => simpa using p.counter.isLt
  | @cons p q r e trace hstep _ ih =>
    rw [guarded_cons, ih, hstep.counter_eq, List.countP_cons]
    cases hgen : generates p e with
    | false => simp [InRange, hgen]
    | true =>
      have hin : InRange p e ↔ p.counter.toNat + 1 < 2 ^ 32 := by
        unfold InRange
        rw [hgen, ← add_one_ne_zero_iff]
        exact ⟨fun h => h rfl,fun h _ => h⟩
      rw [hin, if_pos rfl, if_pos rfl]
      constructor
      · rintro ⟨hlt,h⟩
        rw [toNat_add_one hlt] at h
        omega
      · intro h
        have hlt : p.counter.toNat + 1 < 2 ^ 32 := by omega
        rw [toNat_add_one hlt]
        exact ⟨hlt,by omega⟩

/-- Identifiers do not collide in a run exactly if fewer than `2 ^ 32` messages are made in it. -/
theorem noCollision_iff {session : ι → Option SessionId} {now : ι → ℕ}
    {trace : List (Process ι × ProcessEvent ι)}
    (hr : Run (Step ticksPerSecond) (start session now) trace q) :
    (∀ e ∈ transitions trace q, NoCollision e.1 e.2.1 e.2.2) ↔
      trace.countP (fun e => generates e.1 e.2) < 2 ^ 32 := by
  have hruns : (∀ e ∈ transitions trace q, NoCollision e.1 e.2.1 e.2.2) ↔ Guarded InRange trace :=
    hr.transitions_iff_guarded (fun _ _ _ h hc => h.step hc)
      (fun _ _ _ h => h.noCollision_iff_inRange) (fresh_start session now)
  rw [hruns, guarded_inRange_iff hr]
  simp [start]

/-- The message made last is passed to a request. -/
theorem requestNewest (i : ι) {msg : Message} {rest : List Message} (h : p.live = msg :: rest) :
    Step ticksPerSecond p (.request i msg)
      (setRequester i (doRequest msg (p.requesters i)) { p with live := rest }) := by
  have hlive : p.live = [] ++ msg :: rest := h
  exact Step.request hlive

/-- Two requests that are pending together. -/
theorem noCollision_iff_twoRequests : ∃ trace t,
    Run (Step 1) (start (fun _ : Unit => none) fun _ => 0) trace t ∧
      trace.map Prod.snd = [.construct (MessageDescriptor.new 7) none,.request () emptyMessage,
        .construct (MessageDescriptor.new 7) none,
        .request () (Message.new 1 (MessageDescriptor.new 7) none).1] ∧
      (t.requesters ()).receiver.pendingRequests.keys = [2,1] ∧
      ∀ e ∈ transitions trace t, NoCollision e.1 e.2.1 e.2.2 := by
  have hr : Run (Step 1) (start (fun _ : Unit => none) fun _ => 0) _ _ :=
    Run.cons (Step.construct _ (MessageDescriptor.new 7) none) (Run.cons (requestNewest () rfl)
      (Run.cons (Step.construct _ (MessageDescriptor.new 7) none)
        (Run.cons (requestNewest () rfl) (Run.nil _))))
  exact ⟨_,_,hr,rfl,by decide,(noCollision_iff hr).mpr (by decide)⟩

end Runs

section WrapAround

/-- `n` messages of the descriptor, one after the other. -/
def constructs (d : MessageDescriptor) : ℕ → Process ι → Process ι
  | 0,p => p
  | n + 1,p => constructs d n (p.create (Message.new p.counter d none))

def constructsTrace (d : MessageDescriptor) : ℕ → Process ι → List (Process ι × ProcessEvent ι)
  | 0,_ => []
  | n + 1,p =>
    (p,.construct d none) :: constructsTrace d n (p.create (Message.new p.counter d none))

theorem constructs_counter (d : MessageDescriptor) (n : ℕ) (p : Process ι) :
    (constructs d n p).counter = p.counter + BitVec.ofNat 32 n := by
  induction n generalizing p with
  | zero => exact (BitVec.add_zero _).symm
  | succ n ih =>
    have hone : BitVec.ofNat 32 (n + 1) = 1 + BitVec.ofNat 32 n := by
      rw [BitVec.ofNat_add, BitVec.add_comm]
      rfl
    rw [constructs, ih, hone, ← BitVec.add_assoc]
    rfl

theorem constructs_requesters (d : MessageDescriptor) (n : ℕ) (p : Process ι) :
    (constructs d n p).requesters = p.requesters := by
  induction n generalizing p with
  | zero => rfl
  | succ n ih =>
    rw [constructs, ih]
    rfl

/-- The message made last has the identifier where the counter stands. -/
theorem constructs_newest (d : MessageDescriptor) (n : ℕ) (p : Process ι) :
    ∃ m ms, (constructs d (n + 1) p).live = m :: ms ∧ m.id = (constructs d (n + 1) p).counter := by
  induction n generalizing p with
  | zero => exact ⟨_,_,rfl,rfl⟩
  | succ n ih => exact ih _

variable [DecidableEq ι]

theorem constructs_run (ticksPerSecond : ℕ) (d : MessageDescriptor) (n : ℕ) (p : Process ι) :
    Run (Step ticksPerSecond) p (constructsTrace d n p) (constructs d n p) := by
  induction n generalizing p with
  | zero => exact Run.nil p
  | succ n ih => exact Run.cons (Step.construct p d none) (ih _)

/-- A request under the identifier of one that is pending makes no entry. -/
theorem doRequest_pending {msg : Message} {s : Requester}
    (h : msg.id ∈ s.receiver.pendingRequests) :
    (doRequest msg s).receiver.pendingRequests = s.receiver.pendingRequests := if_pos h

/-- A first request stays pending while further messages take the counter around: the last of
these has the bad identifier, and the message after it that of the first. -/
theorem wrapAround_run {n : ℕ} (hn : 1 + BitVec.ofNat 32 (n + 1) = 0) :
    ∃ trace t, Run (Step 1) (start (fun _ : Unit => none) fun _ => 0) trace t ∧
      (∃ e ∈ trace, ∃ m ∈ e.1.live, m.id = kBadMsgId) ∧
      ∃ e ∈ transitions trace t, ∃ msg, e.2.1 = .request () msg ∧
        msg.id ∈ (e.1.requesters ()).receiver.pendingRequests ∧
        (e.2.2.requesters ()).receiver.pendingRequests =
          (e.1.requesters ()).receiver.pendingRequests := by
  let d := MessageDescriptor.new 7
  let p0 : Process Unit := start (fun _ => none) fun _ => 0
  let first := (Message.new 0 d none).1
  let p1 := p0.create (Message.new p0.counter d none)
  let p2 := setRequester () (doRequest first (p1.requesters ())) { p1 with live := [] }
  let p3 := constructs d (n + 1) p2
  let second := (Message.new p3.counter d none).1
  let p4 := p3.create (Message.new p3.counter d none)
  let p5 := setRequester () (doRequest second (p4.requesters ())) { p4 with live := p3.live }
  have hr1 : Run (Step 1) p0 [(p0,.construct d none)] p1 :=
    Run.cons (Step.construct p0 d none) (Run.nil p1)
  have hr2 : Run (Step 1) p1 [(p1,.request () first)] p2 :=
    Run.cons (requestNewest () rfl) (Run.nil p2)
  have hr3 : Run (Step 1) p2 (constructsTrace d (n + 1) p2) p3 := constructs_run 1 d (n + 1) p2
  have hr4 : Run (Step 1) p3 [(p3,.construct d none)] p4 :=
    Run.cons (Step.construct p3 d none) (Run.nil p4)
  have hr5 : Run (Step 1) p4 [(p4,.request () second)] p5 :=
    Run.cons (requestNewest () rfl) (Run.nil p5)
  have hcounter : p3.counter = 0 := (constructs_counter d (n + 1) p2).trans hn
  obtain ⟨m,ms,hlive,hid⟩ := constructs_newest d n p2
  have hpending : second.id ∈ (p4.requesters ()).receiver.pendingRequests := by
    have hsecond : second.id = first.id := congrArg (· + 1) hcounter
    have hrequesters : p4.requesters = p2.requesters := constructs_requesters d (n + 1) p2
    rw [hsecond, hrequesters]
    decide
  refine ⟨_,p5,((((hr1.append hr2).append hr3).append hr4).append hr5),?_,?_⟩
  · refine ⟨(p3,.construct d none),by simp,m,?_,hid.trans hcounter⟩
    exact hlive ▸ List.mem_cons_self
  · refine ⟨(p4,ProcessEvent.request () second,p5),?_,second,rfl,hpending,?_⟩
    · exact mem_transitions_last _ p4 _ p5
    · exact doRequest_pending hpending

/-- `2 ^ 32` messages after the first. -/
theorem not_noCollision_wrapAround :
    ∃ trace t, Run (Step 1) (start (fun _ : Unit => none) fun _ => 0) trace t ∧
      (∃ e ∈ trace, ∃ m ∈ e.1.live, m.id = kBadMsgId) ∧
      (∃ e ∈ transitions trace t, ∃ msg, e.2.1 = .request () msg ∧
        msg.id ∈ (e.1.requesters ()).receiver.pendingRequests ∧
        (e.2.2.requesters ()).receiver.pendingRequests =
          (e.1.requesters ()).receiver.pendingRequests) ∧
      ¬ ∀ e ∈ transitions trace t, NoCollision e.1 e.2.1 e.2.2 := by
  have haround : 1 + BitVec.ofNat 32 (2 ^ 32 - 2 + 1) = 0 := by decide
  obtain ⟨trace,t,hr,hbad,e,he,msg,hevent,hpending,hsame⟩ := wrapAround_run haround
  refine ⟨trace,t,hr,hbad,⟨e,he,msg,hevent,hpending,hsame⟩,fun hall => ?_⟩
  exact ((hall e he).request () msg hevent).1 hpending

end WrapAround

end Process

end Isml
