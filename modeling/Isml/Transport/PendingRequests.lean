import Isml.Library.LabelledRun
import Isml.Transport.Delivery

/-! # The two tables of pending requests

`doRequest`, the part of `onMessageRead` that looks for the request a message answers, and
`removeExpiredRequests` hold `m_pending_requests_mtx` and are one step each. The tables have
the same keys between the steps, and nothing that is in them has been answered.
-/
namespace Isml
open ByteOrder LabelledRun StringStream

/-- What the future of a request becomes ready with: a message, or the exception of an expired
request, with the clock at that time. -/
inductive Completion where
  | reply (message : Message)
  | expired (now : ℕ)

/-- A call of `doRequest`: its message and the time stamp it took. -/
structure Registration where
  message : Message
  ts : ℕ

/-- The requests of a transport. Kept for the statements are all calls of `doRequest`, the call
the promise stored under an identifier comes from, the calls whose futures became ready, and the
exceptions of `set_exception` that the outer handler of `removeExpiredRequests` caught. -/
structure Requester where
  receiver : Receiver
  now : ℕ
  registered : List Registration
  tickets : MessageId → ℕ
  completed : List (ℕ × Completion)
  caught : List Fault

/-- An iteration of the first loop of `removeExpiredRequests`: an entry of
`m_pending_requests_ts` and the clock that was read at it. -/
structure Visit where
  id : MessageId
  ts : ℕ
  now : ℕ

inductive RequestEvent where
  | elapse (ticks : ℕ)
  | session (session : Option SessionId)
  | request (msg : Message)
  | read (payload : List Byte)
  | removeExpired (visits : List Visit)

/-- `set_exception`. -/
def Request.setException (promise : Request) : Result Request :=
  if promise.satisfied then raise .promiseAlreadySatisfied else .ok ⟨true⟩

namespace TcpTransport

/-- A transport that has not got any request. -/
def idleRequester (session : Option SessionId) (now : ℕ) : Requester :=
  ⟨⟨session,∅,∅,[],[]⟩,now,[],fun _ => 0,[],[]⟩

/-- `insert` of an `unordered_map`: an entry with the key stays as it is. -/
def insertNew {β : Type} (id : MessageId) (value : β) (map : AList fun _ : MessageId => β) :
    AList fun _ : MessageId => β :=
  if id ∈ map then map else map.insert id value

/-- `send` comes behind both insertions; it does not touch the tables, and when it throws they
stay as they are. -/
def doRequest (msg : Message) (s : Requester) : Requester :=
  { s with
    receiver := { s.receiver with
      pendingRequests := insertNew msg.id ⟨false⟩ s.receiver.pendingRequests
      pendingRequestsTs := insertNew msg.id s.now s.receiver.pendingRequestsTs }
    registered := s.registered ++ [⟨msg,s.now⟩]
    tickets := Function.update s.tickets msg.id s.registered.length }

/-- `onMessageRead`, with the futures it makes ready. -/
def readReply (b : Build) (factory : MessageFactory) (counter : MessageId) (junk : Junk)
    (payload : List Byte) (s : Requester) : Result Requester := do
  let receiver ← onMessageRead b factory counter junk payload s.receiver
  .ok { s with
    receiver := receiver
    completed := s.completed ++ (receiver.futures.drop s.receiver.futures.length).map
      fun (id,message) => (s.tickets id,.reply message) }

section Expiry
variable (ticksPerSecond : ℕ)

/-- `duration_cast` to seconds, of a clock that does not run backwards. -/
def secondsElapsed (ts now : ℕ) : ℕ := (now - ts) / ticksPerSecond

/-- The first loop of `removeExpiredRequests`. -/
def expiredIds (visits : List Visit) : List MessageId :=
  (visits.filter fun v => 30 < secondsElapsed ticksPerSecond v.ts v.now).map Visit.id

/-- The clock behind the loop. -/
def lastReading : ℕ → List Visit → ℕ
  | now, [] => now
  | _, v :: visits => lastReading v.now visits

/-- The body of the second loop of `removeExpiredRequests`. -/
def expireRequest (s : Requester) (id : MessageId) : Requester :=
  let s := { s with receiver := { s.receiver with
    pendingRequestsTs := s.receiver.pendingRequestsTs.erase id } }
  match s.receiver.pendingRequests.lookup id with
  | none => s
  | some promise =>
    match promise.setException with
    | .ok _ =>
      { s with
        receiver := { s.receiver with pendingRequests := s.receiver.pendingRequests.erase id }
        completed := s.completed ++ [(s.tickets id,.expired s.now)] }
    | .error e => { s with caught := s.caught ++ [e] }

def removeExpiredRequests (visits : List Visit) (s : Requester) : Requester :=
  (expiredIds ticksPerSecond visits).foldl expireRequest { s with now := lastReading s.now visits }

/-- The loop visits every entry once, in any order, and the clock does not run backwards. -/
def Visits (s : Requester) (visits : List Visit) : Prop :=
  (visits.map fun v => (⟨v.id,v.ts⟩ : Σ _ : MessageId, ℕ)).Perm
      s.receiver.pendingRequestsTs.entries ∧
    (s.now :: visits.map Visit.now).Pairwise (· ≤ ·)

/-- A critical section, or something that happens between two of them. A request has an
identifier that is not pending. -/
inductive RequestStep : Requester → RequestEvent → Requester → Prop
  | elapse (s : Requester) (ticks : ℕ) :
      RequestStep s (.elapse ticks) { s with now := s.now + ticks }
  | session (s : Requester) (session : Option SessionId) :
      RequestStep s (.session session)
        { s with receiver := { s.receiver with session := session } }
  | request {s : Requester} {msg : Message} :
      msg.id ∉ s.receiver.pendingRequests → RequestStep s (.request msg) (doRequest msg s)
  | read {s t : Requester} {b : Build} {factory : MessageFactory} {counter : MessageId}
      {junk : Junk} {payload : List Byte} :
      readReply b factory counter junk payload s = .ok t → RequestStep s (.read payload) t
  | removeExpired {s : Requester} {visits : List Visit} :
      Visits s visits →
        RequestStep s (.removeExpired visits) (removeExpiredRequests ticksPerSecond visits s)

/-- The message answers the request, or the request was registered long enough before. -/
def Answers (r : Registration) : Completion → Prop
  | .reply m => ∃ f, m.fieldset.get srcMsgId = some f ∧ f.valueType = messageIdType.name ∧
      messageIdOf f = r.message.id
  | .expired now => 30 < secondsElapsed ticksPerSecond r.ts now

/-- Both tables have an entry for the same requests, which are registered and not answered. -/
structure Tabled (s : Requester) : Prop where
  keys : ∀ id, id ∈ s.receiver.pendingRequests ↔ id ∈ s.receiver.pendingRequestsTs
  unsatisfied : ∀ id r, s.receiver.pendingRequests.lookup id = some r → r.satisfied = false
  stamped : ∀ id ts, s.receiver.pendingRequestsTs.lookup id = some ts →
    ∃ r, s.registered[s.tickets id]? = some r ∧ r.message.id = id ∧ r.ts = ts
  unanswered : ∀ id ∈ s.receiver.pendingRequestsTs, s.tickets id ∉ s.completed.map Prod.fst
  once : (s.completed.map Prod.fst).Nodup
  answered : ∀ c ∈ s.completed, ∃ r, s.registered[c.1]? = some r ∧ Answers ticksPerSecond r c.2
  caught : s.caught = []

/-- What is promised in a state: the tables are in order, neither `set_value` nor
`set_exception` finds a promise satisfied, and a message that answers a pending request goes to
that one, whose entries are the only ones erased. -/
structure RequestsKept (s : Requester) : Prop extends Tabled ticksPerSecond s where
  setValue : ∀ m, handOver m s.receiver ≠ raise .promiseAlreadySatisfied
  setException : ∀ visits, Visits s visits →
    (removeExpiredRequests ticksPerSecond visits s).caught = []
  fulfils : ∀ b factory counter junk payload m stream f,
    createMessageFromStream b factory s.receiver.session counter junk (IStream.ofBytes payload) =
        .ok (some m,stream) → m.fieldset.get srcMsgId = some f →
      f.valueType = messageIdType.name → messageIdOf f ∈ s.receiver.pendingRequests →
    ∃ t, readReply b factory counter junk payload s = .ok t ∧
      t.completed = s.completed ++ [(s.tickets (messageIdOf f),.reply m)] ∧
      t.receiver.pendingRequests = s.receiver.pendingRequests.erase (messageIdOf f) ∧
      t.receiver.pendingRequestsTs = s.receiver.pendingRequestsTs.erase (messageIdOf f) ∧
      t.receiver.incomingMessages = s.receiver.incomingMessages

end Expiry

section Tables
variable {ticksPerSecond : ℕ} {s : Requester} {id : MessageId} {c : Completion}

/-- The request under the identifier is completed and leaves both tables. -/
def settle (id : MessageId) (c : Completion) (s : Requester) : Requester :=
  { s with
    receiver := { s.receiver with
      pendingRequests := s.receiver.pendingRequests.erase id
      pendingRequestsTs := s.receiver.pendingRequestsTs.erase id }
    completed := s.completed ++ [(s.tickets id,c)] }

theorem lookup_erase_eq_some {β : Type} {map : AList fun _ : MessageId => β} {id' : MessageId}
    {value : β} (h : (map.erase id).lookup id' = some value) :
    id' ≠ id ∧ map.lookup id' = some value := by
  by_cases hid : id' = id
  · rw [hid, AList.lookup_erase] at h
    cases h
  · rw [AList.lookup_erase_ne hid] at h
    exact ⟨hid,h⟩

theorem exists_lookup {β : Type} {map : AList fun _ : MessageId => β} (h : id ∈ map) :
    ∃ value, map.lookup id = some value :=
  Option.isSome_iff_exists.mp (AList.lookup_isSome.mpr h)

/-- The registration an entry of the tables belongs to. -/
theorem Tabled.exists_registered (h : Tabled ticksPerSecond s)
    (hid : id ∈ s.receiver.pendingRequestsTs) :
    ∃ r, s.registered[s.tickets id]? = some r ∧ r.message.id = id := by
  obtain ⟨ts,hts⟩ := exists_lookup hid
  obtain ⟨r,hr,hm,_⟩ := h.stamped id ts hts
  exact ⟨r,hr,hm⟩

theorem Tabled.tickets_injective (h : Tabled ticksPerSecond s) {id' : MessageId}
    (hid : id ∈ s.receiver.pendingRequestsTs) (hid' : id' ∈ s.receiver.pendingRequestsTs)
    (heq : s.tickets id' = s.tickets id) : id' = id := by
  obtain ⟨r,hr,hm⟩ := h.exists_registered hid
  obtain ⟨r',hr',hm'⟩ := h.exists_registered hid'
  rw [heq, hr] at hr'
  cases hr'
  exact hm'.symm.trans hm

theorem tabled_settle (h : Tabled ticksPerSecond s) (hid : id ∈ s.receiver.pendingRequestsTs)
    (hc : ∀ r, s.registered[s.tickets id]? = some r → Answers ticksPerSecond r c) :
    Tabled ticksPerSecond (settle id c s) where
  keys id' := by
    show id' ∈ AList.erase id _ ↔ id' ∈ AList.erase id _
    rw [AList.mem_erase, AList.mem_erase, h.keys]
  unsatisfied id' r hr := h.unsatisfied id' r (lookup_erase_eq_some hr).2
  stamped id' ts hts := h.stamped id' ts (lookup_erase_eq_some hts).2
  unanswered id' hid' := by
    obtain ⟨hne,hold⟩ := AList.mem_erase.mp hid'
    show s.tickets id' ∉ (s.completed ++ [(s.tickets id,c)]).map Prod.fst
    rw [List.map_append, List.mem_append, not_or]
    refine ⟨h.unanswered id' hold,fun hmem => ?_⟩
    exact hne (h.tickets_injective hid hold (List.mem_singleton.mp hmem))
  once := by
    show ((s.completed ++ [(s.tickets id,c)]).map Prod.fst).Nodup
    rw [List.map_append, List.map_singleton, List.nodup_append]
    refine ⟨h.once,List.nodup_singleton _,fun a ha b hb => ?_⟩
    rw [List.mem_singleton.mp hb]
    rintro rfl
    exact h.unanswered id hid ha
  answered c' hc' := by
    rcases List.mem_append.mp hc' with hold | hnew
    · exact h.answered c' hold
    · obtain ⟨r,hr,_⟩ := h.exists_registered hid
      cases List.mem_singleton.mp hnew
      exact ⟨r,hr,hc r hr⟩
  caught := h.caught

/-- Of the receiver only the tables matter, and the clock does not. -/
theorem Tabled.congr (h : Tabled ticksPerSecond s) {receiver : Receiver} (now : ℕ)
    (hp : receiver.pendingRequests = s.receiver.pendingRequests)
    (hts : receiver.pendingRequestsTs = s.receiver.pendingRequestsTs) :
    Tabled ticksPerSecond { s with receiver := receiver, now := now } := by
  refine ⟨?_,?_,?_,?_,h.once,h.answered,h.caught⟩
  · rw [hp, hts]
    exact h.keys
  · rw [hp]
    exact h.unsatisfied
  · rw [hts]
    exact h.stamped
  · rw [hts]
    exact h.unanswered

theorem insertNew_of_notMem {β : Type} {map : AList fun _ : MessageId => β} (h : id ∉ map)
    (value : β) : insertNew id value map = map.insert id value := if_neg h

theorem Tabled.ticket_lt (h : Tabled ticksPerSecond s) {c : ℕ × Completion}
    (hc : c ∈ s.completed) : c.1 < s.registered.length := by
  obtain ⟨r,hr,_⟩ := h.answered c hc
  exact (List.getElem?_eq_some_iff.mp hr).1

theorem getElem?_append_some {rs : List Registration} {k : ℕ} {r : Registration}
    (h : rs[k]? = some r) (rest : List Registration) : (rs ++ rest)[k]? = some r := by
  rw [List.getElem?_append_left (List.getElem?_eq_some_iff.mp h).1, h]

/-- A request that is not pending is entered with the next ticket. -/
theorem tabled_doRequest (h : Tabled ticksPerSecond s) {msg : Message}
    (hmsg : msg.id ∉ s.receiver.pendingRequests) : Tabled ticksPerSecond (doRequest msg s) := by
  have hts : msg.id ∉ s.receiver.pendingRequestsTs := fun hmem => hmsg ((h.keys _).mpr hmem)
  unfold doRequest
  rw [insertNew_of_notMem hmsg, insertNew_of_notMem hts]
  refine ⟨fun id => ?_,fun id r hr => ?_,fun id ts hid => ?_,fun id hid => ?_,h.once,
    fun c hc => ?_,h.caught⟩
  · rw [AList.mem_insert, AList.mem_insert, h.keys]
  · by_cases hid : id = msg.id
    · subst hid
      rw [AList.lookup_insert] at hr
      cases hr
      rfl
    · rw [AList.lookup_insert_ne hid] at hr
      exact h.unsatisfied id r hr
  · by_cases hnew : id = msg.id
    · subst hnew
      rw [AList.lookup_insert] at hid
      cases hid
      refine ⟨⟨msg,s.now⟩,?_,rfl,rfl⟩
      simp
    · rw [AList.lookup_insert_ne hnew] at hid
      obtain ⟨r,hr,hm,hstamp⟩ := h.stamped id ts hid
      refine ⟨r,?_,hm,hstamp⟩
      dsimp only
      rw [Function.update_of_ne hnew]
      exact getElem?_append_some hr _
  · dsimp only at hid ⊢
    by_cases hnew : id = msg.id
    · rw [hnew, Function.update_self]
      intro hmem
      obtain ⟨c,hc,heq⟩ := List.mem_map.mp hmem
      exact absurd (h.ticket_lt hc) (by omega)
    · rw [Function.update_of_ne hnew]
      exact h.unanswered id (((AList.mem_insert _).mp hid).resolve_left hnew)
  · obtain ⟨r,hr,hans⟩ := h.answered c hc
    exact ⟨r,getElem?_append_some hr _,hans⟩

end Tables

section Expire
variable {ticksPerSecond : ℕ} {s : Requester} {id : MessageId}

/-- An entry under the identifier is old enough to be removed. -/
def Due (ticksPerSecond : ℕ) (s : Requester) (id : MessageId) : Prop :=
  ∀ ts, s.receiver.pendingRequestsTs.lookup id = some ts →
    30 < secondsElapsed ticksPerSecond ts s.now

theorem expireRequest_absent (hp : id ∉ s.receiver.pendingRequests)
    (hts : id ∉ s.receiver.pendingRequestsTs) : expireRequest s id = s := by
  have herase : s.receiver.pendingRequestsTs.erase id = s.receiver.pendingRequestsTs :=
    AList.ext (List.kerase_of_notMem_keys hts)
  unfold expireRequest
  rw [herase]
  dsimp only
  rw [AList.lookup_eq_none.mpr hp]

theorem expireRequest_pending (hp : s.receiver.pendingRequests.lookup id = some ⟨false⟩) :
    expireRequest s id = settle id (.expired s.now) s := by
  unfold expireRequest
  dsimp only
  rw [hp]
  rfl

theorem Tabled.lookup_eq (h : Tabled ticksPerSecond s) (hid : id ∈ s.receiver.pendingRequests) :
    s.receiver.pendingRequests.lookup id = some ⟨false⟩ := by
  obtain ⟨⟨satisfied⟩,hr⟩ := exists_lookup hid
  have hfree : satisfied = false := h.unsatisfied id _ hr
  rw [hr, hfree]

/-- `expireRequest` completes a request that is in the tables and does nothing otherwise. -/
theorem Tabled.expireRequest_eq (h : Tabled ticksPerSecond s) (id : MessageId) :
    expireRequest s id =
      if id ∈ s.receiver.pendingRequests then settle id (.expired s.now) s else s := by
  by_cases hid : id ∈ s.receiver.pendingRequests
  · rw [if_pos hid, expireRequest_pending (h.lookup_eq hid)]
  · rw [if_neg hid, expireRequest_absent hid fun hts => hid ((h.keys id).mpr hts)]

theorem tabled_expireRequest (h : Tabled ticksPerSecond s) (hdue : Due ticksPerSecond s id) :
    Tabled ticksPerSecond (expireRequest s id) := by
  rw [h.expireRequest_eq]
  split
  · rename_i hid
    refine tabled_settle h ((h.keys id).mp hid) fun r hr => ?_
    obtain ⟨ts,hts⟩ := exists_lookup ((h.keys id).mp hid)
    obtain ⟨r',hr',_,hstamp⟩ := h.stamped id ts hts
    cases hr.symm.trans hr'
    show 30 < secondsElapsed ticksPerSecond r.ts s.now
    rw [hstamp]
    exact hdue ts hts
  · exact h

theorem Tabled.due_expireRequest (h : Tabled ticksPerSecond s) {id' : MessageId}
    (hdue : Due ticksPerSecond s id') : Due ticksPerSecond (expireRequest s id) id' := by
  rw [h.expireRequest_eq]
  split
  · intro ts hts
    exact hdue ts (lookup_erase_eq_some hts).2
  · exact hdue

theorem tabled_expireRequests {ids : List MessageId} (h : Tabled ticksPerSecond s)
    (hdue : ∀ id ∈ ids, Due ticksPerSecond s id) :
    Tabled ticksPerSecond (ids.foldl expireRequest s) := by
  induction ids generalizing s with
  | nil => exact h
  | cons id ids ih =>
    have hfirst := tabled_expireRequest h (hdue id List.mem_cons_self)
    refine ih hfirst fun id' hid' => ?_
    exact h.due_expireRequest (hdue id' (List.mem_cons_of_mem id hid'))

theorem le_lastReading {now : ℕ} {visits : List Visit}
    (h : (now :: visits.map Visit.now).Pairwise (· ≤ ·)) :
    now ≤ lastReading now visits ∧ ∀ v ∈ visits, v.now ≤ lastReading now visits := by
  induction visits generalizing now with
  | nil => simp [lastReading]
  | cons v visits ih =>
    rw [List.map_cons, List.pairwise_cons] at h
    obtain ⟨hfirst,hrest⟩ := ih h.2
    have hv : now ≤ v.now := h.1 v.now List.mem_cons_self
    refine ⟨hv.trans hfirst,fun w hw => ?_⟩
    rcases List.mem_cons.mp hw with rfl | hw
    · exact hfirst
    · exact hrest w hw

theorem secondsElapsed_mono (ts : ℕ) {now later : ℕ} (h : now ≤ later) :
    secondsElapsed ticksPerSecond ts now ≤ secondsElapsed ticksPerSecond ts later :=
  Nat.div_le_div_right (Nat.sub_le_sub_right h ts)

/-- What the first loop collects is old enough when the second one starts. -/
theorem due_of_mem_expiredIds {visits : List Visit} (h : Visits s visits)
    (hid : id ∈ expiredIds ticksPerSecond visits) :
    Due ticksPerSecond { s with now := lastReading s.now visits } id := by
  obtain ⟨v,hv,rfl⟩ := List.mem_map.mp hid
  rw [List.mem_filter, decide_eq_true_eq] at hv
  intro ts hts
  have hentry : (⟨v.id,v.ts⟩ : Σ _ : MessageId, ℕ) ∈ s.receiver.pendingRequestsTs.entries :=
    h.1.mem_iff.mp (List.mem_map_of_mem hv.1)
  have hlookup : s.receiver.pendingRequestsTs.lookup v.id = some v.ts :=
    AList.mem_lookup_iff.mpr hentry
  cases hlookup.symm.trans hts
  have hlater := (le_lastReading h.2).2 v hv.1
  exact hv.2.trans_le (secondsElapsed_mono v.ts hlater)

theorem tabled_removeExpiredRequests {visits : List Visit} (h : Tabled ticksPerSecond s)
    (hv : Visits s visits) :
    Tabled ticksPerSecond (removeExpiredRequests ticksPerSecond visits s) := by
  have hnow : Tabled ticksPerSecond { s with now := lastReading s.now visits } :=
    h.congr _ rfl rfl
  exact tabled_expireRequests hnow fun id hid => due_of_mem_expiredIds hv hid

end Expire

section Reply
variable {ticksPerSecond : ℕ} {m : Message} {f : Field} {r r' : Receiver} {b : Build}
  {factory : MessageFactory} {counter : MessageId} {junk : Junk} {payload : List Byte}
  {stream : IStream} {s t : Requester}

/-- The receiver after the message has been given to the request that the field names. -/
def answered (m : Message) (f : Field) (r : Receiver) : Receiver :=
  { r with
    pendingRequests := r.pendingRequests.erase (messageIdOf f)
    pendingRequestsTs := r.pendingRequestsTs.erase (messageIdOf f)
    futures := r.futures ++ [(messageIdOf f,m)] }

theorem handOver_field (hf : m.fieldset.get srcMsgId = some f)
    (ht : f.valueType = messageIdType.name) : handOver m r =
      match r.pendingRequests.lookup (messageIdOf f) with
      | some promise =>
        if promise.satisfied then raise .promiseAlreadySatisfied else .ok (answered m f r)
      | none => .ok { r with incomingMessages := r.incomingMessages ++ [m] } := by
  unfold handOver
  rw [if_pos (hasField_iff.mpr ⟨f,hf⟩), field_eq hf, if_pos ht, ok_bind]
  rfl

theorem handOver_pending (hf : m.fieldset.get srcMsgId = some f)
    (ht : f.valueType = messageIdType.name)
    (hl : r.pendingRequests.lookup (messageIdOf f) = some ⟨false⟩) :
    handOver m r = .ok (answered m f r) := by
  rw [handOver_field hf ht, hl]
  rfl

/-- While no promise is satisfied a message is queued, or given to the request it answers, or
has a field `srcMsgId` of a wrong type. -/
theorem handOver_cases
    (hfree : ∀ id promise, r.pendingRequests.lookup id = some promise → promise.satisfied = false)
    (m : Message) :
    handOver m r = .ok { r with incomingMessages := r.incomingMessages ++ [m] } ∨
      (∃ f, m.fieldset.get srcMsgId = some f ∧ f.valueType = messageIdType.name ∧
        messageIdOf f ∈ r.pendingRequests ∧ handOver m r = .ok (answered m f r)) ∨
      ∃ text name session id, handOver m r = raise (.fieldDoesNotExist text name session id) := by
  by_cases hhas : m.hasField srcMsgId = true
  · obtain ⟨f,hf⟩ := hasField_iff.mp hhas
    by_cases ht : f.valueType = messageIdType.name
    · by_cases hid : messageIdOf f ∈ r.pendingRequests
      · obtain ⟨⟨satisfied⟩,hl⟩ := exists_lookup hid
        have hsatisfied : satisfied = false := hfree _ _ hl
        rw [hsatisfied] at hl
        exact Or.inr (Or.inl ⟨f,hf,ht,hid,handOver_pending hf ht hl⟩)
      · left
        rw [handOver_field hf ht, AList.lookup_eq_none.mpr hid]
    · right
      right
      unfold handOver
      rw [if_pos hhas, field_eq hf, if_neg ht]
      exact ⟨_,_,_,_,rfl⟩
  · left
    unfold handOver
    rw [if_neg hhas]

theorem onMessageRead_eq_ok (h : onMessageRead b factory counter junk payload r = .ok r') :
    r' = r ∨ ∃ m stream, createMessageFromStream b factory r.session counter junk
        (IStream.ofBytes payload) = .ok (some m,stream) ∧ handOver m r = .ok r' := by
  unfold onMessageRead at h
  cases htry : tryMessageRead b factory counter junk payload r with
  | error e =>
    rw [htry] at h
    cases e with
    | thrown e => exact Or.inl (Except.ok.inj h).symm
    | assertionFailed => cases h
  | ok u =>
    rw [htry] at h
    cases h
    obtain ⟨⟨message,stream⟩,hcreate,hmessage⟩ := bind_eq_ok.mp htry
    cases message with
    | none => exact Or.inl (Except.ok.inj hmessage).symm
    | some m => exact Or.inr ⟨m,stream,hcreate,hmessage⟩

theorem tabled_readReply (h : Tabled ticksPerSecond s)
    (hr : readReply b factory counter junk payload s = .ok t) : Tabled ticksPerSecond t := by
  obtain ⟨receiver,hread,ht⟩ := bind_eq_ok.mp hr
  cases ht
  have hkept : ∀ incoming, receiver = { s.receiver with incomingMessages := incoming } →
      Tabled ticksPerSecond { s with
        receiver := receiver
        completed := s.completed ++ (receiver.futures.drop s.receiver.futures.length).map
          fun (id,message) => (s.tickets id,.reply message) } := by
    rintro incoming rfl
    rw [List.drop_length, List.map_nil, List.append_nil]
    exact h.congr _ rfl rfl
  rcases onMessageRead_eq_ok hread with hsame | ⟨m,_,_,hm⟩
  · exact hkept s.receiver.incomingMessages hsame
  · rcases handOver_cases h.unsatisfied m with hq | ⟨f,hf,htype,hid,ha⟩ | ⟨_,_,_,_,he⟩
    · exact hkept _ (Except.ok.inj (hm.symm.trans hq))
    · have hanswered : receiver = answered m f s.receiver := Except.ok.inj (hm.symm.trans ha)
      have hsettle : Tabled ticksPerSecond (settle (messageIdOf f) (.reply m) s) := by
        refine tabled_settle h ((h.keys _).mp hid) fun r hr => ?_
        obtain ⟨r',hr',hmessage⟩ := h.exists_registered ((h.keys _).mp hid)
        cases hr.symm.trans hr'
        exact ⟨f,hf,htype,hmessage.symm⟩
      subst hanswered
      rw [answered, List.drop_left, List.map_singleton]
      exact hsettle.congr _ rfl rfl
    · cases hm.symm.trans he

theorem readReply_pending (h : Tabled ticksPerSecond s)
    (hm : createMessageFromStream b factory s.receiver.session counter junk
      (IStream.ofBytes payload) = .ok (some m,stream))
    (hf : m.fieldset.get srcMsgId = some f) (ht : f.valueType = messageIdType.name)
    (hid : messageIdOf f ∈ s.receiver.pendingRequests) :
    readReply b factory counter junk payload s = .ok { s with
      receiver := answered m f s.receiver
      completed := s.completed ++ [(s.tickets (messageIdOf f),.reply m)] } := by
  have htry : tryMessageRead b factory counter junk payload s.receiver =
      .ok (answered m f s.receiver) := by
    unfold tryMessageRead
    rw [hm, ok_bind]
    exact handOver_pending hf ht (h.lookup_eq hid)
  have hread : onMessageRead b factory counter junk payload s.receiver =
      .ok (answered m f s.receiver) := by
    unfold onMessageRead
    rw [htry]
  unfold readReply
  rw [hread, ok_bind]
  simp [answered]

theorem handOver_eq_ok {m : Message} {r r' : Receiver} (h : handOver m r = .ok r') :
    r' = { r with incomingMessages := r.incomingMessages ++ [m] } ∨ ∃ f, r' = answered m f r := by
  unfold handOver at h
  split at h
  · obtain ⟨f,_,h⟩ := bind_eq_ok.mp h
    dsimp only at h
    split at h
    · split at h
      · cases h
      · cases h
        exact Or.inr ⟨f,rfl⟩
    · cases h
      exact Or.inl rfl
  · cases h
    exact Or.inl rfl

end Reply

section Shrink
variable {ticksPerSecond : ℕ} {r r' r'' : Receiver} {b : Build} {factory : MessageFactory}
  {counter : MessageId} {junk : Junk} {payload : List Byte} {s t : Requester} {id : MessageId}

/-- Requests may have left the table; the others are as they were, and so is the session. -/
structure Shrinks (r r' : Receiver) : Prop where
  lookup : ∀ id promise, r'.pendingRequests.lookup id = some promise →
    r.pendingRequests.lookup id = some promise
  session : r'.session = r.session

theorem Shrinks.refl (r : Receiver) : Shrinks r r := ⟨fun _ _ h => h,rfl⟩

theorem Shrinks.trans (h : Shrinks r r') (h' : Shrinks r' r'') : Shrinks r r'' :=
  ⟨fun id promise hid => h.lookup id promise (h'.lookup id promise hid),h'.session.trans h.session⟩

theorem Shrinks.mem (h : Shrinks r r') (hid : id ∈ r'.pendingRequests) : id ∈ r.pendingRequests := by
  obtain ⟨promise,hpromise⟩ := exists_lookup hid
  exact AList.lookup_isSome.mp (Option.isSome_iff_exists.mpr ⟨promise,h.lookup id promise hpromise⟩)

theorem shrinks_expireRequest (s : Requester) (id : MessageId) :
    Shrinks s.receiver (expireRequest s id).receiver := by
  unfold expireRequest
  dsimp only
  split
  · exact ⟨fun _ _ h => h,rfl⟩
  · split
    · exact ⟨fun _ _ h => (lookup_erase_eq_some h).2,rfl⟩
    · exact ⟨fun _ _ h => h,rfl⟩

theorem shrinks_removeExpiredRequests (visits : List Visit) (s : Requester) :
    Shrinks s.receiver (removeExpiredRequests ticksPerSecond visits s).receiver := by
  have hloop : ∀ (ids : List MessageId) (s : Requester),
      Shrinks s.receiver (ids.foldl expireRequest s).receiver := by
    intro ids
    induction ids with
    | nil => exact fun s => Shrinks.refl s.receiver
    | cons id ids ih => exact fun s => (shrinks_expireRequest s id).trans (ih _)
  exact hloop _ { s with now := lastReading s.now visits }

theorem shrinks_onMessageRead (h : onMessageRead b factory counter junk payload r = .ok r') :
    Shrinks r r' := by
  rcases onMessageRead_eq_ok h with rfl | ⟨m,_,_,hm⟩
  · exact Shrinks.refl r'
  · rcases handOver_eq_ok hm with rfl | ⟨f,rfl⟩
    · exact ⟨fun _ _ h => h,rfl⟩
    · exact ⟨fun _ _ h => (lookup_erase_eq_some h).2,rfl⟩

theorem shrinks_readReply (h : readReply b factory counter junk payload s = .ok t) :
    Shrinks s.receiver t.receiver := by
  obtain ⟨receiver,hread,ht⟩ := bind_eq_ok.mp h
  cases ht
  exact shrinks_onMessageRead hread

end Shrink

section Runs
variable {ticksPerSecond : ℕ} {s t : Requester} {e : RequestEvent}

theorem Tabled.requestsKept (h : Tabled ticksPerSecond s) : RequestsKept ticksPerSecond s where
  toTabled := h
  setValue m := by
    rcases handOver_cases h.unsatisfied m with hq | ⟨f,_,_,_,ha⟩ | ⟨_,_,_,_,he⟩
    · rw [hq]
      exact nofun
    · rw [ha]
      exact nofun
    · rw [he]
      exact nofun
  setException visits hv := (tabled_removeExpiredRequests h hv).caught
  fulfils b factory counter junk payload m stream f hm hf ht hid :=
    ⟨_,readReply_pending h hm hf ht hid,rfl,rfl,rfl,rfl⟩

theorem tabled_step (h : Tabled ticksPerSecond s) (hstep : RequestStep ticksPerSecond s e t) :
    Tabled ticksPerSecond t := by
  cases hstep with
  | elapse ticks => exact h.congr _ rfl rfl
  | session session => exact h.congr _ rfl rfl
  | request hid => exact tabled_doRequest h hid
  | read hread => exact tabled_readReply h hread
  | removeExpired hv => exact tabled_removeExpiredRequests h hv

theorem tabled_idle (session : Option SessionId) (now : ℕ) :
    Tabled ticksPerSecond (idleRequester session now) where
  keys id := Iff.rfl
  unsatisfied id r hr := by cases hr
  stamped id ts hts := by cases hts
  unanswered id _ := List.not_mem_nil
  once := List.nodup_nil
  answered c hc := by cases hc
  caught := rfl

/-- In every run, and with every clock that does not run backwards, the requests are kept. -/
theorem requestsKept_of_run {session : Option SessionId} {now : ℕ}
    {trace : List (Requester × RequestEvent)}
    (hr : Run (RequestStep ticksPerSecond) (idleRequester session now) trace t) :
    RequestsKept ticksPerSecond t := by
  have htabled : Tabled ticksPerSecond t :=
    hr.preserved (fun s e t h hstep => tabled_step h hstep) (tabled_idle session now)
  exact htabled.requestsKept

/-- A request that nobody answers, after 31 seconds. -/
def unansweredTrace : List (Requester × RequestEvent) :=
  let start := idleRequester none 0
  let requested := doRequest emptyMessage start
  [(start,.request emptyMessage),(requested,.elapse 31),
    ({ requested with now := 31 },.removeExpired [⟨emptyMessage.id,0,31⟩])]

theorem requestsKept_of_run_unanswered : ∃ t,
    Run (RequestStep 1) (idleRequester none 0) unansweredTrace t ∧
      t.completed = [(0,.expired 31)] ∧ RequestsKept 1 t := by
  have hvisits : Visits { doRequest emptyMessage (idleRequester none 0) with now := 31 }
      [⟨emptyMessage.id,0,31⟩] := by
    refine ⟨List.Perm.refl _,?_⟩
    simp
  have hr : Run (RequestStep 1) (idleRequester none 0) unansweredTrace _ :=
    Run.cons (RequestStep.request (AList.notMem_empty _))
      (Run.cons (RequestStep.elapse _ 31) (Run.cons (RequestStep.removeExpired hvisits) (Run.nil _)))
  exact ⟨_,hr,rfl,requestsKept_of_run hr⟩

end Runs

end TcpTransport

end Isml
