import Isml.Transport.FrameSync

/-! # Where readers on hosts of both kinds cut a stream

The length in front of a frame is written by the serializer, which swaps it on a
big-endian host, and read into the member as it lies in memory. A big-endian reader
therefore takes the two bytes of the length in the other order.
-/
namespace Isml.TcpTransport
open ByteOrder StringStream

variable {host : Endian} {bytes : List Byte} {payloads payloads' : List (List Byte)}

/-- What a reader cuts a stream into that takes the first two bytes of each frame for the
number of bytes after them. -/
inductive Cuts (host : Endian) : List Byte → List (List Byte) → Prop
  | short {bytes : List Byte} : bytes.length < 2 → Cuts host bytes []
  | waiting {b₀ b₁ : Byte} {rest : List Byte} :
      rest.length < host.ofMemory [b₀,b₁] → Cuts host (b₀ :: b₁ :: rest) []
  | frame {b₀ b₁ : Byte} {rest : List Byte} {payloads : List (List Byte)} :
      host.ofMemory [b₀,b₁] ≤ rest.length → Cuts host (rest.drop (host.ofMemory [b₀,b₁])) payloads →
        Cuts host (b₀ :: b₁ :: rest) (rest.take (host.ofMemory [b₀,b₁]) :: payloads)

/-- Up to the first frame that is incomplete for both kinds of readers, the two bytes in front
of each frame are equal. -/
inductive SameInBothOrders : List Byte → Prop
  | short {bytes : List Byte} : bytes.length < 2 → SameInBothOrders bytes
  | waiting {b₀ b₁ : Byte} {rest : List Byte} :
      rest.length < b₀.toNat + 256 * b₁.toNat → rest.length < b₁.toNat + 256 * b₀.toNat →
        SameInBothOrders (b₀ :: b₁ :: rest)
  | frame {b : Byte} {rest : List Byte} : b.toNat + 256 * b.toNat ≤ rest.length →
      SameInBothOrders (rest.drop (b.toNat + 256 * b.toNat)) → SameInBothOrders (b :: b :: rest)

theorem ofMemory_little (b₀ b₁ : Byte) :
    Endian.ofMemory .little [b₀,b₁] = b₀.toNat + 256 * b₁.toNat := by
  simp [Endian.ofMemory, ByteOrder.ofBytes]

theorem ofMemory_big (b₀ b₁ : Byte) :
    Endian.ofMemory .big [b₀,b₁] = b₁.toNat + 256 * b₀.toNat := by
  simp [Endian.ofMemory, ByteOrder.ofBytes]

theorem ofMemory_pair_lt (host : Endian) (b₀ b₁ : Byte) : host.ofMemory [b₀,b₁] < 2 ^ 16 := by
  have hlength : [b₀,b₁].length = 2 := rfl
  have hbound := Endian.ofMemory_lt host [b₀,b₁]
  rwa [hlength] at hbound

section Reader
variable {s s' : Incoming}

theorem completeRead_messageLength {b₀ b₁ : Byte} {rest : List Byte}
    (hop : s.operation = .messageLength) (hunread : s.unread = b₀ :: b₁ :: rest) :
    completeRead host s = some { s with
      operation := .message
      length := BitVec.ofNat 16 (host.ofMemory [b₀,b₁])
      unread := rest
      consumed := s.consumed + sizeOfMessageLength } := by
  simp [completeRead, hop, hunread, asyncRead, sizeOfMessageLength]

theorem completeRead_message (hop : s.operation = .message) (hle : s.length.toNat ≤ s.unread.length) :
    completeRead host s = some { s with
      operation := .messageLength
      unread := s.unread.drop s.length.toNat
      consumed := s.consumed + s.length.toNat
      delivered := s.delivered ++
        [(s.unread.take s.length.toNat,s.consumed + s.length.toNat)] } := by
  simp [completeRead, hop, asyncRead, hle]

theorem completeRead_none_of_short (hop : s.operation = .messageLength) (hlt : s.unread.length < 2) :
    completeRead host s = none := by
  have hnot : ¬ sizeOfMessageLength ≤ s.unread.length := Nat.not_le.mpr hlt
  simp [completeRead, hop, asyncRead, hnot]

theorem completeRead_none_of_waiting (hop : s.operation = .message)
    (hlt : s.unread.length < s.length.toNat) : completeRead host s = none := by
  have hnot : ¬ s.length.toNat ≤ s.unread.length := Nat.not_le.mpr hlt
  simp [completeRead, hop, asyncRead, hnot]

theorem completeReads_of_none {n : ℕ} (h : completeRead host s = none) :
    completeReads host n s = s := by
  cases n with
  | zero => rfl
  | succ n => rw [completeReads, h]

theorem completeReads_of_some {n : ℕ} (h : completeRead host s = some s') :
    completeReads host (n + 1) s = completeReads host n s' := by
  rw [completeReads, h]

/-- From a state in which it reads a length the reader delivers what the unread bytes are cut
into; each frame takes two reads. -/
theorem cuts_completeReads (host : Endian) {n : ℕ} (hop : s.operation = .messageLength)
    (hn : Incoming.measure s < n) :
    ∃ payloads, Cuts host s.unread payloads ∧
      (completeReads host n s).delivered.map Prod.fst = s.delivered.map Prod.fst ++ payloads := by
  induction n using Nat.strong_induction_on generalizing s with
  | _ n ih =>
    rcases hunread : s.unread with _ | ⟨b₀,_ | ⟨b₁,rest⟩⟩
    · rw [completeReads_of_none (completeRead_none_of_short hop (by simp [hunread]))]
      exact ⟨[],Cuts.short (by simp),by simp⟩
    · rw [completeReads_of_none (completeRead_none_of_short hop (by simp [hunread]))]
      exact ⟨[],Cuts.short (by simp),by simp⟩
    · have hlength : (BitVec.ofNat 16 (host.ofMemory [b₀,b₁])).toNat = host.ofMemory [b₀,b₁] :=
        Nat.mod_eq_of_lt (ofMemory_pair_lt host b₀ b₁)
      have hmeasure : Incoming.measure s = rest.length + 2 := by
        simp [Incoming.measure, hunread, hop]
      obtain ⟨k,rfl⟩ : ∃ k, n = k + 1 + 1 := ⟨n - 2,by omega⟩
      have hfirst : completeRead host s = _ := completeRead_messageLength hop hunread
      rw [completeReads_of_some hfirst]
      rcases Nat.lt_or_ge rest.length (host.ofMemory [b₀,b₁]) with hlt | hle
      · rw [completeReads_of_none (completeRead_none_of_waiting rfl (by rw [hlength]; exact hlt))]
        exact ⟨[],Cuts.waiting hlt,by simp⟩
      · rw [completeReads_of_some (completeRead_message rfl (by rw [hlength]; exact hle))]
        simp only [hlength]
        obtain ⟨payloads,hcuts,hdelivered⟩ := ih k (by omega)
          (s := ⟨.messageLength,BitVec.ofNat 16 (host.ofMemory [b₀,b₁]),
            rest.drop (host.ofMemory [b₀,b₁]),
            s.consumed + sizeOfMessageLength + host.ofMemory [b₀,b₁],
            s.delivered ++ [(rest.take (host.ofMemory [b₀,b₁]),
              s.consumed + sizeOfMessageLength + host.ofMemory [b₀,b₁])]⟩) rfl
          (by simp only [Incoming.measure, List.length_drop, reduceCtorEq, ↓reduceIte]; omega)
        refine ⟨_,Cuts.frame hle hcuts,?_⟩
        rw [hdelivered]
        simp

end Reader

/-- What `receive` delivers. -/
def payloadsOf (host : Endian) (bytes : List Byte) : List (List Byte) :=
  (receive host bytes).delivered.map Prod.fst

theorem cuts_payloadsOf (host : Endian) (bytes : List Byte) : Cuts host bytes (payloadsOf host bytes) := by
  obtain ⟨payloads,hcuts,hdelivered⟩ := cuts_completeReads host (s := startReading bytes)
    (n := bytes.length + 1) rfl (by simp [Incoming.measure, startReading])
  have hall : payloadsOf host bytes = payloads := hdelivered
  rw [hall]
  exact hcuts

theorem Cuts.unique (h : Cuts host bytes payloads) (h' : Cuts host bytes payloads') :
    payloads = payloads' := by
  induction h generalizing payloads' with
  | short hlt =>
    cases h' with
    | short => rfl
    | waiting => rfl
    | frame =>
      simp only [List.length_cons] at hlt
      omega
  | waiting hlt =>
    cases h' with
    | short => rfl
    | waiting => rfl
    | frame hle => omega
  | frame hle _ ih =>
    cases h' with
    | short hlt =>
      simp only [List.length_cons] at hlt
      omega
    | waiting hlt => omega
    | frame _ hrest => rw [ih hrest]

theorem cuts_iff : Cuts host bytes payloads ↔ payloadsOf host bytes = payloads := by
  constructor
  · exact (cuts_payloadsOf host bytes).unique
  · rintro rfl
    exact cuts_payloadsOf host bytes

/-- Where both readers find the same payloads, the two bytes of each length are equal, as the
first payloads are equally long. -/
theorem Cuts.sameInBothOrders (hlittle : Cuts .little bytes payloads)
    (hbig : Cuts .big bytes payloads) : SameInBothOrders bytes := by
  induction hlittle with
  | short hlt => exact SameInBothOrders.short hlt
  | @waiting b₀ b₁ rest hlt =>
    cases hbig with
    | short hshort =>
      simp only [List.length_cons] at hshort
      omega
    | waiting hlt' =>
      rw [ofMemory_little] at hlt
      rw [ofMemory_big] at hlt'
      exact SameInBothOrders.waiting hlt hlt'
  | @frame b₀ b₁ rest payloads hle hrest ih =>
    generalize hfirst : rest.take (Endian.ofMemory .little [b₀,b₁]) = first at hbig
    cases hbig with
    | frame hle' hrest' =>
      have hlen := congrArg List.length hfirst
      rw [List.length_take, List.length_take, Nat.min_eq_left hle, Nat.min_eq_left hle',
        ofMemory_little, ofMemory_big] at hlen
      have hbyte : b₀ = b₁ := by
        apply UInt8.toNat_inj.mp
        omega
      subst hbyte
      rw [ofMemory_little] at hle hrest ih
      rw [ofMemory_big] at hrest'
      exact SameInBothOrders.frame hle (ih hrest')

theorem SameInBothOrders.exists_cuts (h : SameInBothOrders bytes) :
    ∃ payloads, Cuts .little bytes payloads ∧ Cuts .big bytes payloads := by
  induction h with
  | short hlt => exact ⟨[],Cuts.short hlt,Cuts.short hlt⟩
  | waiting hlt hlt' =>
    refine ⟨[],Cuts.waiting ?_,Cuts.waiting ?_⟩
    · rw [ofMemory_little]
      exact hlt
    · rw [ofMemory_big]
      exact hlt'
  | @frame b rest hle _ ih =>
    obtain ⟨payloads,hlittle,hbig⟩ := ih
    have heq : Endian.ofMemory .big [b,b] = Endian.ofMemory .little [b,b] := by
      rw [ofMemory_big, ofMemory_little]
    rw [← ofMemory_little] at hle hlittle
    rw [← ofMemory_big] at hbig
    refine ⟨_,Cuts.frame hle hlittle,?_⟩
    rw [← heq] at hle ⊢
    exact Cuts.frame hle hbig

/-- Both readers cut the stream alike if and only if the order of the two bytes of a length
makes no difference to it. -/
theorem payloadsOf_eq_iff (bytes : List Byte) :
    payloadsOf .big bytes = payloadsOf .little bytes ↔ SameInBothOrders bytes := by
  constructor
  · intro heq
    exact (cuts_payloadsOf .little bytes).sameInBothOrders (cuts_iff.mpr heq)
  · intro hsame
    obtain ⟨payloads,hlittle,hbig⟩ := hsame.exists_cuts
    rw [cuts_iff.mp hlittle, cuts_iff.mp hbig]

/-- The length a sender has written in front of what follows is the one the receiver sizes its
buffer with. -/
def LengthKept (sender receiver : Endian) (length : MessageLength) : Prop :=
  ∀ s : Incoming, ∀ rest : List Byte, s.operation = .messageLength →
    s.unread = BinarySerializer.writeIntegral sender sizeOfMessageLength length.toNat [] ++ rest →
      ∃ s', completeRead receiver s = some s' ∧ s'.length = length

/-- The two bytes of a length, in the order they are sent. -/
def lengthBytes (length : MessageLength) : List Byte :=
  [UInt8.ofNat length.toNat,UInt8.ofNat (length.toNat / 256)]

theorem writeIntegral_messageLength (sender : Endian) (length : MessageLength) :
    BinarySerializer.writeIntegral sender sizeOfMessageLength length.toNat [] = lengthBytes length := by
  have hlt : length.toNat < 256 ^ 2 := length.isLt
  exact BinarySerializer.writeIntegral_eq sender (by decide) hlt []

theorem lengthKept_iff_ofMemory (sender receiver : Endian) (length : MessageLength) :
    LengthKept sender receiver length ↔ receiver.ofMemory (lengthBytes length) = length.toNat := by
  have hmod : receiver.ofMemory (lengthBytes length) % 2 ^ 16 = receiver.ofMemory (lengthBytes length) :=
    Nat.mod_eq_of_lt (ofMemory_pair_lt receiver _ _)
  unfold LengthKept
  rw [writeIntegral_messageLength]
  constructor
  · intro hkept
    obtain ⟨s',hs,hlength⟩ := hkept (startReading _) [] rfl rfl
    rw [lengthBytes, completeRead_messageLength rfl rfl, Option.some.injEq] at hs
    have hvalue : BitVec.ofNat 16 (receiver.ofMemory (lengthBytes length)) = length :=
      (congrArg Incoming.length hs).trans hlength
    have hnat := congrArg BitVec.toNat hvalue
    rwa [BitVec.toNat_ofNat, hmod] at hnat
  · intro hvalue s rest hop hunread
    refine ⟨_,completeRead_messageLength hop hunread,?_⟩
    apply BitVec.eq_of_toNat_eq
    exact (BitVec.toNat_ofNat _ _).trans (hmod.trans hvalue)

theorem lengthKept_iff (sender receiver : Endian) (length : MessageLength) :
    LengthKept sender receiver length ↔
      receiver = .little ∨ length.toNat / 256 = length.toNat % 256 := by
  have hlt : length.toNat < 256 ^ 2 := length.isLt
  have hlow : (UInt8.ofNat length.toNat).toNat = length.toNat % 256 := UInt8.toNat_ofNat'
  have hhigh : (UInt8.ofNat (length.toNat / 256)).toNat = length.toNat / 256 := by
    rw [UInt8.toNat_ofNat']
    exact Nat.mod_eq_of_lt (by omega)
  have hsplit := Nat.mod_add_div length.toNat 256
  rw [lengthKept_iff_ofMemory, lengthBytes]
  cases receiver with
  | little =>
    rw [ofMemory_little, hlow, hhigh]
    exact ⟨fun _ => Or.inl rfl,fun _ => hsplit⟩
  | big =>
    rw [ofMemory_big, hlow, hhigh]
    constructor
    · intro hvalue
      right
      omega
    · rintro (himpossible | heq)
      · cases himpossible
      · omega

/-- When the byte orders of the hosts make no difference to the framing. -/
theorem framing_hostIndependent_iff (bytes : List Byte) (sender receiver : Endian)
    (length : MessageLength) :
    (payloadsOf .big bytes = payloadsOf .little bytes ↔ SameInBothOrders bytes) ∧
      (LengthKept sender receiver length ↔
        receiver = .little ∨ length.toNat / 256 = length.toNat % 256) :=
  ⟨payloadsOf_eq_iff bytes,lengthKept_iff sender receiver length⟩

/-- A frame of two bytes: a big-endian reader waits for 512 of them. -/
theorem not_framing_hostIndependent :
    payloadsOf .little [2,0,5,6] = [[5,6]] ∧ payloadsOf .big [2,0,5,6] = [] ∧
      ¬ LengthKept .little .big 2 := by
  refine ⟨by decide,by decide,fun hkept => ?_⟩
  rcases (lengthKept_iff .little .big 2).mp hkept with himpossible | heq
  · cases himpossible
  · exact absurd heq (by decide)

end Isml.TcpTransport
