import Isml.Serialization.ShortReads

/-! # Hosts of both kinds write and read the same bytes

Every arithmetic object is swapped exactly once on a big-endian host, so the bytes
depend on the value alone. What does not come back, on any host, is a container whose
number of elements does not fit its 16-bit count.
-/
namespace Isml.BinarySerializer
open ByteOrder StringStream

section Loops
variable {α : Type*} {f g : α → OStream → Result OStream}

theorem foldlM_congr {l : List α} (h : ∀ x ∈ l, ∀ out, f x out = g x out) (out : OStream) :
    l.foldlM (fun out x => f x out) out = l.foldlM (fun out x => g x out) out := by
  induction l generalizing out with
  | nil => rfl
  | cons x xs ih =>
    rw [List.foldlM_cons, List.foldlM_cons, h x List.mem_cons_self]
    apply congrArg
    funext out'
    exact ih (fun y hy => h y (List.mem_cons_of_mem x hy)) out'

end Loops

/-- Compiled for either kind of host the serializer writes the same bytes, for containers of
any size, and stops at the same values. -/
theorem serialize_host (host host' : Endian) (ndebug : Bool) (t : Ty) {v : Val} (ht : t.HasType v)
    (out : OStream) : serialize ⟨host,ndebug⟩ t v out = serialize ⟨host',ndebug⟩ t v out := by
  induction t generalizing v out with
  | integral k | enumeration name k =>
    obtain ⟨n,rfl,hn⟩ := ht
    have hlt : n < 256 ^ k.size := hn.trans_le k.range_le
    simp only [serialize, Val.toBits, writeIntegral_eq host k.size_cases hlt,
      writeIntegral_eq host' k.size_cases hlt]
  | floating k => simp only [serialize, writeFloating_eq]
  | pair a c ha hc =>
    obtain ⟨_,ht1,ht2⟩ := ht
    have hrest : (fun out => serialize ⟨host,ndebug⟩ c v.second out) =
        fun out => serialize ⟨host',ndebug⟩ c v.second out := by
      funext out
      exact hc ht2 out
    simp only [serialize, ha ht1]
    exact congrArg _ hrest
  | optional a ha =>
    rcases ht with rfl | ⟨w,rfl,ht⟩
    · simp only [serialize, swapFlag_eq, writeIntegral_eq host (w := 1) (n := 0) (by decide) (by decide),
        writeIntegral_eq host' (w := 1) (n := 0) (by decide) (by decide)]
    · simp only [serialize, swapFlag_eq, writeIntegral_eq host (w := 1) (n := 1) (by decide) (by decide),
        writeIntegral_eq host' (w := 1) (n := 1) (by decide) (by decide), ha ht]
  | sequence c a ha =>
    have hitems := foldlM_congr fun x hx out => ha (ht.2 x hx) out
    simp only [serialize, writeContainerSize_eq, hitems]
  | set p a ha | array n a ha =>
    have hitems := foldlM_congr fun x hx out => ha (ht.2.2 x hx) out
    simp only [serialize, writeContainerSize_eq, hitems]
  | map p k a hk ha =>
    have hentry : ∀ x ∈ v.elements, ∀ out, (do
        let out ← serialize ⟨host,ndebug⟩ k x.first out
        serialize ⟨host,ndebug⟩ a x.second out) = (do
        let out ← serialize ⟨host',ndebug⟩ k x.first out
        serialize ⟨host',ndebug⟩ a x.second out) := by
      intro x hx out
      obtain ⟨_,htk,hta⟩ := ht.2.2 x hx
      rw [hk htk]
      apply congrArg
      funext out'
      exact ha hta out'
    have hitems := foldlM_congr hentry
    simp only [serialize, writeContainerSize_eq, hitems]
  | serializable name m hm => exact hm ht out

/-- Contents that are the same have containers of the same sizes. -/
theorem within_of_same {limit : ℕ} {t : Ty} {v w : Val} (h : Same v w) (hv : t.Within limit v) :
    t.Within limit w := by
  induction t generalizing v w with
  | integral k | enumeration name k | floating k => trivial
  | pair a c ha hc => exact ⟨ha h.first hv.1,hc h.second hv.2⟩
  | optional a ha =>
    rintro y rfl
    cases h with
    | present hs => exact ha hs (hv _ rfl)
  | sequence c a ha | set p a ha | array n a ha =>
    refine ⟨h.length ▸ hv.1,fun y hy => ?_⟩
    obtain ⟨x,hx,hs⟩ := h.mem_right hy
    exact ha hs (hv.2 x hx)
  | map p k a hk ha =>
    refine ⟨h.length ▸ hv.1,fun y hy => ?_⟩
    obtain ⟨x,hx,hs⟩ := h.mem_right hy
    exact ⟨hk hs.first (hv.2 x hx).1,ha hs.second (hv.2 x hx).2⟩
  | serializable name m hm => exact hm h hv

/-- A count that was read has 16 bits. -/
theorem readContainerSize_le (host : Endian) (old : ℕ) (s : IStream) :
    (readIntegral host sizeOfContainerSize old s).1 ≤ 65535 := by
  have hlen := read_length (s := s) (Endian.toMemory_length host sizeOfContainerSize old)
  have hlt := ofBytes_lt (s.read sizeOfContainerSize (host.toMemory sizeOfContainerSize old)).1
  rw [hlen] at hlt
  rw [readIntegral_fst host (by decide)]
  exact Nat.le_of_lt_succ hlt

section Loops
variable {read : Junk → Val → IStream → Result (Val × IStream)} {P Q : Val → Prop}

theorem deserializeItems_forall
    (h : ∀ {junk old v s s'}, P old → read junk old s = .ok (v,s') → Q v) {junk : Junk}
    {olds vs : List Val} {s s' : IStream} (hP : ∀ old ∈ olds, P old)
    (hd : deserializeItems read junk olds s = .ok (vs,s')) : ∀ v ∈ vs, Q v := by
  induction olds generalizing vs s with
  | nil =>
    cases hd
    simp
  | cons old olds ih =>
    obtain ⟨⟨x,s1⟩,hx,hd⟩ := bind_eq_ok.mp hd
    obtain ⟨⟨xs,s2⟩,hxs,hd⟩ := bind_eq_ok.mp hd
    cases hd
    intro v hv
    rcases List.mem_cons.mp hv with rfl | hv
    · exact h (hP old List.mem_cons_self) hx
    · exact ih (fun o ho => hP o (List.mem_cons_of_mem old ho)) hxs v hv

theorem insertItems_forall {read : Junk → IStream → Result (Val × IStream)} {p : KeyPolicy}
    {key : Val → Val} (h : ∀ {junk v s s'}, read junk s = .ok (v,s') → Q v) {junk : Junk} {n : ℕ}
    {l vs : List Val} {s s' : IStream} (hl : ∀ v ∈ l, Q v)
    (hd : insertItems read (p.insert key) junk n l s = .ok (vs,s')) :
    vs.length ≤ l.length + n ∧ ∀ v ∈ vs, Q v := by
  induction n generalizing l s with
  | zero =>
    cases hd
    exact ⟨Nat.le_refl _,hl⟩
  | succ n ih =>
    obtain ⟨⟨x,s1⟩,hx,hd⟩ := bind_eq_ok.mp hd
    have hnext : ∀ v ∈ p.insert key x l, Q v := by
      intro v hv
      rcases p.mem_insert key hv with rfl | hv
      · exact h hx
      · exact hl v hv
    obtain ⟨hlen,hall⟩ := ih hnext hd
    have hone := p.insert_length_le key x l
    exact ⟨by omega,hall⟩

/-- What was inserted into an empty container as often as a count of 16 bits says. -/
theorem insertItems_within {read : Junk → IStream → Result (Val × IStream)} {p : KeyPolicy}
    {key : Val → Val} (h : ∀ {junk v s s'}, read junk s = .ok (v,s') → Q v) {junk : Junk} {n : ℕ}
    (hn : n ≤ 65535) {l : List Val} {s s' : IStream}
    (hd : insertItems read (p.insert key) junk n [] s = .ok (l,s')) :
    (p.container l).elements.length ≤ 65535 ∧ ∀ v ∈ (p.container l).elements, Q v := by
  obtain ⟨hlen,hall⟩ := insertItems_forall h (by simp) hd
  rw [List.length_nil, Nat.zero_add] at hlen
  rw [p.elements_container l]
  exact ⟨hlen.trans hn,hall⟩

end Loops

/-- What a build with assertions decodes has no container of more than 65535 elements: its
count was read, and a `std::array` has been compared with it. -/
theorem within_of_deserialize {b : Build} (hb : b.ndebug = false) (t : Ty) {junk : Junk} {old w : Val}
    {s s' : IStream} (hf : Fresh t old) (hd : deserialize b t junk old s = .ok (w,s')) :
    t.Within 65535 w := by
  induction t generalizing junk old w s s' with
  | integral k | enumeration name k | floating k => trivial
  | pair a c ha hc =>
    obtain ⟨x,s1,y,hx,hy,rfl⟩ := deserialize_pair_ok hd
    exact ⟨ha hf.1 hx,hc hf.2 hy⟩
  | optional a ha =>
    rcases deserialize_optional_ok hd with ⟨_,x,hx,rfl⟩ | ⟨_,rfl,_⟩
    · rintro y ⟨⟩
      exact ha (fresh_uninitialized a _) hx
    · rintro y rfl
      cases hf
  | sequence c a ha =>
    obtain ⟨l,hl,rfl⟩ := deserialize_sequence_ok hd
    obtain ⟨hlen,hfresh⟩ := fresh_resize (a := a) (l := old.elements) hf _
    refine ⟨?_,deserializeItems_forall (fun hold hx => ha hold hx) hfresh hl⟩
    rw [Val.elements, deserializeItems_length hl, hlen]
    exact readContainerSize_le b.host _ s
  | set p a ha =>
    obtain ⟨l,hl,rfl⟩ := deserialize_set_ok hd
    have hcount := readContainerSize_le b.host (junk [] % 2 ^ 16) s
    exact insertItems_within (Q := a.Within 65535) (fun hx => ha (fresh_uninitialized a _) hx) hcount hl
  | map p k a hk ha =>
    obtain ⟨l,hl,rfl⟩ := deserialize_map_ok hd
    have hentry : ∀ {junk v s s'}, readEntry (readLocal (deserialize b k) k)
        (readLocal (deserialize b a) a) junk s = .ok (v,s') →
          k.Within 65535 v.first ∧ a.Within 65535 v.second := by
      intro junk v s s' hd
      obtain ⟨x,s1,y,hx,hy,rfl⟩ := readEntry_ok hd
      exact ⟨hk (fresh_uninitialized k _) hx,ha (fresh_uninitialized a _) hy⟩
    have hcount := readContainerSize_le b.host (junk [] % 2 ^ 16) s
    exact insertItems_within hentry hcount hl
  | array n a ha =>
    obtain ⟨l,hassert,hl,rfl⟩ := deserialize_array_ok hd
    have hn := hassert.resolve_left (by simp [hb])
    refine ⟨?_,deserializeItems_forall (fun hold hx => ha hold hx) hf.2 hl⟩
    rw [Val.elements, deserializeItems_length hl, hf.1, ← hn]
    exact readContainerSize_le b.host _ s
  | serializable name m hm => exact hm hf hd

/-- The value is written on a host of one kind and read on one of the other kind. -/
def CrossesHosts (t : Ty) (v : Val) : Prop :=
  ∀ b b' : Build, b.host ≠ b'.host → ∃ bytes, serialize b t v [] = .ok bytes ∧
    ∀ junk old r, old = t.default ∨ (∃ junk', old = t.uninitialized junk') →
      ∃ w, deserialize b' t junk old (IStream.ofBytes (bytes ++ r)) = .ok (w,IStream.ofBytes r) ∧
        Same w v

/-- The bytes are the same on hosts of both kinds, and a value crosses from one to the other
exactly if the number of elements of each container in it fits the count. -/
theorem hostIndependent (t : Ty) {v : Val} (ht : t.HasType v) :
    (∀ ndebug out, serialize ⟨.big,ndebug⟩ t v out = serialize ⟨.little,ndebug⟩ t v out) ∧
      (CrossesHosts t v ↔ t.Within 65535 v) := by
  refine ⟨fun ndebug out => serialize_host .big .little ndebug t ht out,fun hcross => ?_,fun hw => ?_⟩
  · obtain ⟨bytes,_,hread⟩ := hcross ⟨.little,true⟩ ⟨.big,false⟩ (by decide)
    obtain ⟨w,hd,hs⟩ := hread (fun _ => 0) t.default [] (Or.inl rfl)
    exact within_of_same hs (within_of_deserialize rfl t (fresh_default t) hd)
  · intro b b' _
    refine ⟨encode t v,serialize_eq b t ht (within_maxContainerSize hw) [],fun junk old r hold => ?_⟩
    obtain ⟨bytes,hbytes,hread⟩ := deserialize_serialize b b' t ht hw junk hold r
    rw [serialize_eq b t ht (within_maxContainerSize hw) []] at hbytes
    cases hbytes
    exact hread

/-- A presence flag and a count within bounds. -/
theorem hostIndependent_optional :
    let t := Ty.pair (.optional (.integral .int)) (.sequence "std::vector" (.integral .unsignedShort))
    let v := Val.pair (.present (.bits 7)) (.items [.bits 1,.bits 300])
    (∀ ndebug out, serialize ⟨.big,ndebug⟩ t v out = serialize ⟨.little,ndebug⟩ t v out) ∧
      CrossesHosts t v := by
  intro t v
  have ht : t.HasType v := by
    simp [t, v, Ty.HasType, Val.first, Val.second, Val.elements, IntegralType.range, IntegralType.size]
  have hw : t.Within 65535 v := by
    simp [t, v, Ty.Within, Val.first, Val.second, Val.elements]
  obtain ⟨hbytes,hcross⟩ := hostIndependent t ht
  exact ⟨hbytes,hcross.mpr hw⟩

/-- A vector of 65536 bytes is read back as an empty one. -/
theorem not_crossesHosts_65536 :
    let t := Ty.sequence "std::vector" (.integral .unsignedChar)
    ∃ v, t.HasType v ∧ v.elements.length = 65536 ∧ ¬ CrossesHosts t v := by
  intro t
  let v := Val.items (List.replicate 65536 (.bits 0))
  have hlen : v.elements.length = 65536 := List.length_replicate
  have ht : t.HasType v := by
    refine ⟨rfl,fun x hx => ⟨0,List.eq_of_mem_replicate hx,by decide⟩⟩
  refine ⟨v,ht,hlen,fun hcross => ?_⟩
  obtain ⟨bytes,_,hread⟩ := hcross ⟨.little,true⟩ ⟨.big,false⟩ (by decide)
  obtain ⟨w,hd,hs⟩ := hread (fun _ => 0) t.default [] (Or.inl rfl)
  have hwithin := within_of_same hs (within_of_deserialize rfl t (fresh_default t) hd)
  have hle : v.elements.length ≤ 65535 := hwithin.1
  rw [hlen] at hle
  exact absurd hle (by decide)

end Isml.BinarySerializer
