import Isml.Serialization.BinaryEncoding

/-! # Decoding what was encoded

The decoder is run on a complete encoding followed by any bytes. An absent optional
is decoded by leaving the target alone, so `overlay` says what comes out of it. In a
target in which no optional holds a value, which is what every freshly made object
is, that is the encoded value; nothing else of the old contents, and nothing of the
uninitialized locals, reaches the result.
-/
namespace Isml.BinarySerializer
open ByteOrder StringStream

/-- A target the decoder may be given: no optional in it holds a value. -/
def Fresh : Ty → Val → Prop
  | .pair a c, v => Fresh a v.first ∧ Fresh c v.second
  | .optional _, v => v = .absent
  | .sequence _ a, v => ∀ x ∈ v.elements, Fresh a x
  | .array n a, v => v.elements.length = n ∧ ∀ x ∈ v.elements, Fresh a x
  | .serializable _ m, v => Fresh m v
  | _, _ => True

theorem fresh_default (t : Ty) : Fresh t t.default := by
  induction t with
  | pair a c ha hc => exact ⟨ha,hc⟩
  | optional a _ => rfl
  | sequence c a _ => simp [Fresh, Ty.default, Val.elements]
  | array n a ha =>
    refine ⟨by simp [Ty.default, Val.elements],?_⟩
    intro x hx
    rw [List.eq_of_mem_replicate hx]
    exact ha
  | serializable name m hm => exact hm
  | _ => trivial

theorem fresh_uninitialized (t : Ty) (junk : Junk) : Fresh t (t.uninitialized junk) := by
  induction t generalizing junk with
  | pair a c _ _ => exact fresh_default (.pair a c)
  | optional a _ => rfl
  | sequence c a _ => exact fresh_default (.sequence c a)
  | array n a ha =>
    refine ⟨by simp [Ty.uninitialized, Val.elements],?_⟩
    intro x hx
    obtain ⟨i,_,rfl⟩ := List.mem_map.mp hx
    exact ha _
  | serializable name m hm => exact fresh_default (.serializable name m)
  | _ => trivial

/-- `resize` keeps what holds of the elements and of a new one. -/
theorem forall_resize {P : Val → Prop} {a : Ty} (hd : P a.default) {l : List Val}
    (h : ∀ x ∈ l, P x) (n : ℕ) : (resize a n l).length = n ∧ ∀ x ∈ resize a n l, P x := by
  constructor
  · simp only [resize, List.length_append, List.length_take, List.length_replicate]
    omega
  · intro x hx
    rcases List.mem_append.mp hx with hx | hx
    · exact h x (List.mem_of_mem_take hx)
    · rw [List.eq_of_mem_replicate hx]
      exact hd

theorem fresh_resize {a : Ty} {l : List Val} (h : ∀ x ∈ l, Fresh a x) (n : ℕ) :
    (resize a n l).length = n ∧ ∀ x ∈ resize a n l, Fresh a x :=
  forall_resize (fresh_default a) h n

/-- The arrays in a target have their lengths. -/
def Shaped : Ty → Val → Prop
  | .pair a c, v => Shaped a v.first ∧ Shaped c v.second
  | .sequence _ a, v => ∀ x ∈ v.elements, Shaped a x
  | .array n a, v => v.elements.length = n ∧ ∀ x ∈ v.elements, Shaped a x
  | .serializable _ m, v => Shaped m v
  | _, _ => True

theorem Fresh.shaped {t : Ty} {v : Val} (h : Fresh t v) : Shaped t v := by
  induction t generalizing v with
  | pair a c ha hc => exact ⟨ha h.1,hc h.2⟩
  | sequence c a ha => exact fun x hx => ha (h x hx)
  | array n a ha => exact ⟨h.1,fun x hx => ha (h.2 x hx)⟩
  | serializable name m hm => exact hm h
  | _ => trivial

theorem shaped_of_hasType {t : Ty} {v : Val} (h : t.HasType v) : Shaped t v := by
  induction t generalizing v with
  | pair a c ha hc => exact ⟨ha h.2.1,hc h.2.2⟩
  | sequence c a ha => exact fun x hx => ha (h.2 x hx)
  | array n a ha => exact ⟨h.2.1,fun x hx => ha (h.2.2 x hx)⟩
  | serializable name m hm => exact hm h
  | _ => trivial

theorem shaped_resize {a : Ty} {l : List Val} (h : ∀ x ∈ l, Shaped a x) (n : ℕ) :
    (resize a n l).length = n ∧ ∀ x ∈ resize a n l, Shaped a x :=
  forall_resize (fresh_default a).shaped h n

/-- What is left in the target `old` after the encoding of `v` was read into it. -/
def overlay : Ty → Val → Val → Val
  | .pair a c, old, v => .pair (overlay a old.first v.first) (overlay c old.second v.second)
  | .optional _, old, v =>
    match v with
    | .present w => .present w
    | _ => old
  | .sequence _ a, old, v =>
    .items (List.zipWith (overlay a) (resize a v.elements.length old.elements) v.elements)
  | .array _ a, old, v => .items (List.zipWith (overlay a) old.elements v.elements)
  | .serializable _ m, old, v => overlay m old v
  | _, _, v => v

theorem zipWith_eq_right {f : Val → Val → Val} {olds xs : List Val} (hlen : olds.length = xs.length)
    (h : ∀ old ∈ olds, ∀ x ∈ xs, f old x = x) : List.zipWith f olds xs = xs := by
  induction xs generalizing olds with
  | nil => exact List.zipWith_nil_right
  | cons x xs ih =>
    cases olds with
    | nil => cases hlen
    | cons old olds =>
      rw [List.zipWith_cons_cons, h old List.mem_cons_self x List.mem_cons_self,
        ih (Nat.succ.inj hlen) fun o ho y hy =>
          h o (List.mem_cons_of_mem old ho) y (List.mem_cons_of_mem x hy)]

theorem overlay_fresh {t : Ty} {old v : Val} (hf : Fresh t old) (ht : t.HasType v) :
    overlay t old v = v := by
  induction t generalizing old v with
  | pair a c ha hc =>
    obtain ⟨hv,ht1,ht2⟩ := ht
    rw [overlay, ha hf.1 ht1, hc hf.2 ht2, ← hv]
  | optional a _ =>
    rcases ht with rfl | ⟨w,rfl,_⟩
    · exact hf
    · rfl
  | sequence c a ha =>
    obtain ⟨hv,ht⟩ := ht
    obtain ⟨hlen,hfresh⟩ := fresh_resize hf v.elements.length
    rw [overlay, zipWith_eq_right hlen fun old hold x hx => ha (hfresh old hold) (ht x hx), ← hv]
  | array n a ha =>
    obtain ⟨hv,hn,ht⟩ := ht
    rw [overlay, zipWith_eq_right (hf.1.trans hn.symm) fun old hold x hx => ha (hf.2 old hold) (ht x hx),
      ← hv]
  | serializable name m hm => exact hm hf ht
  | _ => rfl

/-- The counts that the decoder uses are numbers of 16 bits. At the count of an array only an
assertion looks. -/
def Counted (ndebug : Bool) : Ty → Val → Prop
  | .pair a c, v => Counted ndebug a v.first ∧ Counted ndebug c v.second
  | .optional a, v => ∀ w, v = .present w → Counted ndebug a w
  | .sequence _ a, v | .set _ a, v =>
      v.elements.length ≤ 65535 ∧ ∀ x ∈ v.elements, Counted ndebug a x
  | .map _ k a, v =>
      v.elements.length ≤ 65535 ∧
        ∀ x ∈ v.elements, Counted ndebug k x.first ∧ Counted ndebug a x.second
  | .array n a, v => (n ≤ 65535 ∨ ndebug = true) ∧ ∀ x ∈ v.elements, Counted ndebug a x
  | .serializable _ m, v => Counted ndebug m v
  | _, _ => True

theorem counted_of_within (ndebug : Bool) {t : Ty} {v : Val} (ht : t.HasType v)
    (h : t.Within 65535 v) : Counted ndebug t v := by
  induction t generalizing v with
  | integral _ | floating _ | enumeration _ _ => trivial
  | pair a c ha hc => exact ⟨ha ht.2.1 h.1,hc ht.2.2 h.2⟩
  | optional a ha =>
    intro w hv
    rcases ht with rfl | ⟨w',rfl,ht⟩
    · cases hv
    · cases hv
      exact ha ht (h w rfl)
  | sequence _ a ha => exact ⟨h.1,fun x hx => ha (ht.2 x hx) (h.2 x hx)⟩
  | set _ a ha => exact ⟨h.1,fun x hx => ha (ht.2.2 x hx) (h.2 x hx)⟩
  | map _ k a hk ha =>
    exact ⟨h.1,fun x hx => ⟨hk (ht.2.2 x hx).2.1 (h.2 x hx).1,ha (ht.2.2 x hx).2.2 (h.2 x hx).2⟩⟩
  | array n a ha =>
    obtain ⟨_,hn,ht⟩ := ht
    exact ⟨Or.inl (hn ▸ h.1),fun x hx => ha (ht x hx) (h.2 x hx)⟩
  | serializable _ m hm => exact hm ht h

/-- The count of an array is read, and the assertion about it holds or is compiled out. -/
theorem readArraySize_encode (b : Build) {n : ℕ} (hn : n ≤ 65535 ∨ b.ndebug = true) (old : ℕ)
    (r : List Byte) : ∃ itemCount,
      readIntegral b.host sizeOfContainerSize old ⟨toBytes 2 n ++ r,false⟩ = (itemCount,⟨r,false⟩) ∧
        assertThat b.ndebug (itemCount == n) = .ok () := by
  have hcount : toBytes 2 n = toBytes 2 (n % 256 ^ 2) := by
    have hlen := toBytes_ofBytes (toBytes 2 n)
    rw [toBytes_length, ofBytes_toBytes] at hlen
    exact hlen.symm
  refine ⟨n % 256 ^ 2,?_,assertThat_eq_ok.mpr ?_⟩
  · rw [hcount]
    exact readIntegral_encode b.host (by decide) (Nat.mod_lt n (by decide)) old r
  · rcases hn with hn | hn
    · right
      exact beq_iff_eq.mpr (Nat.mod_eq_of_lt (Nat.lt_succ_of_le hn))
    · exact Or.inl hn

theorem readFlag_encode (host : Endian) (flag : Byte) (old : ℕ) (r : List Byte) :
    readIntegral host 1 old ⟨flag :: r,false⟩ = (flag.toNat,⟨r,false⟩) := by
  have hbytes : toBytes 1 flag.toNat = [flag] := by simp only [toBytes, UInt8.ofNat_toNat]
  have h := readIntegral_encode host (Or.inl rfl) flag.toNat_lt old r
  rwa [hbytes] at h

theorem readContainerSize_encode (host : Endian) {n : ℕ} (hn : n ≤ 65535) (old : ℕ) (r : List Byte) :
    readIntegral host sizeOfContainerSize old ⟨toBytes 2 n ++ r,false⟩ = (n,⟨r,false⟩) :=
  readIntegral_encode host (by decide) (Nat.lt_succ_of_le hn) old r

section Loops
variable {enc : Val → List Byte}

theorem readLocal_encode {a : Ty} {read : Junk → Val → IStream → Result (Val × IStream)} {x : Val}
    (h : ∀ junk old r, Fresh a old →
      ∃ w, read junk old ⟨enc x ++ r,false⟩ = .ok (w,⟨r,false⟩) ∧ Same w x)
    (junk : Junk) (r : List Byte) :
    ∃ w, readLocal read a junk ⟨enc x ++ r,false⟩ = .ok (w,⟨r,false⟩) ∧ Same w x :=
  h (junk.child 0) _ r (fresh_uninitialized a (junk.child 1))

theorem readEntry_encode {readKey readMapped : Junk → IStream → Result (Val × IStream)}
    {encKey encMapped : Val → List Byte} {x : Val} (hpair : x = .pair x.first x.second)
    (hkey : ∀ junk r, ∃ w, readKey junk ⟨encKey x.first ++ r,false⟩ = .ok (w,⟨r,false⟩) ∧
      Same w x.first)
    (hmapped : ∀ junk r, ∃ w, readMapped junk ⟨encMapped x.second ++ r,false⟩ = .ok (w,⟨r,false⟩) ∧
      Same w x.second) (junk : Junk) (r : List Byte) :
    ∃ w, readEntry readKey readMapped junk ⟨(encKey x.first ++ encMapped x.second) ++ r,false⟩ =
      .ok (w,⟨r,false⟩) ∧ Same w x := by
  obtain ⟨y,hy,hsy⟩ := hkey (junk.child 0) (encMapped x.second ++ r)
  obtain ⟨z,hz,hsz⟩ := hmapped (junk.child 1) r
  refine ⟨.pair y z,?_,by rw [hpair]; exact .pair hsy hsz⟩
  simp only [readEntry, List.append_assoc, hy, ok_bind, hz]

theorem deserializeItems_encode (read : Junk → Val → IStream → Result (Val × IStream))
    (P : Val → Prop) (f : Val → Val → Val) {xs : List Val}
    (h : ∀ x ∈ xs, ∀ junk old r, P old →
      ∃ w, read junk old ⟨enc x ++ r,false⟩ = .ok (w,⟨r,false⟩) ∧ Same w (f old x))
    {olds : List Val} (hlen : olds.length = xs.length) (hP : ∀ old ∈ olds, P old)
    (junk : Junk) (r : List Byte) :
    ∃ ws, deserializeItems read junk olds ⟨xs.flatMap enc ++ r,false⟩ = .ok (ws,⟨r,false⟩) ∧
      List.Forall₂ Same ws (List.zipWith f olds xs) := by
  induction xs generalizing olds with
  | nil =>
    rw [List.length_nil, List.length_eq_zero_iff] at hlen
    subst hlen
    exact ⟨[],rfl,.nil⟩
  | cons x xs ih =>
    cases olds with
    | nil => simp at hlen
    | cons old olds =>
      obtain ⟨w,hw,hs⟩ := h x List.mem_cons_self (junk.child olds.length) old (xs.flatMap enc ++ r)
        (hP old List.mem_cons_self)
      obtain ⟨ws,hws,hss⟩ := ih (fun y hy => h y (List.mem_cons_of_mem x hy))
        (Nat.succ.inj hlen) (fun o ho => hP o (List.mem_cons_of_mem old ho))
      refine ⟨w :: ws,?_,.cons hs hss⟩
      simp only [deserializeItems, List.flatMap_cons, List.append_assoc, hw, ok_bind, hws]

/-- The elements of a container inserted one after the other, in the container's own
order, after the elements `done` that went before them. -/
theorem insertItems_encode (p : KeyPolicy) (key : Val → Val)
    (hkey : ∀ {v w}, Same v w → Same (key v) (key w))
    {read : Junk → IStream → Result (Val × IStream)} {xs : List Val}
    (h : ∀ x ∈ xs, ∀ junk r, ∃ w, read junk ⟨enc x ++ r,false⟩ = .ok (w,⟨r,false⟩) ∧ Same w x)
    {done l : List Val} (hl : p.Agree l done) (hd : p.Distinct key (done ++ xs))
    (junk : Junk) (r : List Byte) :
    ∃ l', insertItems read (p.insert key) junk xs.length l ⟨xs.flatMap enc ++ r,false⟩ =
        .ok (l',⟨r,false⟩) ∧ p.Agree l' (done ++ xs) := by
  induction xs generalizing done l with
  | nil => exact ⟨l,rfl,by simpa using hl⟩
  | cons x xs ih =>
    have hsplit : done ++ x :: xs = (done ++ [x]) ++ xs := by simp
    obtain ⟨w,hw,hs⟩ := h x List.mem_cons_self (junk.child xs.length) (xs.flatMap enc ++ r)
    have hfront : p.Distinct key (done ++ [x]) := by
      rw [hsplit] at hd
      cases p with
      | ordered c => exact (List.pairwise_append.mp hd).1
      | hashed c => exact (List.pairwise_append.mp hd).1
    have hnext := p.insert_agree hkey hl hs hfront
    obtain ⟨l',hl',ha⟩ := ih (fun y hy => h y (List.mem_cons_of_mem x hy)) hnext (hsplit ▸ hd)
    refine ⟨l',?_,hsplit ▸ ha⟩
    simp only [List.length_cons, insertItems, List.flatMap_cons, List.append_assoc, hw, ok_bind, hl']

end Loops

/-- A target that is fresh takes the encoded value over. -/
theorem readsFresh {b : Build} {a : Ty} {x : Val}
    (ha : ∀ (junk : Junk) {old v : Val}, Shaped a old → a.HasType v → Counted b.ndebug a v →
      ∀ r, ∃ w, deserialize b a junk old ⟨encode a v ++ r,false⟩ = .ok (w,⟨r,false⟩) ∧
        Same w (overlay a old v))
    (ht : a.HasType x) (hw : Counted b.ndebug a x) (junk : Junk) (old : Val) (r : List Byte)
    (hf : Fresh a old) :
    ∃ w, deserialize b a junk old ⟨encode a x ++ r,false⟩ = .ok (w,⟨r,false⟩) ∧ Same w x := by
  obtain ⟨w,hd,hs⟩ := ha junk hf.shaped ht hw r
  rw [overlay_fresh hf ht] at hs
  exact ⟨w,hd,hs⟩

/-- The decoder reads a complete encoding over the target and leaves exactly what follows it. -/
theorem deserialize_overlay (b : Build) (t : Ty) (junk : Junk) {old v : Val} (hold : Shaped t old)
    (ht : t.HasType v) (hw : Counted b.ndebug t v) (r : List Byte) :
    ∃ w, deserialize b t junk old ⟨encode t v ++ r,false⟩ = .ok (w,⟨r,false⟩) ∧
      Same w (overlay t old v) := by
  induction t generalizing junk old v r with
  | integral k | enumeration name k =>
    obtain ⟨n,rfl,hn⟩ := ht
    refine ⟨.bits n,?_,.bits n⟩
    simp only [deserialize, encode, Val.toBits,
      readIntegral_encode b.host k.size_cases (hn.trans_le k.range_le)]
  | floating k =>
    obtain ⟨n,rfl,hn⟩ := ht
    refine ⟨.bits n,?_,.bits n⟩
    simp only [deserialize, encode, Val.toBits, readFloating_encode b.host hn]
  | pair a c ha hc =>
    obtain ⟨hv,ht1,ht2⟩ := ht
    obtain ⟨x,hx,hsx⟩ := ha (junk.child 0) hold.1 ht1 hw.1 (encode c v.second ++ r)
    obtain ⟨y,hy,hsy⟩ := hc (junk.child 1) hold.2 ht2 hw.2 r
    refine ⟨.pair x y,?_,.pair hsx hsy⟩
    simp only [deserialize, encode, List.append_assoc, hx, ok_bind, hy]
  | optional a ha =>
    rcases ht with rfl | ⟨v,rfl,ht⟩
    · refine ⟨old,?_,Same.refl old⟩
      have hflag := readFlag_encode b.host 0 (junk [] % 256) r
      simp only [deserialize, encode, List.cons_append, List.nil_append, hflag, UInt8.toNat_zero, ne_eq,
        not_true_eq_false, ↓reduceIte]
    · obtain ⟨w,hd,hs⟩ := readLocal_encode (readsFresh ha ht (hw v rfl)) junk r
      refine ⟨.present w,?_,.present hs⟩
      have hflag := readFlag_encode b.host 1 (junk [] % 256) (encode a v ++ r)
      simp only [deserialize, encode, List.cons_append, hflag, UInt8.toNat_one, ne_eq, one_ne_zero,
        not_false_eq_true, ↓reduceIte, hd, ok_bind]
  | sequence c a ha =>
    obtain ⟨hv,ht⟩ := ht
    obtain ⟨hlen,hw⟩ := hw
    obtain ⟨hn,hshaped⟩ := shaped_resize hold v.elements.length
    obtain ⟨ws,hws,hs⟩ := deserializeItems_encode (deserialize b a) (Shaped a) (overlay a)
      (fun x hx junk old r hold => ha junk hold (ht x hx) (hw x hx) r) hn hshaped junk r
    refine ⟨.items ws,?_,.items hs⟩
    simp only [deserialize, encode, List.append_assoc, readContainerSize_encode b.host hlen, hws,
      ok_bind]
  | set p a ha =>
    obtain ⟨hv,hd,ht⟩ := ht
    obtain ⟨hlen,hw⟩ := hw
    have hitem : ∀ x ∈ v.elements, ∀ junk r, ∃ w, readLocal (deserialize b a) a junk
        ⟨encode a x ++ r,false⟩ = .ok (w,⟨r,false⟩) ∧ Same w x := fun x hx junk r =>
      readLocal_encode (readsFresh ha (ht x hx) (hw x hx)) junk r
    obtain ⟨l,hl,hs⟩ := insertItems_encode p id (fun h => h) hitem p.agree_nil hd junk r
    refine ⟨p.container l,?_,by rw [hv]; exact hs.same⟩
    simp only [deserialize, encode, List.append_assoc, readContainerSize_encode b.host hlen, hl,
      ok_bind]
  | map p k a hk ha =>
    obtain ⟨hv,hd,ht⟩ := ht
    obtain ⟨hlen,hw⟩ := hw
    have hitem : ∀ x ∈ v.elements, ∀ junk r, ∃ w,
        readEntry (readLocal (deserialize b k) k) (readLocal (deserialize b a) a) junk
          ⟨(encode k x.first ++ encode a x.second) ++ r,false⟩ = .ok (w,⟨r,false⟩) ∧ Same w x := by
      intro x hx
      obtain ⟨hpair,htk,hta⟩ := ht x hx
      exact readEntry_encode hpair (readLocal_encode (readsFresh hk htk (hw x hx).1))
        (readLocal_encode (readsFresh ha hta (hw x hx).2))
    obtain ⟨l,hl,hs⟩ := insertItems_encode p Val.first Same.first hitem p.agree_nil hd junk r
    refine ⟨p.container l,?_,by rw [hv]; exact hs.same⟩
    simp only [deserialize, encode, List.append_assoc, readContainerSize_encode b.host hlen, hl,
      ok_bind]
  | array n a ha =>
    obtain ⟨hv,hn,ht⟩ := ht
    obtain ⟨hlen,hw⟩ := hw
    obtain ⟨ws,hws,hs⟩ := deserializeItems_encode (deserialize b a) (Shaped a) (overlay a)
      (fun x hx junk old r hold => ha junk hold (ht x hx) (hw x hx) r) (hold.1.trans hn.symm) hold.2
      junk r
    obtain ⟨itemCount,hcount,hassert⟩ := readArraySize_encode b hlen (junk [] % 2 ^ 16)
      (v.elements.flatMap (encode a) ++ r)
    refine ⟨.items ws,?_,.items hs⟩
    simp only [deserialize, encode, List.append_assoc, hcount, hassert, hws, ok_bind]
  | serializable name m hm => exact hm junk hold ht hw r

/-- The decoder reads a complete encoding back and leaves exactly what follows it. -/
theorem deserialize_encode (b : Build) (t : Ty) (junk : Junk) {old v : Val} (hf : Fresh t old)
    (ht : t.HasType v) (hw : t.Within 65535 v) (r : List Byte) :
    ∃ w, deserialize b t junk old ⟨encode t v ++ r,false⟩ = .ok (w,⟨r,false⟩) ∧ Same w v :=
  readsFresh (fun junk _ _ hold ht hw r => deserialize_overlay b t junk hold ht hw r) ht
    (counted_of_within b.ndebug ht hw) junk old r hf

/-- Round trip with exact consumption, into a target that was default-constructed with
or without an initializer; the two hosts need not be of the same kind. -/
theorem deserialize_serialize (b b' : Build) (t : Ty) {v : Val} (ht : t.HasType v)
    (hw : t.Within 65535 v) (junk : Junk) {old : Val}
    (hold : old = t.default ∨ ∃ junk', old = t.uninitialized junk') (r : List Byte) :
    ∃ bytes, serialize b t v [] = .ok bytes ∧
      ∃ w, deserialize b' t junk old (IStream.ofBytes (bytes ++ r)) = .ok (w,IStream.ofBytes r) ∧
        Same w v := by
  have hf : Fresh t old := by
    rcases hold with rfl | ⟨junk',rfl⟩
    · exact fresh_default t
    · exact fresh_uninitialized t junk'
  refine ⟨encode t v,serialize_eq b t ht (within_maxContainerSize hw) [],?_⟩
  exact deserialize_encode b' t junk hf ht hw r

theorem deserialize_serialize_pair :
    let t := Ty.pair (.optional (.integral .int)) (.sequence "std::vector" (.integral .unsignedShort))
    let v := Val.pair (.present (.bits 7)) (.items [.bits 1,.bits 300])
    ∃ bytes, serialize ⟨.little,true⟩ t v [] = .ok bytes ∧
      ∃ w, deserialize ⟨.big,false⟩ t (fun _ => 77) t.default (IStream.ofBytes (bytes ++ [5])) =
        .ok (w,IStream.ofBytes [5]) ∧ Same w v := by
  intro t v
  have ht : t.HasType v := by
    simp [t, v, Ty.HasType, Val.first, Val.second, Val.elements, IntegralType.range, IntegralType.size]
  have hw : t.Within 65535 v := by
    simp [t, v, Ty.Within, Val.first, Val.second, Val.elements]
  exact deserialize_serialize ⟨.little,true⟩ ⟨.big,false⟩ t ht hw (fun _ => 77) (Or.inl rfl) [5]

end Isml.BinarySerializer
