import Isml.Serialization.BinaryRoundTrip

/-! # What decoding uses up, and what a short stream leaves behind

Every decoder reads at least `minSize` bytes, or leaves the stream failed. `probe` is a
value of that size, with one in the top byte of every number: a decoder that finds
fewer bytes than that does not arrive at it, because the last of the reads leaves the
top byte of its destination as it was.
-/
namespace Isml.BinarySerializer
open ByteOrder StringStream

/-- The least number of bytes a value of the type is encoded in. -/
def minSize : Ty → ℕ
  | .integral k | .enumeration _ k => k.size
  | .floating k => k.size
  | .pair a c => minSize a + minSize c
  | .optional _ => 1
  | .sequence _ _ | .set _ _ | .map _ _ _ => sizeOfContainerSize
  | .array n a => sizeOfContainerSize + n * minSize a
  | .serializable _ m => minSize m

theorem minSize_pos (t : Ty) : 0 < minSize t := by
  induction t with
  | integral k | enumeration name k => exact k.size_pos
  | floating k => exact k.size_pos
  | pair a c ha hc => exact Nat.add_pos_left ha _
  | array n a _ => simp only [minSize, sizeOfContainerSize]; omega
  | serializable name m hm => exact hm
  | _ => simp [minSize, sizeOfContainerSize]

section Loops
variable {k : ℕ}

theorem consumed_of_readings {n : ℕ} {s s' : IStream} (h : Readings (Consumed k) n s s') :
    Consumed (n * k) s s' := by
  induction n generalizing s with
  | zero =>
    cases h
    simpa using Consumed.refl _
  | succ n ih =>
    obtain ⟨s1,hfirst,hrest⟩ := h
    rw [Nat.add_mul, Nat.one_mul, Nat.add_comm]
    exact hfirst.trans (ih hrest)

theorem deserializeItems_consumed {read : Junk → Val → IStream → Result (Val × IStream)}
    {P : Val → Prop}
    (h : ∀ junk old s v s', P old → read junk old s = .ok (v,s') → Consumed k s s')
    {junk : Junk} {olds vs : List Val} {s s' : IStream} (hP : ∀ old ∈ olds, P old)
    (hd : deserializeItems read junk olds s = .ok (vs,s')) : Consumed (olds.length * k) s s' :=
  consumed_of_readings (deserializeItems_readings h hP hd)

theorem insertItems_consumed {read : Junk → IStream → Result (Val × IStream)}
    {insert : Val → List Val → List Val}
    (h : ∀ junk s v s', read junk s = .ok (v,s') → Consumed k s s')
    {junk : Junk} {n : ℕ} {l l' : List Val} {s s' : IStream}
    (hd : insertItems read insert junk n l s = .ok (l',s')) : Consumed (n * k) s s' :=
  consumed_of_readings (insertItems_readings h hd)

theorem readEntry_consumed {m : ℕ} {readKey readMapped : Junk → IStream → Result (Val × IStream)}
    (hk : ∀ junk s v s', readKey junk s = .ok (v,s') → Consumed k s s')
    (hm : ∀ junk s v s', readMapped junk s = .ok (v,s') → Consumed m s s')
    {junk : Junk} {v : Val} {s s' : IStream}
    (hd : readEntry readKey readMapped junk s = .ok (v,s')) : Consumed (k + m) s s' := by
  obtain ⟨x,s1,y,hx,hy,_⟩ := readEntry_ok hd
  exact (hk _ s x s1 hx).trans (hm _ s1 y _ hy)

end Loops

theorem readIntegral_consumed (host : Endian) (w old : ℕ) (s : IStream) :
    Consumed w s (readIntegral host w old s).2 :=
  consumed_read s w (host.toMemory w old)

theorem deserialize_consumed (b : Build) (t : Ty) {junk : Junk} {old v : Val} {s s' : IStream}
    (hf : Fresh t old) (hd : deserialize b t junk old s = .ok (v,s')) :
    Consumed (minSize t) s s' := by
  induction t generalizing junk old v s s' with
  | integral k | enumeration name k =>
    cases hd
    exact readIntegral_consumed b.host k.size _ s
  | floating k =>
    cases hd
    exact consumed_read s k.size _
  | pair a c ha hc =>
    obtain ⟨x,s1,y,hx,hy,_⟩ := deserialize_pair_ok hd
    exact (ha hf.1 hx).trans (hc hf.2 hy)
  | optional a ha =>
    have hflag := readIntegral_consumed b.host 1 (junk [] % 256) s
    rcases deserialize_optional_ok hd with ⟨_,w,hw,_⟩ | ⟨_,_,rfl⟩
    · exact (hflag.trans (ha (fresh_uninitialized a _) hw)).mono (Nat.le_add_right _ _)
    · exact hflag
  | sequence c a ha =>
    have hcount := readIntegral_consumed b.host sizeOfContainerSize (junk [] % 2 ^ 16) s
    obtain ⟨l,hl,_⟩ := deserialize_sequence_ok hd
    have hitems := deserializeItems_consumed (fun _ _ _ _ _ hP hx => ha hP hx)
      (fresh_resize hf _).2 hl
    exact (hcount.trans hitems).mono (Nat.le_add_right _ _)
  | set p a ha =>
    have hcount := readIntegral_consumed b.host sizeOfContainerSize (junk [] % 2 ^ 16) s
    obtain ⟨l,hl,_⟩ := deserialize_set_ok hd
    have hitems := insertItems_consumed (fun _ _ _ _ hx => ha (fresh_uninitialized a _) hx) hl
    exact (hcount.trans hitems).mono (Nat.le_add_right _ _)
  | map p k a hk ha =>
    have hcount := readIntegral_consumed b.host sizeOfContainerSize (junk [] % 2 ^ 16) s
    obtain ⟨l,hl,_⟩ := deserialize_map_ok hd
    have hentry : ∀ junk s v s', readEntry (readLocal (deserialize b k) k)
        (readLocal (deserialize b a) a) junk s = .ok (v,s') →
        Consumed (minSize k + minSize a) s s' := fun _ _ _ _ hx =>
      readEntry_consumed (fun _ _ _ _ hy => hk (fresh_uninitialized k _) hy)
        (fun _ _ _ _ hz => ha (fresh_uninitialized a _) hz) hx
    exact (hcount.trans (insertItems_consumed hentry hl)).mono (Nat.le_add_right _ _)
  | array n a ha =>
    have hcount := readIntegral_consumed b.host sizeOfContainerSize (junk [] % 2 ^ 16) s
    obtain ⟨l,_,hl,_⟩ := deserialize_array_ok hd
    have hitems := deserializeItems_consumed (fun _ _ _ _ _ hP hx => ha hP hx) hf.2 hl
    rw [hf.1] at hitems
    exact hcount.trans hitems
  | serializable name m hm => exact hm hf hd

/-- A value of the least size, with one in the top byte of every number. -/
def probe : Ty → Val
  | .integral k | .enumeration _ k => .bits (256 ^ (k.size - 1))
  | .floating k => .bits (256 ^ (k.size - 1))
  | .pair a c => .pair (probe a) (probe c)
  | .optional _ => .absent
  | .sequence _ _ => .items []
  | .set p _ | .map p _ _ => p.container []
  | .array n a => .items (List.replicate n (probe a))
  | .serializable _ m => probe m

theorem probe_hasType (t : Ty) : t.HasType (probe t) := by
  have hrange : ∀ k : IntegralType, 256 ^ (k.size - 1) < k.range := by
    intro k
    cases k <;> decide
  induction t with
  | integral k | enumeration name k => exact ⟨_,rfl,hrange k⟩
  | floating k => exact ⟨_,rfl,Nat.pow_lt_pow_right (by decide) (Nat.sub_lt k.size_pos (by decide))⟩
  | pair a c ha hc => exact ⟨rfl,ha,hc⟩
  | optional a _ => exact Or.inl rfl
  | sequence c a _ => exact Ty.default_hasType (.sequence c a)
  | set p a _ => exact Ty.default_hasType (.set p a)
  | map p k a _ _ => exact Ty.default_hasType (.map p k a)
  | array n a ha =>
    refine ⟨rfl,by simp [probe, Val.elements],?_⟩
    intro x hx
    rw [List.eq_of_mem_replicate hx]
    exact ha
  | serializable name m hm => exact hm

/-- The arrays of a type decide whether it has small values at all. -/
theorem probe_within {limit : ℕ} {t : Ty} (h : t.Within limit t.default) :
    t.Within limit (probe t) := by
  induction t with
  | integral k | floating k | enumeration name k => trivial
  | pair a c ha hc => exact ⟨ha h.1,hc h.2⟩
  | optional a _ =>
    intro w hw
    cases hw
  | sequence c a _ | set p a _ | map p k a _ _ => exact h
  | array n a ha =>
    obtain ⟨hlen,hall⟩ := h
    refine ⟨by simpa [probe, Ty.default, Val.elements] using hlen,?_⟩
    intro x hx
    have hn : n ≠ 0 := by
      rintro rfl
      cases hx
    rw [List.eq_of_mem_replicate hx]
    exact ha (hall _ (List.mem_replicate.mpr ⟨hn,rfl⟩))
  | serializable name m hm => exact hm h

theorem size_probe (t : Ty) : size t (probe t) = minSize t := by
  induction t with
  | pair a c ha hc => simp only [size, probe, minSize, Val.first, Val.second, ha, hc]
  | array n a ha => simp [size, probe, minSize, Val.elements, ha]
  | serializable name m hm => exact hm
  | set p a _ | map p k a _ _ => simp [size, probe, minSize, sizeOfContainerSize]
  | _ => rfl

/-- Memory all of whose bytes are `0xFF`. -/
def onesJunk : Junk := fun _ => 256 ^ 16 - 1

theorem getLast?_of_ofBytes {bytes : List Byte} {w n : ℕ} (hlen : bytes.length = w)
    (h : ByteOrder.ofBytes bytes = n) : bytes.getLast? = (toBytes w n).getLast? := by
  rw [← h, ← hlen, toBytes_ofBytes]

theorem getLast?_toBytes_pow {w : ℕ} (hw : 0 < w) : (toBytes w (256 ^ (w - 1))).getLast? = some 1 := by
  have hsucc : ∀ n, (toBytes (n + 1) (256 ^ n)).getLast? = some 1 := by
    intro n
    induction n with
    | zero => rfl
    | succ n ih =>
      have hdiv : 256 ^ (n + 1) / 256 = 256 ^ n := by
        rw [Nat.pow_succ, Nat.mul_div_cancel _ (by decide)]
      rw [toBytes, hdiv, toBytes, List.getLast?_cons_cons]
      rwa [toBytes] at ih
  obtain ⟨n,rfl⟩ := Nat.exists_eq_succ_of_ne_zero hw.ne'
  exact hsucc n

theorem read_short_ne {s : IStream} {w n : ℕ} {dest : List Byte} (hd : dest.length = w)
    (hs : s.available < w) (hlast : dest.getLast? ≠ (toBytes w n).getLast?) :
    ByteOrder.ofBytes (s.read w dest).1 ≠ n := by
  intro h
  rw [← getLast?_of_ofBytes (read_length hd) h, getLast?_read_short hd hs] at hlast
  exact hlast rfl

theorem getLast?_toMemory_zero (host : Endian) (w : ℕ) :
    (host.toMemory w 0).getLast? ≠ some 1 := by
  have hzero : ∀ x ∈ host.toMemory w 0, x = 0 := by
    intro x hx
    cases host with
    | little =>
      rw [Endian.toMemory, toBytes_zero] at hx
      exact List.eq_of_mem_replicate hx
    | big =>
      rw [Endian.toMemory, List.mem_reverse, toBytes_zero] at hx
      exact List.eq_of_mem_replicate hx
  intro h
  exact absurd (hzero 1 (List.mem_of_getLast? h)) (by decide)

theorem getLast?_toMemory_ones (host : Endian) {w : ℕ} (hw : w = 1 ∨ w = 2 ∨ w = 4 ∨ w = 8) :
    (host.toMemory w (onesJunk [] % 256 ^ w)).getLast? = some 255 := by
  rcases hw with rfl | rfl | rfl | rfl <;> cases host <;> decide

theorem readIntegral_short_ne_pow (host : Endian) {w old : ℕ} (hw : w = 1 ∨ w = 2 ∨ w = 4 ∨ w = 8)
    {s : IStream} (hs : s.available < w) (hlast : (host.toMemory w old).getLast? ≠ some 1) :
    (readIntegral host w old s).1 ≠ 256 ^ (w - 1) := by
  rw [readIntegral_fst host hw]
  apply read_short_ne (Endian.toMemory_length host w _) hs
  rwa [getLast?_toBytes_pow (by omega)]

/-- A count or a flag that is read short over ones is not zero. -/
theorem readIntegral_short_ne_zero (host : Endian) {w : ℕ} (hw : w = 1 ∨ w = 2 ∨ w = 4 ∨ w = 8)
    {s : IStream} (hs : s.available < w) :
    (readIntegral host w (onesJunk [] % 256 ^ w) s).1 ≠ 0 := by
  rw [readIntegral_fst host hw]
  apply read_short_ne (Endian.toMemory_length host w _) hs
  rw [getLast?_toMemory_ones host hw]
  rcases hw with rfl | rfl | rfl | rfl <;> decide

theorem readCount_short_ne_zero (host : Endian) {s : IStream}
    (hs : s.available < sizeOfContainerSize) :
    (readIntegral host sizeOfContainerSize (onesJunk [] % 2 ^ 16) s).1 ≠ 0 :=
  readIntegral_short_ne_zero host (w := 2) (by decide) hs

theorem same_items_nil {l : List Val} (h : Same (.items l) (.items [])) : l = [] :=
  List.length_eq_zero_iff.mp h.length

theorem same_container_nil {p : KeyPolicy} {l : List Val}
    (h : Same (p.container l) (p.container [])) : l = [] := by
  have hlen := h.length
  simp only [KeyPolicy.elements_container] at hlen
  exact List.length_eq_zero_iff.mp hlen

theorem deserializeItems_length {read : Junk → Val → IStream → Result (Val × IStream)} {junk : Junk}
    {olds vs : List Val} {s s' : IStream} (hd : deserializeItems read junk olds s = .ok (vs,s')) :
    vs.length = olds.length := by
  induction olds generalizing vs s with
  | nil =>
    cases hd
    rfl
  | cons old olds ih =>
    obtain ⟨⟨x,s1⟩,_,hd⟩ := bind_eq_ok.mp hd
    obtain ⟨⟨xs,s2⟩,hxs,hd⟩ := bind_eq_ok.mp hd
    cases hd
    rw [List.length_cons, List.length_cons, ih hxs]

theorem insertItems_ne_nil {read : Junk → IStream → Result (Val × IStream)} {p : KeyPolicy}
    {key : Val → Val} {junk : Junk} {n : ℕ} {l l' : List Val} {s s' : IStream}
    (hn : n ≠ 0 ∨ l ≠ []) (hd : insertItems read (p.insert key) junk n l s = .ok (l',s')) :
    l' ≠ [] := by
  induction n generalizing l s with
  | zero =>
    cases hd
    exact hn.resolve_left (fun h => h rfl)
  | succ n ih =>
    obtain ⟨⟨x,s1⟩,_,hd⟩ := bind_eq_ok.mp hd
    exact ih (Or.inr (p.insert_ne_nil key x l)) hd

theorem same_items_cons {x y : Val} {xs ys : List Val}
    (h : Same (.items (x :: xs)) (.items (y :: ys))) : Same x y ∧ Same (.items xs) (.items ys) := by
  cases h with
  | items h =>
    cases h with
    | cons hx hxs => exact ⟨hx,.items hxs⟩

/-- Elements that need more bytes than there are do not all become the probe. -/
theorem deserializeItems_short_ne {b : Build} {a : Ty}
    (ha : ∀ {v s s'}, s.available < minSize a →
      deserialize b a onesJunk a.default s = .ok (v,s') → ¬ Same v (probe a))
    {n : ℕ} {vs : List Val} {s s' : IStream} (hs : s.available < n * minSize a)
    (hd : deserializeItems (deserialize b a) onesJunk (List.replicate n a.default) s = .ok (vs,s')) :
    ¬ Same (.items vs) (.items (List.replicate n (probe a))) := by
  induction n generalizing vs s with
  | zero => omega
  | succ n ih =>
    rw [List.replicate_succ] at hd
    obtain ⟨⟨x,s1⟩,hx,hd⟩ := bind_eq_ok.mp hd
    obtain ⟨⟨xs,s2⟩,hxs,hd⟩ := bind_eq_ok.mp hd
    cases hd
    intro h
    obtain ⟨hsx,hsxs⟩ := same_items_cons h
    by_cases hfirst : s.available < minSize a
    · exact ha hfirst hx hsx
    · have hcons := deserialize_consumed b a (fresh_default a) hx
      rw [Nat.add_mul, Nat.one_mul, Nat.add_comm] at hs
      have hpos : 0 < n * minSize a := by omega
      exact ih (hcons.short hpos hs) hxs hsxs

/-- A decoder of a debug build that finds less than the least size of its type, in a
target just made and over memory full of ones, does not arrive at the probe. -/
theorem deserialize_short_ne {b : Build} (hb : b.ndebug = false) (t : Ty) {v : Val}
    {s s' : IStream} (hs : s.available < minSize t)
    (hd : deserialize b t onesJunk t.default s = .ok (v,s')) : ¬ Same v (probe t) := by
  induction t generalizing v s s' with
  | integral k =>
    cases hd
    intro h
    have hlast := getLast?_toMemory_zero b.host k.size
    exact readIntegral_short_ne_pow b.host k.size_cases hs hlast h.toBits
  | floating k =>
    cases hd
    intro h
    have hvalue := (readFloating_fst b.host k.size 0 s).symm.trans h.toBits
    have hlast := getLast?_toMemory_zero b.host k.size
    rw [← getLast?_toBytes_pow k.size_pos] at hlast
    exact read_short_ne (Endian.toMemory_length b.host k.size 0) hs hlast hvalue
  | enumeration name k =>
    cases hd
    intro h
    have hlast : (b.host.toMemory k.size (onesJunk [] % 256 ^ k.size)).getLast? ≠ some 1 := by
      rw [getLast?_toMemory_ones b.host k.size_cases]
      decide
    exact readIntegral_short_ne_pow b.host k.size_cases hs hlast h.toBits
  | pair a c ha hc =>
    obtain ⟨x,s1,y,hx,hy,rfl⟩ := deserialize_pair_ok hd
    intro h
    cases h with
    | pair hsx hsy =>
      by_cases hfirst : s.available < minSize a
      · exact ha hfirst hx hsx
      · have hcons := deserialize_consumed b a (fresh_default a) hx
        exact hc (hcons.short (minSize_pos c) hs) hy hsy
  | optional a _ =>
    have hflag : (readIntegral b.host 1 (onesJunk [] % 256) s).1 ≠ 0 :=
      readIntegral_short_ne_zero b.host (Or.inl rfl) hs
    intro h
    rcases deserialize_optional_ok hd with ⟨_,w,_,rfl⟩ | ⟨hzero,_⟩
    · cases h
    · exact hflag hzero
  | sequence c a _ =>
    have hcount := readCount_short_ne_zero b.host hs
    obtain ⟨l,hl,rfl⟩ := deserialize_sequence_ok hd
    intro h
    have hlen := deserializeItems_length hl
    rw [show l = [] from same_items_nil h, (fresh_resize (fresh_default (.sequence c a)) _).1] at hlen
    exact hcount hlen.symm
  | set p a _ =>
    have hcount := readCount_short_ne_zero b.host hs
    obtain ⟨l,hl,rfl⟩ := deserialize_set_ok hd
    intro h
    exact insertItems_ne_nil (Or.inl hcount) hl (same_container_nil h)
  | map p k a _ _ =>
    have hcount := readCount_short_ne_zero b.host hs
    obtain ⟨l,hl,rfl⟩ := deserialize_map_ok hd
    intro h
    exact insertItems_ne_nil (Or.inl hcount) hl (same_container_nil h)
  | array n a ha =>
    obtain ⟨l,hassert,hl,rfl⟩ := deserialize_array_ok hd
    have hn := hassert.resolve_left (by simp [hb])
    have hcons := readIntegral_consumed b.host sizeOfContainerSize (onesJunk [] % 2 ^ 16) s
    have hpos : 0 < n * minSize a := by
      by_cases hcount : s.available < sizeOfContainerSize
      · have hne := readCount_short_ne_zero b.host hcount
        exact Nat.mul_pos (Nat.pos_of_ne_zero (hn ▸ hne)) (minSize_pos a)
      · simp only [minSize] at hs
        omega
    exact deserializeItems_short_ne ha (hcons.short hpos hs) hl
  | serializable name m hm => exact hm hs hd

end Isml.BinarySerializer
