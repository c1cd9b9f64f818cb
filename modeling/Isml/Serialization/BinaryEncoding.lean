import Isml.Serialization.BinarySerializer
import Mathlib.Algebra.BigOperators.Group.List.Basic

/-! # The byte encoding of a value

`encode` is what the serializer writes for a value, as a function of the value
alone: every arithmetic object lowest byte first, on either kind of host. It is
connected to `serialize` and `size` here, and to `deserialize` in the round trip.
-/
namespace Isml.BinarySerializer
open ByteOrder StringStream

def encode : Ty → Val → List Byte
  | .integral k, v | .enumeration _ k, v => toBytes k.size v.toBits
  | .floating k, v => toBytes k.size v.toBits
  | .pair a c, v => encode a v.first ++ encode c v.second
  | .optional a, v =>
    match v with
    | .present w => 1 :: encode a w
    | _ => [0]
  | .sequence _ a, v | .set _ a, v =>
    toBytes 2 v.elements.length ++ v.elements.flatMap (encode a)
  | .map _ k a, v =>
    toBytes 2 v.elements.length ++ v.elements.flatMap fun x => encode k x.first ++ encode a x.second
  | .array n a, v => toBytes 2 n ++ v.elements.flatMap (encode a)
  | .serializable _ m, v => encode m v

theorem writeObject_eq {host : Endian} {w n : ℕ} {swap : ℕ → ℕ}
    (hswap : host = .big → swap n = byteReverse w n) (out : OStream) :
    writeObject host w swap n out = out ++ toBytes w n := by
  cases host with
  | little => rfl
  | big => simp [writeObject, swapBytesIfNeeded, hswap rfl, Endian.toMemory_byteReverse]

theorem writeIntegral_eq (host : Endian) {w n : ℕ} (hw : w = 1 ∨ w = 2 ∨ w = 4 ∨ w = 8)
    (hn : n < 256 ^ w) (out : OStream) : writeIntegral host w n out = out ++ toBytes w n :=
  writeObject_eq (fun _ => ByteUtils.swapIntegral_eq hw hn) out

theorem writeFloating_eq (host : Endian) (w n : ℕ) (out : OStream) :
    writeFloating host w n out = out ++ toBytes w n :=
  writeObject_eq (fun _ => ByteUtils.swapFloating_eq host w n) out

theorem writeContainerSize_eq (host : Endian) (size : ℕ) (out : OStream) :
    writeContainerSize host size out = out ++ toBytes 2 size := by
  have hlt : size % 2 ^ 16 < 256 ^ 2 := Nat.mod_lt _ (by decide)
  have hlow : toBytes 2 (size % 2 ^ 16) = toBytes 2 size := by
    have h0 : UInt8.ofNat (size % 2 ^ 16) = UInt8.ofNat size := by
      apply UInt8.toNat_inj.mp
      simp only [UInt8.toNat_ofNat']
      omega
    have h1 : UInt8.ofNat (size % 2 ^ 16 / 256) = UInt8.ofNat (size / 256) := by
      apply UInt8.toNat_inj.mp
      simp only [UInt8.toNat_ofNat']
      omega
    simp only [toBytes, h0, h1]
  rw [writeContainerSize, sizeOfContainerSize, writeIntegral_eq host (by decide) hlt, hlow]

theorem swapBytesIfNeeded_ofMemory {host : Endian} {swap : ℕ → ℕ} {bytes : List Byte}
    (hswap : host = .big → ∀ n < 256 ^ bytes.length, swap n = byteReverse bytes.length n) :
    swapBytesIfNeeded host swap (host.ofMemory bytes) = ByteOrder.ofBytes bytes := by
  cases host with
  | little => rfl
  | big =>
    rw [swapBytesIfNeeded, hswap rfl _ (Endian.ofMemory_lt .big bytes), Endian.byteReverse_ofMemory]

/-- What a read of an integral stores is the number its bytes make, lowest first. -/
theorem readIntegral_fst (host : Endian) {w : ℕ} (hw : w = 1 ∨ w = 2 ∨ w = 4 ∨ w = 8) (old : ℕ)
    (s : IStream) : (readIntegral host w old s).1 =
      ByteOrder.ofBytes (s.read w (host.toMemory w old)).1 := by
  have hlen := read_length (s := s) (Endian.toMemory_length host w old)
  refine swapBytesIfNeeded_ofMemory fun _ n hn => ?_
  rw [hlen] at hn ⊢
  exact ByteUtils.swapIntegral_eq hw hn

theorem readFloating_fst (host : Endian) (w old : ℕ) (s : IStream) :
    (readFloating host w old s).1 = ByteOrder.ofBytes (s.read w (host.toMemory w old)).1 := by
  have hlen := read_length (s := s) (Endian.toMemory_length host w old)
  refine swapBytesIfNeeded_ofMemory fun _ n _ => ?_
  rw [hlen]
  exact ByteUtils.swapFloating_eq host w n

@[simp] theorem readIntegral_snd (host : Endian) (w old : ℕ) (s : IStream) :
    (readIntegral host w old s).2 = (s.read w (host.toMemory w old)).2 := rfl

@[simp] theorem readFloating_snd (host : Endian) (w old : ℕ) (s : IStream) :
    (readFloating host w old s).2 = (s.read w (host.toMemory w old)).2 := rfl

theorem readIntegral_encode (host : Endian) {w n : ℕ} (hw : w = 1 ∨ w = 2 ∨ w = 4 ∨ w = 8)
    (hn : n < 256 ^ w) (old : ℕ) (r : List Byte) :
    readIntegral host w old ⟨toBytes w n ++ r,false⟩ = (n,⟨r,false⟩) := by
  have hread := read_append (toBytes_length w n) r (host.toMemory w old)
  apply Prod.ext
  · rw [readIntegral_fst host hw, hread, ofBytes_toBytes_of_lt hn]
  · rw [readIntegral_snd, hread]

theorem readFloating_encode (host : Endian) {w n : ℕ} (hn : n < 256 ^ w) (old : ℕ)
    (r : List Byte) : readFloating host w old ⟨toBytes w n ++ r,false⟩ = (n,⟨r,false⟩) := by
  have hread := read_append (toBytes_length w n) r (host.toMemory w old)
  apply Prod.ext
  · rw [readFloating_fst host, hread, ofBytes_toBytes_of_lt hn]
  · rw [readFloating_snd, hread]

section Loops
variable {α : Type*} {f : α → OStream → Result OStream}

/-- A loop whose body appends an encoding appends the encodings one after the other. -/
theorem foldlM_append {enc : α → List Byte} {l : List α}
    (h : ∀ x ∈ l, ∀ out, f x out = .ok (out ++ enc x)) (out : OStream) :
    l.foldlM (fun out x => f x out) out = .ok (out ++ l.flatMap enc) := by
  induction l generalizing out with
  | nil => simp [pure, Except.pure]
  | cons x xs ih =>
    rw [List.foldlM_cons, h x List.mem_cons_self, ok_bind,
      ih (fun y hy => h y (List.mem_cons_of_mem x hy)), List.flatMap_cons, List.append_assoc]

theorem foldlM_length {n : α → ℕ} {l : List α} {out out' : OStream}
    (h : ∀ x ∈ l, ∀ out out', f x out = .ok out' → out'.length = out.length + n x)
    (hl : l.foldlM (fun out x => f x out) out = .ok out') :
    out'.length = out.length + (l.map n).sum := by
  induction l generalizing out with
  | nil =>
    cases hl
    rfl
  | cons x xs ih =>
    rw [List.foldlM_cons] at hl
    obtain ⟨out1,hx,hxs⟩ := bind_eq_ok.mp hl
    have hfirst := h x List.mem_cons_self out out1 hx
    have hrest := ih (fun y hy => h y (List.mem_cons_of_mem x hy)) hxs
    rw [hrest, hfirst, List.map_cons, List.sum_cons]
    omega

theorem flatMap_length {enc : α → List Byte} {l : List α} {n : α → ℕ}
    (h : ∀ x ∈ l, (enc x).length = n x) : (l.flatMap enc).length = (l.map n).sum := by
  rw [List.length_flatMap]
  exact congrArg List.sum (List.map_congr_left h)

end Loops

/-- `size` is the length of the encoding, for containers of any size. -/
theorem encode_length (t : Ty) (v : Val) : (encode t v).length = size t v := by
  induction t generalizing v with
  | integral k | enumeration name k | floating k => simp [encode, size]
  | pair a c ha hc => simp [encode, size, ha, hc]
  | optional a ha =>
    cases v with
    | present w => simp [encode, size, ha, Nat.add_comm]
    | _ => simp [encode, size]
  | sequence c a ha | set p a ha | array n a ha =>
    simp [encode, size, sizeOfContainerSize, flatMap_length fun x _ => ha x]
  | map p k a hk ha =>
    have hx (x : Val) : (encode k x.first ++ encode a x.second).length =
        size k x.first + size a x.second := by
      rw [List.length_append, hk, ha]
    simp [encode, size, sizeOfContainerSize, flatMap_length fun x _ => hx x]
  | serializable name m hm => exact hm v

theorem size_replicate (container : String) (a : Ty) (n : ℕ) (v : Val) :
    size (.sequence container a) (.items (List.replicate n v)) = 2 + n * size a v := by
  change 2 + ((List.replicate n v).map (size a)).sum = 2 + n * size a v
  rw [List.map_replicate, List.sum_replicate_nat]

theorem writeObject_length (host : Endian) (w : ℕ) (swap : ℕ → ℕ) (n : ℕ) (out : OStream) :
    (writeObject host w swap n out).length = out.length + w := by
  rw [writeObject, List.length_append, Endian.toMemory_length]

/-- Whatever the value, what is appended has the size that was announced for it. -/
theorem serialize_length {b : Build} {t : Ty} {v : Val} {out out' : OStream}
    (h : serialize b t v out = .ok out') : out'.length = out.length + size t v := by
  induction t generalizing v out out' with
  | integral k | enumeration name k | floating k =>
    cases h
    exact writeObject_length b.host k.size _ _ out
  | pair a c ha hc =>
    obtain ⟨out1,h1,h2⟩ := bind_eq_ok.mp h
    have hfirst := ha h1
    have hsecond := hc h2
    simp only [size]
    omega
  | optional a ha =>
    cases v with
    | present w =>
      have hw := ha h
      rw [writeIntegral, writeObject_length] at hw
      simp only [size]
      omega
    | _ =>
      cases h
      exact writeObject_length b.host 1 _ _ out
  | sequence c a ha =>
    obtain ⟨_,_,h⟩ := bind_eq_ok.mp h
    have hl := foldlM_length (n := size a) (fun x _ out out' hx => ha hx) h
    rw [writeContainerSize, writeIntegral, writeObject_length] at hl
    simp only [size]
    omega
  | set p a ha | array n a ha =>
    have hl := foldlM_length (n := size a) (fun x _ out out' hx => ha hx) h
    rw [writeContainerSize, writeIntegral, writeObject_length] at hl
    simp only [size]
    omega
  | map p k a hk ha =>
    have hitem : ∀ x ∈ v.elements, ∀ out out', (do
        let out ← serialize b k x.first out
        serialize b a x.second out) = .ok out' →
          out'.length = out.length + (size k x.first + size a x.second) := by
      intro x _ out out' hx
      obtain ⟨out1,h1,h2⟩ := bind_eq_ok.mp hx
      have hkey := hk h1
      have hmapped := ha h2
      omega
    have hl := foldlM_length hitem h
    rw [writeContainerSize, writeIntegral, writeObject_length] at hl
    simp only [size]
    omega
  | serializable name m hm => exact hm h

/-- Without assertions every value is written, as bytes behind what is there. -/
theorem serialize_appends (host : Endian) (t : Ty) (v : Val) :
    ∃ bytes, ∀ out, serialize ⟨host,true⟩ t v out = .ok (out ++ bytes) := by
  induction t generalizing v with
  | integral k | enumeration name k | floating k => exact ⟨_,fun out => rfl⟩
  | pair a c ha hc =>
    obtain ⟨first,hfirst⟩ := ha v.first
    obtain ⟨second,hsecond⟩ := hc v.second
    refine ⟨first ++ second,fun out => ?_⟩
    simp only [serialize, hfirst, ok_bind, hsecond, List.append_assoc]
  | optional a ha =>
    cases v with
    | present w =>
      obtain ⟨bytes,hbytes⟩ := ha w
      refine ⟨host.toMemory 1 (swapBytesIfNeeded host (ByteUtils.swapIntegral 1) (swapFlag host 1)) ++ bytes,
        fun out => ?_⟩
      simp only [serialize, hbytes, writeIntegral, writeObject, List.append_assoc]
    | _ => exact ⟨_,fun out => rfl⟩
  | sequence c a ha | set p a ha =>
    choose enc henc using ha
    refine ⟨toBytes 2 v.elements.length ++ v.elements.flatMap enc,fun out => ?_⟩
    simp only [serialize, assertThat, Bool.true_or, if_true, ok_bind,
      foldlM_append fun x _ out => henc x out, writeContainerSize_eq, List.append_assoc]
  | map p k a hk ha =>
    choose encKey hkey using hk
    choose enc henc using ha
    have hitem : ∀ x ∈ v.elements, ∀ out, (do
        let out ← serialize ⟨host,true⟩ k x.first out
        serialize ⟨host,true⟩ a x.second out) = .ok (out ++ (encKey x.first ++ enc x.second)) := by
      intro x _ out
      rw [hkey, ok_bind, henc, List.append_assoc]
    refine ⟨toBytes 2 v.elements.length ++ v.elements.flatMap fun x => encKey x.first ++ enc x.second,
      fun out => ?_⟩
    simp only [serialize, foldlM_append hitem, writeContainerSize_eq, List.append_assoc]
  | array n a ha =>
    choose enc henc using ha
    refine ⟨toBytes 2 n ++ v.elements.flatMap enc,fun out => ?_⟩
    simp only [serialize, foldlM_append fun x _ out => henc x out, writeContainerSize_eq,
      List.append_assoc]
  | serializable name m hm => exact hm v

theorem within_maxContainerSize {t : Ty} {v : Val} (h : t.Within 65535 v) :
    t.Within maxContainerSize.toNat v :=
  h.mono (by decide)

/-- On a value of its type the serializer appends the encoding and nothing fails. -/
theorem serialize_eq (b : Build) (t : Ty) {v : Val} (ht : t.HasType v)
    (hw : t.Within maxContainerSize.toNat v)
    (out : OStream) : serialize b t v out = .ok (out ++ encode t v) := by
  induction t generalizing v out with
  | integral k | enumeration name k =>
    obtain ⟨n,rfl,hn⟩ := ht
    simp only [serialize, encode, Val.toBits,
      writeIntegral_eq b.host k.size_cases (hn.trans_le k.range_le)]
  | floating k => simp only [serialize, encode, writeFloating_eq]
  | pair a c ha hc =>
    obtain ⟨_,ht1,ht2⟩ := ht
    obtain ⟨hw1,hw2⟩ := hw
    simp only [serialize, encode, ha ht1 hw1, ok_bind, hc ht2 hw2, List.append_assoc]
  | optional a ha =>
    rcases ht with rfl | ⟨w,rfl,ht⟩
    · simp only [serialize, swapFlag_eq, encode, writeIntegral_eq b.host (w := 1) (n := 0) (by decide) (by decide)]
      rfl
    · simp only [serialize, swapFlag_eq, encode, writeIntegral_eq b.host (w := 1) (n := 1) (by decide)
        (by decide), ha ht (hw w rfl), List.append_assoc]
      rfl
  | sequence c a ha =>
    obtain ⟨_,ht⟩ := ht
    obtain ⟨hlen,hw⟩ := hw
    have hbody := foldlM_append (f := serialize b a) (fun x hx out => ha (ht x hx) (hw x hx) out)
      (writeContainerSize b.host v.elements.length out)
    rw [writeContainerSize_eq] at hbody
    simp only [serialize, encode, hlen, decide_true, assertThat_true, ok_bind,
      writeContainerSize_eq, hbody, List.append_assoc]
  | set p a ha =>
    obtain ⟨_,_,ht⟩ := ht
    obtain ⟨_,hw⟩ := hw
    have hbody := foldlM_append (f := serialize b a) (fun x hx out => ha (ht x hx) (hw x hx) out)
      (writeContainerSize b.host v.elements.length out)
    rw [writeContainerSize_eq] at hbody
    simp only [serialize, encode, writeContainerSize_eq, hbody, List.append_assoc]
  | map p k a hk ha =>
    obtain ⟨_,_,ht⟩ := ht
    obtain ⟨_,hw⟩ := hw
    have hitem : ∀ x ∈ v.elements, ∀ out, (do
        let out ← serialize b k x.first out
        serialize b a x.second out) = .ok (out ++ (encode k x.first ++ encode a x.second)) := by
      intro x hx out
      obtain ⟨_,htk,hta⟩ := ht x hx
      obtain ⟨hwk,hwa⟩ := hw x hx
      rw [hk htk hwk, ok_bind, ha hta hwa, List.append_assoc]
    have hbody := foldlM_append hitem (writeContainerSize b.host v.elements.length out)
    rw [writeContainerSize_eq] at hbody
    simp only [serialize, encode, writeContainerSize_eq, hbody, List.append_assoc]
  | array n a ha =>
    obtain ⟨_,_,ht⟩ := ht
    obtain ⟨_,hw⟩ := hw
    have hbody := foldlM_append (f := serialize b a) (fun x hx out => ha (ht x hx) (hw x hx) out)
      (writeContainerSize b.host n out)
    rw [writeContainerSize_eq] at hbody
    simp only [serialize, encode, writeContainerSize_eq, hbody, List.append_assoc]
  | serializable name m hm => exact hm ht hw out

end Isml.BinarySerializer
