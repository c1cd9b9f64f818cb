import Isml.Serialization.BinaryRoundTrip

/-! # Complete encodings

`scan` walks over the bytes of an encoding without making a value of them, and gives up
where a byte is missing. A decoder never gives up; whether all its reads obtained what
they asked for is told by the scan, and by the stream it leaves behind.
-/
namespace Isml.BinarySerializer
open ByteOrder StringStream

/-- The next number of `w` bytes and what to do after it. -/
def scanNumber (w : ℕ) (next : ℕ → List Byte → Option (List Byte)) (bytes : List Byte) :
    Option (List Byte) :=
  if w ≤ bytes.length then next (ByteOrder.ofBytes (bytes.take w)) (bytes.drop w) else none

def scanTimes (scanItem : List Byte → Option (List Byte)) : ℕ → List Byte → Option (List Byte)
  | 0, bytes => some bytes
  | n + 1, bytes => (scanItem bytes).bind (scanTimes scanItem n)

/-- The bytes behind a complete encoding of the type. -/
def scan : Ty → List Byte → Option (List Byte)
  | .integral k, bytes | .enumeration _ k, bytes => scanNumber k.size (fun _ => some) bytes
  | .floating k, bytes => scanNumber k.size (fun _ => some) bytes
  | .pair a c, bytes => (scan a bytes).bind fun bytes => scan c bytes
  | .optional a, bytes => scanNumber 1 (fun flag bytes => if flag ≠ 0 then scan a bytes else some bytes) bytes
  | .sequence _ a, bytes | .set _ a, bytes =>
    scanNumber sizeOfContainerSize (fun n => scanTimes (fun bytes => scan a bytes) n) bytes
  | .map _ k a, bytes =>
    scanNumber sizeOfContainerSize
      (fun n => scanTimes (fun bytes => (scan k bytes).bind fun bytes => scan a bytes) n) bytes
  | .array n a, bytes =>
    scanNumber sizeOfContainerSize (fun _ => scanTimes (fun bytes => scan a bytes) n) bytes
  | .serializable _ m, bytes => scan m bytes

/-- A number is read and then used: the scan sees the same number, if it is there. -/
theorem left_readIntegral (host : Endian) {w : ℕ} (hw : w = 1 ∨ w = 2 ∨ w = 4 ∨ w = 8) (old : ℕ)
    (s : IStream) (next : ℕ → List Byte → Option (List Byte)) :
    (readIntegral host w old s).2.left.bind (next (readIntegral host w old s).1) =
      s.left.bind (scanNumber w next) := by
  rw [readIntegral_snd, left_read]
  cases hs : s.left with
  | none => rfl
  | some bytes =>
    rw [left_eq_some] at hs
    subst hs
    by_cases hn : w ≤ bytes.length
    · have hread : (⟨bytes,false⟩ : IStream).read w (host.toMemory w old) =
          (bytes.take w,⟨bytes.drop w,false⟩) := by
        simp [IStream.read, hn]
      simp only [Option.bind_some, if_pos hn, scanNumber, readIntegral_fst host hw, hread]
    · simp only [Option.bind_some, if_neg hn, scanNumber, Option.bind_none]

theorem left_readFloating (host : Endian) (w old : ℕ) (s : IStream) :
    (readFloating host w old s).2.left = s.left.bind (scanNumber w fun _ => some) := by
  rw [readFloating_snd, left_read]
  rfl

section Loops
variable {scanItem : List Byte → Option (List Byte)}

theorem left_of_readings {n : ℕ} {s s' : IStream}
    (h : Readings (fun s s' => s'.left = s.left.bind scanItem) n s s') :
    s'.left = s.left.bind (scanTimes scanItem n) := by
  induction n generalizing s with
  | zero =>
    cases h
    exact (Option.bind_fun_some _).symm
  | succ n ih =>
    obtain ⟨s1,hfirst,hrest⟩ := h
    rw [ih hrest, hfirst, Option.bind_assoc]
    rfl

theorem left_deserializeItems {read : Junk → Val → IStream → Result (Val × IStream)}
    {P : Val → Prop}
    (h : ∀ junk old s v s', P old → read junk old s = .ok (v,s') → s'.left = s.left.bind scanItem)
    {junk : Junk} {olds vs : List Val} {s s' : IStream} (hP : ∀ old ∈ olds, P old)
    (hd : deserializeItems read junk olds s = .ok (vs,s')) :
    s'.left = s.left.bind (scanTimes scanItem olds.length) :=
  left_of_readings (deserializeItems_readings h hP hd)

theorem left_insertItems {read : Junk → IStream → Result (Val × IStream)}
    {insert : Val → List Val → List Val}
    (h : ∀ junk s v s', read junk s = .ok (v,s') → s'.left = s.left.bind scanItem)
    {junk : Junk} {n : ℕ} {l l' : List Val} {s s' : IStream}
    (hd : insertItems read insert junk n l s = .ok (l',s')) :
    s'.left = s.left.bind (scanTimes scanItem n) :=
  left_of_readings (insertItems_readings h hd)

end Loops

/-- The reads of a decoder obtain all their bytes exactly when the scan does, and then
decoder and scan leave the same bytes. -/
theorem left_deserialize (b : Build) (t : Ty) {junk : Junk} {old v : Val} {s s' : IStream}
    (hf : Fresh t old) (hd : deserialize b t junk old s = .ok (v,s')) :
    s'.left = s.left.bind (scan t) := by
  induction t generalizing junk old v s s' with
  | integral k | enumeration name k =>
    cases hd
    have h := left_readIntegral b.host k.size_cases
    exact (Option.bind_fun_some _).symm.trans (h _ s fun _ => some)
  | floating k =>
    cases hd
    exact left_readFloating b.host k.size _ s
  | pair a c ha hc =>
    obtain ⟨x,s1,y,hx,hy,_⟩ := deserialize_pair_ok hd
    rw [hc hf.2 hy, ha hf.1 hx, Option.bind_assoc]
    rfl
  | optional a ha =>
    have h := left_readIntegral b.host (w := 1) (Or.inl rfl) (junk [] % 256) s
      fun flag bytes => if flag ≠ 0 then scan a bytes else some bytes
    refine Eq.trans ?_ h
    rcases deserialize_optional_ok hd with ⟨hflag,w,hw,_⟩ | ⟨hflag,_,rfl⟩
    · simp only [if_pos hflag]
      exact ha (fresh_uninitialized a _) hw
    · simp only [if_neg (not_not.mpr hflag)]
      exact (Option.bind_fun_some _).symm
  | sequence c a ha =>
    have h := left_readIntegral b.host (w := 2) (by decide) (junk [] % 2 ^ 16) s
      (scanTimes fun bytes => scan a bytes)
    refine Eq.trans ?_ h
    obtain ⟨l,hl,_⟩ := deserialize_sequence_ok hd
    obtain ⟨hlen,hfresh⟩ := fresh_resize hf
      (readIntegral b.host sizeOfContainerSize (junk [] % 2 ^ 16) s).1
    have hitems := left_deserializeItems (fun _ _ _ _ _ hP hx => ha hP hx) hfresh hl
    rw [hlen] at hitems
    exact hitems
  | set p a ha =>
    have h := left_readIntegral b.host (w := 2) (by decide) (junk [] % 2 ^ 16) s
      (scanTimes fun bytes => scan a bytes)
    refine Eq.trans ?_ h
    obtain ⟨l,hl,_⟩ := deserialize_set_ok hd
    exact left_insertItems (fun _ _ _ _ hx => ha (fresh_uninitialized a _) hx) hl
  | map p k a hk ha =>
    have h := left_readIntegral b.host (w := 2) (by decide) (junk [] % 2 ^ 16) s
      (scanTimes fun bytes => (scan k bytes).bind fun bytes => scan a bytes)
    refine Eq.trans ?_ h
    obtain ⟨l,hl,_⟩ := deserialize_map_ok hd
    refine left_insertItems ?_ hl
    intro junk s v s' hentry
    obtain ⟨x,s1,y,hx,hy,_⟩ := readEntry_ok hentry
    rw [ha (fresh_uninitialized a _) hy, hk (fresh_uninitialized k _) hx, Option.bind_assoc]
  | array n a ha =>
    have h := left_readIntegral b.host (w := 2) (by decide) (junk [] % 2 ^ 16) s
      (fun _ => scanTimes (fun bytes => scan a bytes) n)
    refine Eq.trans ?_ h
    obtain ⟨l,_,hl,_⟩ := deserialize_array_ok hd
    have hitems := left_deserializeItems (fun _ _ _ _ _ hP hx => ha hP hx) hf.2 hl
    rw [hf.1] at hitems
    exact hitems
  | serializable name m hm => exact hm hf hd

/-- What the serializer writes is a complete encoding. -/
theorem scan_encode (t : Ty) {v : Val} (ht : t.HasType v) (hw : t.Within 65535 v) (r : List Byte) :
    scan t (encode t v ++ r) = some r := by
  obtain ⟨w,hd,_⟩ := deserialize_encode ⟨.little,false⟩ t (fun _ => 0) (fresh_default t) ht hw r
  exact (left_deserialize _ t (fresh_default t) hd).symm

theorem deserializeItems_total {read : Junk → Val → IStream → Result (Val × IStream)}
    (h : ∀ junk old s, ∃ v s', read junk old s = .ok (v,s')) (junk : Junk) (olds : List Val)
    (s : IStream) : ∃ vs s', deserializeItems read junk olds s = .ok (vs,s') := by
  induction olds generalizing s with
  | nil => exact ⟨[],s,rfl⟩
  | cons old olds ih =>
    obtain ⟨x,s1,hx⟩ := h (junk.child olds.length) old s
    obtain ⟨xs,s2,hxs⟩ := ih s1
    exact ⟨x :: xs,s2,bind_eq_ok.mpr ⟨_,hx,bind_eq_ok.mpr ⟨_,hxs,rfl⟩⟩⟩

theorem insertItems_total {read : Junk → IStream → Result (Val × IStream)}
    (h : ∀ junk s, ∃ v s', read junk s = .ok (v,s')) (insert : Val → List Val → List Val)
    (junk : Junk) (n : ℕ) (l : List Val) (s : IStream) :
    ∃ l' s', insertItems read insert junk n l s = .ok (l',s') := by
  induction n generalizing l s with
  | zero => exact ⟨l,s,rfl⟩
  | succ n ih =>
    obtain ⟨x,s1,hx⟩ := h (junk.child n) s
    obtain ⟨l',s2,hl⟩ := ih (insert x l) s1
    exact ⟨l',s2,bind_eq_ok.mpr ⟨_,hx,hl⟩⟩

/-- Without assertions every decoder gets to its end, whatever it reads. -/
theorem deserialize_total {b : Build} (hb : b.ndebug = true) (t : Ty) (junk : Junk) (old : Val)
    (s : IStream) : ∃ v s', deserialize b t junk old s = .ok (v,s') := by
  induction t generalizing junk old s with
  | integral k | enumeration name k | floating k => exact ⟨_,_,rfl⟩
  | pair a c ha hc =>
    obtain ⟨x,s1,hx⟩ := ha (junk.child 0) old.first s
    obtain ⟨y,s2,hy⟩ := hc (junk.child 1) old.second s1
    exact ⟨_,s2,bind_eq_ok.mpr ⟨_,hx,bind_eq_ok.mpr ⟨_,hy,rfl⟩⟩⟩
  | optional a ha =>
    simp only [deserialize]
    split
    · obtain ⟨w,s1,hw⟩ := ha (junk.child 0) (a.uninitialized (junk.child 1)) _
      exact ⟨_,s1,bind_eq_ok.mpr ⟨_,hw,rfl⟩⟩
    · exact ⟨_,_,rfl⟩
  | sequence c a ha =>
    obtain ⟨l,s1,hl⟩ := deserializeItems_total ha junk _ _
    exact ⟨_,s1,bind_eq_ok.mpr ⟨_,hl,rfl⟩⟩
  | set p a ha =>
    obtain ⟨l,s1,hl⟩ := insertItems_total (fun junk s => ha (junk.child 0) _ s) (p.insert id) junk _ [] _
    exact ⟨_,s1,bind_eq_ok.mpr ⟨_,hl,rfl⟩⟩
  | map p k a hk ha =>
    have hentry : ∀ junk s, ∃ v s', readEntry (readLocal (deserialize b k) k)
        (readLocal (deserialize b a) a) junk s = .ok (v,s') := by
      intro junk s
      obtain ⟨x,s1,hx⟩ := hk ((junk.child 0).child 0) (k.uninitialized ((junk.child 0).child 1)) s
      obtain ⟨y,s2,hy⟩ := ha ((junk.child 1).child 0) (a.uninitialized ((junk.child 1).child 1)) s1
      exact ⟨_,s2,bind_eq_ok.mpr ⟨_,hx,bind_eq_ok.mpr ⟨_,hy,rfl⟩⟩⟩
    obtain ⟨l,s1,hl⟩ := insertItems_total hentry (p.insert Val.first) junk _ [] _
    exact ⟨_,s1,bind_eq_ok.mpr ⟨_,hl,rfl⟩⟩
  | array n a ha =>
    obtain ⟨l,s1,hl⟩ := deserializeItems_total ha junk old.elements _
    refine ⟨_,s1,bind_eq_ok.mpr ⟨(),?_,bind_eq_ok.mpr ⟨_,hl,rfl⟩⟩⟩
    rw [hb]
    rfl
  | serializable name m hm => exact hm junk old s

end Isml.BinarySerializer
