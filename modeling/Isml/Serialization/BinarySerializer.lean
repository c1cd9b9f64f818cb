import Isml.Library.StringStream
import Isml.Base.Byte
import Isml.Serialization.Types

/-! # `BinarySerializer` and its stream

`serialize` appends to the output stream, `deserialize` reads from the input stream
into an object whose old contents it is given. Neither looks at the state of the
stream: a short read goes on with whatever the destination holds.
-/
namespace Isml
open ByteOrder StringStream

/-- What the library is compiled for: the byte order of the host, and whether
`assert` is compiled out. -/
structure Build where
  host : Endian
  ndebug : Bool
  deriving DecidableEq, Repr

abbrev OStream := List Byte

namespace BinarySerializer

def sizeOfContainerSize : ℕ := 2

-- `~` works on the `int` the 16-bit zero is promoted to, so all 64 bits are set
def maxContainerSize : BitVec 64 := (~~~(0 : BitVec 32)).signExtend 64

def swapBytesIfNeeded (host : Endian) (swap : ℕ → ℕ) (n : ℕ) : ℕ :=
  match host with
  | .little => n
  | .big => swap n

def writeObject (host : Endian) (w : ℕ) (swap : ℕ → ℕ) (n : ℕ) (out : OStream) : OStream :=
  out ++ host.toMemory w (swapBytesIfNeeded host swap n)

def readObject (host : Endian) (w : ℕ) (swap : ℕ → ℕ) (old : ℕ) (s : IStream) : ℕ × IStream :=
  let r := s.read w (host.toMemory w old)
  (swapBytesIfNeeded host swap (host.ofMemory r.1), r.2)

def writeIntegral (host : Endian) (w n : ℕ) (out : OStream) : OStream :=
  writeObject host w (ByteUtils.swapIntegral w) n out

def readIntegral (host : Endian) (w old : ℕ) (s : IStream) : ℕ × IStream :=
  readObject host w (ByteUtils.swapIntegral w) old s

def writeFloating (host : Endian) (w n : ℕ) (out : OStream) : OStream :=
  writeObject host w (ByteUtils.swapFloating host w) n out

def readFloating (host : Endian) (w old : ℕ) (s : IStream) : ℕ × IStream :=
  readObject host w (ByteUtils.swapFloating host w) old s

/-- The count in front of a container's elements, `static_cast<ContainerSize>(size)`. -/
def writeContainerSize (host : Endian) (size : ℕ) (out : OStream) : OStream :=
  writeIntegral host sizeOfContainerSize (size % 2 ^ 16) out

/-- `swapBytesIfNeeded(value_present)`, of an object of one byte. -/
def swapFlag (host : Endian) (valuePresent : ℕ) : ℕ :=
  swapBytesIfNeeded host (ByteUtils.swapIntegral 1) valuePresent

@[simp] theorem swapFlag_eq (host : Endian) (valuePresent : ℕ) :
    swapFlag host valuePresent = valuePresent := by
  cases host <;> rfl

def serialize (b : Build) : Ty → Val → OStream → Result OStream
  | .integral k, v, out | .enumeration _ k, v, out => .ok (writeIntegral b.host k.size v.toBits out)
  | .floating k, v, out => .ok (writeFloating b.host k.size v.toBits out)
  | .pair a c, v, out => do
    let out ← serialize b a v.first out
    serialize b c v.second out
  | .optional a, v, out =>
    -- the flag is swapped before it is handed to the serializer of `bool`, which swaps it too
    match v with
    | .present w => serialize b a w (writeIntegral b.host 1 (swapFlag b.host 1) out)
    | _ => .ok (writeIntegral b.host 1 (swapFlag b.host 0) out)
  | .sequence _ a, v, out => do
    assertThat b.ndebug (v.elements.length ≤ maxContainerSize.toNat)
    v.elements.foldlM (fun out x => serialize b a x out)
      (writeContainerSize b.host v.elements.length out)
  | .set _ a, v, out =>
    v.elements.foldlM (fun out x => serialize b a x out)
      (writeContainerSize b.host v.elements.length out)
  | .map _ k a, v, out =>
    v.elements.foldlM (fun out x => do
        let out ← serialize b k x.first out
        serialize b a x.second out)
      (writeContainerSize b.host v.elements.length out)
  | .array n a, v, out =>
    v.elements.foldlM (fun out x => serialize b a x out) (writeContainerSize b.host n out)
  | .serializable _ m, v, out => serialize b m v out

/-- `binary::size`; for a `Serializable` it is `serializedSize()`. -/
def size : Ty → Val → ℕ
  | .integral k, _ | .enumeration _ k, _ => k.size
  | .floating k, _ => k.size
  | .pair a c, v => size a v.first + size c v.second
  | .optional a, v =>
    match v with
    | .present w => 1 + size a w
    | _ => 1
  | .sequence _ a, v | .set _ a, v | .array _ a, v =>
    sizeOfContainerSize + (v.elements.map (size a)).sum
  | .map _ k a, v =>
    sizeOfContainerSize + (v.elements.map fun x => size k x.first + size a x.second).sum
  | .serializable _ m, v => size m v

/-- `container.resize(n)`. -/
def resize (a : Ty) (n : ℕ) (l : List Val) : List Val :=
  l.take n ++ List.replicate (n - l.length) a.default

/-- `for (auto& item : container) deserialize(item)`. -/
def deserializeItems (read : Junk → Val → IStream → Result (Val × IStream)) (junk : Junk) :
    List Val → IStream → Result (List Val × IStream)
  | [], s => .ok ([],s)
  | old :: olds, s => do
    let (x,s) ← read (junk.child olds.length) old s
    let (xs,s) ← deserializeItems read junk olds s
    .ok (x :: xs,s)

/-- `T value; deserialize(value)` for a local variable of type `a`. -/
def readLocal (read : Junk → Val → IStream → Result (Val × IStream)) (a : Ty) (junk : Junk)
    (s : IStream) : Result (Val × IStream) :=
  read (junk.child 0) (a.uninitialized (junk.child 1)) s

/-- A key and then a mapped value, each read into a local of its own. -/
def readEntry (readKey readMapped : Junk → IStream → Result (Val × IStream)) (junk : Junk)
    (s : IStream) : Result (Val × IStream) := do
  let (x,s) ← readKey (junk.child 0) s
  let (y,s) ← readMapped (junk.child 1) s
  .ok (.pair x y,s)

/-- The loop of the associative containers: read an item, insert it, `n` times. -/
def insertItems (read : Junk → IStream → Result (Val × IStream))
    (insert : Val → List Val → List Val) (junk : Junk) :
    ℕ → List Val → IStream → Result (List Val × IStream)
  | 0, l, s => .ok (l,s)
  | n + 1, l, s => do
    let (x,s) ← read (junk.child n) s
    insertItems read insert junk n (insert x l) s

def deserialize (b : Build) : Ty → Junk → Val → IStream → Result (Val × IStream)
  | .integral k, _, old, s =>
    let (n,s) := readIntegral b.host k.size old.toBits s
    .ok (.bits n,s)
  | .floating k, _, old, s =>
    let (n,s) := readFloating b.host k.size old.toBits s
    .ok (.bits n,s)
  | .enumeration _ k, junk, _, s =>
    -- the value is read into a local of the underlying type
    let (n,s) := readIntegral b.host k.size (junk [] % 256 ^ k.size) s
    .ok (.bits n,s)
  | .pair a c, junk, old, s => do
    let (x,s) ← deserialize b a (junk.child 0) old.first s
    let (y,s) ← deserialize b c (junk.child 1) old.second s
    .ok (.pair x y,s)
  | .optional a, junk, old, s =>
    let (valuePresent,s) := readIntegral b.host 1 (junk [] % 256) s
    if valuePresent ≠ 0 then do
      let (w,s) ← readLocal (deserialize b a) a junk s
      .ok (.present w,s)
    else .ok (old,s)
  | .sequence _ a, junk, old, s => do
    let (itemCount,s) := readIntegral b.host sizeOfContainerSize (junk [] % 2 ^ 16) s
    let (l,s) ← deserializeItems (deserialize b a) junk (resize a itemCount old.elements) s
    .ok (.items l,s)
  | .set p a, junk, _, s => do
    let (itemCount,s) := readIntegral b.host sizeOfContainerSize (junk [] % 2 ^ 16) s
    let (l,s) ← insertItems (readLocal (deserialize b a) a) (p.insert id) junk itemCount [] s
    .ok (p.container l,s)
  | .map p k a, junk, _, s => do
    let (itemCount,s) := readIntegral b.host sizeOfContainerSize (junk [] % 2 ^ 16) s
    let (l,s) ← insertItems (readEntry (readLocal (deserialize b k) k) (readLocal (deserialize b a) a))
      (p.insert Val.first) junk itemCount [] s
    .ok (p.container l,s)
  | .array n a, junk, old, s => do
    let (itemCount,s) := readIntegral b.host sizeOfContainerSize (junk [] % 2 ^ 16) s
    assertThat b.ndebug (itemCount == n)
    let (l,s) ← deserializeItems (deserialize b a) junk old.elements s
    .ok (.items l,s)
  | .serializable _ m, junk, old, s => deserialize b m junk old s

section Completed
variable {b : Build} {a c k : Ty} {p : KeyPolicy} {n : ℕ} {name : String} {junk : Junk} {old v : Val}
  {s s' : IStream}

theorem readEntry_ok {readKey readMapped : Junk → IStream → Result (Val × IStream)}
    (h : readEntry readKey readMapped junk s = .ok (v,s')) :
    ∃ x s1 y, readKey (junk.child 0) s = .ok (x,s1) ∧ readMapped (junk.child 1) s1 = .ok (y,s') ∧
      v = .pair x y := by
  obtain ⟨⟨x,s1⟩,hx,h⟩ := bind_eq_ok.mp h
  obtain ⟨⟨y,s2⟩,hy,h⟩ := bind_eq_ok.mp h
  cases h
  exact ⟨x,s1,y,hx,hy,rfl⟩

theorem deserialize_pair_ok (h : deserialize b (.pair a c) junk old s = .ok (v,s')) :
    ∃ x s1 y, deserialize b a (junk.child 0) old.first s = .ok (x,s1) ∧
      deserialize b c (junk.child 1) old.second s1 = .ok (y,s') ∧ v = .pair x y := by
  obtain ⟨⟨x,s1⟩,hx,h⟩ := bind_eq_ok.mp h
  obtain ⟨⟨y,s2⟩,hy,h⟩ := bind_eq_ok.mp h
  cases h
  exact ⟨x,s1,y,hx,hy,rfl⟩

/-- A value is read behind a flag, or the target is left alone behind a zero. -/
theorem deserialize_optional_ok (h : deserialize b (.optional a) junk old s = .ok (v,s')) :
    (readIntegral b.host 1 (junk [] % 256) s).1 ≠ 0 ∧
        (∃ w, readLocal (deserialize b a) a junk (readIntegral b.host 1 (junk [] % 256) s).2 = .ok (w,s') ∧
          v = .present w) ∨
      (readIntegral b.host 1 (junk [] % 256) s).1 = 0 ∧ v = old ∧
        s' = (readIntegral b.host 1 (junk [] % 256) s).2 := by
  simp only [deserialize] at h
  split at h
  · rename_i hflag
    obtain ⟨⟨w,s1⟩,hw,h⟩ := bind_eq_ok.mp h
    cases h
    exact Or.inl ⟨hflag,w,hw,rfl⟩
  · rename_i hflag
    cases h
    exact Or.inr ⟨not_not.mp hflag,rfl,rfl⟩

theorem deserialize_sequence_ok (h : deserialize b (.sequence name a) junk old s = .ok (v,s')) :
    ∃ l, deserializeItems (deserialize b a) junk
        (resize a (readIntegral b.host sizeOfContainerSize (junk [] % 2 ^ 16) s).1 old.elements)
        (readIntegral b.host sizeOfContainerSize (junk [] % 2 ^ 16) s).2 = .ok (l,s') ∧ v = .items l := by
  obtain ⟨⟨l,s1⟩,hl,h⟩ := bind_eq_ok.mp h
  cases h
  exact ⟨l,hl,rfl⟩

theorem deserialize_set_ok (h : deserialize b (.set p a) junk old s = .ok (v,s')) :
    ∃ l, insertItems (readLocal (deserialize b a) a) (p.insert id) junk
        (readIntegral b.host sizeOfContainerSize (junk [] % 2 ^ 16) s).1 []
        (readIntegral b.host sizeOfContainerSize (junk [] % 2 ^ 16) s).2 = .ok (l,s') ∧
      v = p.container l := by
  obtain ⟨⟨l,s1⟩,hl,h⟩ := bind_eq_ok.mp h
  cases h
  exact ⟨l,hl,rfl⟩

theorem deserialize_map_ok (h : deserialize b (.map p k a) junk old s = .ok (v,s')) :
    ∃ l, insertItems (readEntry (readLocal (deserialize b k) k) (readLocal (deserialize b a) a))
        (p.insert Val.first) junk
        (readIntegral b.host sizeOfContainerSize (junk [] % 2 ^ 16) s).1 []
        (readIntegral b.host sizeOfContainerSize (junk [] % 2 ^ 16) s).2 = .ok (l,s') ∧
      v = p.container l := by
  obtain ⟨⟨l,s1⟩,hl,h⟩ := bind_eq_ok.mp h
  cases h
  exact ⟨l,hl,rfl⟩

theorem deserialize_array_ok (h : deserialize b (.array n a) junk old s = .ok (v,s')) :
    ∃ l, (b.ndebug = true ∨ (readIntegral b.host sizeOfContainerSize (junk [] % 2 ^ 16) s).1 = n) ∧
      deserializeItems (deserialize b a) junk old.elements
        (readIntegral b.host sizeOfContainerSize (junk [] % 2 ^ 16) s).2 = .ok (l,s') ∧ v = .items l := by
  obtain ⟨_,hassert,h⟩ := bind_eq_ok.mp h
  obtain ⟨⟨l,s1⟩,hl,h⟩ := bind_eq_ok.mp h
  cases h
  exact ⟨l,(assertThat_eq_ok.mp hassert).imp_right beq_iff_eq.mp,hl,rfl⟩

end Completed

/-- What happens to the stream when `n` readings each do `R` to it. -/
def Readings (R : IStream → IStream → Prop) : ℕ → IStream → IStream → Prop
  | 0,s,s' => s' = s
  | n + 1,s,s' => ∃ s1, R s s1 ∧ Readings R n s1 s'

section Loops
variable {R : IStream → IStream → Prop} {junk : Junk} {s s' : IStream}

/-- The loop over the items of a container is one reading for each of them. -/
theorem deserializeItems_readings {read : Junk → Val → IStream → Result (Val × IStream)} {P : Val → Prop}
    (h : ∀ junk old s v s', P old → read junk old s = .ok (v,s') → R s s') {olds vs : List Val}
    (hP : ∀ old ∈ olds, P old) (hd : deserializeItems read junk olds s = .ok (vs,s')) :
    Readings R olds.length s s' := by
  induction olds generalizing vs s with
  | nil =>
    cases hd
    exact rfl
  | cons old olds ih =>
    obtain ⟨⟨x,s1⟩,hx,hd⟩ := bind_eq_ok.mp hd
    obtain ⟨⟨xs,s2⟩,hxs,hd⟩ := bind_eq_ok.mp hd
    cases hd
    obtain ⟨hold,holds⟩ := List.forall_mem_cons.mp hP
    exact ⟨s1,h _ old s x s1 hold hx,ih holds hxs⟩

theorem insertItems_readings {read : Junk → IStream → Result (Val × IStream)}
    {insert : Val → List Val → List Val} (h : ∀ junk s v s', read junk s = .ok (v,s') → R s s') {n : ℕ}
    {l l' : List Val} (hd : insertItems read insert junk n l s = .ok (l',s')) : Readings R n s s' := by
  induction n generalizing l s with
  | zero =>
    cases hd
    exact rfl
  | succ n ih =>
    obtain ⟨⟨x,s1⟩,hx,hd⟩ := bind_eq_ok.mp hd
    exact ⟨s1,h _ s x s1 hx,ih hd⟩

end Loops

end BinarySerializer

end Isml
