import Isml.Library.ByteOrder

/-! # Reading from a string stream

Only what unformatted reads use of `std::stringstream` is kept: the unread bytes
and the fail bit. A read that asks for more than is left stores the bytes there
are over the front of its destination and sets the fail bit; from then on every
read stores nothing.
-/
namespace StringStream
open ByteOrder

structure IStream where
  rest : List Byte
  failed : Bool
  deriving DecidableEq, Repr

/-- A stream whose whole contents are still to be read. -/
def IStream.ofBytes (bytes : List Byte) : IStream := ⟨bytes, false⟩

/-- `stream.read(dest, n)`, with the old contents of the destination given and the
new ones returned. -/
def IStream.read (s : IStream) (n : ℕ) (dest : List Byte) : List Byte × IStream :=
  if s.failed then (dest, s)
  else if n ≤ s.rest.length then (s.rest.take n, ⟨s.rest.drop n, false⟩)
  else (s.rest ++ dest.drop s.rest.length, ⟨[], true⟩)

/-- The number of bytes the next reads can still obtain. -/
def IStream.available (s : IStream) : ℕ := if s.failed then 0 else s.rest.length

@[simp] theorem available_ofBytes (bytes : List Byte) :
    (IStream.ofBytes bytes).available = bytes.length := rfl

theorem available_of_failed {s : IStream} (h : s.failed = true) : s.available = 0 := by
  simp [IStream.available, h]

theorem read_append {xs : List Byte} {n : ℕ} (hn : xs.length = n) (r dest : List Byte) :
    (⟨xs ++ r, false⟩ : IStream).read n dest = (xs, ⟨r, false⟩) := by
  subst hn
  simp [IStream.read]

theorem read_of_failed {s : IStream} (h : s.failed = true) (n : ℕ) (dest : List Byte) :
    s.read n dest = (dest, s) := by
  simp [IStream.read, h]

theorem read_length {s : IStream} {n : ℕ} {dest : List Byte} (hd : dest.length = n) :
    (s.read n dest).1.length = n := by
  unfold IStream.read
  split
  · exact hd
  · split
    · simpa using ‹n ≤ s.rest.length›
    · simp only [List.length_append, List.length_drop]
      omega

/-- A read either obtains all its bytes and leaves the others, or obtains too few
and leaves the stream failed. -/
theorem read_available (s : IStream) (n : ℕ) (dest : List Byte) :
    ((s.read n dest).2.failed = false ∧ s.available = n + (s.read n dest).2.available) ∨
      ((s.read n dest).2.failed = true ∧ (s.failed = false → s.available < n)) := by
  unfold IStream.read IStream.available
  cases hf : s.failed with
  | true => right; simp [hf]
  | false =>
    by_cases hn : n ≤ s.rest.length
    · left; simp [hn]
    · right; simp [hn]; omega

theorem not_failed_of_read {s : IStream} {n : ℕ} {dest : List Byte}
    (h : (s.read n dest).2.failed = false) : s.failed = false := by
  cases hf : s.failed with
  | false => rfl
  | true => rw [read_of_failed hf] at h; exact hf.symm.trans h

/-- The bytes that are left of a stream no read of which has failed. -/
def IStream.left (s : IStream) : Option (List Byte) := if s.failed then none else some s.rest

theorem left_eq_some {s : IStream} {bytes : List Byte} : s.left = some bytes ↔ s = ⟨bytes,false⟩ := by
  rcases s with ⟨rest,failed⟩
  cases failed <;> simp [IStream.left]

/-- A read that obtains its bytes takes them away, any other leaves nothing to be read. -/
theorem left_read (s : IStream) (n : ℕ) (dest : List Byte) :
    (s.read n dest).2.left =
      s.left.bind fun bytes => if n ≤ bytes.length then some (bytes.drop n) else none := by
  unfold IStream.read IStream.left
  cases hf : s.failed with
  | true => simp [hf]
  | false => by_cases hn : n ≤ s.rest.length <;> simp [hn]

/-- `s'` is what is left of `s` after reads of at least `n` bytes. -/
def Consumed (n : ℕ) (s s' : IStream) : Prop :=
  s'.failed = false → s.failed = false ∧ n + s'.available ≤ s.available

theorem Consumed.refl (s : IStream) : Consumed 0 s s := fun h => ⟨h,by omega⟩

theorem Consumed.mono {m n : ℕ} {s s' : IStream} (h : Consumed n s s') (hm : m ≤ n) :
    Consumed m s s' := by
  intro hs'
  obtain ⟨hs,hle⟩ := h hs'
  exact ⟨hs,by omega⟩

theorem Consumed.trans {m n : ℕ} {s s' s'' : IStream} (h : Consumed m s s')
    (h' : Consumed n s' s'') : Consumed (m + n) s s'' := by
  intro hs''
  obtain ⟨hs',hle'⟩ := h' hs''
  obtain ⟨hs,hle⟩ := h hs'
  exact ⟨hs,by omega⟩

theorem consumed_read (s : IStream) (n : ℕ) (dest : List Byte) :
    Consumed n s (s.read n dest).2 := by
  intro hs'
  rcases read_available s n dest with ⟨_,ha⟩ | ⟨hf,_⟩
  · exact ⟨not_failed_of_read hs',by omega⟩
  · rw [hf] at hs'
    cases hs'

/-- With too little for two readings, the first or the second of them finds too little. -/
theorem Consumed.short {m n : ℕ} {s s' : IStream} (h : Consumed m s s') (hn : 0 < n)
    (hs : s.available < m + n) : s'.available < n := by
  cases hf : s'.failed with
  | true => rwa [available_of_failed hf]
  | false =>
    obtain ⟨_,hle⟩ := h hf
    omega

/-- A short read keeps the top bytes of its destination: the bytes that are missing
are the last ones of the `n`. -/
theorem read_short {s : IStream} {n : ℕ} {dest : List Byte} (hs : s.available < n) :
    (s.read n dest).2.failed = true ∧ ∃ low, low.length < n ∧
      (s.read n dest).1 = low ++ dest.drop low.length := by
  unfold IStream.read IStream.available at *
  cases hf : s.failed with
  | true =>
    refine ⟨by simpa using hf, [], ?_, by simp⟩
    simp only [hf, ↓reduceIte] at hs
    simpa using hs
  | false =>
    simp only [hf, Bool.false_eq_true, ↓reduceIte] at hs ⊢
    rw [if_neg (by omega)]
    exact ⟨rfl, s.rest, hs, rfl⟩

theorem getLast?_read_short {s : IStream} {n : ℕ} {dest : List Byte} (hd : dest.length = n)
    (hs : s.available < n) : (s.read n dest).1.getLast? = dest.getLast? := by
  obtain ⟨_,low,hlow,he⟩ := @read_short s n dest hs
  have hne : dest.drop low.length ≠ [] := by
    intro hnil
    rw [List.drop_eq_nil_iff] at hnil
    omega
  rw [he, List.getLast?_append_of_ne_nil _ hne, List.getLast?_drop, if_neg (by omega)]

end StringStream
