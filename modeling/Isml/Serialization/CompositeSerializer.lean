import Isml.Serialization.BinaryRoundTrip

/-! # `CompositeSerializer`

A field names the serializers it can be written with. Messages travel in contexts
made for `BinarySerializer`, so that is the only tag a context has here; what the
other serializers do is not modelled.
-/
namespace Isml
open ByteOrder StringStream

/-- `SerializerTag<Serializer>`. -/
inductive SerializerTag where
  | binary
  | other (name : String)
  deriving DecidableEq, Repr

/-- The template arguments of a `CompositeSerializer`. -/
structure SerializerPack where
  tags : List SerializerTag
  nodup : tags.Nodup
  deriving DecidableEq

namespace CompositeSerializer

def supportedBy (p : SerializerPack) : Bool := p.tags.any fun tag => decide (tag = .binary)

def serializeUsing (b : Build) (t : Ty) (v : Val) (tag : SerializerTag) (out : OStream) :
    Result OStream :=
  if tag = .binary then BinarySerializer.serialize b t v out else .ok out

def serialize (b : Build) (p : SerializerPack) (t : Ty) (v : Val) (out : OStream) :
    Result OStream :=
  if !supportedBy p then raise (.io "Serializer is not supported")
  else p.tags.foldlM (fun out tag => serializeUsing b t v tag out) out

def deserializeUsing (b : Build) (t : Ty) (junk : Junk) (tag : SerializerTag)
    (r : Val × IStream) : Result (Val × IStream) :=
  if tag = .binary then BinarySerializer.deserialize b t junk r.1 r.2 else .ok r

def deserialize (b : Build) (p : SerializerPack) (t : Ty) (junk : Junk) (old : Val)
    (s : IStream) : Result (Val × IStream) :=
  if !supportedBy p then raise (.io "Serializer is not supported")
  else p.tags.foldlM (fun r tag => deserializeUsing b t junk tag r) (old,s)

theorem supportedBy_iff (p : SerializerPack) : supportedBy p = true ↔ .binary ∈ p.tags := by
  simp [supportedBy]

theorem foldlM_skip {σ : Type} {f : σ → SerializerTag → Result σ}
    (hskip : ∀ s tag, tag ≠ .binary → f s tag = .ok s) {tags : List SerializerTag}
    (h : .binary ∉ tags) (s : σ) : tags.foldlM f s = .ok s := by
  induction tags with
  | nil => rfl
  | cons tag tags ih =>
    rw [List.mem_cons, not_or] at h
    rw [List.foldlM_cons, hskip s tag (Ne.symm h.1), ok_bind, ih h.2]

/-- A fold that acts at one tag alone acts once, because no tag is there twice. -/
theorem foldlM_once {σ : Type} {f : σ → SerializerTag → Result σ}
    (hskip : ∀ s tag, tag ≠ .binary → f s tag = .ok s) {tags : List SerializerTag}
    (hnd : tags.Nodup) (h : .binary ∈ tags) (s : σ) : tags.foldlM f s = f s .binary := by
  obtain ⟨xs,ys,rfl⟩ := List.append_of_mem h
  rw [List.nodup_append] at hnd
  obtain ⟨_,hys,hdis⟩ := hnd
  have hxs : .binary ∉ xs := fun hx => hdis .binary hx .binary List.mem_cons_self rfl
  rw [List.foldlM_append, foldlM_skip hskip hxs, ok_bind, List.foldlM_cons]
  cases f s .binary with
  | error e => rfl
  | ok s' => exact foldlM_skip hskip (List.nodup_cons.mp hys).1 s'

theorem serialize_binary (b : Build) {p : SerializerPack} (hp : supportedBy p = true) (t : Ty)
    (v : Val) (out : OStream) : serialize b p t v out = BinarySerializer.serialize b t v out := by
  unfold serialize
  rw [hp, Bool.not_true, if_neg Bool.false_ne_true]
  refine (foldlM_once ?_ p.nodup ((supportedBy_iff p).mp hp) out).trans (if_pos rfl)
  intro s tag hne
  exact if_neg hne

theorem deserialize_binary (b : Build) {p : SerializerPack} (hp : supportedBy p = true) (t : Ty)
    (junk : Junk) (old : Val) (s : IStream) :
    deserialize b p t junk old s = BinarySerializer.deserialize b t junk old s := by
  unfold deserialize
  rw [hp, Bool.not_true, if_neg Bool.false_ne_true]
  refine (foldlM_once ?_ p.nodup ((supportedBy_iff p).mp hp) (old,s)).trans (if_pos rfl)
  intro r tag hne
  exact if_neg hne

theorem serialize_unsupported (b : Build) {p : SerializerPack} (hp : supportedBy p = false)
    (t : Ty) (v : Val) (out : OStream) :
    serialize b p t v out = raise (.io "Serializer is not supported") := by
  unfold serialize
  rw [hp, Bool.not_false, if_pos rfl]

theorem deserialize_unsupported (b : Build) {p : SerializerPack} (hp : supportedBy p = false)
    (t : Ty) (junk : Junk) (old : Val) (s : IStream) :
    deserialize b p t junk old s = raise (.io "Serializer is not supported") := by
  unfold deserialize
  rw [hp, Bool.not_false, if_pos rfl]

end CompositeSerializer

end Isml
