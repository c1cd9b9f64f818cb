import Isml.Message.FieldOrder
import Isml.Serialization.OldContents

/-! # Messages that are read into more than once

The fields of a message are read in place, each over its old value. What two targets of one
descriptor differ in after they were read from the same bytes is what they differed in where the
bytes have an empty optional.
-/
namespace Isml
open ByteOrder StringStream

namespace Field

theorem Matches.symm {f g : Field} (h : f.Matches g) : g.Matches f :=
  ⟨h.descriptor.symm,h.value.symm⟩

theorem Matches.trans {f g k : Field} (h : f.Matches g) (h' : g.Matches k) : f.Matches k :=
  ⟨h.descriptor.trans h'.descriptor,h.value.trans h'.value⟩

/-- A field of the descriptor that `g` was created from, whatever value of its type it has. -/
structure TargetFor (f g : Field) : Prop where
  descriptor : f.toFieldDescriptor = g.toFieldDescriptor
  hasType : g.type.HasType f.value

/-- `BinarySerializer` writes the field, and the counts it writes are right where the decoder uses
them. -/
structure Complete (ndebug : Bool) (g : Field) : Prop where
  supported : CompositeSerializer.supportedBy g.serializers = true
  hasType : g.type.HasType g.value
  counted : BinarySerializer.Counted ndebug g.type g.value

theorem Writable.complete (ndebug : Bool) {g : Field} (h : g.Writable) : g.Complete ndebug :=
  ⟨h.supported,h.hasType,BinarySerializer.counted_of_within ndebug h.hasType h.within⟩

/-- What is left in the field `f` after `g` was read into it. -/
def overlay (f g : Field) : Field := g.set (BinarySerializer.overlay g.type f.value g.value)

/-- `AgreeAtAbsent` for the values of two targets. -/
def AgreeAtAbsent (g f f' : Field) : Prop :=
  BinarySerializer.AgreeAtAbsent g.type g.value f.value f'.value

theorem deserialize_overlay (b : Build) (junk : Junk) {f g : Field} (hf : f.TargetFor g)
    (hg : g.Complete b.ndebug) (r : List Byte) : ∃ f', f.deserialize b junk ⟨g.encoding ++ r,false⟩ =
      .ok (f',⟨r,false⟩) ∧ f'.Matches (f.overlay g) := by
  have hd := hf.descriptor
  obtain ⟨w,hw,hs⟩ := BinarySerializer.deserialize_overlay b g.type junk
    (BinarySerializer.shaped_of_hasType hf.hasType) hg.hasType hg.counted r
  have hsupported : CompositeSerializer.supportedBy f.serializers = true := by
    rw [hd]
    exact hg.supported
  have htype : f.type = g.type := congrArg FieldDescriptor.type hd
  refine ⟨f.set w,?_,⟨hd,hs⟩⟩
  rw [deserialize_supported b junk hsupported, htype]
  exact bind_eq_ok.mpr ⟨_,hw,rfl⟩

theorem matches_overlay_iff {f f' g : Field} (hg : g.type.HasType g.value) (hf : f.TargetFor g)
    (hf' : f'.TargetFor g) : (f.overlay g).Matches (f'.overlay g) ↔ g.AgreeAtAbsent f f' := by
  have hiff := BinarySerializer.same_overlay_iff hg (BinarySerializer.shaped_of_hasType hf.hasType)
    (BinarySerializer.shaped_of_hasType hf'.hasType)
  constructor
  · intro h
    exact hiff.mp h.value
  · intro h
    exact ⟨rfl,hiff.mpr h⟩

end Field

theorem FieldSet.deserializeFields_overlay (b : Build) (junk : Junk) {fs gs : List Field}
    (hfs : List.Forall₂ Field.TargetFor fs gs) (hgs : ∀ g ∈ gs, g.Complete b.ndebug) (r : List Byte) :
    ∃ ws, deserializeFields b junk fs ⟨gs.flatMap Field.encoding ++ r,false⟩ = .ok (ws,⟨r,false⟩) ∧
      List.Forall₂ Field.Matches ws (List.zipWith Field.overlay fs gs) := by
  induction hfs with
  | nil => exact ⟨[],rfl,.nil⟩
  | @cons f g fs gs hf _ ih =>
    obtain ⟨w,hw,hm⟩ := Field.deserialize_overlay b (junk.child fs.length) hf
      (hgs g List.mem_cons_self) (gs.flatMap Field.encoding ++ r)
    obtain ⟨ws,hws,hms⟩ := ih fun g' hg' => hgs g' (List.mem_cons_of_mem g hg')
    refine ⟨w :: ws,?_,.cons hm hms⟩
    simp only [deserializeFields, List.flatMap_cons, List.append_assoc, hw, ok_bind, hws]

namespace Message

def Complete (ndebug : Bool) (m : Message) : Prop := ∀ g ∈ m.fields, g.Complete ndebug

/-- A message whose fields are those of `m`, in the same order, with any values. -/
def TargetFor (target m : Message) : Prop := List.Forall₂ Field.TargetFor target.fields m.fields

def AgreeAtAbsent (m target target' : Message) : Prop :=
  List.Forall₂ (fun g fs => g.AgreeAtAbsent fs.1 fs.2) m.fields (target.fields.zip target'.fields)

theorem deserialize_overlay (b : Build) (junk : Junk) {target m : Message} (ht : target.TargetFor m)
    (hm : m.Complete b.ndebug) (r : List Byte) : ∃ result,
      target.deserialize b junk ⟨m.encoding ++ r,false⟩ = .ok (result,⟨r,false⟩) ∧
      List.Forall₂ Field.Matches result.fields (List.zipWith Field.overlay target.fields m.fields) := by
  obtain ⟨ws,hws,hms⟩ := FieldSet.deserializeFields_overlay b junk ht hm r
  obtain ⟨result,hresult,_,rfl⟩ := deserialize_of_fields hws
  exact ⟨result,hresult,hms⟩

theorem matches_deserialized_iff (b : Build) (junk junk' : Junk) {m target target' : Message}
    (hm : m.Complete b.ndebug) (ht : target.TargetFor m) (ht' : target'.TargetFor m) (r : List Byte) :
    ∃ result result', target.deserialize b junk ⟨m.encoding ++ r,false⟩ = .ok (result,⟨r,false⟩) ∧
      target'.deserialize b junk' ⟨m.encoding ++ r,false⟩ = .ok (result',⟨r,false⟩) ∧
      (List.Forall₂ Field.Matches result.fields result'.fields ↔ m.AgreeAtAbsent target target') := by
  obtain ⟨result,hd,hs⟩ := deserialize_overlay b junk ht hm r
  obtain ⟨result',hd',hs'⟩ := deserialize_overlay b junk' ht' hm r
  have hoverlay := BinarySerializer.forall₂_zipWith_iff (R := Field.Matches)
    (C := fun g fs => g.AgreeAtAbsent fs.1 fs.2) (f := Field.overlay)
    (fun g hg _ _ hf hf' => Field.matches_overlay_iff (hm g hg).hasType hf hf') ht ht'
  refine ⟨result,result',hd,hd',Iff.trans ?_ hoverlay⟩
  have hsymm {fs gs : List Field} (h : List.Forall₂ Field.Matches fs gs) :
      List.Forall₂ Field.Matches gs fs := forall₂_symm_of_mem (fun _ _ _ h => h.symm) h
  have htrans {fs gs ks : List Field} (h : List.Forall₂ Field.Matches fs gs)
      (h' : List.Forall₂ Field.Matches gs ks) : List.Forall₂ Field.Matches fs ks :=
    forall₂_trans_of_mem (fun _ _ _ _ h h' => h.trans h') h h'
  constructor
  · intro h
    exact htrans (htrans (hsymm hs) h) hs'
  · intro h
    exact htrans (htrans hs h) (hsymm hs')

end Message

/-- Two targets with any contents take the same contents from a stream that begins with an encoding
exactly if they agree wherever the encoded value has an empty optional decoded in place: variables
of any type, and messages with the fields of the encoded one. -/
theorem sameContents_iff_agreeAtAbsent (b : Build) (junk junk' : Junk) (r : List Byte) :
    (∀ {t : Ty} {v old old' : Val}, t.HasType v → BinarySerializer.Counted b.ndebug t v →
        t.HasType old → t.HasType old' → ∃ w w',
        BinarySerializer.deserialize b t junk old (IStream.ofBytes (BinarySerializer.encode t v ++ r)) =
          .ok (w,IStream.ofBytes r) ∧
        BinarySerializer.deserialize b t junk' old' (IStream.ofBytes (BinarySerializer.encode t v ++ r)) =
          .ok (w',IStream.ofBytes r) ∧
        (Same w w' ↔ BinarySerializer.AgreeAtAbsent t v old old')) ∧
      ∀ {m target target' : Message}, m.Complete b.ndebug → target.TargetFor m → target'.TargetFor m →
        ∃ result result',
          target.deserialize b junk (IStream.ofBytes (m.encoding ++ r)) =
            .ok (result,IStream.ofBytes r) ∧
          target'.deserialize b junk' (IStream.ofBytes (m.encoding ++ r)) =
            .ok (result',IStream.ofBytes r) ∧
          (List.Forall₂ Field.Matches result.fields result'.fields ↔
            m.AgreeAtAbsent target target') := by
  constructor
  · intro t v old old' ht hw hold hold'
    exact BinarySerializer.same_deserialized_iff b t junk junk' ht hw
      (BinarySerializer.shaped_of_hasType hold) (BinarySerializer.shaped_of_hasType hold') r
  · intro m target target' hm ht ht'
    exact Message.matches_deserialized_iff b junk junk' hm ht ht' r

/-- An empty optional over two different ones, and the message with the fields 1 and 2 over itself. -/
theorem sameContents_iff_agreeAtAbsent_two :
    (∃ w w', BinarySerializer.deserialize ⟨.little,false⟩ (.optional (.integral .int)) (fun _ => 77)
          (.present (.bits 7)) (IStream.ofBytes ([0] ++ [5])) = .ok (w,IStream.ofBytes [5]) ∧
        BinarySerializer.deserialize ⟨.little,false⟩ (.optional (.integral .int)) (fun _ => 78)
          .absent (IStream.ofBytes ([0] ++ [5])) = .ok (w',IStream.ofBytes [5]) ∧
        (Same w w' ↔ BinarySerializer.AgreeAtAbsent (.optional (.integral .int)) .absent
          (.present (.bits 7)) .absent)) ∧
      ∃ m : Message, m.fields = [⟨intDescriptor "a",.bits 1⟩,⟨intDescriptor "b",.bits 2⟩] ∧
        ∃ result result',
          m.deserialize ⟨.little,false⟩ (fun _ => 77) (IStream.ofBytes (m.encoding ++ [5])) =
            .ok (result,IStream.ofBytes [5]) ∧
          m.deserialize ⟨.little,false⟩ (fun _ => 78) (IStream.ofBytes (m.encoding ++ [5])) =
            .ok (result',IStream.ofBytes [5]) ∧
          (List.Forall₂ Field.Matches result.fields result'.fields ↔ m.AgreeAtAbsent m m) := by
  obtain ⟨hvalue,hmessage⟩ :=
    sameContents_iff_agreeAtAbsent ⟨.little,false⟩ (fun _ => 77) (fun _ => 78) [5]
  constructor
  · refine @hvalue (.optional (.integral .int)) .absent (.present (.bits 7)) .absent (Or.inl rfl)
      (fun w hw => ?_) (Or.inr ⟨.bits 7,rfl,7,rfl,by decide⟩) (Or.inl rfl)
    cases hw
  · obtain ⟨_,m,_,_,he,hfields⟩ := exists_two_ints
    have hw : m.Writable := by
      intro f hf
      refine ⟨(he f hf).supported,(he f hf).hasType,?_⟩
      rw [hfields] at hf
      rcases List.mem_cons.mp hf with rfl | hf
      · trivial
      · rw [List.mem_singleton.mp hf]
        trivial
    have htarget : m.TargetFor m := List.forall₂_same.mpr fun f hf => ⟨rfl,(he f hf).hasType⟩
    exact ⟨m,hfields,hmessage (fun f hf => (hw f hf).complete false) htarget htarget⟩

/-- The encoding of an empty optional leaves 7 in a variable that holds it, and leaves an empty
one empty. -/
theorem not_sameContents_optional : ∃ w w',
    BinarySerializer.deserialize ⟨.little,false⟩ (.optional (.integral .int)) (fun _ => 0)
        (.present (.bits 7)) (IStream.ofBytes (BinarySerializer.encode (.optional (.integral .int)) .absent)) =
      .ok (w,IStream.ofBytes []) ∧
    BinarySerializer.deserialize ⟨.little,false⟩ (.optional (.integral .int)) (fun _ => 0)
        .absent (IStream.ofBytes (BinarySerializer.encode (.optional (.integral .int)) .absent)) =
      .ok (w',IStream.ofBytes []) ∧
    w = .present (.bits 7) ∧ w' = .absent ∧ ¬ Same w w' := by
  refine ⟨_,_,rfl,rfl,rfl,rfl,fun h => ?_⟩
  cases h

end Isml
