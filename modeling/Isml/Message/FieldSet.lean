import Isml.Library.NodeList
import Isml.Serialization.CompositeSerializer

/-! # Fields and `FieldSet`

A field has a value of the type its descriptor names. A `FieldSet` keeps its fields
in a list, which is the order they are serialized in, and finds them by name; the
two agree in every set that can be built.
-/
namespace Isml
open ByteOrder StringStream

/-- `ValueFieldDescriptor<T, CompositeSerializer<...>>`. -/
structure FieldDescriptor where
  name : String
  type : Ty
  serializers : SerializerPack

/-- `ValueField<T, CompositeSerializer<...>>`. -/
structure Field extends FieldDescriptor where
  value : Val

namespace FieldDescriptor

def createField (d : FieldDescriptor) : Field := ⟨d,d.type.default⟩

def clone (d : FieldDescriptor) : FieldDescriptor := ⟨d.name,d.type,d.serializers⟩

end FieldDescriptor

namespace Field

def clone (f : Field) : Field := ⟨f.toFieldDescriptor,f.value⟩

def set (f : Field) (v : Val) : Field := ⟨f.toFieldDescriptor,v⟩

def valueType (f : Field) : String := f.type.name

def serialize (b : Build) (f : Field) (out : OStream) : Result OStream :=
  CompositeSerializer.serialize b f.serializers f.type f.value out

def deserialize (b : Build) (junk : Junk) (f : Field) (s : IStream) : Result (Field × IStream) := do
  let (v,s) ← CompositeSerializer.deserialize b f.serializers f.type junk f.value s
  .ok (f.set v,s)

def serializedSize (f : Field) : ℕ := BinarySerializer.size f.type f.value

/-- What the field contributes to the bytes of a message. -/
def encoding (f : Field) : List Byte := BinarySerializer.encode f.type f.value

/-- `BinarySerializer` is among the serializers of the field, its value is one of its
type, and no container in it exceeds `max_container_size`. -/
structure Encodable (f : Field) : Prop where
  supported : CompositeSerializer.supportedBy f.serializers = true
  hasType : f.type.HasType f.value
  sized : f.type.Within BinarySerializer.maxContainerSize.toNat f.value

/-- The 16-bit counts can hold the sizes of the containers as well. -/
structure Writable (f : Field) : Prop where
  supported : CompositeSerializer.supportedBy f.serializers = true
  hasType : f.type.HasType f.value
  within : f.type.Within 65535 f.value

theorem Writable.encodable {f : Field} (h : f.Writable) : f.Encodable :=
  ⟨h.supported,h.hasType,BinarySerializer.within_maxContainerSize h.within⟩

/-- Fields of one descriptor with the same contents. -/
structure Matches (f g : Field) : Prop where
  descriptor : f.toFieldDescriptor = g.toFieldDescriptor
  value : Same f.value g.value

theorem encoding_length (f : Field) : f.encoding.length = f.serializedSize :=
  BinarySerializer.encode_length f.type f.value

theorem serialize_eq (b : Build) {f : Field} (h : f.Encodable) (out : OStream) :
    f.serialize b out = .ok (out ++ f.encoding) := by
  unfold serialize
  rw [CompositeSerializer.serialize_binary b h.supported]
  exact BinarySerializer.serialize_eq b f.type h.hasType h.sized out

theorem serialize_length {b : Build} {f : Field} {out out' : OStream}
    (h : f.serialize b out = .ok out') : out'.length = out.length + f.serializedSize := by
  unfold serialize at h
  cases hs : CompositeSerializer.supportedBy f.serializers with
  | false =>
    rw [CompositeSerializer.serialize_unsupported b hs] at h
    cases h
  | true =>
    rw [CompositeSerializer.serialize_binary b hs] at h
    exact BinarySerializer.serialize_length h

theorem deserialize_supported (b : Build) (junk : Junk) {f : Field}
    (h : CompositeSerializer.supportedBy f.serializers = true) (s : IStream) :
    f.deserialize b junk s = (do
      let (v,s) ← BinarySerializer.deserialize b f.type junk f.value s
      .ok (f.set v,s)) := by
  unfold deserialize
  rw [CompositeSerializer.deserialize_binary b h]

/-- A newly created field of the same descriptor reads the value back. -/
theorem deserialize_encoding (b : Build) (junk : Junk) {f : Field} (h : f.Writable) (r : List Byte) :
    ∃ g, f.toFieldDescriptor.createField.deserialize b junk ⟨f.encoding ++ r,false⟩ =
      .ok (g,⟨r,false⟩) ∧ g.Matches f := by
  obtain ⟨w,hw,hs⟩ := BinarySerializer.deserialize_encode b f.type junk
    (BinarySerializer.fresh_default f.type) h.hasType h.within r
  refine ⟨f.toFieldDescriptor.createField.set w,?_,⟨rfl,hs⟩⟩
  have hd := deserialize_supported b junk (f := f.toFieldDescriptor.createField) h.supported
  exact (hd _).trans (bind_eq_ok.mpr ⟨_,hw,rfl⟩)

theorem deserialize_eq_ok {b : Build} {junk : Junk} {f g : Field} {s s' : IStream}
    (h : f.deserialize b junk s = .ok (g,s')) :
    CompositeSerializer.supportedBy f.serializers = true ∧ ∃ v,
      BinarySerializer.deserialize b f.type junk f.value s = .ok (v,s') ∧ g = f.set v := by
  cases hs : CompositeSerializer.supportedBy f.serializers with
  | false =>
    unfold deserialize at h
    rw [CompositeSerializer.deserialize_unsupported b hs] at h
    cases h
  | true =>
    rw [deserialize_supported b junk hs] at h
    obtain ⟨⟨v,s1⟩,hv,h⟩ := bind_eq_ok.mp h
    cases h
    exact ⟨rfl,v,hv,rfl⟩

theorem deserialize_descriptor {b : Build} {junk : Junk} {f g : Field} {s s' : IStream}
    (h : f.deserialize b junk s = .ok (g,s')) : g.toFieldDescriptor = f.toFieldDescriptor := by
  obtain ⟨⟨v,s''⟩,_,hg⟩ := bind_eq_ok.mp h
  cases hg
  rfl

end Field

structure FieldSet where
  list : NamedList String Field
  indexed : list.Indexed fun f => f.name

namespace FieldSet

def empty : FieldSet := ⟨NamedList.empty,NamedList.indexed_empty _⟩

def toList (s : FieldSet) : List Field := s.list.toList

def add (field : Field) (s : FieldSet) : Bool × FieldSet :=
  match h : NamedList.add field.name field s.list with
  | none => (false,s)
  | some l => (true,⟨l,s.indexed.add h⟩)

def contains (s : FieldSet) (name : String) : Bool := decide (name ∈ s.list.byName)

def get (s : FieldSet) (name : String) : Option Field := s.list.get name

/-- `contains<T>(name)`. -/
def containsOf (t : Ty) (s : FieldSet) (name : String) : Bool :=
  if !s.contains name then false else (s.get name).any fun field => field.valueType == t.name

/-- `get<T>(name)`. -/
def getOf (t : Ty) (s : FieldSet) (name : String) : Option Field :=
  if s.containsOf t name then s.get name else none

def swap (s other : FieldSet) : FieldSet × FieldSet := (other,s)

def clear (_ : FieldSet) : FieldSet := empty

/-- The copying loop starts from the cleared set, whatever was in it. -/
def assign (_ other : FieldSet) : FieldSet :=
  ⟨NamedList.copy (fun f => f.name) Field.clone other.list,other.indexed.copy fun _ => rfl⟩

def ofCopy (other : FieldSet) : FieldSet := empty.assign other

/-- The new set and what is left of the other. -/
def ofMove (other : FieldSet) : FieldSet × FieldSet := empty.swap other

/-- `operator=` between two different sets. -/
def copyAssign (s other : FieldSet) : FieldSet := s.assign other

def moveAssign (s other : FieldSet) : FieldSet × FieldSet := s.swap other

def size (s : FieldSet) : ℕ := s.toList.length

/-- `s.empty()`. -/
def isEmpty (s : FieldSet) : Bool := s.toList.isEmpty

/-- New values for all fields, in the order of the list. -/
def withFields (s : FieldSet) (fields : List Field)
    (h : fields.map (fun f => f.name) = s.toList.map fun f => f.name) : FieldSet :=
  ⟨s.list.withContents fields,s.indexed.withContents h⟩

/-- Every field set to the value given for its name. -/
def fill (values : String → Val) (s : FieldSet) : FieldSet :=
  s.withFields (s.toList.map fun f => f.set (values f.name)) (by simp [Field.set])

/-- `s.get<T>(name)->set(v)`, when there is such a field. -/
def setOf (t : Ty) (name : String) (v : Val) (s : FieldSet) : Option FieldSet :=
  if s.containsOf t name then
    some (s.withFields (s.toList.map fun f => if f.name = name then f.set v else f) (by
      rw [List.map_map]
      refine List.map_congr_left fun f _ => ?_
      by_cases h : f.name = name <;> simp [h, Field.set]))
  else none

def serialize (b : Build) (s : FieldSet) (out : OStream) : Result OStream :=
  s.toList.foldlM (fun out field => field.serialize b out) out

def deserializeFields (b : Build) (junk : Junk) :
    List Field → IStream → Result (List Field × IStream)
  | [], s => .ok ([],s)
  | f :: fs, s => do
    let (f,s) ← f.deserialize b (junk.child fs.length) s
    let (fs,s) ← deserializeFields b junk fs s
    .ok (f :: fs,s)

theorem deserializeFields_descriptors {b : Build} {junk : Junk} {fs gs : List Field}
    {s s' : IStream} (h : deserializeFields b junk fs s = .ok (gs,s')) :
    gs.map Field.toFieldDescriptor = fs.map Field.toFieldDescriptor := by
  induction fs generalizing gs s with
  | nil => cases h; rfl
  | cons f fs ih =>
    obtain ⟨⟨g,s1⟩,hf,h⟩ := bind_eq_ok.mp h
    obtain ⟨⟨gs',s2⟩,hfs,h⟩ := bind_eq_ok.mp h
    cases h
    rw [List.map_cons, List.map_cons, Field.deserialize_descriptor hf, ih hfs]

theorem names_of_descriptors {fs gs : List Field}
    (h : gs.map Field.toFieldDescriptor = fs.map Field.toFieldDescriptor) :
    gs.map (fun f => f.name) = fs.map fun f => f.name := by
  have hn := congrArg (List.map FieldDescriptor.name) h
  rwa [List.map_map, List.map_map] at hn

def deserialize (b : Build) (junk : Junk) (s : FieldSet) (stream : IStream) :
    Result (FieldSet × IStream) :=
  match h : deserializeFields b junk s.toList stream with
  | .ok (fields,stream) =>
    .ok (s.withFields fields (names_of_descriptors (deserializeFields_descriptors h)),stream)
  | .error e => .error e

def serializedSize (s : FieldSet) : ℕ := (s.toList.map Field.serializedSize).sum

@[simp] theorem toList_empty : empty.toList = [] := rfl

theorem names_nodup (s : FieldSet) : (s.toList.map fun f => f.name).Nodup := s.indexed.nodup

theorem toList_withFields (s : FieldSet) {fields : List Field}
    (h : fields.map (fun f => f.name) = s.toList.map fun f => f.name) :
    (s.withFields fields h).toList = fields := by
  have hlen : fields.length = s.toList.length := by simpa using congrArg List.length h
  exact NodeList.toList_withContents s.list.items hlen

@[simp] theorem toList_fill (values : String → Val) (s : FieldSet) :
    (s.fill values).toList = s.toList.map fun f => f.set (values f.name) :=
  s.toList_withFields _

/-- A field under a new name goes before the last one. -/
theorem add_new (s : FieldSet) {field : Field} (h : field.name ∉ s.toList.map fun f => f.name) :
    (s.add field).1 = true ∧ (s.add field).2.toList = NodeList.insertBeforeLast field s.toList := by
  obtain ⟨l,hl,hlist⟩ := NamedList.add_of_notMem s.indexed h
  unfold add
  split
  · rename_i hnone
    rw [hl] at hnone
    cases hnone
  · rename_i l' hsome
    rw [hl] at hsome
    cases hsome
    exact ⟨rfl,hlist⟩

/-- A field under a name that is taken is refused and changes nothing. -/
theorem add_taken (s : FieldSet) {field : Field} (h : field.name ∈ s.toList.map fun f => f.name) :
    s.add field = (false,s) := by
  have hnone := NamedList.add_of_mem s.indexed h
  unfold add
  split
  · rfl
  · rename_i l hsome
    rw [hnone] at hsome
    cases hsome

theorem foldl_add (fs : List Field) {s : FieldSet}
    (h : (s.toList.map (fun f => f.name) ++ fs.map fun f => f.name).Nodup) :
    (fs.foldl (fun s f => (s.add f).2) s).toList =
      fs.foldl (fun l f => NodeList.insertBeforeLast f l) s.toList := by
  induction fs generalizing s with
  | nil => rfl
  | cons f fs ih =>
    obtain ⟨hnew,hrest⟩ := NodeList.nodup_insertBeforeLast h
    obtain ⟨_,hlist⟩ := s.add_new hnew
    rw [List.foldl_cons, List.foldl_cons, ← hlist]
    apply ih
    rw [hlist]
    exact hrest

/-- A field for each of the descriptors, added in this order to an empty set. -/
def addFields (fs : List FieldDescriptor) : FieldSet :=
  fs.foldl (fun s descriptor => (s.add descriptor.createField).2) empty

theorem toList_addFields {fs : List FieldDescriptor} (hnd : (fs.map FieldDescriptor.name).Nodup) :
    (addFields fs).toList = (fs.map FieldDescriptor.createField).rotate 1 := by
  have hnames : (fs.map FieldDescriptor.createField).map (fun f => f.name) =
      fs.map FieldDescriptor.name := List.map_map ..
  have hadd := foldl_add (fs.map FieldDescriptor.createField) (s := empty)
    (by simpa [hnames] using hnd)
  rw [List.foldl_map] at hadd
  exact hadd.trans (NodeList.foldl_insertBeforeLast _)

/-- A copied set has the fields of the original, last to first. -/
theorem toList_assign (s other : FieldSet) : (s.assign other).toList = other.toList.reverse := by
  have hid : other.toList.map Field.clone = other.toList := List.map_id' _
  exact (NamedList.toList_copy (fun _ => rfl) other.indexed).trans (congrArg List.reverse hid)

theorem get_eq_find (s : FieldSet) (name : String) :
    s.get name = s.toList.find? fun f => f.name = name :=
  s.indexed.get_eq_find name

theorem get_eq_some_iff (s : FieldSet) {name : String} {f : Field} :
    s.get name = some f ↔ f ∈ s.toList ∧ f.name = name :=
  s.indexed.get_eq_some_iff

/-- The order of the fields does not matter to a search by name. -/
theorem get_congr {s s' : FieldSet} (h : ∀ f, f ∈ s'.toList ↔ f ∈ s.toList) (name : String) :
    s'.get name = s.get name := by
  apply Option.ext
  intro f
  rw [get_eq_some_iff, get_eq_some_iff, h]

theorem contains_iff (s : FieldSet) (name : String) :
    s.contains name = true ↔ name ∈ s.toList.map fun f => f.name :=
  decide_eq_true_iff.trans (s.indexed.mem_byName name)

/-- Setting one field is filling the set with the old values but one. -/
theorem setOf_eq_fill {t : Ty} {name : String} {v : Val} {s s' : FieldSet}
    (h : s.setOf t name v = some s') : ∃ values, s' = s.fill values := by
  let values (n : String) : Val := if n = name then v else ((s.get n).map Field.value).getD v
  have hfields : (s.toList.map fun f => if f.name = name then f.set v else f) =
      s.toList.map fun f => f.set (values f.name) := by
    refine List.map_congr_left fun f hf => ?_
    by_cases hname : f.name = name
    · simp [values, hname]
    · have hget := s.get_eq_some_iff.mpr ⟨hf,rfl⟩
      simp [values, hname, hget, Field.set]
  refine ⟨values,?_⟩
  unfold setOf at h
  split at h
  · cases h
    unfold fill
    congr 1
  · cases h

theorem serialize_eq (b : Build) {s : FieldSet} (h : ∀ f ∈ s.toList, f.Encodable) (out : OStream) :
    s.serialize b out = .ok (out ++ s.toList.flatMap Field.encoding) :=
  BinarySerializer.foldlM_append (fun f hf out => Field.serialize_eq b (h f hf) out) out

theorem encoding_length (s : FieldSet) :
    (s.toList.flatMap Field.encoding).length = s.serializedSize :=
  BinarySerializer.flatMap_length fun f _ => Field.encoding_length f

theorem serialize_length {b : Build} {s : FieldSet} {out out' : OStream}
    (h : s.serialize b out = .ok out') : out'.length = out.length + s.serializedSize :=
  BinarySerializer.foldlM_length (fun _ _ _ _ hf => Field.serialize_length hf) h

/-- Newly created fields of the same descriptors, in the same order, read the values
back one after the other. -/
theorem deserializeFields_encoding (b : Build) (junk : Junk) {fs : List Field}
    (h : ∀ f ∈ fs, f.Writable) (r : List Byte) :
    ∃ gs, deserializeFields b junk (fs.map fun f => f.toFieldDescriptor.createField)
        ⟨fs.flatMap Field.encoding ++ r,false⟩ = .ok (gs,⟨r,false⟩) ∧
      List.Forall₂ Field.Matches gs fs := by
  induction fs with
  | nil => exact ⟨[],rfl,.nil⟩
  | cons f fs ih =>
    obtain ⟨g,hg,hm⟩ := Field.deserialize_encoding b (junk.child fs.length)
      (h f List.mem_cons_self) (fs.flatMap Field.encoding ++ r)
    obtain ⟨gs,hgs,hms⟩ := ih fun f' hf' => h f' (List.mem_cons_of_mem f hf')
    refine ⟨g :: gs,?_,.cons hm hms⟩
    simp only [List.map_cons, deserializeFields, List.length_map, List.flatMap_cons,
      List.append_assoc, hg, ok_bind, hgs]

theorem deserialize_eq (b : Build) (junk : Junk) (s : FieldSet) (stream : IStream) :
    (∃ e, deserializeFields b junk s.toList stream = .error e ∧
        s.deserialize b junk stream = .error e) ∨
      ∃ fields stream' s', deserializeFields b junk s.toList stream = .ok (fields,stream') ∧
        s.deserialize b junk stream = .ok (s',stream') ∧ s'.toList = fields := by
  unfold deserialize
  split
  · rename_i fields stream' h
    exact Or.inr ⟨fields,stream',_,h,rfl,s.toList_withFields _⟩
  · rename_i e h
    exact Or.inl ⟨e,h,rfl⟩

theorem find_matches {gs fs : List Field} (h : List.Forall₂ Field.Matches gs fs) (name : String) :
    Option.Rel Field.Matches (gs.find? fun f => f.name = name) (fs.find? fun f => f.name = name) := by
  induction h with
  | nil => exact .none
  | @cons g f gs fs hm _ ih =>
    have hname : g.name = f.name := congrArg FieldDescriptor.name hm.descriptor
    by_cases he : f.name = name
    · rw [List.find?_cons_of_pos (by simpa [hname] using he),
        List.find?_cons_of_pos (by simpa using he)]
      exact .some hm
    · rw [List.find?_cons_of_neg (by simpa [hname] using he),
        List.find?_cons_of_neg (by simpa using he)]
      exact ih

theorem get_matches {s s' : FieldSet} (h : List.Forall₂ Field.Matches s'.toList s.toList)
    (name : String) : Option.Rel Field.Matches (s'.get name) (s.get name) := by
  rw [get_eq_find, get_eq_find]
  exact find_matches h name

end FieldSet

end Isml
