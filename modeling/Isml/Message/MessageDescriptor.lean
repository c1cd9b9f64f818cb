import Isml.Message.FieldSet

/-! # `MessageDescriptor`

The list of field descriptors a message type was given, with the same index over it
as a field set has over its fields. Every operation that makes or changes descriptors
is here; assignments are between two different objects, as an object assigned to
itself is left alone.
-/
namespace Isml

structure MessageDescriptor where
  type : MessageType
  list : NamedList String FieldDescriptor
  indexed : list.Indexed FieldDescriptor.name

namespace MessageDescriptor

def new (type : MessageType) : MessageDescriptor :=
  ⟨type,NamedList.empty,NamedList.indexed_empty _⟩

def fieldDescriptors (d : MessageDescriptor) : List FieldDescriptor := d.list.toList

def addFieldDescriptor (descriptor : FieldDescriptor) (d : MessageDescriptor) :
    Result MessageDescriptor :=
  match h : NamedList.add descriptor.name descriptor d.list with
  | none => raise (.invalidArgument
      ("Descriptor with same name (" ++ descriptor.name ++ ") has already been registered"))
  | some l => .ok ⟨d.type,l,d.indexed.add h⟩

def registerField (descriptor : FieldDescriptor) (d : MessageDescriptor) :
    Result MessageDescriptor :=
  d.addFieldDescriptor descriptor

def swap (d other : MessageDescriptor) : MessageDescriptor × MessageDescriptor := (other,d)

/-- The list and the index are cleared first, so the old ones do not matter. -/
def copy (_ other : MessageDescriptor) : MessageDescriptor :=
  ⟨other.type,NamedList.copy FieldDescriptor.name FieldDescriptor.clone other.list,
    other.indexed.copy fun _ => rfl⟩

def ofCopy (other : MessageDescriptor) : MessageDescriptor := (new other.type).copy other

def copyAssign (d other : MessageDescriptor) : MessageDescriptor := d.copy other

/-- The new descriptor and what is left of the other. -/
def ofMove (other : MessageDescriptor) : MessageDescriptor × MessageDescriptor :=
  (new other.type).swap other

def moveAssign (d other : MessageDescriptor) : MessageDescriptor × MessageDescriptor := d.swap other

@[simp] theorem fieldDescriptors_new (type : MessageType) : (new type).fieldDescriptors = [] := rfl

theorem names_nodup (d : MessageDescriptor) : (d.fieldDescriptors.map FieldDescriptor.name).Nodup :=
  d.indexed.nodup

/-- A descriptor under a new name goes before the last one. -/
theorem registerField_new (d : MessageDescriptor) {descriptor : FieldDescriptor}
    (h : descriptor.name ∉ d.fieldDescriptors.map FieldDescriptor.name) :
    ∃ d', d.registerField descriptor = .ok d' ∧ d'.type = d.type ∧
      d'.fieldDescriptors = NodeList.insertBeforeLast descriptor d.fieldDescriptors := by
  obtain ⟨l,hl,hlist⟩ := NamedList.add_of_notMem d.indexed h
  unfold registerField addFieldDescriptor
  split
  · rename_i hnone
    rw [hl] at hnone
    cases hnone
  · rename_i l' hsome
    rw [hl] at hsome
    cases hsome
    exact ⟨_,rfl,rfl,hlist⟩

theorem registerField_taken (d : MessageDescriptor) {descriptor : FieldDescriptor}
    (h : descriptor.name ∈ d.fieldDescriptors.map FieldDescriptor.name) :
    d.registerField descriptor = raise (.invalidArgument
      ("Descriptor with same name (" ++ descriptor.name ++ ") has already been registered")) := by
  have hnone := NamedList.add_of_mem d.indexed h
  unfold registerField addFieldDescriptor
  split
  · rfl
  · rename_i l hsome
    rw [hnone] at hsome
    cases hsome

/-- A copy has the descriptors of the original, last to first. -/
theorem fieldDescriptors_copy (d other : MessageDescriptor) :
    (d.copy other).fieldDescriptors = other.fieldDescriptors.reverse := by
  have hid : other.fieldDescriptors.map FieldDescriptor.clone = other.fieldDescriptors :=
    List.map_id' _
  exact (NamedList.toList_copy (fun _ => rfl) other.indexed).trans (congrArg List.reverse hid)

/-- The descriptors of `fields` registered one after the other. -/
def registerFields (fields : List FieldDescriptor) (d : MessageDescriptor) :
    Result MessageDescriptor :=
  fields.foldlM (fun d f => d.registerField f) d

theorem registerFields_new (fields : List FieldDescriptor) (d : MessageDescriptor)
    (h : (d.fieldDescriptors.map FieldDescriptor.name ++ fields.map FieldDescriptor.name).Nodup) :
    ∃ d', d.registerFields fields = .ok d' ∧ d'.type = d.type ∧ d'.fieldDescriptors =
      fields.foldl (fun l f => NodeList.insertBeforeLast f l) d.fieldDescriptors := by
  induction fields generalizing d with
  | nil => exact ⟨d,rfl,rfl,rfl⟩
  | cons f fields ih =>
    obtain ⟨hnew,hrest⟩ := NodeList.nodup_insertBeforeLast h
    obtain ⟨d1,h1,ht1,hl1⟩ := d.registerField_new hnew
    rw [← hl1] at hrest
    obtain ⟨d2,h2,ht2,hl2⟩ := ih d1 hrest
    refine ⟨d2,?_,ht2.trans ht1,?_⟩
    · rw [registerFields, List.foldlM_cons, h1, ok_bind]
      exact h2
    · rw [hl2, hl1, List.foldl_cons]

/-- Registration on a fresh descriptor leaves the first field last. -/
theorem registerFields_fresh (type : MessageType) {fields : List FieldDescriptor}
    (h : (fields.map FieldDescriptor.name).Nodup) :
    ∃ d, (new type).registerFields fields = .ok d ∧ d.type = type ∧
      d.fieldDescriptors = fields.rotate 1 := by
  obtain ⟨d,hd,ht,hl⟩ := registerFields_new fields (new type) (by simpa using h)
  exact ⟨d,hd,ht,hl.trans (NodeList.foldl_insertBeforeLast fields)⟩

end MessageDescriptor

end Isml
