import Isml.Library.NamedMap
import Isml.Library.ObjectStore
import Isml.Message.Message

/-! # The fields of a message are those of its descriptor

Descriptors under any number of names are registered on, copied, moved and swapped.
What each of them registers, names with the types of their values, is a finite map;
a message constructed from the descriptor has a field for each name in the map and
no other, as no addition in its constructor is refused.
-/
namespace Isml
open ObjectClass (Op)

namespace MessageDescriptor

/-- A construction replaces an object whose lifetime is over. -/
inductive Method
  | new (type : MessageType)
  | registerField (descriptor : FieldDescriptor)

end MessageDescriptor

/-- What a descriptor is for: a message type and what is registered under each name. -/
abbrev MessageShape := MessageType × Finmap fun _ : String => FieldDescriptor

namespace MessageShape

def registerField (descriptor : FieldDescriptor) (m : MessageShape) : Result MessageShape :=
  if descriptor.name ∈ m.2 then
    raise (.invalidArgument
      ("Descriptor with same name (" ++ descriptor.name ++ ") has already been registered"))
  else .ok (m.1,m.2.insert descriptor.name descriptor)

def call : MessageDescriptor.Method → MessageShape → Option Fault × MessageShape
  | .new type,_ => (none,(type,∅))
  | .registerField descriptor,m =>
    match m.registerField descriptor with
    | .ok m' => (none,m')
    | .error e => (some e,m)

def objects : ObjectClass MessageDescriptor.Method Fault MessageShape where
  call := call
  ofCopy m := m
  copyAssign _ m := m
  ofMove m := (m,(m.1,∅))
  moveAssign m m' := (m',m)
  swap m m' := (m',m)

def reached {ι : Type*} [DecidableEq ι] (types : ι → MessageType)
    (ops : List (Op ι MessageDescriptor.Method)) : ι → MessageShape :=
  (objects.run ops fun i => (types i,∅)).2

end MessageShape

namespace MessageDescriptor

/-- A registration that throws has not changed the descriptor. -/
def call : Method → MessageDescriptor → Option Fault × MessageDescriptor
  | .new type,_ => (none,new type)
  | .registerField descriptor,d =>
    match d.registerField descriptor with
    | .ok d' => (none,d')
    | .error e => (some e,d)

def objects : ObjectClass Method Fault MessageDescriptor where
  call := call
  ofCopy := ofCopy
  copyAssign := copyAssign
  ofMove := ofMove
  moveAssign := moveAssign
  swap := swap

/-- The list and the index describe the same descriptors, those of the map. -/
structure Represents (d : MessageDescriptor) (m : MessageShape) : Prop where
  type : d.type = m.1
  names_nodup : (d.fieldDescriptors.map FieldDescriptor.name).Nodup
  keys : ∀ name, name ∈ d.list.byName ↔ name ∈ d.fieldDescriptors.map FieldDescriptor.name
  nodes : ∀ name it, d.list.byName.lookup name = some it ↔
    ∃ p ∈ d.list.items.nodes, p.2.name = name ∧ it = some p.1
  registered : ∀ descriptor,
    descriptor ∈ d.fieldDescriptors ↔ m.2.lookup descriptor.name = some descriptor

def toShape (d : MessageDescriptor) : MessageShape := (d.type,d.indexed.toFinmap)

theorem mem_toShape (d : MessageDescriptor) (name : String) :
    name ∈ d.toShape.2 ↔ name ∈ d.fieldDescriptors.map FieldDescriptor.name :=
  d.indexed.mem_toFinmap name

theorem lookup_toShape (d : MessageDescriptor) {name : String} {descriptor : FieldDescriptor} :
    d.toShape.2.lookup name = some descriptor ↔
      descriptor ∈ d.fieldDescriptors ∧ descriptor.name = name :=
  d.indexed.lookup_eq_some_iff

theorem represents_toShape (d : MessageDescriptor) : d.Represents d.toShape where
  type := rfl
  names_nodup := d.names_nodup
  keys := d.indexed.mem_byName
  nodes := d.indexed.lookup
  registered descriptor := by
    rw [lookup_toShape]
    exact (and_iff_left rfl).symm

theorem toShape_registerField (descriptor : FieldDescriptor) (d : MessageDescriptor) :
    d.toShape.registerField descriptor = (d.registerField descriptor).map toShape := by
  unfold MessageShape.registerField
  by_cases h : descriptor.name ∈ d.fieldDescriptors.map FieldDescriptor.name
  · rw [if_pos ((d.mem_toShape _).mpr h), d.registerField_taken h]
    rfl
  · obtain ⟨d',hd',htype,hlist⟩ := d.registerField_new h
    rw [if_neg (fun hm => h ((d.mem_toShape _).mp hm)), hd']
    have hmap := d.indexed.toFinmap_add d'.indexed h hlist
    exact congrArg Except.ok (Prod.ext htype.symm hmap.symm)

theorem toShape_copy (d other : MessageDescriptor) : (d.copy other).toShape = other.toShape := by
  have hmap := other.indexed.toFinmap_reverse (d.copy other).indexed (d.fieldDescriptors_copy other)
  exact Prod.ext rfl hmap

theorem respects : objects.Respects MessageShape.objects toShape where
  call m d := by
    cases m with
    | new type => rfl
    | registerField descriptor =>
      simp only [objects, MessageShape.objects, call, MessageShape.call, toShape_registerField]
      cases d.registerField descriptor with
      | ok d' => rfl
      | error e => rfl
  ofCopy d := (toShape_copy (new d.type) d).symm
  copyAssign d other := (toShape_copy d other).symm
  ofMove _ := rfl
  moveAssign _ _ := rfl
  swap _ _ := rfl

end MessageDescriptor

namespace Message

/-- The loop of the constructor, with what its additions return. -/
def addFields : List FieldDescriptor → FieldSet → List Bool × FieldSet
  | [],s => ([],s)
  | descriptor :: fs,s =>
    let (added,s) := s.add descriptor.createField
    let (results,s) := addFields fs s
    (added :: results,s)

/-- One field for each registered name, of the registered type and with the registered
serializers. -/
structure BuiltFrom (m : Message) (shape : MessageShape) : Prop where
  type : m.type = shape.1
  names_nodup : (m.fields.map fun f => f.name).Nodup
  names : ∀ name, name ∈ m.fields.map (fun f => f.name) ↔ name ∈ shape.2
  descriptors : ∀ name, (m.fieldset.get name).map Field.toFieldDescriptor = shape.2.lookup name
  count : m.fields.length = shape.2.keys.card

theorem addFields_snd (fs : List FieldDescriptor) (s : FieldSet) :
    (addFields fs s).2 = fs.foldl (fun s descriptor => (s.add descriptor.createField).2) s := by
  induction fs generalizing s with
  | nil => rfl
  | cons descriptor fs ih =>
    rw [List.foldl_cons]
    exact ih _

theorem addFields_fresh (fs : List FieldDescriptor) {s : FieldSet}
    (h : (s.toList.map (fun f => f.name) ++ fs.map FieldDescriptor.name).Nodup) :
    ∀ added ∈ (addFields fs s).1, added = true := by
  induction fs generalizing s with
  | nil => simp [addFields]
  | cons descriptor fs ih =>
    have hnext : (s.toList.map (fun f => f.name) ++
        descriptor.createField.name :: fs.map FieldDescriptor.name).Nodup := h
    obtain ⟨hnew,hrest⟩ := NodeList.nodup_insertBeforeLast hnext
    obtain ⟨hadded,hlist⟩ := s.add_new hnew
    rw [← hlist] at hrest
    intro added hmem
    rcases List.mem_cons.mp hmem with rfl | hmem
    · exact hadded
    · exact ih hrest added hmem

variable (counter : MessageId) (d : MessageDescriptor) (session : Option SessionId)

theorem new_names_perm : ((new counter d session).1.fields.map fun f => f.name).Perm
    (d.fieldDescriptors.map FieldDescriptor.name) := by
  rw [new_fields]
  refine ((List.rotate_perm _ 1).map _).trans ?_
  rw [List.map_map]
  rfl

theorem new_mem_fields (f : Field) : f ∈ (new counter d session).1.fields ↔
    ∃ descriptor ∈ d.fieldDescriptors, descriptor.createField = f := by
  rw [new_fields, List.mem_rotate, List.mem_map]

/-- The constructor makes the message that the descriptor describes. -/
theorem new_builtFrom : (new counter d session).1.BuiltFrom d.toShape where
  type := rfl
  names_nodup := (new counter d session).1.fieldset.names_nodup
  names name := by rw [d.mem_toShape, (new_names_perm counter d session).mem_iff]
  descriptors name := by
    apply Option.ext
    intro descriptor
    rw [d.lookup_toShape, Option.map_eq_some_iff]
    constructor
    · rintro ⟨f,hf,rfl⟩
      obtain ⟨hmem,hname⟩ := (FieldSet.get_eq_some_iff _).mp hf
      obtain ⟨descriptor,hd,rfl⟩ := (new_mem_fields counter d session f).mp hmem
      exact ⟨hd,hname⟩
    · rintro ⟨hd,hname⟩
      refine ⟨descriptor.createField,(FieldSet.get_eq_some_iff _).mpr ⟨?_,hname⟩,rfl⟩
      exact (new_mem_fields counter d session _).mpr ⟨descriptor,hd,rfl⟩
  count := by
    have hlen := (new_names_perm counter d session).length_eq
    rw [List.length_map, List.length_map] at hlen
    exact hlen.trans d.indexed.card_keys.symm

end Message

namespace MessageDescriptor
variable {ι : Type*} [DecidableEq ι]

/-- The descriptors after the operations, constructed with the given types before. -/
def reached (types : ι → MessageType) (ops : List (Op ι Method)) : ι → MessageDescriptor :=
  (objects.run ops fun i => new (types i)).2

/-- A registration throws exactly for a name that is taken, and has then changed nothing. -/
theorem call_registerField (descriptor : FieldDescriptor) (d : MessageDescriptor) :
    ((call (.registerField descriptor) d).1 ≠ none ↔ descriptor.name ∈ d.toShape.2) ∧
      ((call (.registerField descriptor) d).1 ≠ none →
        (call (.registerField descriptor) d).2 = d) := by
  rw [mem_toShape]
  by_cases h : descriptor.name ∈ d.fieldDescriptors.map FieldDescriptor.name
  · have hcall : call (.registerField descriptor) d = (some (.thrown (.invalidArgument
        ("Descriptor with same name (" ++ descriptor.name ++ ") has already been registered"))),d) := by
      simp only [call, d.registerField_taken h, raise]
    rw [hcall]
    exact ⟨⟨fun _ => h,fun _ => Option.some_ne_none _⟩,fun _ => rfl⟩
  · obtain ⟨d',hd',_⟩ := d.registerField_new h
    have hcall : call (.registerField descriptor) d = (none,d') := by simp only [call, hd']
    rw [hcall]
    exact ⟨⟨fun hne => absurd rfl hne,fun hm => absurd hm h⟩,fun hne => absurd rfl hne⟩

/-- After any operations on descriptors, each of them describes what was registered on it,
and so do its messages. -/
theorem messagesMatchShapes (types : ι → MessageType) (ops : List (Op ι Method)) :
    (objects.run ops fun i => new (types i)).1 =
        (MessageShape.objects.run ops fun i => (types i,∅)).1 ∧
      ∀ i, (reached types ops i).Represents (MessageShape.reached types ops i) ∧
        (∀ descriptor, ((call (.registerField descriptor) (reached types ops i)).1 ≠ none ↔
            descriptor.name ∈ (MessageShape.reached types ops i).2) ∧
          ((call (.registerField descriptor) (reached types ops i)).1 ≠ none →
            (call (.registerField descriptor) (reached types ops i)).2 = reached types ops i)) ∧
        ∀ counter session,
          (Message.addFields (reached types ops i).fieldDescriptors FieldSet.empty).2 =
              (Message.new counter (reached types ops i) session).1.fieldset ∧
            (∀ added ∈ (Message.addFields (reached types ops i).fieldDescriptors
              FieldSet.empty).1, added = true) ∧
            (Message.new counter (reached types ops i) session).1.BuiltFrom
              (MessageShape.reached types ops i) := by
  have hrun : (MessageShape.objects.run ops fun i => (types i,∅)) =
      ((objects.run ops fun i => new (types i)).1,fun i => (reached types ops i).toShape) :=
    respects.run ops fun i => new (types i)
  have hreached : ∀ i, MessageShape.reached types ops i = (reached types ops i).toShape := by
    intro i
    unfold MessageShape.reached
    rw [hrun]
  refine ⟨by rw [hrun],fun i => ?_⟩
  rw [hreached]
  refine ⟨represents_toShape _,fun descriptor => call_registerField descriptor _,?_⟩
  intro counter session
  refine ⟨Message.addFields_snd _ _,?_,Message.new_builtFrom counter (reached types ops i) session⟩
  apply Message.addFields_fresh
  simpa using (reached types ops i).names_nodup

end MessageDescriptor

end Isml
