import Isml.Library.ObjectStore
import Isml.Message.FieldOrder

/-! # The layouts a `MessageFactory` gives

Factories under any number of names are added to, copied, moved and swapped. Each type of a factory
comes from one descriptor that was added, and every copy on the way turns the order of its fields
around: what a peer writes, another one reads exactly if their numbers of copies go together.
-/
namespace Isml
open ObjectClass (Op)

namespace MessageFactory

/-- The calls that change one factory: `addDescriptor` of a temporary, of an lvalue, and of a type with a
function that configures its descriptor, or throws. -/
inductive Method
  | add (descriptor : MessageDescriptor)
  | addCopy (descriptor : MessageDescriptor)
  | addWith (type : MessageType) (configure : MessageDescriptor → Result MessageDescriptor)

def call : Method → MessageFactory → Option Bool × MessageFactory
  | .add descriptor,f => (some (f.addDescriptor descriptor).1,(f.addDescriptor descriptor).2)
  | .addCopy descriptor,f =>
    (some (f.addDescriptorCopy descriptor).1,(f.addDescriptorCopy descriptor).2)
  | .addWith type configure,f =>
    match f.addDescriptorWith type configure with
    | .ok (inserted,f) => (some inserted,f)
    | .error _ => (none,f)

def objects : ObjectClass Method Bool MessageFactory where
  call := call
  ofCopy := ofCopy
  copyAssign := copyAssign
  ofMove := ofMove
  moveAssign := moveAssign
  swap := swap

/-- The factories after the operations, all of them newly constructed before. -/
def reached {ι : Type*} [DecidableEq ι] (ops : List (Op ι Method)) : ι → MessageFactory :=
  (objects.run ops fun _ => empty).2

end MessageFactory

/-- What is known of the types of a factory. -/
abbrev TypeMap (α : Type*) := MessageType → Option α

namespace TypeMap
variable {α : Type*}

def add (type : MessageType) (a : α) (m : TypeMap α) : Bool × TypeMap α :=
  if (m type).isSome then (false,m) else (true,Function.update m type (some a))

/-- Types are added with `added`, and with `copied` when the descriptor is copied; `turn` is what a copy
of the factory makes of each entry. -/
def objects (added copied : MessageDescriptor → α) (turn : α → α) :
    ObjectClass MessageFactory.Method Bool (TypeMap α) where
  call
    | .add d,m => (some (m.add d.type (added d)).1,(m.add d.type (added d)).2)
    | .addCopy d,m => (some (m.add d.type (copied d)).1,(m.add d.type (copied d)).2)
    | .addWith type configure,m =>
      match configure (MessageDescriptor.new type) with
      | .ok d => (some (m.add d.type (added d)).1,(m.add d.type (added d)).2)
      | .error _ => (none,m)
  ofCopy m type := (m type).map turn
  copyAssign _ m type := (m type).map turn
  ofMove m := (m,fun _ => none)
  moveAssign m m' := (m',m)
  swap m m' := (m',m)

theorem map_add {β : Type*} (f : α → β) (type : MessageType) (a : α) (m : TypeMap α) :
    TypeMap.add type (f a) (fun t => (m t).map f) =
      ((m.add type a).1,fun t => ((m.add type a).2 t).map f) := by
  unfold TypeMap.add
  rw [Option.isSome_map]
  split_ifs
  · rfl
  · refine Prod.ext rfl ?_
    ext1 t
    by_cases ht : t = type
    · subst ht
      simp
    · simp [Function.update_of_ne ht]

/-- A map of the entries that goes with `added`, `copied` and `turn` goes with every operation. -/
theorem respects_map {β : Type*} {added copied : MessageDescriptor → α} {turn : α → α}
    {added' copied' : MessageDescriptor → β} {turn' : β → β} {f : α → β}
    (hadded : ∀ d, added' d = f (added d)) (hcopied : ∀ d, copied' d = f (copied d))
    (hturn : ∀ a, turn' (f a) = f (turn a)) :
    (objects added copied turn).Respects (objects added' copied' turn')
      fun m type => (m type).map f := by
  have hcopy : ∀ m : TypeMap α, (fun type => ((m type).map f).map turn') =
      fun type => ((m type).map turn).map f := by
    intro m
    ext1 type
    cases m type with
    | none => rfl
    | some a => exact congrArg some (hturn a)
  refine ⟨fun call m => ?_,hcopy,fun _ => hcopy,fun m => rfl,fun m m' => rfl,fun m m' => rfl⟩
  cases call with
  | add d => simp only [objects, hadded, map_add]
  | addCopy d => simp only [objects, hcopied, map_add]
  | addWith type configure =>
    cases hd : configure (MessageDescriptor.new type) with
    | ok d => simp only [objects, hd, hadded, map_add]
    | error e => simp only [objects, hd]

end TypeMap

/-- The descriptor a type of a factory comes from, and the number of copies since. -/
structure Origin where
  descriptor : MessageDescriptor
  copies : ℕ

namespace Origin

def fieldDescriptors (o : Origin) : List FieldDescriptor := List.reverse^[o.copies] o.descriptor.fieldDescriptors

def copied (o : Origin) : Origin := ⟨o.descriptor,o.copies + 1⟩

theorem fieldDescriptors_copied (o : Origin) : o.copied.fieldDescriptors = o.fieldDescriptors.reverse :=
  Function.iterate_succ_apply' _ _ _

def objects : ObjectClass MessageFactory.Method Bool (TypeMap Origin) :=
  TypeMap.objects (fun d => ⟨d,0⟩) (fun d => ⟨d,1⟩) copied

/-- Where the types of the factories come from. -/
def reached {ι : Type*} [DecidableEq ι] (ops : List (Op ι MessageFactory.Method)) : ι → TypeMap Origin :=
  (objects.run ops fun _ _ => none).2

/-- Of an even number of copies nothing is seen. -/
theorem fieldDescriptors_eq (o : Origin) : o.fieldDescriptors =
    if o.copies % 2 = 0 then o.descriptor.fieldDescriptors else o.descriptor.fieldDescriptors.reverse := by
  unfold fieldDescriptors
  split_ifs with h
  · rw [List.reverse_involutive.iterate_even (Nat.even_iff.mpr h), id_eq]
  · have hodd : Odd o.copies := Nat.odd_iff.mpr (by omega)
    rw [List.reverse_involutive.iterate_odd hodd]

end Origin

namespace MessageFactory
variable {ι ι' : Type*} [DecidableEq ι] [DecidableEq ι']

/-- The order of the fields of each type. -/
def layouts : ObjectClass Method Bool (TypeMap (List FieldDescriptor)) :=
  TypeMap.objects MessageDescriptor.fieldDescriptors (fun d => d.fieldDescriptors.reverse) List.reverse

def layout (f : MessageFactory) : TypeMap (List FieldDescriptor) :=
  fun type => (f.descriptors.lookup type).map MessageDescriptor.fieldDescriptors

theorem layout_addDescriptor (descriptor : MessageDescriptor) (f : MessageFactory) :
    TypeMap.add descriptor.type descriptor.fieldDescriptors f.layout =
      ((f.addDescriptor descriptor).1,(f.addDescriptor descriptor).2.layout) := by
  have hsome : (f.layout descriptor.type).isSome = decide (descriptor.type ∈ f.descriptors) := by
    rw [layout, Option.isSome_map, Bool.eq_iff_iff, AList.lookup_isSome, decide_eq_true_iff]
  unfold TypeMap.add addDescriptor
  rw [hsome]
  by_cases hmem : descriptor.type ∈ f.descriptors
  · simp [hmem]
  · simp only [hmem, decide_false, Bool.false_eq_true, if_false]
    refine Prod.ext rfl ?_
    ext1 type
    unfold layout
    by_cases ht : type = descriptor.type
    · subst ht
      simp
    · simp [Function.update_of_ne ht, AList.lookup_insert_ne ht]

theorem layout_ofCopy (f : MessageFactory) : (ofCopy f).layout = fun type => (f.layout type).map List.reverse := by
  ext1 type
  unfold layout
  rw [lookup_ofCopy]
  cases f.descriptors.lookup type with
  | none => rfl
  | some d => exact congrArg some ((MessageDescriptor.new d.type).fieldDescriptors_copy d)

theorem respects_layout : objects.Respects layouts layout where
  call m f := by
    cases m with
    | add d => simp only [objects, layouts, TypeMap.objects, call, layout_addDescriptor]
    | addCopy d =>
      have hd := layout_addDescriptor (MessageDescriptor.ofCopy d) f
      have hcopy : (MessageDescriptor.ofCopy d).fieldDescriptors = d.fieldDescriptors.reverse :=
        (MessageDescriptor.new d.type).fieldDescriptors_copy d
      rw [hcopy] at hd
      change TypeMap.add d.type d.fieldDescriptors.reverse f.layout = _ at hd
      simp only [objects, layouts, TypeMap.objects, call, hd]
      rfl
    | addWith type configure =>
      cases hd : configure (MessageDescriptor.new type) with
      | ok d =>
        have hwith : f.addDescriptorWith type configure = .ok (f.addDescriptor d) := by
          rw [addDescriptorWith, hd]
          rfl
        simp only [objects, layouts, TypeMap.objects, call, hd, hwith, layout_addDescriptor]
      | error e =>
        have hwith : f.addDescriptorWith type configure = .error e := by
          rw [addDescriptorWith, hd]
          rfl
        simp only [objects, layouts, TypeMap.objects, call, hd, hwith]
  ofCopy f := (layout_ofCopy f).symm
  copyAssign _ f := (layout_ofCopy f).symm
  ofMove _ := rfl
  moveAssign _ _ := rfl
  swap _ _ := rfl

theorem respects_origin : Origin.objects.Respects layouts
    fun m type => (m type).map Origin.fieldDescriptors :=
  TypeMap.respects_map (fun _ => rfl) (fun _ => rfl) fun o => o.fieldDescriptors_copied.symm

theorem run_origins (ops : List (Op ι Method)) :
    (objects.run ops fun _ => empty).1 = (Origin.objects.run ops fun _ _ => none).1 ∧
      ∀ i type, (reached ops i).layout type = (Origin.reached ops i type).map fun o =>
        if o.copies % 2 = 0 then o.descriptor.fieldDescriptors
        else o.descriptor.fieldDescriptors.reverse := by
  have hfactories := respects_layout.run ops fun _ : ι => empty
  have horigins := respects_origin.run ops fun (_ : ι) _ => none
  have hboth := hfactories.symm.trans horigins
  refine ⟨congrArg Prod.fst hboth,fun i type => ?_⟩
  have hlayout : (reached ops i).layout type = (Origin.reached ops i type).map Origin.fieldDescriptors :=
    congrFun (congrFun (congrArg Prod.snd hboth) i) type
  rw [hlayout]
  exact congrFun (congrArg Option.map (funext Origin.fieldDescriptors_eq)) _

/-- A factory knows the types it was given or has copied, and the order of the fields of each comes
from the descriptor that was added, turned around by every copy. -/
theorem refinesOrigins (ops : List (Op ι Method)) :
    (objects.run ops fun _ => empty).1 = (Origin.objects.run ops fun _ _ => none).1 ∧
      ∀ i type, (reached ops i).hasDescriptor type = (Origin.reached ops i type).isSome ∧
        (reached ops i).layout type = (Origin.reached ops i type).map fun o =>
          if o.copies % 2 = 0 then o.descriptor.fieldDescriptors
          else o.descriptor.fieldDescriptors.reverse := by
  obtain ⟨hresults,hlayouts⟩ := run_origins ops
  refine ⟨hresults,fun i type => ⟨?_,hlayouts i type⟩⟩
  have hsome := congrArg Option.isSome (hlayouts i type)
  rw [layout, Option.isSome_map, Option.isSome_map] at hsome
  rw [← hsome, hasDescriptor, Bool.eq_iff_iff, AList.lookup_isSome, decide_eq_true_iff]

end MessageFactory

/-- Two descriptors of one type give the same layout exactly if their fields are in the same order. -/
theorem sameLayout_iff_fieldDescriptors {d d' : MessageDescriptor} (ht : d'.type = d.type) :
    SameLayout d d' ↔ d'.fieldDescriptors = d.fieldDescriptors := by
  constructor
  · intro hs
    have horder := (hs 0 0 none none).1
    rw [Message.new_fields, Message.new_fields, List.map_rotate, List.map_rotate, map_createField,
      map_createField, List.rotate_eq_rotate] at horder
    exact horder
  · exact sameLayout_of_fieldDescriptors ht

namespace MessageFactory
variable {ι ι' : Type*} [DecidableEq ι] [DecidableEq ι']

theorem exists_lookup {ops : List (Op ι Method)} {i : ι} {type : MessageType} {o : Origin}
    (h : Origin.reached ops i type = some o) :
    ∃ d, (reached ops i).descriptors.lookup type = some d ∧ d.type = type ∧
      d.fieldDescriptors = if o.copies % 2 = 0 then o.descriptor.fieldDescriptors
        else o.descriptor.fieldDescriptors.reverse := by
  have hlayout := (run_origins ops).2 i type
  rw [h] at hlayout
  obtain ⟨d,hd,hl⟩ := Option.map_eq_some_iff.mp hlayout
  exact ⟨d,hd,(reached ops i).keyed type d hd,hl⟩

/-- Two peers that register the same fields in the same order read each other's messages exactly if the
numbers of copies between registration and use are both even or both odd, or the order of the fields does
not matter. -/
theorem sameLayout_iff_copies (ops : List (Op ι Method)) (ops' : List (Op ι' Method)) (i : ι) (j : ι')
    (type : MessageType) {o o' : Origin} (h : Origin.reached ops i type = some o)
    (h' : Origin.reached ops' j type = some o')
    (hfields : o'.descriptor.fieldDescriptors = o.descriptor.fieldDescriptors) :
    ∃ d d', (reached ops i).descriptors.lookup type = some d ∧
      (reached ops' j).descriptors.lookup type = some d' ∧
      (SameLayout d d' ↔
        o.copies % 2 = o'.copies % 2 ∨ o.descriptor.fieldDescriptors.length ≤ 1) := by
  obtain ⟨d,hd,ht,hl⟩ := exists_lookup h
  obtain ⟨d',hd',ht',hl'⟩ := exists_lookup h'
  refine ⟨d,d',hd,hd',?_⟩
  rw [sameLayout_iff_fieldDescriptors (ht'.trans ht.symm), hl, hl', hfields]
  have hreverse := List.reverse_eq_self_iff_length_le o.descriptor.names_nodup.of_map
  rcases Nat.mod_two_eq_zero_or_one o.copies with hn | hn
  · rcases Nat.mod_two_eq_zero_or_one o'.copies with hn' | hn'
    · simp [hn, hn']
    · simpa [hn, hn'] using hreverse
  · rcases Nat.mod_two_eq_zero_or_one o'.copies with hn' | hn'
    · simpa [hn, hn', eq_comm] using hreverse
    · simp [hn, hn']

/-- A factory and its copy do not understand each other, a copy of the copy and the factory do. -/
theorem sameLayout_iff_copies_two : ∃ d,
    (MessageDescriptor.new 7).registerFields (["a","b"].map intDescriptor) = .ok d ∧
      ∀ copies : List (Op ℕ Method), copies = [.ofCopy 1 0] ∨ copies = [.ofCopy 2 0,.ofCopy 1 2] →
        ∃ d₀ d₁, (reached [.call 0 (.add d)] 0).descriptors.lookup 7 = some d₀ ∧
          (reached (.call 0 (.add d) :: copies) 1).descriptors.lookup 7 = some d₁ ∧
          (SameLayout d₀ d₁ ↔ copies.length = 2) := by
  obtain ⟨d,hd,ht,hl⟩ := MessageDescriptor.registerFields_fresh 7 twoInts_nodup
  refine ⟨d,hd,fun copies hcopies => ?_⟩
  have hadded : Origin.reached [.call 0 (.add d)] 0 7 = some ⟨d,0⟩ := by
    simp [Origin.reached, ObjectClass.run, ObjectClass.step, Origin.objects, TypeMap.objects, TypeMap.add, ht]
  have hlength : d.fieldDescriptors.length = 2 := by simp [hl]
  rcases hcopies with rfl | rfl
  · have hcopied : Origin.reached [.call 0 (.add d),.ofCopy 1 0] 1 7 = some ⟨d,1⟩ := by
      simp [Origin.reached, ObjectClass.run, ObjectClass.step, Origin.objects, TypeMap.objects, TypeMap.add, ht,
        Origin.copied]
    obtain ⟨d₀,d₁,h₀,h₁,hsame⟩ := sameLayout_iff_copies _ _ 0 1 7 hadded hcopied rfl
    exact ⟨d₀,d₁,h₀,h₁,hsame.trans (by simp [hlength])⟩
  · have hcopied : Origin.reached [.call 0 (.add d),.ofCopy 2 0,.ofCopy 1 2] 1 7 = some ⟨d,2⟩ := by
      simp [Origin.reached, ObjectClass.run, ObjectClass.step, Origin.objects, TypeMap.objects, TypeMap.add, ht,
        Origin.copied]
    obtain ⟨d₀,d₁,h₀,h₁,hsame⟩ := sameLayout_iff_copies _ _ 0 1 7 hadded hcopied rfl
    exact ⟨d₀,d₁,h₀,h₁,hsame.trans (by simp)⟩

end MessageFactory

end Isml
