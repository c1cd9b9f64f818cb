import Isml.Library.NamedMap
import Isml.Library.ObjectStore
import Isml.Message.FieldSet

/-! # A `FieldSet` is a finite map

Sets under any number of names are added to, changed, copied, moved, swapped and
cleared; maps from names to fields go through the same operations. The sets answer
what the maps answer, however they came about.
-/
namespace Isml
open ObjectClass (Op)

namespace FieldSet

/-- The calls that change one set; `set` is `get<T>(name)->set(v)`. -/
inductive Method
  | add (field : Field)
  | set (t : Ty) (name : String) (v : Val)
  | clear

end FieldSet

/-- What a field set is for. -/
abbrev FieldMap := Finmap fun _ : String => Field

namespace FieldMap

def add (field : Field) (m : FieldMap) : Bool × FieldMap :=
  if field.name ∈ m then (false,m) else (true,m.insert field.name field)

def set (t : Ty) (name : String) (v : Val) (m : FieldMap) : Bool × FieldMap :=
  match (m.lookup name).filter fun f => f.valueType == t.name with
  | some f => (true,m.insert name (f.set v))
  | none => (false,m)

def call : FieldSet.Method → FieldMap → Option Bool × FieldMap
  | .add field,m => (some (m.add field).1,(m.add field).2)
  | .set t name v,m => (some (m.set t name v).1,(m.set t name v).2)
  | .clear,_ => (none,∅)

/-- Moves are swaps, with the empty map when the object is new. -/
def objects : ObjectClass FieldSet.Method Bool FieldMap where
  call := call
  ofCopy m := m
  copyAssign _ m := m
  ofMove m := (m,∅)
  moveAssign m m' := (m',m)
  swap m m' := (m',m)

/-- The maps after the operations, all of them empty before. -/
def reached {ι : Type*} [DecidableEq ι] (ops : List (Op ι FieldSet.Method)) : ι → FieldMap :=
  (objects.run ops fun _ => ∅).2

end FieldMap

namespace FieldSet

def call : Method → FieldSet → Option Bool × FieldSet
  | .add field,s => (some (s.add field).1,(s.add field).2)
  | .set t name v,s =>
    match s.setOf t name v with
    | some s' => (some true,s')
    | none => (some false,s)
  | .clear,s => (none,s.clear)

def objects : ObjectClass Method Bool FieldSet where
  call := call
  ofCopy := ofCopy
  copyAssign := copyAssign
  ofMove := ofMove
  moveAssign := moveAssign
  swap := swap

/-- The sets after the operations, all of them newly constructed before. -/
def reached {ι : Type*} [DecidableEq ι] (ops : List (Op ι Method)) : ι → FieldSet :=
  (objects.run ops fun _ => empty).2

/-- The list and the index describe the same fields, and every question about them has the
answer of the map. -/
structure Represents (s : FieldSet) (m : FieldMap) : Prop where
  names_nodup : (s.toList.map fun f => f.name).Nodup
  keys : ∀ name, name ∈ s.list.byName ↔ name ∈ s.toList.map fun f => f.name
  nodes : ∀ name it, s.list.byName.lookup name = some it ↔
    ∃ p ∈ s.list.items.nodes, p.2.name = name ∧ it = some p.1
  contains : ∀ name, s.contains name = decide (name ∈ m)
  get : ∀ name, s.get name = m.lookup name
  containsOf : ∀ t name, s.containsOf t name =
    (m.lookup name).any fun f => f.valueType == t.name
  getOf : ∀ t name, s.getOf t name = (m.lookup name).filter fun f => f.valueType == t.name
  size : s.size = m.keys.card
  isEmpty : s.isEmpty = true ↔ m = ∅

def toMap (s : FieldSet) : FieldMap := s.indexed.toFinmap

theorem lookup_toMap (s : FieldSet) (name : String) : s.toMap.lookup name = s.get name :=
  s.indexed.lookup_toFinmap name

theorem mem_toMap (s : FieldSet) (name : String) :
    name ∈ s.toMap ↔ name ∈ s.toList.map fun f => f.name :=
  s.indexed.mem_toFinmap name

theorem containsOf_eq (t : Ty) (s : FieldSet) (name : String) :
    s.containsOf t name = (s.get name).any fun f => f.valueType == t.name := by
  unfold containsOf
  cases hc : s.contains name with
  | true => rfl
  | false =>
    have hnone : s.get name = none := by
      rw [← lookup_toMap, Finmap.lookup_eq_none, mem_toMap, ← contains_iff, hc]
      exact Bool.false_ne_true
    rw [hnone]
    rfl

theorem getOf_eq (t : Ty) (s : FieldSet) (name : String) :
    s.getOf t name = (s.get name).filter fun f => f.valueType == t.name := by
  unfold getOf
  rw [containsOf_eq]
  cases s.get name with
  | none => rfl
  | some f => rfl

theorem represents_toMap (s : FieldSet) : s.Represents s.toMap where
  names_nodup := s.names_nodup
  keys := s.indexed.mem_byName
  nodes := s.indexed.lookup
  contains name := by
    rw [Bool.eq_iff_iff, contains_iff, decide_eq_true_iff, mem_toMap]
  get name := (s.lookup_toMap name).symm
  containsOf t name := by rw [lookup_toMap, containsOf_eq]
  getOf t name := by rw [lookup_toMap, getOf_eq]
  size := s.indexed.card_keys.symm
  isEmpty := List.isEmpty_iff.trans s.indexed.toFinmap_eq_empty_iff.symm

theorem toMap_add (field : Field) (s : FieldSet) :
    s.toMap.add field = ((s.add field).1,(s.add field).2.toMap) := by
  unfold FieldMap.add
  by_cases h : field.name ∈ s.toList.map fun f => f.name
  · rw [if_pos ((s.mem_toMap _).mpr h), s.add_taken h]
  · obtain ⟨hadded,hlist⟩ := s.add_new h
    rw [if_neg (fun hm => h ((s.mem_toMap _).mp hm)), hadded]
    rw [toMap, toMap, s.indexed.toFinmap_add (s.add field).2.indexed h hlist]

theorem toMap_copy (s other : FieldSet) : (s.assign other).toMap = other.toMap :=
  other.indexed.toFinmap_reverse (s.assign other).indexed (s.toList_assign other)

theorem lookup_set (s : FieldSet) {name : String} {f : Field} (hf : s.get name = some f) (v : Val)
    {s' : FieldSet} (hs : s'.toList = s.toList.map fun g => if g.name = name then g.set v else g) :
    s'.toMap = s.toMap.insert name (f.set v) := by
  apply Finmap.ext_lookup
  intro key
  apply Option.ext
  intro x
  rw [lookup_toMap, get_eq_some_iff, hs, List.mem_map]
  by_cases hkey : key = name
  · subst hkey
    rw [Finmap.lookup_insert, Option.some.injEq]
    constructor
    · rintro ⟨⟨g,hg,rfl⟩,hname⟩
      by_cases hgname : g.name = key
      · have hget := s.get_eq_some_iff.mpr ⟨hg,hgname⟩
        rw [if_pos hgname, Option.some.inj (hget.symm.trans hf)]
      · rw [if_neg hgname] at hname
        exact absurd hname hgname
    · rintro rfl
      obtain ⟨hmem,hname⟩ := s.get_eq_some_iff.mp hf
      exact ⟨⟨f,hmem,if_pos hname⟩,hname⟩
  · rw [Finmap.lookup_insert_of_ne _ hkey, lookup_toMap, get_eq_some_iff]
    constructor
    · rintro ⟨⟨g,hg,rfl⟩,hname⟩
      by_cases hgname : g.name = name
      · rw [if_pos hgname] at hname
        exact absurd (hname.symm.trans hgname) hkey
      · rw [if_neg hgname] at hname ⊢
        exact ⟨hg,hname⟩
    · rintro ⟨hx,hname⟩
      refine ⟨⟨x,hx,if_neg ?_⟩,hname⟩
      exact fun he => hkey (hname.symm.trans he)

theorem toMap_set (t : Ty) (name : String) (v : Val) (s : FieldSet) :
    s.toMap.set t name v = ((s.setOf t name v).isSome,((s.setOf t name v).getD s).toMap) := by
  unfold FieldMap.set setOf
  rw [lookup_toMap, containsOf_eq]
  cases hf : s.get name with
  | none => rfl
  | some f =>
    cases ht : f.valueType == t.name with
    | false => simp only [Option.filter_some, Option.any_some, ht, Bool.false_eq_true, if_false,
        Option.isSome_none, Option.getD_none]
    | true =>
      simp only [Option.filter_some, Option.any_some, ht, if_true, Option.isSome_some,
        Option.getD_some]
      rw [s.lookup_set hf v (s.toList_withFields _)]

theorem respects : objects.Respects FieldMap.objects toMap where
  call m s := by
    cases m with
    | add field => simp only [objects, FieldMap.objects, call, FieldMap.call, toMap_add]
    | set t name v =>
      simp only [objects, FieldMap.objects, call, FieldMap.call, toMap_set]
      cases s.setOf t name v with
      | none => rfl
      | some s' => rfl
    | clear => rfl
  ofCopy s := (toMap_copy empty s).symm
  copyAssign s other := (toMap_copy s other).symm
  ofMove _ := rfl
  moveAssign _ _ := rfl
  swap _ _ := rfl

variable {ι : Type*} [DecidableEq ι]

theorem objects_run (ops : List (Op ι Method)) :
    FieldMap.objects.run ops (fun _ : ι => (∅ : FieldMap)) =
      ((objects.run ops fun _ => empty).1,fun i => (reached ops i).toMap) :=
  respects.run ops fun _ => empty

theorem reached_toMap (ops : List (Op ι Method)) (i : ι) :
    FieldMap.reached ops i = (reached ops i).toMap := by
  unfold FieldMap.reached
  rw [objects_run]

/-- An addition is refused exactly when the name is present, and then changes nothing. -/
theorem add_refused_iff (s : FieldSet) (field : Field) :
    ((s.add field).1 = false ↔ field.name ∈ s.toMap) ∧
      ((s.add field).1 = false → (s.add field).2 = s) := by
  rw [mem_toMap]
  by_cases h : field.name ∈ s.toList.map fun f => f.name
  · rw [s.add_taken h]
    exact ⟨⟨fun _ => h,fun _ => rfl⟩,fun _ => rfl⟩
  · have hadded : (s.add field).1 ≠ false := by
      rw [(s.add_new h).1]
      exact Bool.true_eq_false_eq_False
    exact ⟨⟨fun hf => absurd hf hadded,fun hm => absurd hm h⟩,fun hf => absurd hf hadded⟩

theorem get_assign (s other : FieldSet) (name : String) :
    (s.assign other).get name = other.get name := by
  rw [← lookup_toMap, toMap_copy, lookup_toMap]

/-- What is done to other sets does not show in a copy. -/
theorem get_copied {i j : ι} (hij : i ≠ j) {copy : Op ι Method}
    (hcopy : copy = .ofCopy i j ∨ copy = .copyAssign i j) {later : List (Op ι Method)}
    (hlater : ∀ op ∈ later, i ∉ op.writes) (ops : List (Op ι Method)) (name : String) :
    (reached (ops ++ copy :: later) i).get name = (reached ops j).get name := by
  unfold reached
  rw [ObjectClass.run_append, ObjectClass.run_cons, ObjectClass.run_frame objects hlater]
  rcases hcopy with rfl | rfl
  · simp only [ObjectClass.step, Function.update_self]
    exact get_assign empty (reached ops j) name
  · simp only [ObjectClass.step, if_neg hij, Function.update_self]
    exact get_assign (reached ops i) (reached ops j) name

/-- A `FieldSet` refines the map from names to fields. -/
theorem refinesMap (ops : List (Op ι Method)) :
    (objects.run ops fun _ : ι => empty).1 = (FieldMap.objects.run ops fun _ : ι => ∅).1 ∧
      ∀ i, (reached ops i).Represents (FieldMap.reached ops i) ∧
        (∀ field, (((reached ops i).add field).1 = false ↔ field.name ∈ FieldMap.reached ops i) ∧
          (((reached ops i).add field).1 = false → ((reached ops i).add field).2 = reached ops i)) ∧
        ∀ j, i ≠ j → ∀ copy, copy = .ofCopy i j ∨ copy = .copyAssign i j →
          ∀ later : List (Op ι Method), (∀ op ∈ later, i ∉ op.writes) → ∀ name,
            (reached (ops ++ copy :: later) i).get name = (reached ops j).get name := by
  refine ⟨by rw [objects_run],fun i => ?_⟩
  rw [reached_toMap]
  refine ⟨represents_toMap _,add_refused_iff _,?_⟩
  intro j hij copy hcopy later hlater name
  exact get_copied hij hcopy hlater ops name

end FieldSet

end Isml
