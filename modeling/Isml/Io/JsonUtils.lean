import Mathlib.Data.Finset.Sort
import Mathlib.Data.String.Basic

/-! # `JsonUtils::merge`

A JSON value is an object, a finite map from names to values, or a value that has no members; what
that is makes no difference here. A member of the right object goes into the left one, but where the
left one has an object under the name, the two are merged.
-/
namespace Isml

variable {α : Type}

inductive Json (α : Type)
  | value (a : α)
  | object (names : Finset String) (values : {name // name ∈ names} → Json α)

namespace Json

def isObject : Json α → Bool
  | .value _ => false
  | .object _ _ => true

/-- `operator[]` of a member, if it is one. -/
def member (name : String) : Json α → Option (Json α)
  | .value _ => none
  | .object names values => if h : name ∈ names then some (values ⟨name,h⟩) else none

/-- `operator[]` on the left of an assignment; it is used of objects only. -/
def assign (json : Json α) (name : String) (v : Json α) : Json α :=
  match json with
  | .value a => .value a
  | .object names values => .object (insert name names) fun k =>
    if h : k.1 = name then v else values ⟨k.1,(Finset.mem_insert.mp k.2).resolve_left h⟩

/-- The names come in their order. -/
def getMemberNames (names : Finset String) : List {name // name ∈ names} :=
  names.sort.attach.map fun name => ⟨name.1,(Finset.mem_sort _).mp name.2⟩

/-- The value at the end of a path of names. -/
def atPath : List String → Json α → Option (Json α)
  | [],json => some json
  | name :: path,json => (json.member name).bind (atPath path)

end Json

namespace JsonUtils

/-- What is returned, and the left object afterwards. -/
def merge : Json α → Json α → Bool × Json α
  | lhs,.value _ => (false,lhs)
  | lhs,.object names values =>
    if !lhs.isObject then (false,lhs)
    else (true,(Json.getMemberNames names).foldl (fun lhs name =>
      match lhs.member name.1 with
      | some l =>
        -- what the inner call returns is not looked at
        if l.isObject then lhs.assign name.1 (merge l (values name)).2 else lhs.assign name.1 (values name)
      | none => lhs.assign name.1 (values name)) lhs)

section Members
variable {json v lhs rhs r : Json α} {name k : String} {names : Finset String}
  {values : {name // name ∈ names} → Json α} {ks : List {name // name ∈ names}}

theorem member_assign (h : json.isObject = true) :
    (json.assign name v).member k = if k = name then some v else json.member k := by
  cases json with
  | value a => cases h
  | object names values =>
    by_cases hk : k = name
    · simp [Json.assign, Json.member, hk]
    · simp [Json.assign, Json.member, hk]

theorem isObject_assign (h : json.isObject = true) : (json.assign name v).isObject = true := by
  cases json with
  | value a => cases h
  | object names values => rfl

/-- What a member of the right object makes of that of the left one. -/
def mergeMember (r : Json α) : Option (Json α) → Json α
  | some l => if l.isObject then (merge l r).2 else r
  | none => r

/-- The body of the loop. -/
def mergeName (values : {name // name ∈ names} → Json α) (lhs : Json α) (name : {name // name ∈ names}) :
    Json α := lhs.assign name.1 (mergeMember (values name) (lhs.member name.1))

theorem merge_value (a : α) : merge lhs (.value a) = (false,lhs) := by
  rw [merge]

theorem merge_of_not_isObject (h : lhs.isObject = false) : merge lhs rhs = (false,lhs) := by
  cases rhs with
  | value a => exact merge_value a
  | object names values => rw [merge, h, Bool.not_false, if_pos rfl]

theorem merge_object (h : lhs.isObject = true) : merge lhs (.object names values) =
    (true,(Json.getMemberNames names).foldl (mergeName values) lhs) := by
  have hbody : (fun lhs name => match lhs.member name.1 with
      | some l =>
        if l.isObject then lhs.assign name.1 (merge l (values name)).2 else lhs.assign name.1 (values name)
      | none => lhs.assign name.1 (values name)) = mergeName values := by
    funext lhs name
    unfold mergeName
    cases lhs.member name.1 with
    | none => rfl
    | some l =>
      dsimp only [mergeMember]
      split <;> rfl
  rw [merge, h, Bool.not_true, if_neg Bool.false_ne_true]
  exact congrArg (fun body => (true,(Json.getMemberNames names).foldl body lhs)) hbody

theorem isObject_mergeName {x : {name // name ∈ names}} (h : lhs.isObject = true) :
    (mergeName values lhs x).isObject = true := isObject_assign h

theorem merge_objects (hlhs : lhs.isObject = true) (hrhs : rhs.isObject = true) :
    (merge lhs rhs).1 = true := by
  cases rhs with
  | value a => cases hrhs
  | object names values => rw [merge_object hlhs]

/-- A merge that is refused leaves the left value. -/
theorem merge_refused (h : (merge lhs rhs).1 = false) : (merge lhs rhs).2 = lhs := by
  cases hlhs : lhs.isObject with
  | false => rw [merge_of_not_isObject hlhs]
  | true =>
    cases rhs with
    | value a => rw [merge_value]
    | object names values =>
      rw [merge_object hlhs] at h
      cases h

theorem member_mergeName_other {x : {name // name ∈ names}} (h : lhs.isObject = true) (hk : k ≠ x.1) :
    (mergeName values lhs x).member k = lhs.member k := by
  rw [mergeName, member_assign h, if_neg hk]

theorem member_foldl_of_notMem (h : lhs.isObject = true) (hk : ∀ x ∈ ks, x.1 ≠ k) :
    (ks.foldl (mergeName values) lhs).member k = lhs.member k := by
  induction ks generalizing lhs with
  | nil => rfl
  | cons x ks ih =>
    obtain ⟨hx,hks⟩ := List.forall_mem_cons.mp hk
    rw [List.foldl_cons, ih (isObject_mergeName h) hks, member_mergeName_other h hx.symm]

/-- Each name is assigned to once, and the left object still has its old member then. -/
theorem member_foldl_of_mem {x : {name // name ∈ names}} (h : lhs.isObject = true) (hks : ks.Nodup)
    (hx : x ∈ ks) : (ks.foldl (mergeName values) lhs).member x.1 =
      some (mergeMember (values x) (lhs.member x.1)) := by
  induction ks generalizing lhs with
  | nil => cases hx
  | cons y ks ih =>
    obtain ⟨hy,hks⟩ := List.nodup_cons.mp hks
    rw [List.foldl_cons]
    rcases List.mem_cons.mp hx with rfl | hx
    · have hothers : ∀ z ∈ ks, z.1 ≠ x.1 := by
        intro z hz he
        rw [Subtype.ext he] at hz
        exact hy hz
      rw [member_foldl_of_notMem (isObject_mergeName h) hothers, mergeName, member_assign h, if_pos rfl]
    · have hne : x.1 ≠ y.1 := fun he => hy (Subtype.ext he ▸ hx)
      rw [ih (isObject_mergeName h) hks hx, member_mergeName_other h hne]

theorem getMemberNames_nodup : (Json.getMemberNames names).Nodup := by
  refine List.Nodup.map (fun x y he => ?_) (List.nodup_attach.mpr (Finset.sort_nodup _ _))
  exact Subtype.ext (Subtype.mk.inj he)

theorem mem_getMemberNames (x : {name // name ∈ names}) : x ∈ Json.getMemberNames names :=
  List.mem_map.mpr ⟨⟨x.1,(Finset.mem_sort _).mpr x.2⟩,List.mem_attach _ _,rfl⟩

/-- The members of a merged object. -/
theorem member_merge_some (h : lhs.isObject = true) (hr : rhs.member k = some r) :
    (merge lhs rhs).2.member k = some (mergeMember r (lhs.member k)) := by
  cases rhs with
  | value a => cases hr
  | object names values =>
    obtain ⟨hk,hvalue⟩ := Option.dite_none_right_eq_some.mp hr
    cases Option.some.inj hvalue
    rw [merge_object h]
    exact member_foldl_of_mem (x := ⟨k,hk⟩) h getMemberNames_nodup (mem_getMemberNames _)

theorem member_merge_none (h : lhs.isObject = true) (hr : rhs.member k = none) :
    (merge lhs rhs).2.member k = lhs.member k := by
  cases rhs with
  | value a => rw [merge_value]
  | object names values =>
    rw [merge_object h]
    refine member_foldl_of_notMem h fun x _ hx => ?_
    subst hx
    simp [Json.member] at hr

end Members

/-- What the merged object has of the right one and of the left one. -/
structure RightBiased (lhs rhs merged : Json α) : Prop where
  values : ∀ path v, rhs.atPath path = some v → v.isObject = false → merged.atPath path = some v
  members : ∀ path, (rhs.atPath path).isSome → (merged.atPath path).isSome
  unmentioned : ∀ path v, lhs.atPath path = some v → rhs.atPath path = none → merged.atPath path = some v

/-- Where the left object has an object, the right one has an object or nothing. -/
def NoConflict (lhs rhs : Json α) : Prop :=
  ∀ path l r, lhs.atPath path = some l → rhs.atPath path = some r → l.isObject = true → r.isObject = true

section Paths
variable {lhs rhs l r v : Json α} {name : String} {path : List String}

theorem atPath_cons_some (h : lhs.member name = some l) : lhs.atPath (name :: path) = l.atPath path := by
  rw [Json.atPath, h, Option.bind_some]

theorem atPath_cons_none (h : lhs.member name = none) : lhs.atPath (name :: path) = none := by
  rw [Json.atPath, h, Option.bind_none]

/-- Paths end at a value that is no object. -/
theorem eq_nil_of_atPath (h : l.isObject = false) (hpath : l.atPath path = some v) : path = [] := by
  cases path with
  | nil => rfl
  | cons name path =>
    cases l with
    | value a => cases hpath
    | object names values => cases h

theorem NoConflict.member (h : NoConflict lhs rhs) (hl : lhs.member name = some l)
    (hr : rhs.member name = some r) : NoConflict l r := by
  intro path l' r' hl' hr'
  exact h (name :: path) l' r' ((atPath_cons_some hl).trans hl') ((atPath_cons_some hr).trans hr')

/-- An object that is merged with an object is followed along a path. -/
theorem atPath_merge (hlhs : lhs.isObject = true) (hrhs : rhs.isObject = true) (h : NoConflict lhs rhs)
    (path : List String) :
    (∀ v, rhs.atPath path = some v → v.isObject = false → (merge lhs rhs).2.atPath path = some v) ∧
      ((rhs.atPath path).isSome → ((merge lhs rhs).2.atPath path).isSome) ∧
      ∀ v, lhs.atPath path = some v → rhs.atPath path = none → (merge lhs rhs).2.atPath path = some v := by
  induction path generalizing lhs rhs with
  | nil =>
    refine ⟨fun v hv hvalue => ?_,fun _ => rfl,fun v _ hnone => nomatch hnone⟩
    cases Option.some.inj hv
    exact absurd (hrhs.symm.trans hvalue) (by decide)
  | cons name path ih =>
    cases hr : rhs.member name with
    | none =>
      rw [atPath_cons_none hr, Json.atPath, Json.atPath, member_merge_none hlhs hr]
      exact ⟨nofun,nofun,fun v hv _ => hv⟩
    | some r =>
      have hmember := member_merge_some hlhs hr
      rw [atPath_cons_some hr, atPath_cons_some hmember]
      cases hl : lhs.member name with
      | none => exact ⟨fun v hv _ => hv,id,fun v hv => nomatch (atPath_cons_none hl).symm.trans hv⟩
      | some l =>
        rw [atPath_cons_some hl]
        dsimp only [mergeMember]
        by_cases hobject : l.isObject = true
        · rw [if_pos hobject]
          exact ih hobject (h [name] l r (atPath_cons_some hl) (atPath_cons_some hr) hobject)
            (h.member hl hr)
        · rw [if_neg hobject]
          refine ⟨fun v hv _ => hv,id,fun v hv hnone => ?_⟩
          rw [eq_nil_of_atPath (by simpa using hobject) hv] at hnone
          cases hnone

theorem rightBiased_merge (hlhs : lhs.isObject = true) (hrhs : rhs.isObject = true) (h : NoConflict lhs rhs) :
    RightBiased lhs rhs (merge lhs rhs).2 where
  values path := (atPath_merge hlhs hrhs h path).1
  members path := (atPath_merge hlhs hrhs h path).2.1
  unmentioned path := (atPath_merge hlhs hrhs h path).2.2

/-- The inner call that finds a conflict returns false and leaves the object of the left one. -/
theorem atPath_merge_conflict (hl : lhs.atPath path = some l) (hr : rhs.atPath path = some r)
    (hobject : l.isObject = true) (hvalue : r.isObject = false) :
    (merge lhs rhs).2.atPath path = some l := by
  induction path generalizing lhs rhs with
  | nil =>
    cases Option.some.inj hl
    cases Option.some.inj hr
    cases r with
    | value a => rw [merge_value]; rfl
    | object names values => cases hvalue
  | cons name path ih =>
    obtain ⟨l',hl',hlpath⟩ := Option.bind_eq_some_iff.mp hl
    obtain ⟨r',hr',hrpath⟩ := Option.bind_eq_some_iff.mp hr
    have hlhs : lhs.isObject = true := by
      cases lhs with
      | value a => cases hl'
      | object names values => rfl
    have hl'object : l'.isObject = true := by
      by_contra hno
      have hno : l'.isObject = false := by simpa using hno
      cases eq_nil_of_atPath hno hlpath
      cases Option.some.inj hlpath
      exact absurd (hobject.symm.trans hno) (by decide)
    rw [atPath_cons_some (member_merge_some hlhs hr'), hl', mergeMember, if_pos hl'object]
    exact ih hlpath hrpath

/-- A merge that returns true is a right-biased merge exactly if there is no conflict. -/
theorem rightBiased_iff (hlhs : lhs.isObject = true) (hrhs : rhs.isObject = true) :
    ((merge lhs rhs).1 = true → RightBiased lhs rhs (merge lhs rhs).2) ↔ NoConflict lhs rhs := by
  constructor
  · intro h path l r hl hr hobject
    by_contra hvalue
    have hvalue : r.isObject = false := by simpa using hvalue
    have hmerged := (h (merge_objects hlhs hrhs)).values path r hr hvalue
    cases (atPath_merge_conflict hl hr hobject hvalue).symm.trans hmerged
    exact absurd (hobject.symm.trans hvalue) (by decide)
  · exact fun h _ => rightBiased_merge hlhs hrhs h

end Paths

/-- `{"a": v}`. -/
def single (v : Json α) : Json α := (Json.object ∅ nofun).assign "a" v

theorem isObject_single (v : Json α) : (single v).isObject = true := rfl

theorem atPath_single (v : Json α) : (single v).atPath ["a"] = some v := by
  have hmember : (single v).member "a" = some v := (member_assign rfl).trans (if_pos rfl)
  rw [atPath_cons_some hmember]
  rfl

theorem rightBiased_iff_single : ((merge (single (.value 1)) (single (.value 5))).1 = true →
      RightBiased (single (.value 1)) (single (.value 5)) (merge (single (.value 1)) (single (.value 5))).2) ↔
    NoConflict (single (.value 1)) (single (.value 5)) :=
  rightBiased_iff (isObject_single _) (isObject_single _)

/-- `{"a": {"a": 1}}` and `{"a": 5}`: true is returned, and the 5 is nowhere. -/
theorem not_rightBiased_single :
    (merge (single (single (.value 1))) (single (.value 5))).1 = true ∧
      ¬ RightBiased (single (single (.value 1))) (single (.value 5))
        (merge (single (single (.value 1))) (single (.value 5))).2 := by
  refine ⟨merge_objects (isObject_single _) (isObject_single _),fun h => ?_⟩
  have hkept := atPath_merge_conflict (atPath_single (single (.value 1))) (atPath_single (.value 5)) rfl rfl
  cases hkept.symm.trans (h.values ["a"] (.value 5) (atPath_single _) rfl)

end JsonUtils

end Isml
