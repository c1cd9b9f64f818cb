import Isml.Io.JsonUtils
import Mathlib.Data.List.Dedup

/-! # Layers of JSON objects

Objects merged one after the other, as the files of a configuration are. A merge is associative and
has the empty object for its unit; an object that is merged again later makes no difference where it
was merged before. All of this holds with conflicts, where the object wins over what is no object.
-/
namespace Isml.JsonUtils

variable {α : Type}

/-- `merge`, but a left value that is no object gives way, as it does under a name. -/
def overlay (l r : Json α) : Json α := mergeMember r (some l)

/-- What is under a name after a merge. -/
def combine : Option (Json α) → Option (Json α) → Option (Json α)
  | l,none => l
  | l,some r => some (mergeMember r l)

/-- `{}`. -/
def emptyObject : Json α := .object ∅ nofun

@[simp] theorem isObject_emptyObject : (emptyObject : Json α).isObject = true := rfl

/-- The objects are merged into the left one in turn, and what the calls return is not looked at. -/
def mergeAll (lhs : Json α) (layers : List (Json α)) : Json α :=
  layers.foldl (fun lhs rhs => (merge lhs rhs).2) lhs

section Members
variable {a b c l r : Json α} {k : String}

theorem overlay_object (h : a.isObject = true) : overlay a b = (merge a b).2 := if_pos h

theorem overlay_of_not_isObject (h : a.isObject = false) : overlay a b = b := by
  simp [overlay, mergeMember, h]

/-- What is no object is not merged into an object. -/
theorem overlay_value (ha : a.isObject = true) (hb : b.isObject = false) : overlay a b = a := by
  cases b with
  | value v => rw [overlay_object ha, merge_value]
  | object names values => cases hb

theorem isObject_mergeNames {names : Finset String} {values : {name // name ∈ names} → Json α}
    (ks : List {name // name ∈ names}) (h : a.isObject = true) :
    (ks.foldl (mergeName values) a).isObject = true := by
  induction ks generalizing a with
  | nil => exact h
  | cons x ks ih => exact ih (isObject_mergeName h)

theorem isObject_overlay (h : a.isObject = true) : (overlay a b).isObject = true := by
  cases b with
  | value v => rw [overlay_value h rfl]; exact h
  | object names values => rw [overlay_object h, merge_object h]; exact isObject_mergeNames _ h

theorem isObject_merge (h : a.isObject = true) : (merge a b).2.isObject = true :=
  overlay_object h ▸ isObject_overlay h

theorem member_overlay (h : a.isObject = true) (k : String) :
    (overlay a b).member k = combine (a.member k) (b.member k) := by
  rw [overlay_object h]
  cases hb : b.member k with
  | none => exact member_merge_none h hb
  | some r => exact member_merge_some h hb

@[simp] theorem combine_none_left (r : Option (Json α)) : combine none r = r := by
  cases r <;> rfl

@[simp] theorem combine_none_right (l : Option (Json α)) : combine l none = l := rfl

@[simp] theorem combine_some (l r : Json α) : combine (some l) (some r) = some (overlay l r) := rfl

/-- Objects are equal that have the same under every name. -/
theorem eq_of_members (ha : a.isObject = true) (hb : b.isObject = true)
    (h : ∀ k, a.member k = b.member k) : a = b := by
  cases a with
  | value v => cases ha
  | object names values =>
    cases b with
    | value v => cases hb
    | object names' values' =>
      have hnames : names = names' := by
        ext k
        have hk := congrArg Option.isSome (h k)
        by_cases hn : k ∈ names <;> by_cases hn' : k ∈ names' <;> simp_all [Json.member]
      subst hnames
      have hvalues : values = values' := by
        funext k
        have hk := h k.1
        simpa [Json.member] using hk
      rw [hvalues]

/-- Induction over an object and everything that is in it under some name. -/
theorem member_induction {P : Json α → Prop}
    (h : ∀ a : Json α, (∀ k l, a.member k = some l → P l) → P a) (a : Json α) : P a := by
  induction a with
  | value v => exact h _ nofun
  | object names values ih =>
    refine h _ fun k l hl => ?_
    obtain ⟨hk,hvalue⟩ := Option.dite_none_right_eq_some.mp hl
    cases Option.some.inj hvalue
    exact ih ⟨k,hk⟩

end Members

section Laws

theorem overlay_self (a : Json α) : overlay a a = a := by
  induction a using member_induction with
  | h a ih =>
    cases ha : a.isObject with
    | false => exact overlay_of_not_isObject ha
    | true =>
      refine eq_of_members (isObject_overlay ha) ha fun k => ?_
      rw [member_overlay ha]
      cases hl : a.member k with
      | none => simp
      | some l => rw [combine_some, ih k l hl]

theorem overlay_assoc (a b c : Json α) : overlay (overlay a b) c = overlay a (overlay b c) := by
  induction a using member_induction generalizing b c with
  | h a ih =>
    cases ha : a.isObject with
    | false => rw [overlay_of_not_isObject ha, overlay_of_not_isObject ha]
    | true =>
      cases hb : b.isObject with
      | false => rw [overlay_value ha hb, overlay_of_not_isObject hb]
      | true =>
        cases hc : c.isObject with
        | false => rw [overlay_value (isObject_overlay ha) hc, overlay_value hb hc]
        | true =>
          have hab : (overlay a b).isObject = true := isObject_overlay ha
          refine eq_of_members (isObject_overlay hab) (isObject_overlay ha) fun k => ?_
          rw [member_overlay hab, member_overlay ha, member_overlay ha, member_overlay hb]
          cases hl : a.member k with
          | none => simp
          | some l =>
            cases b.member k with
            | none => simp
            | some l' =>
              cases c.member k with
              | none => simp
              | some l'' => simp [ih k l hl]

/-- What comes back later need not have been there. -/
theorem overlay_overlay_self (a b : Json α) : overlay a (overlay b a) = overlay b a := by
  induction a using member_induction generalizing b with
  | h a ih =>
    cases ha : a.isObject with
    | false => exact overlay_of_not_isObject ha
    | true =>
      cases hb : b.isObject with
      | false => rw [overlay_of_not_isObject hb, overlay_self]
      | true =>
        refine eq_of_members (isObject_overlay ha) (isObject_overlay hb) fun k => ?_
        rw [member_overlay ha, member_overlay hb]
        cases hl : a.member k with
        | none => simp
        | some l =>
          cases b.member k with
          | none => simp [overlay_self]
          | some l' => simp [ih k l hl]

theorem emptyObject_overlay {a : Json α} (h : a.isObject = true) : overlay emptyObject a = a := by
  refine eq_of_members (isObject_overlay rfl) h fun k => ?_
  rw [member_overlay rfl]
  exact combine_none_left _

theorem overlay_emptyObject {a : Json α} (h : a.isObject = true) : overlay a emptyObject = a := by
  refine eq_of_members (isObject_overlay h) h fun k => ?_
  rw [member_overlay h]
  exact combine_none_right _

end Laws

/-- Of JSON objects `merge` makes a monoid in which a factor can be left out wherever it comes again
behind. -/
theorem merge_laws {a b : Json α} (ha : a.isObject = true) (hb : b.isObject = true) (c : Json α) :
    (merge a b).1 = true ∧ (merge a b).2.isObject = true ∧
      (merge (merge a b).2 c).2 = (merge a (merge b c).2).2 ∧
      (merge a (merge b a).2).2 = (merge b a).2 ∧
      (merge emptyObject a).2 = a ∧ (merge a emptyObject).2 = a := by
  refine ⟨merge_objects ha hb,isObject_merge ha,?_,?_,?_,?_⟩
  · rw [← overlay_object ha, ← overlay_object (isObject_overlay ha), overlay_assoc, overlay_object ha,
      overlay_object hb]
  · rw [← overlay_object hb, ← overlay_object ha, overlay_overlay_self]
  · exact (overlay_object rfl).symm.trans (emptyObject_overlay ha)
  · exact (overlay_object ha).symm.trans (overlay_emptyObject ha)

/-- `{"a": 1}`, `{"a": {"a": 1}}` and `{"a": 2}`. -/
theorem merge_laws_single :
    (merge (merge (single (.value 1)) (single (single (.value 1)))).2 (single (.value 2))).2 =
      (merge (single (.value 1)) (merge (single (single (.value 1))) (single (.value 2))).2).2 :=
  (merge_laws (isObject_single (.value 1)) (isObject_single (single (.value 1)))
    (single (.value 2))).2.2.1

section Layers
variable {ι : Type} {layer : ι → Json α} {lhs : Json α}

theorem mergeAll_overlay {lhs : Json α} (h : lhs.isObject = true) (layers : List (Json α)) :
    mergeAll lhs layers = layers.foldl overlay lhs := by
  induction layers generalizing lhs with
  | nil => rfl
  | cons rhs layers ih =>
    rw [List.foldl_cons, ← ih (isObject_overlay h), overlay_object h]
    rfl

/-- The layers make one object that could be merged at once. -/
theorem foldl_overlay (lhs : Json α) {rhs : Json α} (layers : List (Json α)) :
    (rhs :: layers).foldl overlay lhs = overlay lhs (layers.foldl overlay rhs) := by
  induction layers generalizing lhs rhs with
  | nil => rfl
  | cons r layers ih =>
    rw [List.foldl_cons, ih, ih, overlay_assoc]

/-- A layer that is there behind can be left out. -/
theorem foldl_overlay_of_mem {i : ι} {names : List ι} (h : i ∈ names) (lhs : Json α) :
    ((i :: names).map layer).foldl overlay lhs = (names.map layer).foldl overlay lhs := by
  obtain ⟨before,behind,rfl⟩ := List.append_of_mem h
  have hi : ∀ lhs : Json α, (before.map layer).foldl overlay (overlay lhs (layer i)) =
      overlay lhs ((before.map layer).foldl overlay (layer i)) := fun lhs => foldl_overlay lhs _
  simp only [List.map_cons, List.map_append, List.foldl_cons, List.foldl_append]
  rw [hi]
  cases hbefore : before.map layer with
  | nil => simp [overlay_assoc, overlay_self]
  | cons r rs =>
    rw [foldl_overlay, foldl_overlay, overlay_assoc, overlay_assoc, overlay_assoc, overlay_overlay_self,
      ← overlay_assoc]

theorem foldl_overlay_dedup [DecidableEq ι] (names : List ι) (lhs : Json α) :
    (names.map layer).foldl overlay lhs = (names.dedup.map layer).foldl overlay lhs := by
  induction names generalizing lhs with
  | nil => rfl
  | cons i names ih =>
    by_cases h : i ∈ names
    · rw [foldl_overlay_of_mem h, List.dedup_cons_of_mem h, ih]
    · rw [List.dedup_cons_of_notMem h, List.map_cons, List.map_cons, List.foldl_cons, List.foldl_cons, ih]

theorem isObject_mergeAll (h : lhs.isObject = true) (layers : List (Json α)) :
    (mergeAll lhs layers).isObject = true := by
  induction layers generalizing lhs with
  | nil => exact h
  | cons rhs layers ih => exact ih (isObject_merge h)

/-- Of a layer that is merged more than once only the last time counts, and layers can be merged with
each other before they are merged into the rest. -/
theorem mergeAll_layers [DecidableEq ι] (layer : ι → Json α) (h : lhs.isObject = true) (names : List ι) :
    mergeAll lhs (names.map layer) = mergeAll lhs (names.dedup.map layer) ∧
      ∀ first rest, names = first ++ rest → mergeAll lhs (names.map layer) =
        (merge (mergeAll lhs (first.map layer)) (mergeAll emptyObject (rest.map layer))).2 := by
  refine ⟨by rw [mergeAll_overlay h, mergeAll_overlay h, foldl_overlay_dedup],?_⟩
  rintro first rest rfl
  have hfirst := isObject_mergeAll h (first.map layer)
  have hrest : (rest.map layer).foldl overlay (mergeAll lhs (first.map layer)) =
      overlay (mergeAll lhs (first.map layer)) ((rest.map layer).foldl overlay emptyObject) := by
    rw [← foldl_overlay, List.foldl_cons, overlay_emptyObject hfirst]
  rw [← overlay_object hfirst, mergeAll_overlay isObject_emptyObject, ← hrest, mergeAll_overlay h,
    mergeAll_overlay h, List.map_append, List.foldl_append]

theorem mergeAll_layers_single :
    mergeAll emptyObject ([true,false,true].map fun i => single (.value i)) =
      mergeAll emptyObject ([true,false,true].dedup.map fun i => single (.value i)) :=
  (mergeAll_layers (fun i => single (.value i)) rfl [true,false,true]).1

end Layers

end Isml.JsonUtils
