import Isml.Library.NodeList
import Mathlib.Data.Finmap

/-! # The finite map of a named list

What a named list is for: the map from the names of its elements to the elements.
Neither the order of the list nor the nodes can be seen in it.
-/
namespace NamedList
open NodeList
variable {κ α : Type*} {name : α → κ}

def entry (name : α → κ) (x : α) : Sigma fun _ : κ => α := ⟨name x,x⟩

variable [DecidableEq κ] {l l' : NamedList κ α}

def Indexed.toFinmap (h : l.Indexed name) : Finmap fun _ : κ => α where
  entries := (l.toList.map (entry name) : List (Sigma fun _ : κ => α))
  nodupKeys := by
    rw [Multiset.coe_nodupKeys, List.NodupKeys, List.keys, List.map_map]
    exact h.nodup

theorem Indexed.lookup_eq_some_iff (h : l.Indexed name) {key : κ} {x : α} :
    h.toFinmap.lookup key = some x ↔ x ∈ l.toList ∧ name x = key := by
  have hentry : h.toFinmap.lookup key = some x ↔ Sigma.mk key x ∈ l.toList.map (entry name) :=
    Finmap.lookup_eq_some_iff
  rw [hentry, List.mem_map]
  constructor
  · rintro ⟨y,hy,he⟩
    cases he
    exact ⟨hy,rfl⟩
  · rintro ⟨hx,rfl⟩
    exact ⟨x,hx,rfl⟩

/-- The index leads from a name to what the map has under it. -/
theorem Indexed.lookup_toFinmap (h : l.Indexed name) (key : κ) :
    h.toFinmap.lookup key = l.get key := by
  apply Option.ext
  intro x
  rw [h.lookup_eq_some_iff, h.get_eq_some_iff]

theorem Indexed.mem_toFinmap (h : l.Indexed name) (key : κ) :
    key ∈ h.toFinmap ↔ key ∈ l.toList.map name := by
  rw [Finmap.mem_iff, List.mem_map]
  exact exists_congr fun x => h.lookup_eq_some_iff

theorem Indexed.keys_toFinmap (h : l.Indexed name) :
    h.toFinmap.keys = (l.toList.map name).toFinset := by
  ext key
  rw [Finmap.mem_keys, h.mem_toFinmap, List.mem_toFinset]

theorem Indexed.card_keys (h : l.Indexed name) : h.toFinmap.keys.card = l.toList.length := by
  rw [h.keys_toFinmap, List.toFinset_card_of_nodup h.nodup, List.length_map]

theorem Indexed.toFinmap_eq_empty_iff (h : l.Indexed name) : h.toFinmap = ∅ ↔ l.toList = [] := by
  constructor
  · intro he
    rw [← List.length_eq_zero_iff, ← h.card_keys, he, Finmap.keys_empty, Finset.card_empty]
  · intro he
    apply Finmap.ext_lookup
    intro key
    rw [Finmap.lookup_empty, Finmap.lookup_eq_none, h.mem_toFinmap, he]
    exact List.not_mem_nil

/-- The same elements, in whatever order, make the same map. -/
theorem Indexed.toFinmap_congr (h : l.Indexed name) (h' : l'.Indexed name)
    (he : ∀ x, x ∈ l'.toList ↔ x ∈ l.toList) : h'.toFinmap = h.toFinmap := by
  apply Finmap.ext_lookup
  intro key
  apply Option.ext
  intro x
  rw [h.lookup_eq_some_iff, h'.lookup_eq_some_iff, he]

/-- One more element, under a name of its own. -/
theorem Indexed.toFinmap_insert (h : l.Indexed name) (h' : l'.Indexed name) {x : α}
    (hx : name x ∉ l.toList.map name) (he : ∀ y, y ∈ l'.toList ↔ y = x ∨ y ∈ l.toList) :
    h'.toFinmap = h.toFinmap.insert (name x) x := by
  apply Finmap.ext_lookup
  intro key
  apply Option.ext
  intro y
  rw [h'.lookup_eq_some_iff, he]
  by_cases hkey : key = name x
  · subst hkey
    rw [Finmap.lookup_insert, Option.some.injEq]
    constructor
    · rintro ⟨rfl | hy,hname⟩
      · rfl
      · exact absurd (hname ▸ List.mem_map_of_mem hy) hx
    · rintro rfl
      exact ⟨Or.inl rfl,rfl⟩
  · rw [Finmap.lookup_insert_of_ne _ hkey, h.lookup_eq_some_iff]
    constructor
    · rintro ⟨rfl | hy,hname⟩
      · exact absurd hname.symm hkey
      · exact ⟨hy,hname⟩
    · rintro ⟨hy,hname⟩
      exact ⟨Or.inr hy,hname⟩

theorem Indexed.toFinmap_add (h : l.Indexed name) (h' : l'.Indexed name) {x : α}
    (hx : name x ∉ l.toList.map name) (hl : l'.toList = insertBeforeLast x l.toList) :
    h'.toFinmap = h.toFinmap.insert (name x) x := by
  apply h.toFinmap_insert h' hx
  intro y
  rw [hl, (insertBeforeLast_perm x l.toList).mem_iff, List.mem_cons]

theorem Indexed.toFinmap_reverse (h : l.Indexed name) (h' : l'.Indexed name)
    (hl : l'.toList = l.toList.reverse) : h'.toFinmap = h.toFinmap := by
  apply h.toFinmap_congr h'
  intro x
  rw [hl, List.mem_reverse]

end NamedList
