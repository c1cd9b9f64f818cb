import Mathlib.Data.List.AList
import Mathlib.Data.List.Rotate

/-! # Node lists with stable iterators, and an index of names over one

A node keeps its identity for as long as it is in the list, so an iterator stays
valid while other nodes come and go. An index maps the name of an element to the
iterator that was returned when it was inserted; `Indexed` says that the two
containers describe the same elements.
-/

/-- An element is found by a key that no other element has. -/
theorem List.find?_of_nodup_map {α κ : Type*} [DecidableEq κ] {key : α → κ} {l : List α}
    (hnd : (l.map key).Nodup) {x : α} (hx : x ∈ l) : l.find? (fun y => key y = key x) = some x := by
  induction l with
  | nil => simp at hx
  | cons y ys ih =>
    rw [List.map_cons, List.nodup_cons] at hnd
    rcases List.mem_cons.mp hx with rfl | hx
    · simp
    · have hne : key y ≠ key x := fun he => hnd.1 (he ▸ List.mem_map_of_mem hx)
      simpa [hne] using ih hnd.2 hx

/-- Without duplicates, turning a list around changes it from two elements on. -/
theorem List.reverse_eq_self_iff_length_le {α : Type*} {l : List α} (hnd : l.Nodup) :
    l.reverse = l ↔ l.length ≤ 1 := by
  constructor
  · intro h
    by_contra hlt
    have hfirst : l.reverse[0]? = l[0]? := by rw [h]
    rw [List.getElem?_reverse (by omega)] at hfirst
    have hidx := (List.getElem?_inj (by omega) hnd).mp hfirst
    omega
  · intro h
    rcases l with _ | ⟨x,_ | ⟨y,l⟩⟩
    · rfl
    · rfl
    · simp at h

/-- An iterator is the identity of a node, or `none` for `end()`. -/
abbrev NodeList.Iterator := Option ℕ

structure NodeList (α : Type*) where
  nodes : List (ℕ × α)
  next : ℕ
  nodup : (nodes.map Prod.fst).Nodup
  fresh : ∀ p ∈ nodes, p.1 < next

namespace NodeList
variable {α : Type*}

def empty : NodeList α := ⟨[],0,by simp,by simp⟩

def toList (l : NodeList α) : List α := l.nodes.map Prod.snd

def begin (l : NodeList α) : Iterator := l.nodes.head?.map Prod.fst

/-- `l.empty() ? l.begin() : std::prev(l.end())`. -/
def lastOrBegin (l : NodeList α) : Iterator := l.nodes.getLast?.map Prod.fst

def deref (l : NodeList α) (it : Iterator) : Option α :=
  (l.nodes.find? fun p => some p.1 = it).map Prod.snd

def insertNode (it : Iterator) (node : ℕ × α) : List (ℕ × α) → List (ℕ × α)
  | [] => [node]
  | p :: ps => if some p.1 = it then node :: p :: ps else p :: insertNode it node ps

theorem insertNode_perm (it : Iterator) (node : ℕ × α) (l : List (ℕ × α)) :
    (insertNode it node l).Perm (node :: l) := by
  induction l with
  | nil => exact List.Perm.refl _
  | cons p ps ih =>
    rw [insertNode]
    split
    · exact List.Perm.refl _
    · exact (ih.cons p).trans (List.Perm.swap node p ps)

/-- `l.insert(it, x)`: a new node before the one `it` points to, and the iterator to it. -/
def insert (l : NodeList α) (it : Iterator) (x : α) : Iterator × NodeList α :=
  (some l.next,
    { nodes := insertNode it (l.next,x) l.nodes
      next := l.next + 1
      nodup := by
        have hnew : l.next ∉ l.nodes.map Prod.fst := by
          intro h
          obtain ⟨p,hp,he⟩ := List.mem_map.mp h
          exact absurd (l.fresh p hp) (by omega)
        have hp := (insertNode_perm it (l.next,x) l.nodes).map Prod.fst
        exact hp.nodup_iff.mpr (List.nodup_cons.mpr ⟨hnew,l.nodup⟩)
      fresh := by
        intro p hp
        rcases List.mem_cons.mp ((insertNode_perm it (l.next,x) l.nodes).subset hp) with rfl | hp
        · exact Nat.lt_succ_self _
        · exact Nat.lt_succ_of_lt (l.fresh p hp) })

theorem map_fst_zipWith (nodes : List (ℕ × α)) (xs : List α) :
    (List.zipWith (fun p x => (p.1,x)) nodes xs).map Prod.fst =
      (nodes.map Prod.fst).take xs.length := by
  induction nodes generalizing xs with
  | nil => simp
  | cons p ps ih => cases xs <;> simp [ih]

/-- The same nodes with new contents. -/
def withContents (l : NodeList α) (xs : List α) : NodeList α where
  nodes := List.zipWith (fun p x => (p.1,x)) l.nodes xs
  next := l.next
  nodup := by
    rw [map_fst_zipWith]
    exact l.nodup.sublist (List.take_sublist _ _)
  fresh := by
    intro p hp
    have hfst := List.mem_map_of_mem (f := Prod.fst) hp
    rw [map_fst_zipWith] at hfst
    obtain ⟨q,hq,he⟩ := List.mem_map.mp (List.mem_of_mem_take hfst)
    exact he ▸ l.fresh q hq

@[simp] theorem toList_empty : (empty : NodeList α).toList = [] := rfl

theorem toList_withContents (l : NodeList α) {xs : List α} (h : xs.length = l.toList.length) :
    (l.withContents xs).toList = xs := by
  have hlen : xs.length = l.nodes.length := by simpa [toList] using h
  apply List.ext_getElem
  · simp [toList, withContents, hlen]
  · intro i h1 h2
    simp [toList, withContents]

/-- Inserting before `begin()` puts the element first; the iterator returned is the
new `begin()`. -/
theorem insert_begin (l : NodeList α) (x : α) :
    (l.insert l.begin x).2.toList = x :: l.toList ∧
      (l.insert l.begin x).2.begin = (l.insert l.begin x).1 := by
  rcases hl : l.nodes with _ | ⟨p,ps⟩
  · simp [insert, insertNode, toList, begin, hl]
  · simp [insert, insertNode, toList, begin, hl]

/-- `xs` with `x` put before its last element. -/
def insertBeforeLast (x : α) : List α → List α
  | [] => [x]
  | [y] => [x,y]
  | y :: z :: ys => y :: insertBeforeLast x (z :: ys)

theorem insertBeforeLast_append (x y : α) (xs : List α) :
    insertBeforeLast x (xs ++ [y]) = xs ++ [x,y] := by
  induction xs with
  | nil => rfl
  | cons z xs ih =>
    cases xs with
    | nil => rfl
    | cons z' xs => simp only [List.cons_append, insertBeforeLast] at ih ⊢; rw [ih]

theorem insertBeforeLast_perm (x : α) (xs : List α) : (insertBeforeLast x xs).Perm (x :: xs) := by
  rcases List.eq_nil_or_concat xs with rfl | ⟨ys,y,rfl⟩
  · exact List.Perm.refl _
  · rw [List.concat_eq_append, insertBeforeLast_append]
    exact List.perm_middle

/-- An addition takes its name from those that are still to come. -/
theorem nodup_insertBeforeLast {κ : Type*} {name : α → κ} {x : α} {xs : List α} {rest : List κ}
    (h : (xs.map name ++ name x :: rest).Nodup) :
    name x ∉ xs.map name ∧ ((insertBeforeLast x xs).map name ++ rest).Nodup := by
  have hperm : ((insertBeforeLast x xs).map name ++ rest).Perm (xs.map name ++ name x :: rest) := by
    have hfront := ((insertBeforeLast_perm x xs).map name).append_right rest
    exact hfront.trans List.perm_middle.symm
  refine ⟨?_,hperm.nodup_iff.mpr h⟩
  intro hmem
  exact (List.nodup_cons.mp (List.nodup_middle.mp h)).1 (List.mem_append_left rest hmem)

/-- Elements added one after the other, each before the last: the first of them stays last. -/
theorem foldl_insertBeforeLast (xs : List α) :
    xs.foldl (fun l x => insertBeforeLast x l) [] = xs.rotate 1 := by
  have hstep : ∀ (ys zs : List α) (x : α),
      zs.foldl (fun l z => insertBeforeLast z l) (ys ++ [x]) = ys ++ zs ++ [x] := by
    intro ys zs x
    induction zs generalizing ys with
    | nil => simp
    | cons z zs ih =>
      have hz : ys ++ [z,x] = (ys ++ [z]) ++ [x] := by simp
      rw [List.foldl_cons, insertBeforeLast_append, hz, ih]
      simp
  cases xs with
  | nil => rfl
  | cons x xs => simpa [insertBeforeLast] using hstep [] xs x

theorem insertNode_last {it : ℕ} {ps : List (ℕ × α)} (y x : α) (node : ℕ)
    (h : it ∉ ps.map Prod.fst) :
    insertNode (some it) (node,x) (ps ++ [(it,y)]) = ps ++ [(node,x),(it,y)] := by
  induction ps with
  | nil => simp [insertNode]
  | cons p ps ih =>
    rw [List.map_cons, List.mem_cons, not_or] at h
    have hp : some p.1 ≠ some it := fun he => h.1 (Option.some.inj he).symm
    rw [List.cons_append, insertNode, if_neg hp, ih h.2, List.cons_append]

theorem toList_insert_lastOrBegin (l : NodeList α) (x : α) :
    (l.insert l.lastOrBegin x).2.toList = insertBeforeLast x l.toList := by
  rcases List.eq_nil_or_concat l.nodes with hl | ⟨ps,q,hl⟩
  · simp [insert, insertNode, toList, hl, insertBeforeLast]
  · rw [List.concat_eq_append] at hl
    have hlast : l.lastOrBegin = some q.1 := by simp [lastOrBegin, hl]
    have hq : q.1 ∉ ps.map Prod.fst := by
      have hnd := l.nodup
      rw [hl, List.map_append, List.nodup_append] at hnd
      intro hmem
      exact hnd.2.2 q.1 hmem q.1 (by simp) rfl
    have hnodes := insertNode_last q.2 x l.next hq
    simp only [insert, toList, hlast, hl, hnodes, List.map_append, List.map_cons, List.map_nil,
      insertBeforeLast_append]

theorem mem_insert_nodes (l : NodeList α) (it : Iterator) (x : α) (p : ℕ × α) :
    p ∈ (l.insert it x).2.nodes ↔ p = (l.next,x) ∨ p ∈ l.nodes := by
  exact (insertNode_perm it (l.next,x) l.nodes).mem_iff.trans List.mem_cons

theorem insert_perm (l : NodeList α) (it : Iterator) (x : α) :
    (l.insert it x).2.toList.Perm (x :: l.toList) :=
  (insertNode_perm it (l.next,x) l.nodes).map Prod.snd

theorem deref_of_mem {l : NodeList α} {p : ℕ × α} (hp : p ∈ l.nodes) :
    l.deref (some p.1) = some p.2 := by
  have hfind := List.find?_of_nodup_map l.nodup hp
  simp only [deref, Option.some.injEq, hfind, Option.map_some]

end NodeList

/-- A list together with an index from the names of its elements to their nodes. -/
structure NamedList (κ α : Type*) where
  items : NodeList α
  byName : AList (fun _ : κ => NodeList.Iterator)

namespace NamedList
open NodeList
variable {κ α : Type*} [DecidableEq κ]

def empty : NamedList κ α := ⟨NodeList.empty,∅⟩

def toList (l : NamedList κ α) : List α := l.items.toList

/-- An index insertion changes nothing when the key is there already. -/
def addKey (m : AList (fun _ : κ => Iterator)) (key : κ) (it : Iterator) :
    AList (fun _ : κ => Iterator) :=
  if key ∈ m then m else m.insert key it

/-- `it = items.insert(it, x); byName.insert({key, it});` -/
def insertAt (key : κ) (x : α) (it : Iterator) (l : NamedList κ α) : Iterator × NamedList κ α :=
  let r := l.items.insert it x
  (r.1,⟨r.2,addKey l.byName key r.1⟩)

/-- The addition both lists of the program make: before the last element, unless the
name is taken. -/
def add (key : κ) (x : α) (l : NamedList κ α) : Option (NamedList κ α) :=
  if key ∈ l.byName then none else some (insertAt key x l.items.lastOrBegin l).2

/-- One turn of the copying loop, whose iterator is the one the last insertion returned. -/
def copyStep (name : α → κ) (clone : α → α) (st : Iterator × NamedList κ α) (x : α) :
    Iterator × NamedList κ α :=
  insertAt (name x) (clone x) st.1 st.2

def copy (name : α → κ) (clone : α → α) (l : NamedList κ α) : NamedList κ α :=
  (l.toList.foldl (copyStep name clone) ((empty : NamedList κ α).items.begin,empty)).2

def get (l : NamedList κ α) (key : κ) : Option α := (l.byName.lookup key).bind l.items.deref

def withContents (l : NamedList κ α) (xs : List α) : NamedList κ α :=
  ⟨l.items.withContents xs,l.byName⟩

/-- The names are pairwise different and the index leads from each of them, and from
nothing else, to the element that has it. -/
structure Indexed (name : α → κ) (l : NamedList κ α) : Prop where
  nodup : (l.toList.map name).Nodup
  lookup : ∀ key it, l.byName.lookup key = some it ↔ ∃ p ∈ l.items.nodes, name p.2 = key ∧ it = some p.1

variable {name : α → κ} {l : NamedList κ α}

theorem indexed_empty (name : α → κ) : (empty : NamedList κ α).Indexed name := by
  constructor
  · simp [empty, toList]
  · intro key it
    simp [empty, NodeList.empty]

theorem Indexed.mem_byName (h : l.Indexed name) (key : κ) :
    key ∈ l.byName ↔ key ∈ l.toList.map name := by
  rw [← AList.lookup_isSome, Option.isSome_iff_exists]
  constructor
  · rintro ⟨it,hit⟩
    obtain ⟨p,hp,hname,_⟩ := (h.lookup key it).mp hit
    exact List.mem_map.mpr ⟨p.2,List.mem_map_of_mem hp,hname⟩
  · intro hmem
    obtain ⟨x,hx,hname⟩ := List.mem_map.mp hmem
    obtain ⟨p,hp,rfl⟩ := List.mem_map.mp hx
    exact ⟨some p.1,(h.lookup key _).mpr ⟨p,hp,hname,rfl⟩⟩

/-- Inserting an element under a name of its own, wherever that is in the list. -/
theorem Indexed.insertAt (h : l.Indexed name) {x : α} (hx : name x ∉ l.toList.map name)
    (it : Iterator) : (NamedList.insertAt (name x) x it l).2.Indexed name := by
  have hkey : name x ∉ l.byName := fun hmem => hx ((h.mem_byName _).mp hmem)
  constructor
  · have hperm := (l.items.insert_perm it x).map name
    exact hperm.nodup_iff.mpr (List.nodup_cons.mpr ⟨hx,h.nodup⟩)
  · intro key it'
    simp only [NamedList.insertAt, addKey, if_neg hkey, mem_insert_nodes]
    by_cases he : key = name x
    · subst he
      rw [AList.lookup_insert]
      constructor
      · intro hit
        exact ⟨(l.items.next,x),Or.inl rfl,rfl,(Option.some.inj hit).symm⟩
      · rintro ⟨p,rfl | hp,hname,rfl⟩
        · rfl
        · exact absurd (List.mem_map.mpr ⟨p.2,List.mem_map_of_mem hp,hname⟩) hx
    · rw [AList.lookup_insert_ne he, h.lookup]
      constructor
      · rintro ⟨p,hp,hname,hit⟩
        exact ⟨p,Or.inr hp,hname,hit⟩
      · rintro ⟨p,rfl | hp,hname,hit⟩
        · exact absurd hname.symm he
        · exact ⟨p,hp,hname,hit⟩

theorem Indexed.add (h : l.Indexed name) {x : α} {l' : NamedList κ α}
    (hadd : NamedList.add (name x) x l = some l') : l'.Indexed name := by
  unfold NamedList.add at hadd
  split at hadd
  · cases hadd
  · rename_i hkey
    cases hadd
    exact h.insertAt (fun hmem => hkey ((h.mem_byName _).mpr hmem)) _

/-- An addition under a free name, seen on the elements alone. -/
theorem add_of_notMem (h : l.Indexed name) {x : α} (hx : name x ∉ l.toList.map name) :
    ∃ l', NamedList.add (name x) x l = some l' ∧ l'.toList = insertBeforeLast x l.toList := by
  have hkey : name x ∉ l.byName := fun hmem => hx ((h.mem_byName _).mp hmem)
  exact ⟨_,if_neg hkey,l.items.toList_insert_lastOrBegin x⟩

theorem add_of_mem (h : l.Indexed name) {x : α} (hx : name x ∈ l.toList.map name) :
    NamedList.add (name x) x l = none :=
  if_pos ((h.mem_byName _).mpr hx)

section Copy
variable {clone : α → α} (hclone : ∀ x, name (clone x) = name x)
include hclone

/-- The copying loop inserts each element in front of the ones before it. -/
theorem foldl_copyStep (xs : List α) {it : Iterator} {m : NamedList κ α} (hm : m.Indexed name)
    (hit : it = m.items.begin) (hnd : (xs.map name ++ m.toList.map name).Nodup) :
    (xs.foldl (copyStep name clone) (it,m)).2.Indexed name ∧
      (xs.foldl (copyStep name clone) (it,m)).2.toList = (xs.map clone).reverse ++ m.toList := by
  induction xs generalizing it m with
  | nil => exact ⟨hm,rfl⟩
  | cons x xs ih =>
    subst hit
    obtain ⟨hlist,hbegin⟩ := m.items.insert_begin (clone x)
    rw [List.map_cons, List.cons_append, List.nodup_cons, List.mem_append, not_or] at hnd
    have hstep : copyStep name clone (m.items.begin,m) x =
        NamedList.insertAt (name (clone x)) (clone x) m.items.begin m := by
      rw [copyStep, hclone]
    have hnew := hm.insertAt (x := clone x) (by rw [hclone]; exact hnd.1.2) m.items.begin
    have hrest : (xs.map name ++
        (NamedList.insertAt (name (clone x)) (clone x) m.items.begin m).2.toList.map name).Nodup := by
      change (xs.map name ++ (m.items.insert m.items.begin (clone x)).2.toList.map name).Nodup
      rw [hlist, List.map_cons, hclone]
      exact List.nodup_middle.mpr (List.nodup_cons.mpr ⟨by simpa [toList] using hnd.1,hnd.2⟩)
    obtain ⟨hi,hl⟩ := ih hnew hbegin.symm hrest
    rw [List.foldl_cons, hstep]
    refine ⟨hi,hl.trans ?_⟩
    change _ ++ (m.items.insert m.items.begin (clone x)).2.toList = _
    rw [hlist, List.map_cons, List.reverse_cons, List.append_assoc]
    rfl

theorem Indexed.copy (h : l.Indexed name) : (NamedList.copy name clone l).Indexed name :=
  (foldl_copyStep hclone l.toList (indexed_empty name) rfl
    (by simpa [NamedList.empty, toList] using h.nodup)).1

/-- The copy has the elements in the opposite order. -/
theorem toList_copy (h : l.Indexed name) :
    (NamedList.copy name clone l).toList = (l.toList.map clone).reverse := by
  have hl := (foldl_copyStep hclone l.toList (indexed_empty name) rfl
    (by simpa [NamedList.empty, toList] using h.nodup)).2
  rw [NamedList.copy, hl]
  simp [NamedList.empty, toList]

end Copy

/-- The index finds the element of the list that has the name. -/
theorem Indexed.get_eq_find (h : l.Indexed name) (key : κ) :
    l.get key = l.toList.find? (fun x => name x = key) := by
  unfold get
  cases hl : l.byName.lookup key with
  | none =>
    have hkey : key ∉ l.toList.map name := by
      rw [← h.mem_byName]
      exact AList.lookup_eq_none.mp hl
    symm
    rw [Option.bind_none, List.find?_eq_none]
    intro x hx hname
    exact hkey (List.mem_map.mpr ⟨x,hx,by simpa using hname⟩)
  | some it =>
    obtain ⟨p,hp,hname,rfl⟩ := (h.lookup key it).mp hl
    rw [Option.bind_some, deref_of_mem hp, ← hname]
    exact (List.find?_of_nodup_map h.nodup (List.mem_map_of_mem hp)).symm

theorem Indexed.get_eq_some_iff (h : l.Indexed name) {key : κ} {x : α} :
    l.get key = some x ↔ x ∈ l.toList ∧ name x = key := by
  rw [h.get_eq_find]
  constructor
  · intro hx
    exact ⟨List.mem_of_find?_eq_some hx,by simpa using List.find?_some hx⟩
  · rintro ⟨hx,rfl⟩
    exact List.find?_of_nodup_map h.nodup hx

omit [DecidableEq κ] in
theorem exists_zipWith_iff {nodes : List (ℕ × α)} {xs : List α}
    (h : xs.map name = nodes.map fun p => name p.2) (key : κ) (it : Iterator) :
    (∃ p ∈ List.zipWith (fun p x => (p.1,x)) nodes xs, name p.2 = key ∧ it = some p.1) ↔
      ∃ p ∈ nodes, name p.2 = key ∧ it = some p.1 := by
  induction nodes generalizing xs with
  | nil => simp
  | cons p ps ih =>
    cases xs with
    | nil => simp at h
    | cons x xs =>
      rw [List.map_cons, List.map_cons, List.cons.injEq] at h
      simp only [List.zipWith_cons_cons, List.exists_mem_cons_iff, ih h.2, h.1]

theorem Indexed.withContents (h : l.Indexed name) {xs : List α}
    (hxs : xs.map name = l.toList.map name) : (l.withContents xs).Indexed name := by
  have hlen : xs.length = l.items.toList.length := by
    simpa [toList] using congrArg List.length hxs
  constructor
  · change ((l.items.withContents xs).toList.map name).Nodup
    rw [toList_withContents l.items hlen, hxs]
    exact h.nodup
  · intro key it
    change l.byName.lookup key = some it ↔ _
    rw [h.lookup]
    exact (exists_zipWith_iff (hxs.trans (List.map_map ..)) key it).symm

end NamedList
