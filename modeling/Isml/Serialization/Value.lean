import Mathlib.Data.List.Forall2
import Mathlib.Data.List.Perm.Basic

/-! # Contents of C++ objects and the containers with unique keys

Arithmetic objects and enumerators are bit patterns. A container is the list of
its elements in iteration order; that order means nothing in a hashed container,
so the elements of one are kept apart in `bag`. `Same` is equality of contents up
to the iteration order of hashed containers, at any depth.
-/
namespace Isml

inductive Val where
  | bits (n : ℕ)
  | pair (a b : Val)
  | absent
  | present (v : Val)
  | items (l : List Val)
  | bag (l : List Val)
  deriving Repr

def Val.toBits : Val → ℕ
  | .bits n => n
  | _ => 0

def Val.first : Val → Val
  | .pair a _ => a
  | _ => .absent

def Val.second : Val → Val
  | .pair _ b => b
  | _ => .absent

def Val.elements : Val → List Val
  | .items l => l
  | .bag l => l
  | _ => []

inductive Same : Val → Val → Prop
  | bits (n : ℕ) : Same (.bits n) (.bits n)
  | pair {a a' b b' : Val} : Same a a' → Same b b' → Same (.pair a b) (.pair a' b')
  | absent : Same .absent .absent
  | present {v v' : Val} : Same v v' → Same (.present v) (.present v')
  | items {l l' : List Val} : List.Forall₂ Same l l' → Same (.items l) (.items l')
  | bag {l m l' : List Val} : l.Perm m → List.Forall₂ Same m l' → Same (.bag l) (.bag l')

theorem Same.first {v w : Val} (h : Same v w) : Same v.first w.first := by
  cases h with
  | pair ha _ => exact ha
  | _ => exact Same.absent

theorem Same.second {v w : Val} (h : Same v w) : Same v.second w.second := by
  cases h with
  | pair _ hb => exact hb
  | _ => exact Same.absent

theorem Same.toBits {v w : Val} (h : Same v w) : v.toBits = w.toBits := by
  cases h <;> rfl

theorem Same.length {v w : Val} (h : Same v w) : v.elements.length = w.elements.length := by
  cases h with
  | items hl => exact hl.length_eq
  | bag hp hl => exact hp.length_eq.trans hl.length_eq
  | _ => rfl

private theorem forall₂_mem {α β : Type} {R : α → β → Prop} {l : List α} {l' : List β}
    (h : List.Forall₂ R l l') {y : α} (hy : y ∈ l) : ∃ z ∈ l', R y z := by
  induction h with
  | nil => simp at hy
  | cons hab _ ih =>
    rcases List.mem_cons.mp hy with rfl | hy
    · exact ⟨_,List.mem_cons_self,hab⟩
    · obtain ⟨z,hz,hs⟩ := ih hy
      exact ⟨z,List.mem_cons_of_mem _ hz,hs⟩

/-- Every element of a container has its match on the other side. -/
theorem Same.mem_right {v w : Val} (h : Same v w) {y : Val} (hy : y ∈ w.elements) :
    ∃ x ∈ v.elements, Same x y := by
  cases h with
  | items hl => exact forall₂_mem hl.flip hy
  | bag hp hl =>
    obtain ⟨x,hx,hs⟩ := forall₂_mem hl.flip hy
    exact ⟨x,hp.symm.subset hx,hs⟩
  | bits | pair | absent | present => cases hy

theorem Same.refl : ∀ v : Val, Same v v
  | .bits n => .bits n
  | .pair a b => .pair (Same.refl a) (Same.refl b)
  | .absent => .absent
  | .present v => .present (Same.refl v)
  | .items l => .items (List.forall₂_same.mpr fun x _ => Same.refl x)
  | .bag l => .bag (List.Perm.refl l) (List.forall₂_same.mpr fun x _ => Same.refl x)

theorem forall₂_symm_of_mem {α : Type} {R : α → α → Prop} {l l' : List α}
    (hR : ∀ x ∈ l, ∀ {y}, R x y → R y x) (h : List.Forall₂ R l l') : List.Forall₂ R l' l := by
  induction h with
  | nil => exact .nil
  | cons hab _ ih =>
    exact .cons (hR _ List.mem_cons_self hab) (ih fun x hx => hR x (List.mem_cons_of_mem _ hx))

theorem forall₂_trans_of_mem {α : Type} {R : α → α → Prop} {l m l' : List α}
    (hR : ∀ x ∈ l, ∀ {y z}, R x y → R y z → R x z) (h : List.Forall₂ R l m)
    (h' : List.Forall₂ R m l') : List.Forall₂ R l l' := by
  induction h generalizing l' with
  | nil => exact h'
  | cons hab _ ih =>
    cases h' with
    | cons hbc hrest =>
      exact .cons (hR _ List.mem_cons_self hab hbc)
        (ih (fun x hx => hR x (List.mem_cons_of_mem _ hx)) hrest)

/-- A matched list can be put into the order of either side. -/
private theorem forall₂_perm {α : Type} {R : α → α → Prop} {l m m' : List α}
    (h : List.Forall₂ R l m) (hp : m.Perm m') : ∃ l', l.Perm l' ∧ List.Forall₂ R l' m' := by
  have hcomp : Relation.Comp (List.Forall₂ R) List.Perm l m' := ⟨m,h,hp⟩
  rw [List.forall₂_comp_perm_eq_perm_comp_forall₂] at hcomp
  exact hcomp

theorem Same.symm : ∀ {v w : Val}, Same v w → Same w v
  | _, _, .bits n => .bits n
  | _, _, .pair ha hb => .pair ha.symm hb.symm
  | _, _, .absent => .absent
  | _, _, .present h => .present h.symm
  | .items l, _, .items hl => .items (forall₂_symm_of_mem (fun x _ _ h => Same.symm h) hl)
  | .bag l, _, .bag hp hl => by
    have hback := forall₂_symm_of_mem (fun x hx _ h =>
      have hmem : x ∈ l := hp.symm.subset hx
      Same.symm h) hl
    obtain ⟨l',hp',hl'⟩ := forall₂_perm hback hp.symm
    exact .bag hp' hl'
termination_by v => v

theorem Same.trans : ∀ {u v w : Val}, Same u v → Same v w → Same u w
  | _, _, _, .bits n, .bits _ => .bits n
  | _, _, _, .pair ha hb, .pair ha' hb' => .pair (ha.trans ha') (hb.trans hb')
  | _, _, _, .absent, .absent => .absent
  | _, _, _, .present h, .present h' => .present (h.trans h')
  | .items l, _, _, .items hl, .items hl' =>
    .items (forall₂_trans_of_mem (fun x _ _ _ h h' => Same.trans h h') hl hl')
  | .bag l, _, _, .bag hp hl, .bag hp' hl' => by
    obtain ⟨m,hm,hml⟩ := forall₂_perm hl hp'
    exact .bag (hp.trans hm) (forall₂_trans_of_mem (fun x hx _ _ h h' =>
      have hmem : x ∈ l := (hp.trans hm).symm.subset hx
      Same.trans h h') hml hl')
termination_by u => u

/-- The order of an ordered container: `Compare`, a strict order that does not look
at the iteration order of hashed containers inside the keys. -/
structure KeyCompare where
  name : String
  less : Val → Val → Bool
  less_asymm : ∀ {a b : Val}, less a b = true → less b a = false
  less_congr : ∀ {a a' b b' : Val}, Same a a' → Same b b' → less a b = less a' b'

/-- The key equality of a hashed container together with the iteration order its
hash table gives to a list of elements; every order is allowed. -/
structure KeyHash where
  name : String
  equal : Val → Val → Bool
  equal_symm : ∀ a b : Val, equal a b = equal b a
  equal_congr : ∀ {a a' b b' : Val}, Same a a' → Same b b' → equal a b = equal a' b'
  spread : List Val → List Val
  spread_perm : ∀ l, (spread l).Perm l

inductive KeyPolicy where
  | ordered (c : KeyCompare)
  | hashed (h : KeyHash)

namespace KeyPolicy

def name : KeyPolicy → String
  | .ordered c => c.name
  | .hashed h => h.name

def container : KeyPolicy → List Val → Val
  | .ordered _, l => .items l
  | .hashed _, l => .bag l

@[simp] theorem elements_container (p : KeyPolicy) (l : List Val) :
    (p.container l).elements = l := by
  cases p <;> rfl

/-- `insert` of an ordered container: before the first greater key, and not at all
when an equivalent key is present. -/
def insertOrdered (less : Val → Val → Bool) (key : Val → Val) (x : Val) : List Val → List Val
  | [] => [x]
  | y :: ys =>
    if less (key x) (key y) then x :: y :: ys
    else if less (key y) (key x) then y :: insertOrdered less key x ys
    else y :: ys

/-- `container.insert(x)`; `key` is the identity for a set and `first` for a map. -/
def insert (p : KeyPolicy) (key : Val → Val) (x : Val) (l : List Val) : List Val :=
  match p with
  | .ordered c => insertOrdered c.less key x l
  | .hashed h => if l.any (fun y => h.equal (key y) (key x)) then l else h.spread (l ++ [x])

/-- The keys of a container: ascending in an ordered one, pairwise different in a
hashed one. -/
def Distinct (p : KeyPolicy) (key : Val → Val) (l : List Val) : Prop :=
  match p with
  | .ordered c => l.Pairwise (fun x y => c.less (key x) (key y) = true)
  | .hashed h => l.Pairwise (fun x y => h.equal (key x) (key y) = false)

/-- Two element lists that make containers with the same contents. -/
def Agree (p : KeyPolicy) (l l' : List Val) : Prop :=
  match p with
  | .ordered _ => List.Forall₂ Same l l'
  | .hashed _ => ∃ m, l.Perm m ∧ List.Forall₂ Same m l'

theorem agree_nil (p : KeyPolicy) : p.Agree [] [] := by
  cases p with
  | ordered c => exact .nil
  | hashed h => exact ⟨[],List.Perm.refl [],.nil⟩

theorem Agree.same {p : KeyPolicy} {l l' : List Val} (h : p.Agree l l') :
    Same (p.container l) (p.container l') := by
  cases p with
  | ordered c => exact .items h
  | hashed c =>
    obtain ⟨m,hp,hm⟩ := h
    exact .bag hp hm

theorem insertOrdered_last {less : Val → Val → Bool} {key : Val → Val} {x : Val} {l : List Val}
    (hasymm : ∀ {a b}, less a b = true → less b a = false)
    (h : ∀ y ∈ l, less (key y) (key x) = true) : insertOrdered less key x l = l ++ [x] := by
  induction l with
  | nil => rfl
  | cons y ys ih =>
    have hy := h y List.mem_cons_self
    have hys := ih (fun z hz => h z (List.mem_cons_of_mem y hz))
    simp [insertOrdered, hasymm hy, hy, hys]

/-- Inserting the next element of a container in its own order adds it, also when
the elements inserted so far are only the same as those of the container. -/
theorem insert_agree (p : KeyPolicy) {key : Val → Val}
    (hkey : ∀ {v w}, Same v w → Same (key v) (key w)) {l xs : List Val} {x' x : Val}
    (hl : p.Agree l xs) (hx : Same x' x) (hd : p.Distinct key (xs ++ [x])) :
    p.Agree (p.insert key x' l) (xs ++ [x]) := by
  cases p with
  | ordered c =>
    have hlt : ∀ z ∈ xs, c.less (key z) (key x) = true := by
      intro z hz
      exact (List.pairwise_append.mp hd).2.2 z hz x (List.mem_singleton_self x)
    have hlast : ∀ y ∈ l, c.less (key y) (key x') = true := by
      intro y hy
      obtain ⟨z,hz,hs⟩ := forall₂_mem hl hy
      rw [c.less_congr (hkey hs) (hkey hx)]
      exact hlt z hz
    change List.Forall₂ Same (insertOrdered c.less key x' l) (xs ++ [x])
    rw [insertOrdered_last c.less_asymm hlast]
    exact List.rel_append hl (.cons hx .nil)
  | hashed h =>
    obtain ⟨m,hp,hm⟩ := hl
    have hne : ∀ z ∈ xs, h.equal (key z) (key x) = false := by
      intro z hz
      exact (List.pairwise_append.mp hd).2.2 z hz x (List.mem_singleton_self x)
    have hnew : l.any (fun y => h.equal (key y) (key x')) = false := by
      apply List.any_eq_false.mpr
      intro y hy
      obtain ⟨z,hz,hs⟩ := forall₂_mem hm (hp.subset hy)
      rw [h.equal_congr (hkey hs) (hkey hx), hne z hz]
      exact Bool.false_ne_true
    change ∃ m', (if l.any _ then l else h.spread (l ++ [x'])).Perm m' ∧ _
    rw [hnew, if_neg Bool.false_ne_true]
    exact ⟨m ++ [x'],(h.spread_perm _).trans (hp.append_right [x']),
      List.rel_append hm (.cons hx .nil)⟩

theorem insert_length_le (p : KeyPolicy) (key : Val → Val) (x : Val) (l : List Val) :
    (p.insert key x l).length ≤ l.length + 1 := by
  cases p with
  | ordered c =>
    show (insertOrdered c.less key x l).length ≤ l.length + 1
    induction l with
    | nil => simp [insertOrdered]
    | cons y ys ih =>
      unfold insertOrdered
      split_ifs
      · exact Nat.le_refl _
      · exact Nat.succ_le_succ ih
      · exact Nat.le_succ _
  | hashed c =>
    simp only [insert]
    split_ifs
    · exact Nat.le_succ _
    · rw [(c.spread_perm _).length_eq, List.length_append]
      exact Nat.le_refl _

theorem mem_insert (p : KeyPolicy) (key : Val → Val) {x y : Val} {l : List Val}
    (h : y ∈ p.insert key x l) : y = x ∨ y ∈ l := by
  cases p with
  | ordered c =>
    change y ∈ insertOrdered c.less key x l at h
    induction l with
    | nil => exact Or.inl (List.mem_singleton.mp h)
    | cons z zs ih =>
      unfold insertOrdered at h
      split_ifs at h
      · exact List.mem_cons.mp h
      · rcases List.mem_cons.mp h with rfl | h
        · exact Or.inr List.mem_cons_self
        · exact (ih h).imp_right (List.mem_cons_of_mem z)
      · exact Or.inr h
  | hashed c =>
    simp only [insert] at h
    split_ifs at h
    · exact Or.inr h
    · rcases List.mem_append.mp ((c.spread_perm _).subset h) with h | h
      · exact Or.inr h
      · exact Or.inl (List.mem_singleton.mp h)

theorem insert_ne_nil (p : KeyPolicy) (key : Val → Val) (x : Val) (l : List Val) :
    p.insert key x l ≠ [] := by
  cases p with
  | ordered c =>
    cases l with
    | nil => simp [insert, insertOrdered]
    | cons y ys =>
      simp only [insert, insertOrdered]
      split
      · simp
      · split <;> simp
  | hashed h =>
    simp only [insert]
    split
    · intro hnil
      simp [hnil] at *
    · intro hnil
      have hlen := (h.spread_perm (l ++ [x])).length_eq
      simp [hnil] at hlen

end KeyPolicy

end Isml
