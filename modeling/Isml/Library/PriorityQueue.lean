import Mathlib.Data.List.MinMax
import Mathlib.Data.List.Perm.Basic
import Mathlib.Order.Lattice

/-! # A priority queue that knows its entries by comparisons

The queue asks which of two entries is the greater one, and holds an entry at its head
that is least in every order the answers are true of. When they are true of no order the
queue still only permutes what it holds.
-/
namespace PriorityQueues

variable {α K R : Type*} [LinearOrder K]

/-- An answer: is the left entry greater than the right one? What was read to answer it is kept. -/
structure Comparison (α R : Type*) where
  left : α
  right : α
  reading : R
  greater : Bool

/-- The answers are those of the order by `key`. -/
def Agrees (key : α → K) (asked : List (Comparison α R)) : Prop :=
  ∀ c ∈ asked, c.greater = true ↔ key c.right < key c.left

@[simp] theorem agrees_nil (key : α → K) : Agrees key ([] : List (Comparison α R)) := by simp [Agrees]

theorem agrees_append {key : α → K} {asked more : List (Comparison α R)} :
    Agrees key (asked ++ more) ↔ Agrees key asked ∧ Agrees key more := by
  unfold Agrees
  rw [List.forall_mem_append]

/-- The entries, the top first, and the answers got since the queue was last empty. -/
structure PriorityQueue (α K R : Type*) [LinearOrder K] where
  items : List α
  asked : List (Comparison α R)
  ordered : ∀ key : α → K, Agrees key asked → ∀ top rest, items = top :: rest →
    ∀ a ∈ rest, key top ≤ key a

namespace PriorityQueue

def empty : PriorityQueue α K R := ⟨[],[],fun _ _ _ _ h => nomatch h⟩

def singleton (a : α) : PriorityQueue α K R where
  items := [a]
  asked := []
  ordered := by
    intro key _ top rest hitems b hb
    rw [← (List.cons.inj hitems).2] at hb
    cases hb

/-- The entry that is left of two. -/
def remaining (a : α) (asked : List (Comparison α R)) : PriorityQueue α K R where
  items := [a]
  asked := asked
  ordered := by
    intro key _ top rest hitems b hb
    rw [← (List.cons.inj hitems).2] at hb
    cases hb

variable {q q' : PriorityQueue α K R} {a b top : α} {rest : List α} {comparisons : List (Comparison α R)}
  {key : α → K}

theorem top_le (q : PriorityQueue α K R) (hagrees : Agrees key q.asked) (htop : q.items = top :: rest)
    (ha : a ∈ q.items) : key top ≤ key a := by
  rw [htop] at ha
  rcases List.mem_cons.mp ha with rfl | ha
  · exact le_rfl
  · exact q.ordered key hagrees top rest htop a ha

/-- Each comparison is one of two of these entries. -/
def Among (entries : List α) (comparisons : List (Comparison α R)) : Prop :=
  ∀ c ∈ comparisons, c.left ∈ entries ∧ c.right ∈ entries

@[simp] theorem among_nil (entries : List α) : Among entries ([] : List (Comparison α R)) := by
  simp [Among]

/-- `push` gets some comparisons answered and rearranges the entries. -/
structure Push (a : α) (comparisons : List (Comparison α R)) (q q' : PriorityQueue α K R) : Prop where
  perm : q'.items.Perm (a :: q.items)
  asked : q'.asked = q.asked ++ comparisons
  among : Among q'.items comparisons

/-- `pop` removes the top. -/
structure Pop (top : α) (comparisons : List (Comparison α R)) (q q' : PriorityQueue α K R) : Prop where
  perm : ∃ rest, q.items = top :: rest ∧ q'.items.Perm rest
  asked : q'.asked = if q'.items = [] then [] else q.asked ++ comparisons
  among : Among q.items comparisons

theorem Push.mem_iff (h : Push a comparisons q q') : b ∈ q'.items ↔ b = a ∨ b ∈ q.items := by
  rw [h.perm.mem_iff, List.mem_cons]

theorem Push.agrees (h : Push a comparisons q q') (hq : Agrees key q.asked)
    (hcomparisons : Agrees key comparisons) : Agrees key q'.asked := by
  rw [h.asked]
  exact agrees_append.mpr ⟨hq,hcomparisons⟩

theorem Push.mem_asked {c : Comparison α R} (h : Push a comparisons q q') :
    c ∈ q'.asked ↔ c ∈ q.asked ∨ c ∈ comparisons := by
  rw [h.asked, List.mem_append]

/-- A single entry is pushed and popped without a comparison. -/
theorem push_empty (a : α) : Push a [] (empty : PriorityQueue α K R) (singleton a) :=
  ⟨List.Perm.refl _,rfl,among_nil _⟩

theorem pop_singleton (a : α) : Pop a [] (singleton a : PriorityQueue α K R) empty :=
  ⟨⟨[],rfl,List.Perm.refl _⟩,rfl,among_nil _⟩

/-- The comparisons of the entries that stay with a least one of them let that one come to the top. -/
theorem exists_pop {L : Type*} [LinearOrder L] (f : α → L) (reading : R)
    (htop : q.items = top :: rest) : ∃ comparisons q', Pop top comparisons q q' ∧
      ∀ c ∈ comparisons, c.reading = reading ∧ c.greater = false ∧ f c.left ≤ f c.right := by
  by_cases hrest : rest = []
  · subst hrest
    exact ⟨[],empty,⟨⟨[],htop,List.Perm.refl _⟩,rfl,among_nil _⟩,by simp⟩
  · obtain ⟨least,hmem,hleast⟩ : ∃ least ∈ rest, ∀ a ∈ rest, f least ≤ f a := by
      have hsome : rest.argmin f ≠ none := fun h => hrest (List.argmin_eq_none.mp h)
      obtain ⟨least,hleast⟩ := Option.ne_none_iff_exists'.mp hsome
      exact ⟨least,List.argmin_mem hleast,fun a ha => List.le_of_mem_argmin ha hleast⟩
    obtain ⟨xs,ys,rfl⟩ := List.append_of_mem hmem
    let comparisons : List (Comparison α R) := (xs ++ ys).map fun a => ⟨least,a,reading,false⟩
    let q' : PriorityQueue α K R :=
      { items := least :: (xs ++ ys)
        asked := q.asked ++ comparisons
        ordered := by
          intro key hagrees first others hitems a ha
          obtain ⟨rfl,rfl⟩ := List.cons.inj hitems
          have hasked := (agrees_append.mp hagrees).2 ⟨least,a,reading,false⟩ (List.mem_map_of_mem ha)
          exact not_lt.mp fun hlt => Bool.false_ne_true (hasked.mpr hlt) }
    have hstays : ∀ a ∈ xs ++ ys, a ∈ xs ++ least :: ys := by
      intro a ha
      rw [List.mem_append, List.mem_cons]
      exact (List.mem_append.mp ha).imp_right Or.inr
    refine ⟨comparisons,q',⟨⟨_,htop,List.perm_middle.symm⟩,(if_neg (List.cons_ne_nil _ _)).symm,?_⟩,?_⟩
    · intro c hc
      obtain ⟨a,ha,rfl⟩ := List.mem_map.mp hc
      rw [htop]
      exact ⟨List.mem_cons_of_mem _ hmem,List.mem_cons_of_mem _ (hstays a ha)⟩
    · intro c hc
      obtain ⟨a,ha,rfl⟩ := List.mem_map.mp hc
      exact ⟨rfl,rfl,hleast a (hstays a ha)⟩

theorem Pop.perm_cons (h : Pop top comparisons q q') : q.items.Perm (top :: q'.items) := by
  obtain ⟨rest,hitems,hrest⟩ := h.perm
  rw [hitems]
  exact List.Perm.cons top hrest.symm

theorem Pop.mem_of_mem (h : Pop top comparisons q q') (ha : a ∈ q'.items) : a ∈ q.items :=
  h.perm_cons.mem_iff.mpr (List.mem_cons_of_mem _ ha)

theorem Pop.mem_asked {c : Comparison α R} (h : Pop top comparisons q q') (hc : c ∈ q'.asked) :
    c ∈ q.asked ∨ c ∈ comparisons := by
  rw [h.asked] at hc
  split_ifs at hc
  · cases hc
  · exact List.mem_append.mp hc

theorem Pop.agrees (h : Pop top comparisons q q') (hq : Agrees key q.asked)
    (hcomparisons : Agrees key comparisons) : Agrees key q'.asked := by
  rw [h.asked]
  split_ifs
  · exact agrees_nil key
  · exact agrees_append.mpr ⟨hq,hcomparisons⟩

end PriorityQueue

end PriorityQueues
