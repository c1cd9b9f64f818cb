import Mathlib.Algebra.GroupWithZero.Nat
import Mathlib.Data.List.Basic
import Mathlib.Data.List.Perm.Basic

/-! # Threads as a list of the places they are at

Which thread is which does not matter to a program whose threads run the same code, so
a set of threads is the list of the places they have reached. A step of one thread
replaces one entry of the list.
-/
namespace Threads

variable {α β : Type*}

/-- One thread goes from `a` to `b`. -/
inductive Moves (a b : α) : List α → List α → Prop
  | intro (xs ys : List α) : Moves a b (xs ++ a :: ys) (xs ++ b :: ys)

namespace Moves
variable {a b c : α} {l l' : List α}

theorem alone (a b : α) : Moves a b [a] [b] := intro [] []

theorem left_mem (h : Moves a b l l') : a ∈ l := by
  cases h
  simp

theorem right_mem (h : Moves a b l l') : b ∈ l' := by
  cases h
  simp

theorem mem_or (h : Moves a b l l') (hc : c ∈ l) : c = a ∨ c ∈ l' := by
  cases h
  simp only [List.mem_append, List.mem_cons] at hc ⊢
  tauto

theorem mem_or_of_mem (h : Moves a b l l') (hc : c ∈ l') : c = b ∨ c ∈ l := by
  cases h
  simp only [List.mem_append, List.mem_cons] at hc ⊢
  tauto

theorem mem_of_ne (h : Moves a b l l') (hc : c ∈ l) (hne : c ≠ a) : c ∈ l' :=
  (h.mem_or hc).resolve_left hne

theorem not_mem (h : Moves a b l l') (hc : c ∉ l) (hne : c ≠ b) : c ∉ l' :=
  fun hc' => (h.mem_or_of_mem hc').elim hne hc

theorem exists_of_mem (ha : a ∈ l) (b : α) : ∃ l', Moves a b l l' := by
  obtain ⟨xs,ys,rfl⟩ := List.append_of_mem ha
  exact ⟨xs ++ b :: ys,intro xs ys⟩

theorem length_eq (h : Moves a b l l') : l'.length = l.length := by
  cases h
  simp

/-- Where there is one thread it is the one that moves. -/
theorem singleton (h : Moves a b [c] l') : c = a ∧ l' = [b] := by
  generalize hc : [c] = l at h
  cases h with
  | intro xs ys =>
    obtain ⟨rfl,rfl⟩ : xs = [] ∧ ys = [] := by
      have hlen : xs.length + (ys.length + 1) = 1 := by
        rw [← List.length_cons, ← List.length_append, ← hc, List.length_singleton]
      exact ⟨List.eq_nil_of_length_eq_zero (by omega),List.eq_nil_of_length_eq_zero (by omega)⟩
    exact ⟨List.head_eq_of_cons_eq hc,rfl⟩

theorem countP_eq (h : Moves a b l l') (p : α → Bool) :
    l'.countP p + (p a).toNat = l.countP p + (p b).toNat := by
  cases h
  simp only [List.countP_append, List.countP_cons]
  cases p a <;> cases p b <;> simp <;> omega

/-- A sum of what each place counts for changes by the two places. -/
theorem sum_map_eq (h : Moves a b l l') (f : α → ℕ) : (l'.map f).sum + f a = (l.map f).sum + f b := by
  cases h
  simp only [List.map_append, List.map_cons, List.sum_append, List.sum_cons]
  omega

/-- What the threads hold together changes by what the one that moved holds. -/
theorem flatMap_perm (h : Moves a b l l') (f : α → List β) :
    (l'.flatMap f ++ f a).Perm (l.flatMap f ++ f b) := by
  cases h with
  | intro xs ys =>
    simp only [List.flatMap_append, List.flatMap_cons, List.append_assoc]
    refine List.Perm.append_left _ ?_
    calc (f b ++ (ys.flatMap f ++ f a)).Perm (f b ++ (f a ++ ys.flatMap f)) :=
          List.Perm.append_left _ List.perm_append_comm
      List.Perm _ (f a ++ (f b ++ ys.flatMap f)) := List.perm_append_comm_assoc _ _ _
      List.Perm _ (f a ++ (ys.flatMap f ++ f b)) := List.Perm.append_left _ List.perm_append_comm

theorem flatMap_perm_of_eq (h : Moves a b l l') {f : α → List β} (hf : f a = f b) :
    (l'.flatMap f).Perm (l.flatMap f) := by
  have hall := h.flatMap_perm f
  rw [hf] at hall
  exact (List.perm_append_right_iff _).mp hall

end Moves

end Threads
