import Mathlib.Logic.Function.Basic

/-! # Objects that are copied, moved and swapped

A class of objects is what its methods do to one object and what copies, moves and
swaps do to two. A store has objects under any number of names, and operations on
it follow one another. A map of the objects that commutes with every operation
carries runs of one class to runs of another, result by result.
-/

/-- `M` are the calls of methods with their arguments, `R` what a caller gets back. -/
structure ObjectClass (M R α : Type*) where
  call : M → α → Option R × α
  ofCopy : α → α
  copyAssign : α → α → α
  /-- The new object and what is left of the other. -/
  ofMove : α → α × α
  moveAssign : α → α → α × α
  swap : α → α → α × α

namespace ObjectClass
variable {ι M R α β : Type*}

/-- The first name is that of the object constructed, assigned to or called. -/
inductive Op (ι M : Type*)
  | call (i : ι) (m : M)
  | ofCopy (i j : ι)
  | copyAssign (i j : ι)
  | ofMove (i j : ι)
  | moveAssign (i j : ι)
  | swap (i j : ι)

namespace Op

/-- The names of the objects that the operation may change. -/
def writes : Op ι M → List ι
  | call i _ => [i]
  | ofCopy i _ => [i]
  | copyAssign i _ => [i]
  | ofMove i j => [i,j]
  | moveAssign i j => [i,j]
  | swap i j => [i,j]

end Op

section Store
variable [DecidableEq ι]

def putPair (i j : ι) (p : α × α) (s : ι → α) : ι → α :=
  Function.update (Function.update s j p.2) i p.1

/-- Assignment operators leave an object assigned to itself alone. -/
def step (c : ObjectClass M R α) : Op ι M → (ι → α) → Option R × (ι → α)
  | .call i m,s => ((c.call m (s i)).1,Function.update s i (c.call m (s i)).2)
  | .ofCopy i j,s => (none,Function.update s i (c.ofCopy (s j)))
  | .copyAssign i j,s =>
    (none,if i = j then s else Function.update s i (c.copyAssign (s i) (s j)))
  | .ofMove i j,s => (none,putPair i j (c.ofMove (s j)) s)
  | .moveAssign i j,s => (none,if i = j then s else putPair i j (c.moveAssign (s i) (s j)) s)
  | .swap i j,s => (none,putPair i j (c.swap (s i) (s j)) s)

/-- The results of the operations, and the store after them. -/
def run (c : ObjectClass M R α) : List (Op ι M) → (ι → α) → List (Option R) × (ι → α)
  | [],s => ([],s)
  | op :: ops,s =>
    let (r,s) := c.step op s
    let (rs,s) := c.run ops s
    (r :: rs,s)

variable (c : ObjectClass M R α)

theorem run_cons (op : Op ι M) (ops : List (Op ι M)) (s : ι → α) :
    c.run (op :: ops) s =
      ((c.step op s).1 :: (c.run ops (c.step op s).2).1,(c.run ops (c.step op s).2).2) := rfl

theorem run_append (ops later : List (Op ι M)) (s : ι → α) :
    (c.run (ops ++ later) s).2 = (c.run later (c.run ops s).2).2 := by
  induction ops generalizing s with
  | nil => rfl
  | cons op ops ih =>
    rw [List.cons_append, run_cons, run_cons]
    exact ih _

theorem update_of_notMem {i k : ι} (a : α) (s : ι → α) (h : k ∉ [i]) :
    Function.update s i a k = s k :=
  Function.update_of_ne (List.ne_of_not_mem_cons h) _ _

theorem putPair_of_notMem {i j k : ι} (p : α × α) (s : ι → α) (h : k ∉ [i,j]) :
    putPair i j p s k = s k := by
  simp only [List.mem_cons, List.not_mem_nil, or_false, not_or] at h
  unfold putPair
  rw [Function.update_of_ne h.1, Function.update_of_ne h.2]

/-- An operation leaves the objects it does not write to as they are. -/
theorem step_frame {op : Op ι M} {k : ι} (h : k ∉ op.writes) (s : ι → α) :
    (c.step op s).2 k = s k := by
  cases op with
  | call i m => exact update_of_notMem _ s h
  | ofCopy i j => exact update_of_notMem _ s h
  | copyAssign i j =>
    by_cases hij : i = j
    · simp only [step, if_pos hij]
    · simp only [step, if_neg hij]
      exact update_of_notMem _ s h
  | ofMove i j => exact putPair_of_notMem _ s h
  | moveAssign i j =>
    by_cases hij : i = j
    · simp only [step, if_pos hij]
    · simp only [step, if_neg hij]
      exact putPair_of_notMem _ s h
  | swap i j => exact putPair_of_notMem _ s h

theorem run_frame {ops : List (Op ι M)} {k : ι} (h : ∀ op ∈ ops, k ∉ op.writes) (s : ι → α) :
    (c.run ops s).2 k = s k := by
  induction ops generalizing s with
  | nil => rfl
  | cons op ops ih =>
    rw [List.forall_mem_cons] at h
    rw [run_cons]
    exact (ih h.2 _).trans (c.step_frame h.1 s)

end Store

/-- The map `f` takes the objects of one class to those of another, whose operations do
the same. -/
structure Respects (c : ObjectClass M R α) (d : ObjectClass M R β) (f : α → β) : Prop where
  call : ∀ m a, d.call m (f a) = ((c.call m a).1,f (c.call m a).2)
  ofCopy : ∀ a, d.ofCopy (f a) = f (c.ofCopy a)
  copyAssign : ∀ a b, d.copyAssign (f a) (f b) = f (c.copyAssign a b)
  ofMove : ∀ a, d.ofMove (f a) = Prod.map f f (c.ofMove a)
  moveAssign : ∀ a b, d.moveAssign (f a) (f b) = Prod.map f f (c.moveAssign a b)
  swap : ∀ a b, d.swap (f a) (f b) = Prod.map f f (c.swap a b)

section Refinement
variable [DecidableEq ι] {c : ObjectClass M R α} {d : ObjectClass M R β} {f : α → β}

theorem update_map (f : α → β) (s : ι → α) (i : ι) (a : α) :
    Function.update (fun k => f (s k)) i (f a) = fun k => f (Function.update s i a k) :=
  (Function.comp_update f s i a).symm

theorem putPair_map (f : α → β) (i j : ι) (p : α × α) (s : ι → α) :
    putPair i j (Prod.map f f p) (fun k => f (s k)) = fun k => f (putPair i j p s k) := by
  unfold putPair
  rw [Prod.map_fst, Prod.map_snd, update_map, update_map]

theorem Respects.step (h : c.Respects d f) (op : Op ι M) (s : ι → α) :
    d.step op (fun k => f (s k)) = ((c.step op s).1,fun k => f ((c.step op s).2 k)) := by
  cases op with
  | call i m => simp only [ObjectClass.step, h.call, update_map]
  | ofCopy i j => simp only [ObjectClass.step, h.ofCopy, update_map]
  | copyAssign i j =>
    by_cases hij : i = j
    · simp only [ObjectClass.step, if_pos hij]
    · simp only [ObjectClass.step, if_neg hij, h.copyAssign, update_map]
  | ofMove i j => simp only [ObjectClass.step, h.ofMove, putPair_map]
  | moveAssign i j =>
    by_cases hij : i = j
    · simp only [ObjectClass.step, if_pos hij]
    · simp only [ObjectClass.step, if_neg hij, h.moveAssign, putPair_map]
  | swap i j => simp only [ObjectClass.step, h.swap, putPair_map]

/-- The results of a run are those of the other class, and so are the objects it ends with. -/
theorem Respects.run (h : c.Respects d f) (ops : List (Op ι M)) (s : ι → α) :
    d.run ops (fun k => f (s k)) = ((c.run ops s).1,fun k => f ((c.run ops s).2 k)) := by
  induction ops generalizing s with
  | nil => rfl
  | cons op ops ih => rw [run_cons, run_cons, h.step, ih]

end Refinement

end ObjectClass
