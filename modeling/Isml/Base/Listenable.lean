import Isml.Base.Exceptions
import Mathlib.Data.List.Basic
import Mathlib.Logic.Function.Basic

/-! # `Listenable`

`invoke` forwards the same arguments to each listener. An argument is an expression for an object of
the caller; when it is an rvalue, a parameter that is a new object is made of what is in that object
and leaves something else there. A listener cannot change an argument through its parameters.
-/
namespace Isml

/-- A parameter is passed by value, or it is a reference-to-const, which is bound to the argument
or, when that is of another type, to a temporary. -/
inductive Parameter where
  | value
  | reference
  | referenceToTemporary
  deriving DecidableEq, Repr

/-- An argument names an object. It counts as an rvalue if a move constructor takes it. -/
structure Argument (ι : Type) where
  object : ι
  rvalue : Bool
  parameter : Parameter

/-- A call of the member function, with what its parameters were made of. -/
structure ListenerCall (L α : Type) where
  listener : L
  arguments : List α

/-- The objects of the caller, and the calls that were made. -/
structure Invocation (ι L α : Type) where
  objects : ι → α
  calls : List (ListenerCall L α)

variable {ι L α : Type}

/-- A new object is made of the argument, which may be moved from. -/
def Argument.consumed (a : Argument ι) : Bool := a.rvalue && decide (a.parameter ≠ .reference)

namespace Listenable

def hasListeners (listeners : List L) : Bool := !listeners.isEmpty

/-- A null pointer is not added. -/
def addListener (listener : Option L) (listeners : List L) : Result (List L) :=
  match listener with
  | none => raise (.invalidArgument "Listener is null")
  | some listener => .ok (listeners ++ [listener])

section Invoke
variable [DecidableEq ι] (moved : ι → α → α)

/-- One parameter is initialized; `moved` is what a move leaves of an object. -/
def passArgument (a : Argument ι) (objects : ι → α) : α × (ι → α) :=
  (objects a.object,
    if a.consumed then Function.update objects a.object (moved a.object (objects a.object)) else objects)

/-- The parameters are initialized in the order of the list, which the language leaves open. -/
def passArguments : List (Argument ι) → (ι → α) → List α × (ι → α)
  | [],objects => ([],objects)
  | a :: args,objects =>
    let (x,objects) := passArgument moved a objects
    let (xs,objects) := passArguments args objects
    (x :: xs,objects)

/-- A call of the member function for one listener, which may throw. -/
def callAction (throws : List (ListenerCall L α) → Bool) (args : List (Argument ι)) (listener : L)
    (s : Invocation ι L α) : Except (Invocation ι L α) (Invocation ι L α) :=
  let (arguments,objects) := passArguments moved args s.objects
  let s := ⟨objects,s.calls ++ [⟨listener,arguments⟩]⟩
  if throws s.calls then .error s else .ok s

/-- The loop of `invoke`. -/
def invokeEach (throws : List (ListenerCall L α) → Bool) (args : List (Argument ι)) :
    List L → Invocation ι L α → Except (Invocation ι L α) (Invocation ι L α)
  | [],s => .ok s
  | listener :: listeners,s =>
    match callAction moved throws args listener s with
    | .ok s => invokeEach throws args listeners s
    -- `catch (...)`
    | .error s => invokeEach throws args listeners s

def invoke (throws : List (ListenerCall L α) → Bool) (args : List (Argument ι)) (listeners : List L)
    (s : Invocation ι L α) : Except (Invocation ι L α) (Invocation ι L α) :=
  if hasListeners listeners then invokeEach moved throws args listeners s else .ok s

/-- `invoke` returns, and has called each listener once, in order, with the original arguments. -/
def SameForAll (throws : List (ListenerCall L α) → Bool) (args : List (Argument ι)) (listeners : List L)
    (objects : ι → α) : Prop :=
  ∃ s, invoke moved throws args listeners ⟨objects,[]⟩ = .ok s ∧
    s.calls = listeners.map fun listener => ⟨listener,args.map fun a => objects a.object⟩

/-- Passing the argument leaves its object other than it was. -/
def Changes (objects : ι → α) (a : Argument ι) : Prop :=
  a.consumed = true ∧ moved a.object (objects a.object) ≠ objects a.object

/-- No parameter is initialized from an object that has been changed. -/
def LastUses (objects : ι → α) (args : List (Argument ι)) : Prop :=
  args.Pairwise fun a a' => Changes moved objects a → a'.object ≠ a.object

end Invoke

/-- What is registered one after the other are listeners, duplicates among them, in that order. -/
theorem addListeners_eq_ok {added : List (Option L)} {listeners registered : List L} :
    added.foldlM (fun listeners listener => addListener listener listeners) listeners = .ok registered ↔
      ∃ ls, added = ls.map some ∧ registered = listeners ++ ls := by
  induction added generalizing listeners with
  | nil =>
    constructor
    · intro h
      cases h
      exact ⟨[],rfl,(List.append_nil _).symm⟩
    · rintro ⟨ls,hls,rfl⟩
      rw [List.map_eq_nil_iff.mp hls.symm, List.append_nil]
      rfl
  | cons listener added ih =>
    rw [List.foldlM_cons]
    cases listener with
    | none => exact iff_of_false nofun fun ⟨ls,hls,_⟩ => by cases ls <;> cases hls
    | some listener =>
      rw [addListener, ok_bind, ih]
      constructor
      · rintro ⟨ls,rfl,rfl⟩
        exact ⟨listener :: ls,rfl,(List.append_cons _ _ _).symm⟩
      · rintro ⟨ls,hls,rfl⟩
        obtain ⟨_,ls,rfl,hlistener,rfl⟩ := List.map_eq_cons_iff.mp hls.symm
        cases hlistener
        exact ⟨ls,rfl,List.append_cons _ _ _⟩

section Pass
variable [DecidableEq ι] {moved : ι → α → α} {objects original : ι → α} {args args' : List (Argument ι)}
  {a : Argument ι}

theorem passArguments_cons : passArguments moved (a :: args) objects =
    (objects a.object :: (passArguments moved args (passArgument moved a objects).2).1,
      (passArguments moved args (passArgument moved a objects).2).2) := rfl

theorem passArguments_length : (passArguments moved args objects).1.length = args.length := by
  induction args generalizing objects with
  | nil => rfl
  | cons a args ih =>
    rw [passArguments_cons, List.length_cons, List.length_cons, ih]

theorem passArguments_append : passArguments moved (args ++ args') objects =
    ((passArguments moved args objects).1 ++
        (passArguments moved args' (passArguments moved args objects).2).1,
      (passArguments moved args' (passArguments moved args objects).2).2) := by
  induction args generalizing objects with
  | nil => rfl
  | cons a args ih =>
    rw [List.cons_append, passArguments_cons, passArguments_cons, ih]
    rfl

theorem passArgument_other {k : ι} (h : k ≠ a.object) : (passArgument moved a objects).2 k = objects k := by
  unfold passArgument
  dsimp only
  split
  · exact Function.update_of_ne h _ _
  · rfl

theorem passArgument_self (h : objects a.object = original a.object) :
    (passArgument moved a objects).2 a.object = original a.object ↔ ¬ Changes moved original a := by
  unfold passArgument Changes
  dsimp only
  rw [h]
  cases a.consumed with
  | false => simp [h]
  | true => simp

/-- Where the right values are read, they were there. -/
theorem agree_of_read (h : (passArguments moved args objects).1 = args.map fun a => original a.object) :
    ∀ a ∈ args, objects a.object = original a.object := by
  induction args generalizing objects with
  | nil => nofun
  | cons a args ih =>
    rw [passArguments_cons, List.map_cons] at h
    obtain ⟨hhead,htail⟩ := List.cons.inj h
    refine List.forall_mem_cons.mpr ⟨hhead,fun a' ha' => ?_⟩
    by_cases hobject : a'.object = a.object
    · rw [hobject]
      exact hhead
    · rw [← ih htail a' ha', passArgument_other hobject]

/-- The right values are read exactly if nothing is read behind a change. -/
theorem read_iff (h : ∀ a ∈ args, objects a.object = original a.object) :
    (passArguments moved args objects).1 = (args.map fun a => original a.object) ↔
      LastUses moved original args := by
  induction args generalizing objects with
  | nil => exact iff_of_true rfl List.Pairwise.nil
  | cons a args ih =>
    obtain ⟨ha,hargs⟩ := List.forall_mem_cons.mp h
    have hagree : (∀ a' ∈ args, (passArgument moved a objects).2 a'.object = original a'.object) ↔
        ∀ a' ∈ args, Changes moved original a → a'.object ≠ a.object := by
      refine forall₂_congr fun a' ha' => ?_
      by_cases hobject : a'.object = a.object
      · rw [hobject, passArgument_self ha]
        exact ⟨fun hno hchanges => absurd hchanges hno,fun hne hchanges => hne hchanges rfl⟩
      · rw [passArgument_other hobject]
        exact iff_of_true (hargs a' ha') fun _ => hobject
    rw [passArguments_cons, List.map_cons, List.cons.injEq, LastUses, List.pairwise_cons]
    constructor
    · rintro ⟨_,htail⟩
      have hafter := agree_of_read htail
      exact ⟨hagree.mp hafter,(ih hafter).mp htail⟩
    · rintro ⟨hhead,htail⟩
      exact ⟨ha,(ih (hagree.mpr hhead)).mpr htail⟩

end Pass

section Calls
variable [DecidableEq ι] {moved : ι → α → α} {objects original : ι → α} {args : List (Argument ι)}
  {listeners : List L}

/-- The calls that are made, each with what the one before left of the objects. -/
def callsOf (moved : ι → α → α) (args : List (Argument ι)) : List L → (ι → α) → List (ListenerCall L α)
  | [],_ => []
  | listener :: listeners,objects =>
    ⟨listener,(passArguments moved args objects).1⟩ ::
      callsOf moved args listeners (passArguments moved args objects).2

/-- Whatever is thrown, the loop comes to its end. -/
theorem exists_invokeEach (throws : List (ListenerCall L α) → Bool) (listeners : List L)
    (s : Invocation ι L α) : ∃ t, invokeEach moved throws args listeners s = .ok t ∧
      t.calls = s.calls ++ callsOf moved args listeners s.objects := by
  induction listeners generalizing s with
  | nil => exact ⟨s,rfl,(List.append_nil _).symm⟩
  | cons listener listeners ih =>
    obtain ⟨t,ht,hcalls⟩ := ih ⟨(passArguments moved args s.objects).2,
      s.calls ++ [⟨listener,(passArguments moved args s.objects).1⟩]⟩
    refine ⟨t,?_,?_⟩
    · rw [invokeEach, callAction]
      dsimp only
      by_cases hthrows : throws (s.calls ++ [⟨listener,(passArguments moved args s.objects).1⟩]) = true
      · rw [if_pos hthrows]
        exact ht
      · rw [if_neg hthrows]
        exact ht
    · rw [hcalls, List.append_assoc]
      rfl

theorem invoke_eq (throws : List (ListenerCall L α) → Bool) (listeners : List L) (s : Invocation ι L α) :
    invoke moved throws args listeners s = invokeEach moved throws args listeners s := by
  cases listeners with
  | nil => rfl
  | cons listener listeners => rfl

/-- Taken together, the calls pass the arguments once for each listener. -/
theorem callsOf_eq_iff :
    callsOf moved args listeners objects =
        (listeners.map fun listener => ⟨listener,args.map fun a => original a.object⟩) ↔
      (passArguments moved (listeners.flatMap fun _ => args) objects).1 =
        (listeners.flatMap fun _ => args).map fun a => original a.object := by
  induction listeners generalizing objects with
  | nil => exact iff_of_true rfl rfl
  | cons listener listeners ih =>
    have hlength : (passArguments moved args objects).1.length =
        (args.map fun a => original a.object).length := by
      rw [passArguments_length, List.length_map]
    rw [callsOf, List.map_cons, List.cons.injEq, ListenerCall.mk.injEq, ih, List.flatMap_cons,
      passArguments_append, List.map_append]
    constructor
    · rintro ⟨⟨_,hfirst⟩,hothers⟩
      rw [hfirst, hothers]
    · intro h
      obtain ⟨hfirst,hothers⟩ := List.append_inj h hlength
      exact ⟨⟨rfl,hfirst⟩,hothers⟩

omit [DecidableEq ι] in
theorem lastUses_flatMap : LastUses moved objects (listeners.flatMap fun _ => args) ↔
    listeners = [] ∨ LastUses moved objects args ∧
      (listeners.length = 1 ∨ ∀ a ∈ args, ¬ Changes moved objects a) := by
  induction listeners with
  | nil => exact iff_of_true List.Pairwise.nil (Or.inl rfl)
  | cons listener listeners ih =>
    rw [List.flatMap_cons, LastUses, List.pairwise_append]
    constructor
    · rintro ⟨hargs,_,hbetween⟩
      refine Or.inr ⟨hargs,?_⟩
      cases listeners with
      | nil => exact Or.inl rfl
      | cons listener' listeners =>
        refine Or.inr fun a ha hchanges => ?_
        exact hbetween a ha a (List.mem_append_left _ ha) hchanges rfl
    · rintro (hnil | ⟨hargs,hone | hkeep⟩)
      · cases hnil
      · have hlisteners : listeners = [] := List.eq_nil_of_length_eq_zero (Nat.succ.inj hone)
        rw [hlisteners]
        exact ⟨hargs,List.Pairwise.nil,nofun⟩
      · refine ⟨hargs,?_,fun a ha _ _ hchanges => absurd hchanges (hkeep a ha)⟩
        exact ih.mpr (or_iff_not_imp_left.mpr fun _ => ⟨hargs,Or.inr hkeep⟩)

end Calls

section SameForAll
variable [DecidableEq ι] {moved : ι → α → α} {throws : List (ListenerCall L α) → Bool}
  {objects : ι → α} {args : List (Argument ι)} {listeners : List L}

theorem sameForAll_iff_lastUses : SameForAll moved throws args listeners objects ↔
    LastUses moved objects (listeners.flatMap fun _ => args) := by
  obtain ⟨t,ht,hcalls⟩ := exists_invokeEach throws listeners ⟨objects,[]⟩
  rw [← read_iff fun _ _ => rfl, ← callsOf_eq_iff, SameForAll, invoke_eq, ht]
  constructor
  · rintro ⟨s,hs,hsame⟩
    cases hs
    exact hcalls.symm.trans hsame
  · exact fun hsame => ⟨t,rfl,hcalls.trans hsame⟩

/-- All listeners get the original arguments exactly if none is used again after it was changed:
not in another call, and not for another parameter of the same one. -/
theorem sameForAll_iff (moved : ι → α → α) (throws : List (ListenerCall L α) → Bool)
    (args : List (Argument ι)) (listeners : List L) (objects : ι → α) :
    SameForAll moved throws args listeners objects ↔ listeners = [] ∨ LastUses moved objects args ∧
      (listeners.length = 1 ∨ ∀ a ∈ args, ¬ Changes moved objects a) := by
  rw [sameForAll_iff_lastUses, lastUses_flatMap]

/-- A string is passed as an rvalue to a parameter by value; a move leaves the empty string. -/
theorem not_sameForAll_string :
    (∃ t, invoke (fun _ _ => []) (fun _ => false) [⟨(),true,.value⟩] ["first","second"]
        ⟨fun _ => ['x'],[]⟩ = .ok t ∧ t.calls = [⟨"first",[['x']]⟩,⟨"second",[[]]⟩]) ∧
      ¬ SameForAll (fun _ _ => []) (fun _ => false) [⟨(),true,.value⟩] ["first","second"]
        (fun _ : Unit => ['x']) := by
  refine ⟨⟨_,rfl,rfl⟩,fun h => ?_⟩
  rw [sameForAll_iff_lastUses, lastUses_flatMap] at h
  obtain ⟨_,hone | hkeep⟩ := h.resolve_left nofun
  · exact absurd hone (by decide)
  · exact hkeep _ List.mem_cons_self ⟨rfl,nofun⟩

end SameForAll

end Listenable

end Isml
