import Isml.Library.Custody
import Isml.Library.LabelledRun

/-! # `DeferredCall`

The destructor invokes the call that is wrapped, and a move leaves an empty `std::function`. The
move assignment is defaulted, so the call its target had is destroyed without having been invoked.
What a call does to other deferred calls while it is invoked is taken as steps that follow it.
-/
namespace Isml
open LabelledRun

/-- A target of a `std::function<void()>`: what it does to the state around it, and whether it throws. -/
abbrev WrappedCall (σ ε : Type) := σ → Except ε Unit × σ

/-- `m_call` is empty or has a target. -/
structure DeferredCall (F : Type) where
  call : Option F

namespace DeferredCall
variable {F σ ε : Type}

def new (call : F) : DeferredCall F := ⟨some call⟩

def newEmpty : DeferredCall F := ⟨none⟩

/-- The new object and what is left of the other. -/
def ofMove (other : DeferredCall F) : DeferredCall F × DeferredCall F := (⟨other.call⟩,⟨none⟩)

/-- The target of the assignment and what is left of the other. -/
def moveAssign (_target other : DeferredCall F) : DeferredCall F × DeferredCall F :=
  (⟨other.call⟩,⟨none⟩)

/-- Some libraries keep a `std::function` that is assigned to itself, others leave it empty. -/
def moveAssignSelf (keeps : Bool) (target : DeferredCall F) : DeferredCall F :=
  if keeps then target else ⟨none⟩

def destroy (invoke : F → WrappedCall σ ε) (object : DeferredCall F) (s : σ) : σ :=
  match object.call with
  | none => s
  | some call =>
    match invoke call s with
    | (.ok (),s) => s
    -- `catch (...)`
    | (.error _,s) => s

theorem destroy_new (invoke : F → WrappedCall σ ε) (call : F) (s : σ) :
    (new call).destroy invoke s = (invoke call s).2 := by
  unfold destroy new
  dsimp only
  split <;> rename_i hcall <;> rw [hcall]

end DeferredCall

/-- A call that was wrapped, with the number of the calls wrapped before it. -/
structure NumberedCall (σ ε : Type) where
  number : ℕ
  call : WrappedCall σ ε

/-- An invocation is recorded. -/
def NumberedCall.invoke {σ ε : Type} (call : NumberedCall σ ε) : WrappedCall (σ × List ℕ) ε :=
  fun s =>
    let (result,world) := call.call s.1
    (result,world,s.2 ++ [call.number])

/-- The objects that live, by their addresses, how many calls were wrapped, the numbers of those that
were invoked, in order, and the state they act on. -/
structure DeferredCalls (ι σ ε : Type) where
  objects : ι → Option (DeferredCall (NumberedCall σ ε))
  wrapped : ℕ
  invoked : List ℕ
  world : σ

/-- The first address is that of the object constructed, assigned to or destroyed. -/
inductive DeferredCallEvent (ι σ ε : Type) where
  | newEmpty (a : ι)
  | new (a : ι) (call : WrappedCall σ ε)
  | ofMove (a b : ι)
  | moveAssign (a b : ι)
  | destroy (a : ι)

namespace DeferredCalls
variable {ι σ ε : Type}

def start (world : σ) : DeferredCalls ι σ ε := ⟨fun _ => none,0,[],world⟩

section Steps
variable [DecidableEq ι]

inductive Step (keeps : Bool) :
    DeferredCalls ι σ ε → DeferredCallEvent ι σ ε → DeferredCalls ι σ ε → Prop
  | newEmpty {s : DeferredCalls ι σ ε} {a : ι} : s.objects a = none → Step keeps s (.newEmpty a)
      { s with objects := Function.update s.objects a (some .newEmpty) }
  | new {s : DeferredCalls ι σ ε} {a : ι} (call : WrappedCall σ ε) : s.objects a = none →
      Step keeps s (.new a call)
        { s with
          objects := Function.update s.objects a (some (.new ⟨s.wrapped,call⟩))
          wrapped := s.wrapped + 1 }
  | ofMove {s : DeferredCalls ι σ ε} {a b : ι} {other : DeferredCall (NumberedCall σ ε)} :
      s.objects a = none → s.objects b = some other → Step keeps s (.ofMove a b)
        { s with
          objects := Function.update (Function.update s.objects b (some other.ofMove.2)) a
            (some other.ofMove.1) }
  | moveAssign {s : DeferredCalls ι σ ε} {a b : ι} {target other : DeferredCall (NumberedCall σ ε)} :
      a ≠ b → s.objects a = some target → s.objects b = some other → Step keeps s (.moveAssign a b)
        { s with
          objects := Function.update (Function.update s.objects b (some (target.moveAssign other).2)) a
            (some (target.moveAssign other).1) }
  | moveAssignSelf {s : DeferredCalls ι σ ε} {a : ι} {target : DeferredCall (NumberedCall σ ε)} :
      s.objects a = some target → Step keeps s (.moveAssign a a)
        { s with objects := Function.update s.objects a (some (target.moveAssignSelf keeps)) }
  | destroy {s : DeferredCalls ι σ ε} {a : ι} {object : DeferredCall (NumberedCall σ ε)} :
      s.objects a = some object → Step keeps s (.destroy a)
        { s with
          objects := Function.update s.objects a none
          invoked := (object.destroy NumberedCall.invoke (s.world,s.invoked)).2
          world := (object.destroy NumberedCall.invoke (s.world,s.invoked)).1 }

end Steps

/-- Each call that was wrapped has been invoked exactly once. -/
def InvokedOnce (s : DeferredCalls ι σ ε) : Prop := ∀ n < s.wrapped, s.invoked.count n = 1

/-- What is assigned to has no call, or it is assigned to itself and keeps its call. -/
def OntoEmpty (keeps : Bool) (s : DeferredCalls ι σ ε) : DeferredCallEvent ι σ ε → Prop
  | .moveAssign a b => s.objects a = some .newEmpty ∨ (a = b ∧ keeps = true)
  | _ => True

/-- The number of the call an object has. -/
def numberOf (object : Option (DeferredCall (NumberedCall σ ε))) : Option ℕ :=
  object.bind fun d => d.call.map NumberedCall.number

/-- The calls are in the custody of the objects until they are invoked. -/
def custody (s : DeferredCalls ι σ ε) : Custody ι :=
  ⟨fun a => numberOf (s.objects a),s.wrapped,s.invoked⟩

section Custody
variable {keeps : Bool} {s t : DeferredCalls ι σ ε} {e : DeferredCallEvent ι σ ε} {a : ι}
  {object : DeferredCall (NumberedCall σ ε)}

theorem slots_of_absent (h : s.objects a = none) : s.custody.slots a = none := congrArg numberOf h

theorem slots_eq_none_iff (h : s.objects a = some object) :
    s.custody.slots a = none ↔ s.objects a = some .newEmpty := by
  have hslot : s.custody.slots a = numberOf (s.objects a) := rfl
  rw [hslot, h]
  obtain ⟨call⟩ := object
  cases call with
  | none => exact iff_of_true rfl rfl
  | some call => exact iff_of_false nofun nofun

theorem destroy_invoked (object : DeferredCall (NumberedCall σ ε)) (world : σ) (invoked : List ℕ) :
    (object.destroy NumberedCall.invoke (world,invoked)).2 =
      invoked ++ (numberOf (some object)).toList := by
  obtain ⟨call⟩ := object
  cases call with
  | none => exact (List.append_nil invoked).symm
  | some call =>
    have hnew := DeferredCall.destroy_new NumberedCall.invoke call (world,invoked)
    exact congrArg Prod.snd hnew

variable [DecidableEq ι]

theorem numberOf_update (objects : ι → Option (DeferredCall (NumberedCall σ ε))) (a : ι)
    (x : Option (DeferredCall (NumberedCall σ ε))) :
    (fun k => numberOf (Function.update objects a x k)) =
      Function.update (fun k => numberOf (objects k)) a (numberOf x) :=
  Function.comp_update numberOf objects a x

theorem custody_put (s : DeferredCalls ι σ ε) (a : ι) (x : Option (DeferredCall (NumberedCall σ ε))) :
    custody { s with objects := Function.update s.objects a x } =
      { s.custody with slots := Function.update s.custody.slots a (numberOf x) } :=
  congrArg (fun slots => Custody.mk slots s.wrapped s.invoked) (numberOf_update s.objects a x)

theorem custody_move (a : ι) {b : ι} (hb : s.objects b = some object) :
    custody { s with
      objects := Function.update (Function.update s.objects b (some ⟨none⟩)) a (some ⟨object.call⟩) } =
      s.custody.transfer a b := by
  have hslots : (fun k => numberOf (Function.update (Function.update s.objects b (some ⟨none⟩)) a
      (some ⟨object.call⟩) k)) =
      Function.update (Function.update s.custody.slots b none) a (s.custody.slots b) := by
    have hslot : s.custody.slots b = numberOf (some ⟨object.call⟩) := congrArg numberOf hb
    rw [numberOf_update, numberOf_update, hslot]
    rfl
  exact congrArg (fun slots => Custody.mk slots s.wrapped s.invoked) hslots

/-- What a step does to the custody. -/
def act (keeps : Bool) : DeferredCallEvent ι σ ε → Custody ι → Custody ι
  | .newEmpty _ => id
  | .new a _ => Custody.issue a
  | .ofMove a b => Custody.transfer a b
  | .moveAssign a b => if a = b ∧ keeps = false then Custody.discard a else Custody.transfer a b
  | .destroy a => Custody.spend a

theorem custody_step (hstep : Step keeps s e t) : t.custody = act keeps e s.custody := by
  cases hstep with
  | @newEmpty a ha =>
    exact (custody_put s a (some .newEmpty)).trans (Custody.discard_of_empty (slots_of_absent ha))
  | @new a call ha =>
    exact congrArg (fun slots => Custody.mk slots (s.wrapped + 1) s.invoked)
      (numberOf_update s.objects a (some (.new ⟨s.wrapped,call⟩)))
  | @ofMove a b other ha hb => exact custody_move a hb
  | @moveAssign a b target other hab ha hb =>
    rw [act, if_neg fun h => hab h.1]
    exact custody_move a hb
  | @moveAssignSelf a target ha =>
    cases keeps with
    | false =>
      rw [act, if_pos ⟨rfl,rfl⟩]
      exact custody_put s a (some ⟨none⟩)
    | true =>
      rw [act, if_neg fun h => Bool.noConfusion h.2, Custody.transfer_self]
      have hsame : Function.update s.objects a (some target) = s.objects := by
        rw [← ha, Function.update_eq_self]
      exact congrArg (fun objects => custody { s with objects := objects }) hsame
  | @destroy a object ha =>
    have hslots := numberOf_update s.objects a none
    have hspent : s.custody.slots a = numberOf (some object) := congrArg numberOf ha
    rw [custody, hslots, destroy_invoked, ← hspent]
    rfl

theorem exclusive_step (h : s.custody.Exclusive) (hstep : Step keeps s e t) : t.custody.Exclusive := by
  rw [custody_step hstep]
  cases e with
  | newEmpty a => exact h
  | new a call => exact h.issue a
  | ofMove a b => exact h.transfer a b
  | moveAssign a b =>
    rw [act]
    split
    · exact h.discard a
    · exact h.transfer a b
  | destroy a => exact h.spend a

/-- A step that meets the condition loses no call. -/
theorem complete_step (h : s.custody.Complete) (hg : OntoEmpty keeps s e) (hstep : Step keeps s e t) :
    t.custody.Complete := by
  rw [custody_step hstep]
  cases hstep with
  | newEmpty ha => exact h
  | new call ha => exact h.issue (slots_of_absent ha)
  | @ofMove a b other ha hb => exact h.transfer (slots_of_absent ha) b
  | @moveAssign a b target other hab ha hb =>
    rw [act, if_neg fun hself => hab hself.1]
    exact h.transfer ((slots_eq_none_iff ha).mpr (hg.resolve_right fun hself => hab hself.1)) b
  | @moveAssignSelf a target ha =>
    rw [act]
    split
    · rename_i hleft
      have hempty := hg.resolve_right fun hself => Bool.noConfusion (hself.2.symm.trans hleft.2)
      rw [Custody.discard_of_empty ((slots_eq_none_iff ha).mpr hempty)]
      exact h
    · rw [Custody.transfer_self]
      exact h
  | @destroy a object ha => exact h.spend a

/-- What is lost stays lost. -/
theorem complete_of_step (hstep : Step keeps s e t) (h : t.custody.Complete) : s.custody.Complete := by
  rw [custody_step hstep] at h
  cases e with
  | newEmpty a => exact h
  | new a call => exact h.of_issue
  | ofMove a b => exact h.of_transfer
  | moveAssign a b =>
    rw [act] at h
    split at h
    · exact h.of_discard
    · exact h.of_transfer
  | destroy a => exact h.of_spend

/-- No call is lost only by a step that meets the condition. -/
theorem ontoEmpty_of_step (hs : s.custody.Exclusive) (hstep : Step keeps s e t)
    (h : t.custody.Complete) : OntoEmpty keeps s e := by
  rw [custody_step hstep] at h
  cases hstep with
  | @moveAssign a b target other hab ha hb =>
    rw [act, if_neg fun hself => hab hself.1] at h
    exact Or.inl ((slots_eq_none_iff ha).mp (hs.empty_of_transfer hab h))
  | @moveAssignSelf a target ha =>
    rw [act] at h
    split at h
    · exact Or.inl ((slots_eq_none_iff ha).mp (hs.empty_of_discard h))
    · rename_i hkeeps
      exact Or.inr ⟨rfl,eq_true_of_ne_false fun hleft => hkeeps ⟨rfl,hleft⟩⟩
  | _ => trivial

end Custody

section Runs
variable [DecidableEq ι] {keeps : Bool} {world : σ} {t : DeferredCalls ι σ ε}
  {trace : List (DeferredCalls ι σ ε × DeferredCallEvent ι σ ε)}

theorem exclusive_of_run (hr : Run (Step keeps) (start world) trace t) : t.custody.Exclusive :=
  hr.preserved (fun _ _ _ h hstep => exclusive_step h hstep) Custody.exclusive_empty

/-- Whatever is assigned to, no call is invoked twice. -/
theorem invoked_le_one (hr : Run (Step keeps) (start world) trace t) (n : ℕ) : t.invoked.count n ≤ 1 :=
  (exclusive_of_run hr).count_le_one n

theorem complete_iff_guarded (hr : Run (Step keeps) (start world) trace t) :
    t.custody.Complete ↔ Guarded (OntoEmpty keeps) trace := by
  let Good : DeferredCalls ι σ ε → Prop := fun s => s.custody.Exclusive ∧ s.custody.Complete
  have hstep : ∀ s e u, Good s → OntoEmpty keeps s e → Step keeps s e u → Good u :=
    fun s e u h hg hstep => ⟨exclusive_step h.1 hstep,complete_step h.2 hg hstep⟩
  have hbreak : ∀ s e u, Good s → ¬ OntoEmpty keeps s e → Step keeps s e u → ¬ u.custody.Complete :=
    fun s e u h hg hstep hu => hg (ontoEmpty_of_step h.1 hstep hu)
  have hbad : ∀ s e (u : DeferredCalls ι σ ε), ¬ s.custody.Complete → Step keeps s e u →
      ¬ u.custody.Complete := fun s e u h hstep hu => h (complete_of_step hstep hu)
  have hstart : Good (start world) := ⟨Custody.exclusive_empty,Custody.complete_empty⟩
  rcases hr.good_or_bad hstep hbreak hbad hstart with ⟨hguarded,_,hcomplete⟩ | ⟨hguarded,hcomplete⟩
  · exact iff_of_true hcomplete hguarded
  · exact iff_of_false hcomplete hguarded

/-- When all objects are destroyed each call has been invoked exactly once, exactly if every
assignment was onto an object without a call. -/
theorem invokedOnce_iff (hr : Run (Step keeps) (start world) trace t) (hend : ∀ a, t.objects a = none) :
    t.InvokedOnce ↔ Guarded (OntoEmpty keeps) trace := by
  have hempty : ∀ a, t.custody.slots a = none := fun a => slots_of_absent (hend a)
  exact ((exclusive_of_run hr).spentOnce_iff hempty).trans (complete_iff_guarded hr)

end Runs

/-- A call that throws. -/
def failing : WrappedCall Unit Unit := fun s => (.error (),s)

theorem invokedOnce_iff_moved : ∃ trace, ∃ t : DeferredCalls Bool Unit Unit,
    Run (Step true) (start ()) trace t ∧ trace.map Prod.snd = [.new false failing,.newEmpty true,
      .moveAssign true false,.destroy false,.destroy true] ∧ t.invoked = [0] ∧
      (t.InvokedOnce ↔ Guarded (OntoEmpty true) trace) := by
  have hnew : Step true (start ()) (.new false failing) _ := .new failing rfl
  have hr := Run.cons hnew
    (Run.cons (.newEmpty (a := true) rfl) (Run.cons (.moveAssign (a := true) (b := false) nofun rfl rfl)
      (Run.cons (.destroy (a := false) rfl) (Run.cons (.destroy (a := true) rfl) (Run.nil _)))))
  exact ⟨_,_,hr,rfl,rfl,invokedOnce_iff hr (fun a => by cases a <;> rfl)⟩

/-- The call of the object that is assigned to is never invoked. -/
theorem not_invokedOnce_pending : ∃ trace, ∃ t : DeferredCalls Bool Unit Unit,
    Run (Step true) (start ()) trace t ∧ trace.map Prod.snd = [.new false failing,.new true failing,
      .moveAssign false true,.destroy true,.destroy false] ∧ (∀ a, t.objects a = none) ∧
      t.invoked = [1] ∧ ¬ t.InvokedOnce := by
  have hnew : Step true (start ()) (.new false failing) _ := .new failing rfl
  have hr := Run.cons hnew
    (Run.cons (.new (a := true) failing rfl) (Run.cons (.moveAssign (a := false) (b := true) nofun rfl rfl)
      (Run.cons (.destroy (a := true) rfl) (Run.cons (.destroy (a := false) rfl) (Run.nil _)))))
  refine ⟨_,_,hr,rfl,fun a => by cases a <;> rfl,rfl,fun h => ?_⟩
  cases h 0 (Nat.lt_succ_of_lt Nat.zero_lt_one)

end DeferredCalls

end Isml
