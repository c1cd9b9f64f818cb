import Isml.Utility.DeferredCall

/-! # `ThreadJoiner`

A joiner is a deferred call of `join` for the threads it refers to. A thread that is not joinable is
detached instead, which throws, as joining the own thread does. The exception ends the loop over a
container and does not leave the destructor. A thread that is joined by another one ends.
-/
namespace Isml

abbrev ThreadId := ℕ

/-- The `std::system_error`s of `std::thread`. -/
inductive SystemError where
  | invalidArgument
  | resourceDeadlockWouldOccur
  deriving DecidableEq, Repr

/-- A `std::thread` object, which is joinable if it represents a thread. -/
structure StdThread where
  id : Option ThreadId
  deriving DecidableEq, Repr

namespace StdThread

def joinable (thread : StdThread) : Bool := thread.id.isSome

/-- Called by the thread `current`. The result is followed by what the object is left as and by the
threads joined so far. -/
def join (current : ThreadId) (thread : StdThread) (joined : List ThreadId) :
    Except SystemError Unit × StdThread × List ThreadId :=
  match thread.id with
  | none => (.error .invalidArgument,thread,joined)
  | some id =>
    if id = current then (.error .resourceDeadlockWouldOccur,thread,joined)
    else (.ok (),⟨none⟩,joined ++ [id])

def detach (thread : StdThread) (joined : List ThreadId) :
    Except SystemError Unit × StdThread × List ThreadId :=
  match thread.id with
  | none => (.error .invalidArgument,thread,joined)
  | some _ => (.ok (),⟨none⟩,joined)

/-- `std::terminate` is `none`. -/
def destroy (thread : StdThread) : Option Unit := if thread.joinable then none else some ()

def destroyContainer (container : List StdThread) : Option Unit := forM container destroy

theorem destroyContainer_eq_some {container : List StdThread} :
    destroyContainer container = some () ↔ ∀ thread ∈ container, thread.joinable = false := by
  induction container with
  | nil => simp [destroyContainer]
  | cons thread container ih =>
    rw [destroyContainer, List.forM_cons, List.forall_mem_cons, ← ih]
    cases h : thread.joinable with
    | false => simp [destroy, h, destroyContainer]
    | true => simp [destroy, h]

/-- Joining it does not throw. -/
def joins (current : ThreadId) (thread : StdThread) : Bool := thread.id.any (· ≠ current)

end StdThread

/-- A deferred call that acts on threads of a kind, and on the threads joined so far. -/
abbrev ThreadJoiner (τ : Type) := DeferredCall (WrappedCall (τ × List ThreadId) SystemError)

namespace ThreadJoiner
open StdThread

def join (current : ThreadId) (thread : StdThread) (joined : List ThreadId) :
    Except SystemError Unit × StdThread × List ThreadId :=
  if thread.joinable then thread.join current joined else thread.detach joined

def joinContainer (current : ThreadId) : List StdThread → List ThreadId →
    Except SystemError Unit × List StdThread × List ThreadId
  | [],joined => (.ok (),[],joined)
  | thread :: container,joined =>
    match join current thread joined with
    | (.ok (),thread,joined) =>
      let (result,container,joined) := joinContainer current container joined
      (result,thread :: container,joined)
    -- the exception leaves the loop
    | (.error e,thread,joined) => (.error e,thread :: container,joined)

def ofThread (current : ThreadId) : ThreadJoiner StdThread := .new fun s => join current s.1 s.2

def ofContainer (current : ThreadId) : ThreadJoiner (List StdThread) :=
  .new fun s => joinContainer current s.1 s.2

/-- What is left of the threads when the joiner is destroyed, and the threads joined by it. -/
def destroyed {τ : Type} (joiner : ThreadJoiner τ) (threads : τ) : τ × List ThreadId :=
  joiner.destroy (fun call => call) (threads,[])

/-- Every thread of the container that was joinable has been joined, and the container can be
destroyed. -/
structure JoinsAll (current : ThreadId) (container : List StdThread) : Prop where
  joined : ∀ id, ⟨some id⟩ ∈ container → id ∈ ((ofContainer current).destroyed container).2
  destroyable : destroyContainer ((ofContainer current).destroyed container).1 = some ()

/-- No joinable thread stands behind one that is not. -/
def JoinableFirst (container : List StdThread) : Prop :=
  container.Pairwise fun thread later => later.joinable = true → thread.joinable = true

section Join
variable {current : ThreadId} {thread : StdThread} {container : List StdThread} {joined : List ThreadId}

theorem join_of_joins (h : thread.joins current = true) :
    join current thread joined = (.ok (),⟨none⟩,joined ++ thread.id.toList) := by
  obtain ⟨id⟩ := thread
  cases id with
  | none => cases h
  | some id =>
    have hne : id ≠ current := by simpa [joins] using h
    simp [join, joinable, StdThread.join, hne]

theorem join_of_not_joins (h : thread.joins current = false) (joined : List ThreadId) :
    ∃ e, join current thread joined = (.error e,thread,joined) := by
  obtain ⟨id⟩ := thread
  cases id with
  | none => exact ⟨.invalidArgument,rfl⟩
  | some id =>
    have heq : id = current := by simpa [joins] using h
    exact ⟨.resourceDeadlockWouldOccur,by simp [join, joinable, StdThread.join, heq]⟩

/-- The loop joins the threads up to the first that throws, and leaves the others. -/
theorem joinContainer_eq (container : List StdThread) (joined : List ThreadId) :
    (joinContainer current container joined).2 =
      ((container.takeWhile (joins current)).map (fun _ => ⟨none⟩) ++ container.dropWhile (joins current),
        joined ++ (container.takeWhile (joins current)).filterMap StdThread.id) := by
  induction container generalizing joined with
  | nil => simp [joinContainer]
  | cons thread container ih =>
    cases h : thread.joins current with
    | false =>
      obtain ⟨e,he⟩ := join_of_not_joins h joined
      rw [joinContainer, he, List.takeWhile_cons_of_neg (by simp [h]), List.dropWhile_cons_of_neg (by simp [h])]
      simp
    | true =>
      rw [joinContainer, join_of_joins h, List.takeWhile_cons_of_pos h, List.dropWhile_cons_of_pos h]
      simp only [ih, List.map_cons, List.cons_append, List.append_assoc]
      obtain ⟨id⟩ := thread
      cases id <;> simp

theorem destroyed_ofContainer (container : List StdThread) :
    (ofContainer current).destroyed container =
      ((container.takeWhile (joins current)).map (fun _ => ⟨none⟩) ++ container.dropWhile (joins current),
        (container.takeWhile (joins current)).filterMap StdThread.id) := by
  rw [destroyed, ofContainer, DeferredCall.destroy_new, joinContainer_eq, List.nil_append]

/-- What counts is what the loop does not reach. -/
theorem joinsAll_iff_rest :
    JoinsAll current container ↔ ∀ thread ∈ container.dropWhile (joins current), thread.joinable = false := by
  constructor
  · intro h thread hthread
    have hdestroyable := h.destroyable
    rw [destroyed_ofContainer, destroyContainer_eq_some] at hdestroyable
    exact hdestroyable thread (List.mem_append_right _ hthread)
  · intro h
    refine ⟨fun id hid => ?_,?_⟩
    · rw [destroyed_ofContainer, List.mem_filterMap]
      rw [← List.takeWhile_append_dropWhile (p := joins current) (l := container)] at hid
      rcases List.mem_append.mp hid with hid | hid
      · exact ⟨⟨some id⟩,hid,rfl⟩
      · cases h ⟨some id⟩ hid
    · rw [destroyed_ofContainer, destroyContainer_eq_some]
      intro thread hthread
      rcases List.mem_append.mp hthread with hthread | hthread
      · obtain ⟨_,_,rfl⟩ := List.mem_map.mp hthread
        rfl
      · exact h thread hthread

theorem joinableFirst_cons_of_joinable (h : thread.joinable = true) :
    JoinableFirst (thread :: container) ↔ JoinableFirst container := by
  unfold JoinableFirst
  rw [List.pairwise_cons]
  exact and_iff_right fun _ _ _ => h

theorem joinableFirst_cons_of_not_joinable (h : thread.joinable = false) :
    JoinableFirst (thread :: container) ↔ ∀ later ∈ container, later.joinable = false := by
  unfold JoinableFirst
  rw [List.pairwise_cons]
  constructor
  · rintro ⟨hfirst,-⟩ later hlater
    have hnone := hfirst later hlater
    simpa [h] using hnone
  · intro hnone
    refine ⟨fun later hlater hjoinable => ?_,List.pairwise_of_forall_mem_list ?_⟩
    · cases (hnone later hlater).symm.trans hjoinable
    · intro earlier _ later hlater hjoinable
      cases (hnone later hlater).symm.trans hjoinable

/-- The loop reaches every joinable thread if none is behind one that throws. -/
theorem rest_iff : (∀ thread ∈ container.dropWhile (joins current), thread.joinable = false) ↔
    JoinableFirst container ∧ ⟨some current⟩ ∉ container := by
  induction container with
  | nil => simp [JoinableFirst]
  | cons thread container ih =>
    obtain ⟨id⟩ := thread
    cases id with
    | none =>
      have hdefault : (⟨none⟩ : StdThread).joinable = false := rfl
      rw [List.dropWhile_cons_of_neg (by simp [joins]), List.forall_mem_cons, and_iff_right hdefault,
        joinableFirst_cons_of_not_joinable hdefault]
      refine ⟨fun hnone => ⟨hnone,fun hmem => ?_⟩,And.left⟩
      rcases List.mem_cons.mp hmem with heq | hmem
      · cases heq
      · cases hnone _ hmem
    | some id =>
      by_cases hcurrent : id = current
      · subst hcurrent
        rw [List.dropWhile_cons_of_neg (by simp [joins]), List.forall_mem_cons]
        exact iff_of_false (fun h => nomatch h.1) fun h => h.2 List.mem_cons_self
      · have hne : (⟨some current⟩ : StdThread) ≠ ⟨some id⟩ := fun heq =>
          hcurrent (Option.some.inj (congrArg StdThread.id heq)).symm
        rw [List.dropWhile_cons_of_pos (by simp [joins, hcurrent]), ih,
          joinableFirst_cons_of_joinable rfl, List.mem_cons, or_iff_right hne]

/-- All joinable threads are joined exactly if they stand before the others and the own thread is
not among them. -/
theorem joinsAll_iff (current : ThreadId) (container : List StdThread) :
    JoinsAll current container ↔ JoinableFirst container ∧ ⟨some current⟩ ∉ container :=
  joinsAll_iff_rest.trans rest_iff

/-- The second thread is not joined, and `std::terminate` is called for it. -/
theorem not_joinsAll_default : ((ofContainer 0).destroyed [⟨none⟩,⟨some 1⟩]).2 = [] ∧
    destroyContainer ((ofContainer 0).destroyed [⟨none⟩,⟨some 1⟩]).1 = none ∧
    ¬ JoinsAll 0 [⟨none⟩,⟨some 1⟩] := by
  refine ⟨rfl,rfl,fun h => ?_⟩
  cases h.destroyable

/-- A joiner of a single thread joins every thread but the own one. -/
theorem destroyed_ofThread (thread : StdThread) (h : thread.id ≠ some current) :
    (ofThread current).destroyed thread = (⟨none⟩,thread.id.toList) := by
  rw [destroyed, ofThread, DeferredCall.destroy_new]
  cases hjoins : thread.joins current with
  | true => exact congrArg Prod.snd (join_of_joins hjoins)
  | false =>
    obtain ⟨e,he⟩ := join_of_not_joins hjoins []
    obtain ⟨id⟩ := thread
    cases id with
    | none => exact congrArg Prod.snd he
    | some id => simp_all [joins]

end Join

end ThreadJoiner

end Isml
