import Isml.Session.SessionManager

/-! # `SessionManager::findSessionByProperty`

The predicate reads a property of each session it is asked about through `PropertySet::operator[]`,
which puts an empty property under a key that is not there. A property is a `std::any`: a type and
a value of it, or nothing, which is of no type that can be asked for.
-/
namespace Isml

variable {κ τ : Type} [DecidableEq κ] {V : τ → Type} {t : τ}

abbrev Property (V : τ → Type) := Option (Σ t, V t)

/-- `operator==` of a property and a value of the type `t`, with the `operator==` of that type. -/
def Property.equals [DecidableEq τ] (eq : V t → V t → Bool) (val : V t) : Property V → Bool
  | none => false
  | some ⟨t',v⟩ => if h : t' = t then eq (h ▸ v) val else false

abbrev PropertySet (κ : Type) (V : τ → Type) := AList fun _ : κ => Property V

/-- `operator[]`. -/
def PropertySet.subscript (key : κ) (properties : PropertySet κ V) : Property V × PropertySet κ V :=
  match properties.lookup key with
  | some property => (property,properties)
  | none => (none,properties.insert key none)

namespace PropertySet
variable {key : κ} {properties : PropertySet κ V}

theorem subscript_of_mem (h : key ∈ properties) :
    properties.subscript key = ((properties.lookup key).join,properties) := by
  obtain ⟨property,hproperty⟩ := Option.isSome_iff_exists.mp (AList.lookup_isSome.mpr h)
  rw [subscript, hproperty]
  rfl

theorem subscript_of_notMem (h : key ∉ properties) :
    properties.subscript key = (none,properties.insert key none) := by
  rw [subscript, AList.lookup_eq_none.mpr h]

theorem mem_subscript : key ∈ (properties.subscript key).2 := by
  by_cases h : key ∈ properties
  · rw [subscript_of_mem h]
    exact h
  · rw [subscript_of_notMem h]
    exact (AList.mem_insert properties).mpr (Or.inl rfl)

/-- What is read is the same before and after. -/
theorem join_subscript : (properties.subscript key).1 = (properties.lookup key).join ∧
    ((properties.subscript key).2.lookup key).join = (properties.lookup key).join := by
  by_cases h : key ∈ properties
  · rw [subscript_of_mem h]
    exact ⟨rfl,rfl⟩
  · rw [subscript_of_notMem h, AList.lookup_insert, AList.lookup_eq_none.mpr h]
    exact ⟨rfl,rfl⟩

end PropertySet

/-- The sessions of a manager, with the properties of each. -/
structure PropertyStore (κ : Type) (V : τ → Type) where
  manager : SessionManager
  properties : Session → PropertySet κ V

/-- A search ends with a session, without one, or at a null pointer. -/
inductive Search where
  | found (session : Session)
  | notFound
  | crashed
  deriving DecidableEq, Repr

namespace PropertyStore
variable [DecidableEq τ] (key : κ) (eq : V t → V t → Bool) (val : V t) {s : PropertyStore κ V}

/-- What the predicate answers of a session, and what its call leaves. -/
def predicate (session : Session) (s : PropertyStore κ V) : Bool × PropertyStore κ V :=
  let (property,properties) := (s.properties session).subscript key
  (property.equals eq val,{ s with properties := Function.update s.properties session properties })

/-- `find` with the predicate, in the order in which the table is visited. -/
def findSessionByProperty : List SessionId → PropertyStore κ V → Search × PropertyStore κ V
  | [],s => (.notFound,s)
  | id :: order,s =>
    match s.manager.sessionAt id with
    | none => (.crashed,s)
    | some session =>
      let (answer,s) := s.predicate key eq val session
      if answer then (.found session,s) else findSessionByProperty order s

def Managed (s : PropertyStore κ V) (session : Session) : Prop := ∃ id, s.manager.sessionAt id = some session

/-- The session has the property, and it equals the value. -/
def Has (s : PropertyStore κ V) (session : Session) : Prop :=
  ∃ property, (s.properties session).lookup key = some property ∧ property.equals eq val = true

/-- No property is put into a managed session, taken out or changed, and a session that has the
property is returned if there is one. -/
structure LooksUp (order : List SessionId) (s : PropertyStore κ V) : Prop where
  returns : (s.findSessionByProperty key eq val order).1 ≠ .crashed
  unchanged : ∀ session, s.Managed session → ∀ k,
    ((s.findSessionByProperty key eq val order).2.properties session).lookup k =
      (s.properties session).lookup k
  sound : ∀ session, (s.findSessionByProperty key eq val order).1 = .found session →
    s.Managed session ∧ s.Has key eq val session
  complete : ∀ session, s.Managed session → s.Has key eq val session →
    ∃ session', (s.findSessionByProperty key eq val order).1 = .found session'

/-- Each pointer up to the first session that has the property is to a session with the key. -/
def KeyPresent (order : List SessionId) (s : PropertyStore κ V) : Prop :=
  ∀ before id behind, order = before ++ id :: behind →
    (∀ id' ∈ before, ∀ session, s.manager.sessionAt id' = some session → ¬ s.Has key eq val session) →
    ∃ session, s.manager.sessionAt id = some session ∧ key ∈ s.properties session

section Search
variable {key eq val} {order : List SessionId} {id : SessionId} {session : Session}

/-- A session that has the key is left as it is. -/
theorem predicate_of_mem (h : key ∈ s.properties session) :
    s.predicate key eq val session = (Property.equals eq val ((s.properties session).lookup key).join,s) := by
  rw [predicate, PropertySet.subscript_of_mem h]
  dsimp only
  rw [Function.update_eq_self]

theorem equals_iff_has (session : Session) :
    Property.equals eq val ((s.properties session).lookup key).join = true ↔ s.Has key eq val session := by
  unfold Has
  cases (s.properties session).lookup key with
  | none => exact iff_of_false Bool.false_ne_true nofun
  | some property =>
    exact ⟨fun h => ⟨property,rfl,h⟩,fun ⟨_,hproperty,h⟩ => Option.some.inj hproperty ▸ h⟩

theorem keyPresent_cons : s.KeyPresent key eq val (id :: order) ↔
    ∃ session, s.manager.sessionAt id = some session ∧ key ∈ s.properties session ∧
      (¬ s.Has key eq val session → s.KeyPresent key eq val order) := by
  constructor
  · intro h
    obtain ⟨session,hsession,hkey⟩ := h [] id order rfl nofun
    refine ⟨session,hsession,hkey,fun hnot before id' behind hsplit hbefore => ?_⟩
    refine h (id :: before) id' behind (congrArg (id :: ·) hsplit) (List.forall_mem_cons.mpr ⟨?_,hbefore⟩)
    intro session' hsession'
    cases hsession.symm.trans hsession'
    exact hnot
  · rintro ⟨session,hsession,hkey,htail⟩ before id' behind hsplit hbefore
    cases before with
    | nil =>
      obtain ⟨rfl,_⟩ := List.cons.inj hsplit
      exact ⟨session,hsession,hkey⟩
    | cons first before =>
      obtain ⟨rfl,hbehind⟩ := List.cons.inj hsplit
      obtain ⟨hfirst,hbefore⟩ := List.forall_mem_cons.mp hbefore
      exact htail (hfirst session hsession) before id' behind hbehind hbefore

theorem find_cons (hsession : s.manager.sessionAt id = some session) :
    s.findSessionByProperty key eq val (id :: order) =
      if (s.predicate key eq val session).1 then (.found session,(s.predicate key eq val session).2)
      else (s.predicate key eq val session).2.findSessionByProperty key eq val order := by
  rw [findSessionByProperty, hsession]

/-- Where every key is there, the search stops at the first session with the property, and
nothing has changed. -/
theorem find_of_keyPresent (h : s.KeyPresent key eq val order) :
    (s.findSessionByProperty key eq val order).2 = s ∧
      ((∃ session, (s.findSessionByProperty key eq val order).1 = .found session ∧ s.Managed session ∧
          s.Has key eq val session) ∨
        ((s.findSessionByProperty key eq val order).1 = .notFound ∧ ∀ id ∈ order, ∀ session,
          s.manager.sessionAt id = some session → ¬ s.Has key eq val session)) := by
  induction order with
  | nil => exact ⟨rfl,Or.inr ⟨rfl,nofun⟩⟩
  | cons id order ih =>
    obtain ⟨session,hsession,hkey,htail⟩ := keyPresent_cons.mp h
    rw [find_cons hsession, predicate_of_mem hkey]
    by_cases hhas : s.Has key eq val session
    · rw [if_pos ((equals_iff_has session).mpr hhas)]
      exact ⟨rfl,Or.inl ⟨session,rfl,⟨id,hsession⟩,hhas⟩⟩
    · rw [if_neg (mt (equals_iff_has session).mp hhas)]
      obtain ⟨hsame,hresult⟩ := ih (htail hhas)
      refine ⟨hsame,hresult.imp_right fun ⟨hnone,hothers⟩ => ⟨hnone,?_⟩⟩
      refine List.forall_mem_cons.mpr ⟨fun session' hsession' => ?_,hothers⟩
      cases hsession.symm.trans hsession'
      exact hhas

omit [DecidableEq τ] in
/-- No call of the predicate takes a property out. -/
theorem mem_update {session' : Session} (h : key ∈ s.properties session') :
    key ∈ Function.update s.properties session ((s.properties session).subscript key).2 session' := by
  by_cases hsession : session' = session
  · rw [hsession, Function.update_self]
    exact PropertySet.mem_subscript
  · rw [Function.update_of_ne hsession]
    exact h

theorem mem_find (h : key ∈ s.properties session) (order : List SessionId) :
    key ∈ (s.findSessionByProperty key eq val order).2.properties session := by
  induction order generalizing s with
  | nil => exact h
  | cons id order ih =>
    cases hsession : s.manager.sessionAt id with
    | none =>
      rw [findSessionByProperty, hsession]
      exact h
    | some session' =>
      rw [find_cons hsession]
      split
      · exact mem_update h
      · exact ih (mem_update h)

/-- Otherwise a null pointer is dereferenced, or a managed session gets a property it had not. -/
theorem find_of_not_keyPresent (h : ¬ s.KeyPresent key eq val order) :
    (s.findSessionByProperty key eq val order).1 = .crashed ∨
      ∃ session, s.Managed session ∧ key ∉ s.properties session ∧
        key ∈ (s.findSessionByProperty key eq val order).2.properties session := by
  induction order with
  | nil =>
    refine absurd (fun before id behind hsplit _ => ?_) h
    cases before <;> cases hsplit
  | cons id order ih =>
    cases hsession : s.manager.sessionAt id with
    | none =>
      rw [findSessionByProperty, hsession]
      exact Or.inl rfl
    | some session =>
      rw [find_cons hsession]
      by_cases hkey : key ∈ s.properties session
      · rw [predicate_of_mem hkey]
        have hhas : ¬ s.Has key eq val session := fun hhas =>
          h (keyPresent_cons.mpr ⟨session,hsession,hkey,fun hnot => absurd hhas hnot⟩)
        rw [if_neg (mt (equals_iff_has session).mp hhas)]
        exact ih fun htail => h (keyPresent_cons.mpr ⟨session,hsession,hkey,fun _ => htail⟩)
      · have hentered : key ∈ (s.predicate key eq val session).2.properties session := by
          change key ∈ Function.update s.properties session ((s.properties session).subscript key).2 session
          rw [Function.update_self]
          exact PropertySet.mem_subscript
        refine Or.inr ⟨session,⟨id,hsession⟩,hkey,?_⟩
        split
        · exact hentered
        · exact mem_find hentered order

theorem LooksUp.keyPresent (h : s.LooksUp key eq val order) : s.KeyPresent key eq val order := by
  by_contra hnot
  rcases find_of_not_keyPresent hnot with hcrashed | ⟨session,hmanaged,hkey,hentered⟩
  · exact h.returns hcrashed
  · obtain ⟨property,hproperty⟩ := Option.isSome_iff_exists.mp (AList.lookup_isSome.mpr hentered)
    rw [h.unchanged session hmanaged] at hproperty
    exact hkey (AList.lookup_isSome.mp (Option.isSome_iff_exists.mpr ⟨property,hproperty⟩))

/-- A search changes nothing, and finds a session if there is one, exactly if each pointer up to the
first hit is to a session that has the key. -/
theorem looksUp_iff (key : κ) (eq : V t → V t → Bool) (val : V t)
    (horder : order.Perm s.manager.sessions.keys) :
    s.LooksUp key eq val order ↔ s.KeyPresent key eq val order := by
  constructor
  · exact LooksUp.keyPresent
  · intro h
    obtain ⟨hsame,hresult⟩ := find_of_keyPresent h
    refine ⟨?_,fun session _ k => by rw [hsame],?_,?_⟩
    · rcases hresult with ⟨session,hfound,_⟩ | ⟨hnone,_⟩
      · rw [hfound]
        exact nofun
      · rw [hnone]
        exact nofun
    · intro session hfound
      rcases hresult with ⟨session',hfound',hmanaged,hhas⟩ | ⟨hnone,_⟩
      · cases hfound.symm.trans hfound'
        exact ⟨hmanaged,hhas⟩
      · cases hfound.symm.trans hnone
    · rintro session ⟨id,hid⟩ hhas
      rcases hresult with ⟨session',hfound,_⟩ | ⟨_,hothers⟩
      · exact ⟨session',hfound⟩
      · have hlookup := Option.join_eq_some_iff.mp hid
        have hkey := AList.lookup_isSome.mp (Option.isSome_iff_exists.mpr ⟨_,hlookup⟩)
        exact absurd hhas (hothers id (horder.mem_iff.mpr (AList.mem_keys.mp hkey)) session hid)

/-- With the answers the predicate gives at first, this is `SessionManager::find`. -/
theorem find_eq (s : PropertyStore κ V) (order : List SessionId) : s.manager.find
    (fun id => Property.equals eq val ((s.properties ⟨id⟩).lookup key).join) order =
      match (s.findSessionByProperty key eq val order).1 with
      | .found session => (some session,s.manager)
      | .notFound => (none,s.manager)
      | .crashed => (none,s.manager.crash) := by
  induction order generalizing s with
  | nil => rfl
  | cons id order ih =>
    cases hsession : s.manager.sessionAt id with
    | none => rw [SessionManager.find, findSessionByProperty, hsession]
    | some session =>
      have hanswer : (s.predicate key eq val session).1 =
          Property.equals eq val ((s.properties session).lookup key).join :=
        congrArg (Property.equals eq val) PropertySet.join_subscript.1
      have hsame : ∀ session', (((s.predicate key eq val session).2.properties session').lookup key).join =
          ((s.properties session').lookup key).join := by
        intro session'
        change ((Function.update s.properties session _ session').lookup key).join = _
        by_cases hs : session' = session
        · rw [hs, Function.update_self]
          exact PropertySet.join_subscript.2
        · rw [Function.update_of_ne hs]
      have hrest := ih (s.predicate key eq val session).2
      simp only [hsame] at hrest
      rw [SessionManager.find, hsession, find_cons hsession, hanswer]
      dsimp only
      by_cases hhit : Property.equals eq val ((s.properties session).lookup key).join = true
      · rw [if_pos hhit, if_pos hhit]
      · rw [if_neg hhit, if_neg hhit]
        exact hrest

end Search

/-- A table with the session 1, and its properties. -/
def oneSession (properties : PropertySet String fun _ : Unit => ℕ) :
    PropertyStore String fun _ : Unit => ℕ :=
  ⟨⟨1,AList.singleton 1 (some ⟨1⟩),false⟩,fun _ => properties⟩

theorem looksUp_iff_named :
    (oneSession (AList.singleton "name" (some ⟨(),7⟩))).LooksUp (t := ()) "name" (· == ·) 7 [1] ↔
      (oneSession (AList.singleton "name" (some ⟨(),7⟩))).KeyPresent (t := ()) "name" (· == ·) 7 [1] :=
  looksUp_iff "name" (· == ·) 7 (List.Perm.refl [1])

/-- A session without the property has it afterwards, with nothing in it. -/
theorem not_looksUp_unnamed :
    ((oneSession ∅).findSessionByProperty (t := ()) "name" (· == ·) 7 [1]).1 = .notFound ∧
      (((oneSession ∅).findSessionByProperty (t := ()) "name" (· == ·) 7 [1]).2.properties ⟨1⟩).lookup "name" =
        some none ∧
      ¬ (oneSession ∅).LooksUp (t := ()) "name" (· == ·) 7 [1] := by
  refine ⟨rfl,rfl,fun h => ?_⟩
  obtain ⟨session,_,hkey⟩ := h.keyPresent [] 1 [] rfl nofun
  exact AList.notMem_empty "name" hkey

end PropertyStore

end Isml
