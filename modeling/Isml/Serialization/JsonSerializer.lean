import Isml.Io.JsonLayers
import Isml.Serialization.CompositeSerializer

/-! # `JsonSerializer`, composed with others

A context for JSON holds a JSON value in which every object that is written has a member under its name.
A class writes its members into a JSON value of its own. Reading looks the names up, so neither the
order of the members nor what else is there makes a difference.
-/
namespace Isml

inductive JsonFault where
  | io (message : String)
  | runtimeError (message : String)
  /-- jsoncpp refuses what is asked of a value. -/
  | logicError
  /-- `JsonSerializer` has no specialization for the type, so there is no such program. -/
  | noSpecialization
  deriving DecidableEq, Repr

theorem JsonFault.bind_eq_ok {σ τ : Type} {x : Except JsonFault σ} {f : σ → Except JsonFault τ} {t : τ} :
    (x >>= f) = .ok t ↔ ∃ s, x = .ok s ∧ f s = .ok t := by
  cases x with
  | ok s => exact ⟨fun h => ⟨s,rfl,h⟩,fun ⟨_,hs,hf⟩ => Except.ok.inj hs ▸ hf⟩
  | error e => exact ⟨fun h => (nomatch h),fun ⟨_,hs,_⟩ => (nomatch hs)⟩

/-- What is used of jsoncpp. A value of a number or of a string reads as that again, as far as it is in
the range of the type that is asked for. `toObject` is what `operator[]` of a name makes of a value that
is going to have the member, `subscript` what it returns: the member, or null where an object has none. -/
structure JsonCpp (α : Type) where
  null : α
  ofInt : ℤ → α
  ofString : List ℕ → α
  asInt64 : Json α → Except JsonFault ℤ
  asUInt64 : Json α → Except JsonFault ℤ
  asString : Json α → Except JsonFault (List ℕ)
  toObject : Json α → Except JsonFault (Json α)
  subscript : Json α → String → Json α
  isMember : Json α → String → Except JsonFault Bool
  asInt64_ofInt : ∀ n, -2 ^ 63 ≤ n → n < 2 ^ 63 → asInt64 (.value (ofInt n)) = .ok n
  asUInt64_ofInt : ∀ n, 0 ≤ n → n < 2 ^ 64 → asUInt64 (.value (ofInt n)) = .ok n
  asString_ofString : ∀ text, asString (.value (ofString text)) = .ok text
  toObject_null : toObject (.value null) = .ok JsonUtils.emptyObject
  toObject_object : ∀ {json}, json.isObject = true → toObject json = .ok json
  isObject_toObject : ∀ {json base}, toObject json = .ok base → base.isObject = true
  subscript_of_member : ∀ {json name v}, json.member name = some v → subscript json name = v
  subscript_of_none : ∀ {json name}, json.isObject = true → json.member name = none →
    subscript json name = .value null
  isMember_object : ∀ {json} name, json.isObject = true → isMember json name = .ok (json.member name).isSome
  isMember_value : ∀ a name, isMember (.value a) name ≠ .ok true

/-- Numbers and strings without the other kinds of values. -/
inductive JsonScalar where
  | null
  | number (n : ℤ)
  | text (s : List ℕ)
  deriving DecidableEq, Repr

def jsonScalars : JsonCpp JsonScalar where
  null := .null
  ofInt := .number
  ofString := .text
  asInt64
    | .value .null => .ok 0
    | .value (.number n) => if -2 ^ 63 ≤ n ∧ n < 2 ^ 63 then .ok n else .error .logicError
    | _ => .error .logicError
  asUInt64
    | .value .null => .ok 0
    | .value (.number n) => if 0 ≤ n ∧ n < 2 ^ 64 then .ok n else .error .logicError
    | _ => .error .logicError
  asString
    | .value .null => .ok []
    | .value (.number n) => .ok ((toString n).toList.map Char.toNat)
    | .value (.text s) => .ok s
    | _ => .error .logicError
  toObject
    | .value .null => .ok JsonUtils.emptyObject
    | .value _ => .error .logicError
    | .object names values => .ok (.object names values)
  subscript json name := (json.member name).getD (.value .null)
  isMember json name :=
    match json with
    | .value .null => .ok false
    | .value _ => .error .logicError
    | .object names values => .ok ((Json.object names values).member name).isSome
  asInt64_ofInt _ hlow hhigh := if_pos ⟨hlow,hhigh⟩
  asUInt64_ofInt _ hlow hhigh := if_pos ⟨hlow,hhigh⟩
  asString_ofString _ := rfl
  toObject_null := rfl
  toObject_object {json} hobject := by
    cases json with
    | value a => cases hobject
    | object names values => rfl
  isObject_toObject {json base} hbase := by
    cases json with
    | value a => cases a <;> cases hbase; rfl
    | object names values =>
      cases hbase
      rfl
  subscript_of_member {json name v} hmember := by
    rw [hmember]
    rfl
  subscript_of_none {json name} _ hnone := by
    rw [hnone]
    rfl
  isMember_object {json} name hobject := by
    cases json with
    | value a => cases hobject
    | object names values => rfl
  isMember_value a name hfound := by
    cases a <;> cases hfound

/-- `json[name] = v`. -/
def JsonCpp.setMember {α : Type} (c : JsonCpp α) (json : Json α) (name : String) (v : Json α) :
    Except JsonFault (Json α) := do
  let json ← c.toObject json
  .ok (json.assign name v)

/-- `std::is_signed_v` on an LP64 host. -/
def IntegralType.signed : IntegralType → Bool
  | .char | .signedChar | .wchar | .short | .int | .long | .longLong => true
  | _ => false

/-- The number that is in an object of the type. -/
def IntegralType.toNumber (k : IntegralType) (bits : ℕ) : ℤ :=
  if k.signed && decide (256 ^ k.size ≤ 2 * bits) then (bits : ℤ) - 256 ^ k.size else bits

/-- `static_cast<T>(number)`. -/
def IntegralType.ofNumber (k : IntegralType) (number : ℤ) : ℕ := (number % 256 ^ k.size).toNat

/-- What a call of a serializer is told of the object: the name, and the serializers to choose from. -/
structure SerializedMember where
  name : String
  serializers : SerializerPack

/-- The members of each class derived from `Serializable`, in the order of its `serialize`. -/
abbrev Classes := String → List SerializedMember

def Ty.isString : Ty → Bool
  | .sequence container (.integral .char) => decide (container = "std::string")
  | _ => false

namespace JsonSerializer
variable {α : Type} (c : JsonCpp α) (classes : Classes)

def tag : SerializerTag := .other "JsonSerializer"

def supportedBy (p : SerializerPack) : Bool := p.tags.any fun t => decide (t = tag)

/-- `checkMember`. -/
def checkMember (json : Json α) (name : String) : Except JsonFault Unit := do
  if ← c.isMember json name then .ok () else .error (.runtimeError "Member not found")

/-- `CompositeSerializer` in a context for JSON; `act` is what `JsonSerializer` does. -/
def composite {σ : Type} (p : SerializerPack) (act : σ → Except JsonFault σ) (s : σ) : Except JsonFault σ :=
  if !supportedBy p then .error (.io "Serializer is not supported")
  else p.tags.foldlM (fun s t => if t = tag then act s else .ok s) s

/-- `serialize` of an object under a name, or of the members of a class under theirs, which are the
nested pairs of the type. -/
def serialize : Ty → List SerializedMember → Val → Json α → Except JsonFault (Json α)
  | .integral k,[x],v,json => composite x.serializers (fun json =>
      if k = .bool then .error .noSpecialization
      else c.setMember json x.name (.value (c.ofInt (k.toNumber v.toBits)))) json
  | .sequence container a,[x],v,json => composite x.serializers (fun json =>
      if (Ty.sequence container a).isString then
        c.setMember json x.name (.value (c.ofString (v.elements.map Val.toBits)))
      else .error .noSpecialization) json
  | .serializable name m,[x],v,json => composite x.serializers (fun json => do
      let json ← c.toObject json
      let sub ← serialize m (classes name) v (c.subscript json x.name)
      .ok (json.assign x.name sub)) json
  | .pair a b,x :: y :: xs,v,json => do
      let json ← serialize a [x] v.first json
      serialize b (y :: xs) v.second json
  | _,_,_,_ => .error .noSpecialization

/-- `deserialize`, with the old contents of the object. -/
def deserialize : Ty → List SerializedMember → Val → Json α → Except JsonFault Val
  | .integral k,[x],old,json => composite x.serializers (fun _ =>
      if k = .bool then .error .noSpecialization
      else do
        checkMember c json x.name
        let number ←
          if k.signed then c.asInt64 (c.subscript json x.name) else c.asUInt64 (c.subscript json x.name)
        .ok (.bits (k.ofNumber number))) old
  | .sequence container a,[x],old,json => composite x.serializers (fun _ =>
      if (Ty.sequence container a).isString then do
        checkMember c json x.name
        let text ← c.asString (c.subscript json x.name)
        .ok (.items (text.map Val.bits))
      else .error .noSpecialization) old
  | .serializable name m,[x],old,json => composite x.serializers (fun old => do
      checkMember c json x.name
      deserialize m (classes name) old (c.subscript json x.name)) old
  | .pair a b,x :: y :: xs,old,json => do
      let v ← deserialize a [x] old.first json
      let w ← deserialize b (y :: xs) old.second json
      .ok (.pair v w)
  | _,_,_,_ => .error .noSpecialization

/-- The serializers can be used, and `JsonSerializer` has a specialization wherever it is. -/
def Streams : Ty → List SerializedMember → Prop
  | .integral k,[x] => k ≠ .bool ∧ supportedBy x.serializers = true
  | .sequence container a,[x] => (Ty.sequence container a).isString = true ∧ supportedBy x.serializers = true
  | .serializable name m,[x] => supportedBy x.serializers = true ∧
      ((classes name).map SerializedMember.name).Nodup ∧ Streams m (classes name)
  | .pair a b,x :: y :: xs => Streams a [x] ∧ Streams b (y :: xs)
  | _,_ => False

end JsonSerializer

section Numbers
variable {k : IntegralType} {bits : ℕ}

theorem IntegralType.ofNumber_toNumber (h : bits < 256 ^ k.size) : k.ofNumber (k.toNumber bits) = bits := by
  have hbits : ((bits : ℤ) % 256 ^ k.size).toNat = bits := by
    have hlt : (bits : ℤ) < 256 ^ k.size := by exact_mod_cast h
    rw [Int.emod_eq_of_lt (Int.natCast_nonneg bits) hlt, Int.toNat_natCast]
  unfold toNumber ofNumber
  split_ifs
  · rw [Int.sub_emod_right, hbits]
  · exact hbits

theorem IntegralType.toNumber_signed (hk : k.signed = true) (h : bits < 256 ^ k.size) :
    -2 ^ 63 ≤ k.toNumber bits ∧ k.toNumber bits < 2 ^ 63 := by
  unfold toNumber
  rw [hk]
  rcases k.size_cases with hs | hs | hs | hs <;> rw [hs] at h ⊢ <;> split_ifs <;> simp_all <;> omega

theorem IntegralType.toNumber_unsigned (hk : k.signed = false) (h : bits < 256 ^ k.size) :
    0 ≤ k.toNumber bits ∧ k.toNumber bits < 2 ^ 64 := by
  unfold toNumber
  rw [hk]
  rcases k.size_cases with hs | hs | hs | hs <;> rw [hs] at h <;> simp <;> omega

end Numbers

section Members
variable {α : Type} {c : JsonCpp α} {json base v : Json α} {name : String}

theorem JsonCpp.setMember_eq (h : c.toObject json = .ok base) :
    c.setMember json name v = .ok (base.assign name v) := by
  unfold setMember
  rw [h]
  rfl

theorem JsonSerializer.checkMember_eq (h : json.isObject = true) : JsonSerializer.checkMember c json name =
    if (json.member name).isSome then .ok () else .error (.runtimeError "Member not found") := by
  unfold checkMember
  rw [c.isMember_object name h]
  rfl

end Members

namespace JsonSerializer
variable {α : Type} {c : JsonCpp α} {classes : Classes}

theorem foldlM_once {σ τ : Type} [DecidableEq τ] {tags : List τ} {t : τ} (hnd : tags.Nodup) (h : t ∈ tags)
    (act : σ → Except JsonFault σ) (s : σ) :
    tags.foldlM (fun s t' => if t' = t then act s else .ok s) s = act s := by
  have hskip : ∀ l : List τ, t ∉ l → ∀ s,
      l.foldlM (fun s t' => if t' = t then act s else .ok s) s = (.ok s : Except JsonFault σ) := by
    intro l hl s
    induction l with
    | nil => rfl
    | cons t' l ih =>
      rw [List.mem_cons, not_or] at hl
      rw [List.foldlM_cons, if_neg (Ne.symm hl.1)]
      exact ih hl.2
  obtain ⟨xs,ys,rfl⟩ := List.append_of_mem h
  obtain ⟨_,hys,hdis⟩ := List.nodup_append.mp hnd
  have hxs : t ∉ xs := fun hx => hdis t hx t List.mem_cons_self rfl
  rw [List.foldlM_append, hskip xs hxs]
  change ((if t = t then act s else .ok s) >>= _) = _
  rw [if_pos rfl]
  cases act s with
  | error e => rfl
  | ok s' => exact hskip ys (List.nodup_cons.mp hys).1 s'

theorem composite_eq {σ : Type} {p : SerializerPack} (hp : supportedBy p = true)
    (act : σ → Except JsonFault σ) (s : σ) : composite p act s = act s := by
  have hmem : tag ∈ p.tags := by simpa [supportedBy] using hp
  unfold composite
  rw [hp, Bool.not_true, if_neg Bool.false_ne_true]
  exact foldlM_once p.nodup hmem act s

/-- What was written under the names of `xs` into `base`: nothing else has changed, and it reads as
`v` wherever it is under these names. -/
structure Written (c : JsonCpp α) (classes : Classes) (t : Ty) (xs : List SerializedMember) (v : Val)
    (base json : Json α) : Prop where
  isObject : json.isObject = true
  others : ∀ name, name ∉ xs.map SerializedMember.name → json.member name = base.member name
  present : ∀ x ∈ xs, (json.member x.name).isSome = true
  reads : ∀ other : Json α, other.isObject = true → (∀ x ∈ xs, other.member x.name = json.member x.name) →
    ∀ old, deserialize c classes t xs old other = .ok v

/-- One member is written, and read back by `read`. -/
theorem written_member {t : Ty} {x : SerializedMember} {v : Val} {base member : Json α}
    (hbase : base.isObject = true) (hread : ∀ other : Json α, checkMember c other x.name = .ok () →
      c.subscript other x.name = member → ∀ old, deserialize c classes t [x] old other = .ok v) :
    Written c classes t [x] v base (base.assign x.name member) := by
  have hmember : (base.assign x.name member).member x.name = some member := by
    rw [JsonUtils.member_assign hbase, if_pos rfl]
  refine ⟨JsonUtils.isObject_assign hbase,fun name hname => ?_,fun y hy => ?_,fun other hother hsame => ?_⟩
  · rw [List.map_singleton, List.mem_singleton] at hname
    rw [JsonUtils.member_assign hbase, if_neg hname]
  · rw [List.mem_singleton.mp hy, hmember]
    rfl
  · have hx := (hsame x (List.mem_singleton_self x)).trans hmember
    refine hread other ?_ (c.subscript_of_member hx)
    rw [checkMember_eq hother, hx]
    rfl

theorem items_of_isString {container : String} {a : Ty} {v : Val}
    (h : (Ty.sequence container a).isString = true) (hv : (Ty.sequence container a).HasType v) :
    Val.items ((v.elements.map Val.toBits).map Val.bits) = v := by
  obtain ⟨hitems,helements⟩ := hv
  have hchar : a = .integral .char := by
    unfold Ty.isString at h
    split at h
    · rename_i heq
      cases heq
      rfl
    · cases h
  subst hchar
  have hbits : v.elements.map (Val.bits ∘ Val.toBits) = v.elements.map id := by
    refine List.map_congr_left fun x hx => ?_
    obtain ⟨n,rfl,_⟩ := helements x hx
    rfl
  rw [List.map_map, hbits, List.map_id]
  exact hitems.symm

/-- The number that was written is the one that is read. -/
theorem deserialize_integral {k : IntegralType} {x : SerializedMember} {bits : ℕ} {old : Val} {json : Json α}
    (hk : k ≠ .bool) (hx : supportedBy x.serializers = true) (hbits : bits < 256 ^ k.size)
    (hcheck : checkMember c json x.name = .ok ())
    (hmember : c.subscript json x.name = .value (c.ofInt (k.toNumber bits))) :
    deserialize c classes (.integral k) [x] old json = .ok (.bits bits) := by
  simp only [deserialize, composite_eq hx, if_neg hk, hcheck, hmember]
  cases hsigned : k.signed with
  | true =>
    obtain ⟨hlow,hhigh⟩ := IntegralType.toNumber_signed hsigned hbits
    rw [if_pos rfl, c.asInt64_ofInt _ hlow hhigh]
    change Except.ok (Val.bits (k.ofNumber (k.toNumber bits))) = _
    rw [IntegralType.ofNumber_toNumber hbits]
  | false =>
    obtain ⟨hlow,hhigh⟩ := IntegralType.toNumber_unsigned hsigned hbits
    rw [if_neg Bool.false_ne_true, c.asUInt64_ofInt _ hlow hhigh]
    change Except.ok (Val.bits (k.ofNumber (k.toNumber bits))) = _
    rw [IntegralType.ofNumber_toNumber hbits]

/-- Further members are written behind the first. -/
theorem Written.pair {a b : Ty} {x y : SerializedMember} {xs : List SerializedMember} {v : Val}
    {base json₁ json₂ : Json α} (hfirst : Written c classes a [x] v.first base json₁)
    (hsecond : Written c classes b (y :: xs) v.second json₁ json₂)
    (hx : x.name ∉ (y :: xs).map SerializedMember.name) (hv : v = .pair v.first v.second) :
    Written c classes (.pair a b) (x :: y :: xs) v base json₂ := by
  have hkept : json₂.member x.name = json₁.member x.name := hsecond.others _ hx
  refine ⟨hsecond.isObject,fun name hname => ?_,fun z hz => ?_,fun other hother hsame old => ?_⟩
  · rw [List.map_cons, List.mem_cons, not_or] at hname
    exact (hsecond.others name hname.2).trans (hfirst.others name (by simpa using hname.1))
  · rcases List.mem_cons.mp hz with rfl | hz
    · rw [hkept]
      exact hfirst.present z (List.mem_singleton_self z)
    · exact hsecond.present z hz
  · have hv₁ := hfirst.reads other hother (fun z hz => by
      rw [List.mem_singleton.mp hz, hsame x List.mem_cons_self, hkept]) old.first
    have hv₂ := hsecond.reads other hother (fun z hz => hsame z (List.mem_cons_of_mem x hz)) old.second
    simp only [deserialize, hv₁]
    change (deserialize c classes b (y :: xs) old.second other >>= _) = _
    rw [hv₂, hv]
    rfl

/-- An object of a streamable type can be written under names that are free, and is read back. -/
theorem exists_written {t : Ty} {xs : List SerializedMember} {v : Val} {json base : Json α}
    (ht : Streams classes t xs) (hv : t.HasType v) (hnd : (xs.map SerializedMember.name).Nodup)
    (hbase : c.toObject json = .ok base) (hfree : ∀ x ∈ xs, base.member x.name = none) :
    ∃ json', serialize c classes t xs v json = .ok json' ∧ Written c classes t xs v base json' := by
  have hobject := c.isObject_toObject hbase
  induction t generalizing xs v json base with
  | integral k =>
    match xs, ht with
    | [x],ht =>
      obtain ⟨hk,hx⟩ := ht
      obtain ⟨bits,rfl,hbits⟩ := hv
      refine ⟨base.assign x.name (.value (c.ofInt (k.toNumber bits))),?_,
        written_member hobject fun other hcheck hsub old => ?_⟩
      · simp only [serialize, composite_eq hx, if_neg hk]
        exact JsonCpp.setMember_eq hbase
      · exact deserialize_integral hk hx (hbits.trans_le k.range_le) hcheck hsub
  | sequence container a _ =>
    match xs, ht with
    | [x],ht =>
      obtain ⟨hstring,hx⟩ := ht
      refine ⟨base.assign x.name (.value (c.ofString (v.elements.map Val.toBits))),?_,
        written_member hobject fun other hcheck hsub old => ?_⟩
      · simp only [serialize, composite_eq hx, hstring, if_true]
        exact JsonCpp.setMember_eq hbase
      · simp only [deserialize, composite_eq hx, hstring, if_true, hcheck, hsub, c.asString_ofString]
        change Except.ok (Val.items ((v.elements.map Val.toBits).map Val.bits)) = _
        rw [items_of_isString hstring hv]
  | serializable name m hm =>
    match xs, ht with
    | [x],ht =>
      obtain ⟨hx,hnames,hstreams⟩ := ht
      have hnull : c.subscript base x.name = .value c.null :=
        c.subscript_of_none hobject (hfree x (List.mem_singleton_self x))
      obtain ⟨sub,hsub,hwritten⟩ := hm hstreams hv hnames c.toObject_null (fun _ _ => rfl) rfl
      refine ⟨base.assign x.name sub,?_,written_member hobject fun other hcheck hmember old => ?_⟩
      · simp only [serialize, composite_eq hx, hbase]
        change ((serialize c classes m (classes name) v (c.subscript base x.name)) >>= _) = _
        rw [hnull, hsub]
        rfl
      · simp only [deserialize, composite_eq hx, hcheck, hmember]
        exact hwritten.reads sub hwritten.isObject (fun _ _ => rfl) old
  | pair a b ha hb =>
    match xs, ht with
    | x :: y :: xs,ht =>
      obtain ⟨hta,htb⟩ := ht
      obtain ⟨hv,hva,hvb⟩ := hv
      obtain ⟨hx,hrest⟩ := List.nodup_cons.mp hnd
      obtain ⟨json₁,h₁,hfirst⟩ := ha hta hva (List.nodup_singleton _) hbase
        (fun z hz => hfree z (List.mem_cons.mpr (Or.inl (List.mem_singleton.mp hz)))) hobject
      have hnew : ∀ z ∈ y :: xs, z.name ∉ [x].map SerializedMember.name := fun z hz hname =>
        hx (List.mem_singleton.mp hname ▸ List.mem_map_of_mem hz)
      obtain ⟨json₂,h₂,hsecond⟩ := hb htb hvb hrest (c.toObject_object hfirst.isObject)
        (fun z hz => (hfirst.others _ (hnew z hz)).trans (hfree z (List.mem_cons_of_mem x hz)))
        hfirst.isObject
      refine ⟨json₂,?_,hfirst.pair hsecond hx hv⟩
      simp only [serialize, h₁]
      exact h₂
  | floating k | enumeration name k | optional a _ | set p a _ | map p k a _ _ | array n a _ =>
    match xs, ht with
    | [],ht | [_],ht | _ :: _ :: _,ht => exact ht.elim

/-- Where in the JSON value the members of an object are looked for, at all depths. -/
def paths (classes : Classes) : Ty → List SerializedMember → List (List String)
  | .serializable name m,[x] => (paths classes m (classes name)).map (x.name :: ·)
  | .pair a b,x :: y :: xs => paths classes a [x] ++ paths classes b (y :: xs)
  | _,xs => xs.map fun x => [x.name]

theorem composite_eq_ok {σ : Type} {p : SerializerPack} {act : σ → Except JsonFault σ} {s s' : σ}
    (h : composite p act s = .ok s') : act s = .ok s' := by
  cases hp : supportedBy p with
  | true => rwa [composite_eq hp] at h
  | false =>
    unfold composite at h
    rw [hp] at h
    cases h

theorem isSome_of_checkMember {json : Json α} {name : String} (h : checkMember c json name = .ok ()) :
    (json.member name).isSome = true := by
  obtain ⟨found,hfound,h⟩ := JsonFault.bind_eq_ok.mp h
  cases found with
  | false => cases h
  | true =>
    cases json with
    | value a => exact absurd hfound (c.isMember_value a name)
    | object names values =>
      rw [c.isMember_object name rfl] at hfound
      exact Except.ok.inj hfound

theorem atPath_single_name {json : Json α} {name : String} (h : (json.member name).isSome = true) :
    (json.atPath [name]).isSome = true := by
  obtain ⟨v,hv⟩ := Option.isSome_iff_exists.mp h
  rw [JsonUtils.atPath_cons_some hv]
  rfl

/-- What is read was there, for every member at every depth. -/
theorem atPath_of_deserialize {t : Ty} {xs : List SerializedMember} {old v : Val} {json : Json α}
    (h : deserialize c classes t xs old json = .ok v) :
    ∀ path ∈ paths classes t xs, (json.atPath path).isSome = true := by
  induction t generalizing xs old v json with
  | integral k =>
    match xs, h with
    | [x],h =>
      have h := composite_eq_ok h
      by_cases hk : k = .bool
      · rw [if_pos hk] at h
        cases h
      · rw [if_neg hk] at h
        intro path hpath
        obtain rfl := List.mem_singleton.mp hpath
        obtain ⟨_,hcheck,_⟩ := JsonFault.bind_eq_ok.mp h
        exact atPath_single_name (isSome_of_checkMember hcheck)
    | [],h | _ :: _ :: _,h => cases h
  | sequence container a _ =>
    match xs, h with
    | [x],h =>
      have h := composite_eq_ok h
      split_ifs at h
      intro path hpath
      obtain rfl := List.mem_singleton.mp hpath
      obtain ⟨_,hcheck,_⟩ := JsonFault.bind_eq_ok.mp h
      exact atPath_single_name (isSome_of_checkMember hcheck)
    | [],h | _ :: _ :: _,h => cases h
  | serializable name m hm =>
    match xs, h with
    | [x],h =>
      obtain ⟨_,hcheck,h⟩ := JsonFault.bind_eq_ok.mp (composite_eq_ok h)
      obtain ⟨sub,hsub⟩ := Option.isSome_iff_exists.mp (isSome_of_checkMember hcheck)
      rw [c.subscript_of_member hsub] at h
      intro path hpath
      obtain ⟨rest,hrest,rfl⟩ := List.mem_map.mp hpath
      rw [JsonUtils.atPath_cons_some hsub]
      exact hm h rest hrest
    | [],h | _ :: _ :: _,h => cases h
  | pair a b ha hb =>
    match xs, h with
    | x :: y :: xs,h =>
      obtain ⟨v,hv,h⟩ := JsonFault.bind_eq_ok.mp h
      obtain ⟨w,hw,_⟩ := JsonFault.bind_eq_ok.mp h
      intro path hpath
      rcases List.mem_append.mp hpath with hpath | hpath
      · exact ha hv path hpath
      · exact hb hw path hpath
    | [],h | [_],h => cases h
  | floating k | enumeration name k | optional a _ | set p a _ | map p k a _ _ | array n a _ =>
    match xs, h with
    | [],h | [_],h | _ :: _ :: _,h => cases h

end JsonSerializer

end Isml
