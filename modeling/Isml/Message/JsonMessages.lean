import Isml.Message.FactoryLayouts
import Isml.Serialization.JsonSerializer

/-! # Messages in JSON

A field is written under its name. Two peers that number their copies of a factory differently do not
read each other's bytes, but they read each other's JSON: every order of the fields will do, and what
else is in the JSON value is not looked at.
-/
namespace Isml
open JsonSerializer

variable {α : Type} (c : JsonCpp α) (classes : Classes)

namespace Field

def member (f : Field) : SerializedMember := ⟨f.name,f.serializers⟩

def serializeJson (f : Field) (json : Json α) : Except JsonFault (Json α) :=
  JsonSerializer.serialize c classes f.type [f.member] f.value json

def deserializeJson (json : Json α) (f : Field) : Except JsonFault Field := do
  let v ← JsonSerializer.deserialize c classes f.type [f.member] f.value json
  .ok (f.set v)

/-- `JsonSerializer` is among the serializers of the field, for its type and all in it, and the contents
are of the type. -/
structure JsonWritable (f : Field) : Prop where
  streams : Streams classes f.type [f.member]
  hasType : f.type.HasType f.value

end Field

namespace FieldSet

def serializeJson (s : FieldSet) (json : Json α) : Except JsonFault (Json α) :=
  s.toList.foldlM (fun json f => f.serializeJson c classes json) json

def deserializeJsonFields (json : Json α) : List Field → Except JsonFault (List Field)
  | [] => .ok []
  | f :: fs => do
    let f ← f.deserializeJson c classes json
    let fs ← deserializeJsonFields json fs
    .ok (f :: fs)

variable {c classes}

theorem deserializeJsonFields_descriptors {json : Json α} {fs gs : List Field}
    (h : deserializeJsonFields c classes json fs = .ok gs) :
    gs.map Field.toFieldDescriptor = fs.map Field.toFieldDescriptor := by
  induction fs generalizing gs with
  | nil => cases h; rfl
  | cons f fs ih =>
    obtain ⟨g,hg,h⟩ := JsonFault.bind_eq_ok.mp h
    obtain ⟨gs',hgs,h⟩ := JsonFault.bind_eq_ok.mp h
    obtain ⟨v,_,hg⟩ := JsonFault.bind_eq_ok.mp hg
    cases h
    cases hg
    rw [List.map_cons, List.map_cons, ih hgs]
    rfl

variable (c classes)

def deserializeJson (s : FieldSet) (json : Json α) : Except JsonFault FieldSet :=
  match h : deserializeJsonFields c classes json s.toList with
  | .ok fields => .ok (s.withFields fields (names_of_descriptors (deserializeJsonFields_descriptors h)))
  | .error e => .error e

end FieldSet

namespace Message

def serializeJson (m : Message) (json : Json α) : Except JsonFault (Json α) :=
  m.fieldset.serializeJson c classes json

def deserializeJson (m : Message) (json : Json α) : Except JsonFault Message := do
  let fieldset ← m.fieldset.deserializeJson c classes json
  .ok { m with fieldset := fieldset }

end Message

section Fields
variable {c classes} {json base : Json α} {f : Field} {fs : List Field}

/-- Wherever the member of the field is as it is here, the field is read as it was written. -/
def Field.Reads (c : JsonCpp α) (classes : Classes) (base : Json α) (f : Field) : Prop :=
  ∀ other : Json α, other.isObject = true → other.member f.name = base.member f.name →
    ∀ g : Field, g.toFieldDescriptor = f.toFieldDescriptor → g.deserializeJson c classes other = .ok f

theorem Field.exists_reads (hf : f.JsonWritable classes) (hbase : c.toObject json = .ok base)
    (hfree : base.member f.name = none) : ∃ json', f.serializeJson c classes json = .ok json' ∧
      json'.isObject = true ∧ (∀ name, name ≠ f.name → json'.member name = base.member name) ∧
      f.Reads c classes json' := by
  obtain ⟨json',hjson',hwritten⟩ := exists_written hf.streams hf.hasType (List.nodup_singleton _) hbase
    (fun x hx => by rw [List.mem_singleton.mp hx]; exact hfree)
  refine ⟨json',hjson',hwritten.isObject,fun name hname => ?_,fun other hother hsame g hg => ?_⟩
  · exact hwritten.others name (by simpa [Field.member] using hname)
  · obtain ⟨descriptor,old⟩ := g
    obtain rfl : descriptor = f.toFieldDescriptor := hg
    have hread := hwritten.reads other hother
      (fun x hx => by rw [List.mem_singleton.mp hx]; exact hsame) old
    unfold Field.deserializeJson
    exact (congrArg (· >>= _) hread).trans rfl

/-- The fields are written one after the other, none over another one. -/
theorem FieldSet.exists_reads (hfs : ∀ f ∈ fs, f.JsonWritable classes)
    (hnd : (fs.map fun f => f.name).Nodup) (hbase : c.toObject json = .ok base)
    (hfree : ∀ f ∈ fs, base.member f.name = none) :
    ∃ json' base', fs.foldlM (fun json f => f.serializeJson c classes json) json = .ok json' ∧
      c.toObject json' = .ok base' ∧
      (∀ name, name ∉ fs.map (fun f => f.name) → base'.member name = base.member name) ∧
      ∀ f ∈ fs, f.Reads c classes base' := by
  induction fs generalizing json base with
  | nil => exact ⟨json,base,rfl,hbase,fun _ _ => rfl,List.forall_mem_nil _⟩
  | cons f fs ih =>
    obtain ⟨hf,hfs⟩ := List.forall_mem_cons.mp hfs
    obtain ⟨hname,hnd⟩ := List.nodup_cons.mp hnd
    obtain ⟨hfree₀,hfree⟩ := List.forall_mem_cons.mp hfree
    obtain ⟨json₁,h₁,hobject,hothers,hreads⟩ := Field.exists_reads hf hbase hfree₀
    have hne : ∀ g ∈ fs, g.name ≠ f.name := fun g hg hgf => hname (List.mem_map.mpr ⟨g,hg,hgf⟩)
    obtain ⟨json₂,base₂,h₂,hbase₂,hothers₂,hreads₂⟩ := ih hfs hnd (c.toObject_object hobject)
      fun g hg => (hothers g.name (hne g hg)).trans (hfree g hg)
    refine ⟨json₂,base₂,?_,hbase₂,fun name hn => ?_,List.forall_mem_cons.mpr ⟨?_,hreads₂⟩⟩
    · rw [List.foldlM_cons, h₁]
      exact h₂
    · rw [List.map_cons, List.mem_cons, not_or] at hn
      exact (hothers₂ name hn.2).trans (hothers name hn.1)
    · intro other hother hsame g hg
      exact hreads other hother (hsame.trans (hothers₂ f.name hname)) g hg

/-- Fields of the same descriptors, in any order, become the fields that were written. -/
theorem FieldSet.deserializeJsonFields_eq {gs : List Field} {other : Json α}
    (hgs : ∀ g ∈ gs, ∃ f ∈ fs, g.toFieldDescriptor = f.toFieldDescriptor ∧
      g.deserializeJson c classes other = .ok f) :
    ∃ rs, deserializeJsonFields c classes other gs = .ok rs ∧ ∀ r ∈ rs, r ∈ fs := by
  induction gs with
  | nil => exact ⟨[],rfl,List.forall_mem_nil _⟩
  | cons g gs ih =>
    obtain ⟨⟨f,hf,_,hread⟩,hgs⟩ := List.forall_mem_cons.mp hgs
    obtain ⟨rs,hrs,hall⟩ := ih hgs
    refine ⟨f :: rs,?_,List.forall_mem_cons.mpr ⟨hf,hall⟩⟩
    unfold deserializeJsonFields
    rw [hread, hrs]
    rfl

theorem FieldSet.found_of_deserializeJsonFields {gs : List Field}
    (h : deserializeJsonFields c classes json fs = .ok gs) :
    ∀ f ∈ fs, ∀ path ∈ paths classes f.type [f.member], (json.atPath path).isSome = true := by
  induction fs generalizing gs with
  | nil => exact List.forall_mem_nil _
  | cons f fs ih =>
    obtain ⟨g,hg,h⟩ := JsonFault.bind_eq_ok.mp h
    obtain ⟨gs',hgs,_⟩ := JsonFault.bind_eq_ok.mp h
    obtain ⟨v,hv,_⟩ := JsonFault.bind_eq_ok.mp hg
    exact List.forall_mem_cons.mpr ⟨atPath_of_deserialize hv,ih hgs⟩

theorem FieldSet.deserializeJson_eq {s : FieldSet} {rs : List Field}
    (h : deserializeJsonFields c classes json s.toList = .ok rs) :
    ∃ s', s.deserializeJson c classes json = .ok s' ∧ s'.toList = rs := by
  unfold deserializeJson
  split
  · rename_i fields hfields
    cases h.symm.trans hfields
    exact ⟨_,rfl,s.toList_withFields _⟩
  · rename_i e herror
    cases h.symm.trans herror

/-- Sets of the same fields have them under the same names. -/
theorem FieldSet.get_same {s s' : FieldSet} (h : ∀ f, f ∈ s'.toList ↔ f ∈ s.toList) (name : String) :
    Option.Rel Field.Matches (s'.get name) (s.get name) := by
  rw [get_congr h]
  cases s.get name with
  | none => exact .none
  | some f => exact .some ⟨rfl,Same.refl _⟩

end Fields

namespace Message
variable {c classes} {m : Message} {d : MessageDescriptor} {json base : Json α}

/-- A message that was written to JSON is read by a message with its fields in any order, from every JSON
object that has what was written under their names. What else was in the JSON value stays. -/
theorem readsBack (ht : d.type = m.type)
    (hd : d.fieldDescriptors.Perm (m.fields.map Field.toFieldDescriptor))
    (hm : ∀ f ∈ m.fields, f.JsonWritable classes) (hbase : c.toObject json = .ok base)
    (hfree : ∀ f ∈ m.fields, base.member f.name = none) (counter : MessageId) (session : Option SessionId) :
    ∃ json' base', m.serializeJson c classes json = .ok json' ∧ c.toObject json' = .ok base' ∧
      (∀ name, name ∉ m.fields.map (fun f => f.name) → base'.member name = base.member name) ∧
      ∀ other : Json α, other.isObject = true →
        (∀ f ∈ m.fields, other.member f.name = base'.member f.name) →
        ∃ r, (new counter d session).1.deserializeJson c classes other = .ok r ∧ r.SameContents m := by
  obtain ⟨json',base',hjson',hbase',hothers,hreads⟩ :=
    FieldSet.exists_reads hm m.fieldset.names_nodup hbase hfree
  refine ⟨json',base',hjson',hbase',hothers,fun other hother hsame => ?_⟩
  have hnew := new_fields counter d session
  have hfields : ∀ g ∈ (new counter d session).1.fields, ∃ f ∈ m.fields,
      g.toFieldDescriptor = f.toFieldDescriptor ∧ g.deserializeJson c classes other = .ok f := by
    intro g hg
    rw [hnew] at hg
    obtain ⟨e,he,rfl⟩ := List.mem_map.mp (List.mem_rotate.mp hg)
    obtain ⟨f,hf,rfl⟩ := List.mem_map.mp (hd.mem_iff.mp he)
    exact ⟨f,hf,rfl,hreads f hf other hother (hsame f hf) _ rfl⟩
  obtain ⟨rs,hrs,hall⟩ := FieldSet.deserializeJsonFields_eq hfields
  obtain ⟨fieldset,hset,hlist⟩ := FieldSet.deserializeJson_eq hrs
  refine ⟨{ (new counter d session).1 with fieldset := fieldset },?_,ht,FieldSet.get_same fun f => ?_⟩
  · unfold deserializeJson
    rw [hset]
    rfl
  · dsimp only
    rw [hlist]
    refine ⟨hall f,fun hf => ?_⟩
    have hdescriptor : f.toFieldDescriptor ∈ rs.map Field.toFieldDescriptor := by
      rw [FieldSet.deserializeJsonFields_descriptors hrs, hnew, List.map_rotate, map_createField,
        List.mem_rotate, hd.mem_iff]
      exact List.mem_map_of_mem hf
    obtain ⟨r,hr,hsame⟩ := List.mem_map.mp hdescriptor
    have hname : r.name = f.name := congrArg FieldDescriptor.name hsame
    exact List.inj_on_of_nodup_map m.fieldset.names_nodup (hall r hr) hf hname ▸ hr

def eitherSerializer : SerializerPack := ⟨[.binary,tag],by decide⟩

/-- A class with two members. -/
def userClasses : Classes
  | "UserInfo" => [⟨"username",eitherSerializer⟩,⟨"age",eitherSerializer⟩]
  | _ => []

def userDescriptors : List FieldDescriptor :=
  [⟨"srcMsgId",.integral .unsignedInt,eitherSerializer⟩,
    ⟨"userInfo",.serializable "UserInfo" (.pair (.sequence "std::string" (.integral .char))
      (.integral .unsignedInt)),eitherSerializer⟩]

/-- A message with an object of a class in it. -/
theorem exists_userInfo : ∃ (d : MessageDescriptor) (m : Message), d.type = 2 ∧ m.type = 2 ∧
    d.fieldDescriptors = userDescriptors.rotate 1 ∧
    d.fieldDescriptors.Perm (m.fields.map Field.toFieldDescriptor) ∧
    ∀ f ∈ m.fields, f.JsonWritable userClasses := by
  have hnd : (userDescriptors.map FieldDescriptor.name).Nodup := by decide
  obtain ⟨d,_,ht,hl⟩ := MessageDescriptor.registerFields_fresh 2 hnd
  let values : String → Val
    | "srcMsgId" => .bits 3
    | _ => .pair (.items [.bits 117]) (.bits 30)
  let m : Message := (new 0 d none).1.fill values
  have hfields : m.fields = userDescriptors.map fun e => ⟨e,values e.name⟩ := by
    rw [fill_fields, new_fields, hl]
    rfl
  refine ⟨d,m,ht,ht,hl,?_,?_⟩
  · rw [hfields, hl, List.map_map]
    exact (List.rotate_perm userDescriptors 1).trans (List.Perm.of_eq (List.map_id _).symm)
  · rw [hfields]
    refine List.forall_mem_cons.mpr ⟨⟨⟨nofun,rfl⟩,3,rfl,by decide⟩,List.forall_mem_singleton.mpr ⟨?_,?_⟩⟩
    · exact ⟨rfl,by decide,⟨rfl,rfl⟩,nofun,rfl⟩
    · exact ⟨rfl,⟨rfl,List.forall_mem_singleton.mpr ⟨117,rfl,by decide⟩⟩,30,rfl,by decide⟩

/-- A message is read only where everything is found that is in its fields, at all depths. -/
theorem found_of_deserializeJson {r : Message} (h : m.deserializeJson c classes json = .ok r) :
    ∀ f ∈ m.fields, ∀ path ∈ paths classes f.type [f.member], (json.atPath path).isSome = true := by
  obtain ⟨fieldset,hset,_⟩ := JsonFault.bind_eq_ok.mp h
  unfold FieldSet.deserializeJson at hset
  split at hset
  · rename_i fields hfields
    exact FieldSet.found_of_deserializeJsonFields hfields
  · cases hset

/-- What the message was read from has the age of the user. -/
theorem found_of_deserializeJson_userInfo : ∃ (m r : Message) (json : Json JsonScalar),
    m.deserializeJson jsonScalars userClasses json = .ok r ∧
      (json.atPath ["userInfo","age"]).isSome = true := by
  obtain ⟨d,m,hd,hm,hl,hperm,hwritable⟩ := exists_userInfo
  obtain ⟨_,json,_,hjson,_,hreads⟩ :=
    readsBack (hd.trans hm.symm) hperm hwritable jsonScalars.toObject_null (fun _ _ => rfl) 5 none
  obtain ⟨r,hr,_⟩ := hreads json (jsonScalars.isObject_toObject hjson) fun _ _ => rfl
  let f : Field := FieldDescriptor.createField ⟨"userInfo",.serializable "UserInfo"
    (.pair (.sequence "std::string" (.integral .char)) (.integral .unsignedInt)),eitherSerializer⟩
  have hf : f ∈ (new 5 d none).1.fields := by
    rw [new_fields, hl]
    exact List.mem_cons_of_mem _ List.mem_cons_self
  refine ⟨_,r,json,hr,found_of_deserializeJson hr f hf _ ?_⟩
  exact List.mem_cons_of_mem _ List.mem_cons_self

end Message

namespace MessageFactory
variable {c classes} {ι : Type*} [DecidableEq ι]

/-- Whatever copies are made of the descriptors and factories on either side, a message that was written
to JSON is read by the other side from every JSON object that has its members; what else was in the JSON
value stays there. -/
theorem readsBack_of_copies (ops : List (ObjectClass.Op ι Method)) (i : ι) {type : MessageType} {o : Origin}
    (ho : Origin.reached ops i type = some o) {m : Message} (ht : m.type = type)
    (hd : o.descriptor.fieldDescriptors.Perm (m.fields.map Field.toFieldDescriptor))
    (hm : ∀ f ∈ m.fields, f.JsonWritable classes) {json base : Json α} (hbase : c.toObject json = .ok base)
    (hfree : ∀ f ∈ m.fields, base.member f.name = none) (counter : MessageId) (session : Option SessionId) :
    ∃ d json' base', (reached ops i).descriptors.lookup type = some d ∧
      m.serializeJson c classes json = .ok json' ∧ c.toObject json' = .ok base' ∧
      (∀ name, name ∉ m.fields.map (fun f => f.name) → base'.member name = base.member name) ∧
      ∀ other : Json α, other.isObject = true →
        (∀ f ∈ m.fields, other.member f.name = base'.member f.name) →
        ∃ r, (Message.new counter d session).1.deserializeJson c classes other = .ok r ∧
          r.SameContents m := by
  obtain ⟨d,hlookup,htype,hfields⟩ := exists_lookup ho
  have hperm : d.fieldDescriptors.Perm (m.fields.map Field.toFieldDescriptor) := by
    rw [hfields]
    split_ifs
    · exact hd
    · exact (List.reverse_perm _).trans hd
  obtain ⟨json',base',hrest⟩ :=
    Message.readsBack (htype.trans ht.symm) hperm hm hbase hfree counter session
  exact ⟨d,json',base',hlookup,hrest⟩

/-- A copy of the factory reads what was written by one that was not copied. -/
theorem readsBack_of_copies_userInfo : ∃ (d d' : MessageDescriptor) (m r : Message) (json base : Json JsonScalar),
    (reached [.call 0 (.add d),.ofCopy 1 0] 1).descriptors.lookup 2 = some d' ∧
      d.fieldDescriptors.Perm (m.fields.map Field.toFieldDescriptor) ∧
      m.serializeJson jsonScalars Message.userClasses (.value .null) = .ok json ∧
      jsonScalars.toObject json = .ok base ∧
      (Message.new 5 d' none).1.deserializeJson jsonScalars Message.userClasses base = .ok r ∧
      r.SameContents m := by
  obtain ⟨d,m,hd,hm,hl,hperm,hwritable⟩ := Message.exists_userInfo
  have hcopied : Origin.reached [.call (0 : ℕ) (.add d),.ofCopy 1 0] 1 2 = some ⟨d,1⟩ := by
    simp [Origin.reached, ObjectClass.run, ObjectClass.step, Origin.objects, TypeMap.objects, TypeMap.add, hd,
      Origin.copied]
  obtain ⟨d',json,base,hlookup,hjson,hbase,_,hreads⟩ := readsBack_of_copies _ 1 hcopied hm hperm hwritable
    jsonScalars.toObject_null (fun _ _ => rfl) 5 none
  obtain ⟨r,hr,hsame⟩ := hreads base (jsonScalars.isObject_toObject hbase) fun _ _ => rfl
  exact ⟨d,d',m,r,json,base,hlookup,hperm,hjson,hbase,hr,hsame⟩

end MessageFactory

end Isml
