import Isml.Serialization.BinaryRoundTrip

/-! # Reading into a target that is in use

Two runs of the decoder on one stream, over targets with different contents. A container is
overwritten or cleared, an optional keeps its value when the stream says that it is empty.
-/
namespace Isml.BinarySerializer
open ByteOrder StringStream

/-- Wherever the encoded value has an empty optional that is decoded in place, the two targets
have the same there. The locals that the contents of an optional, a set or a map are read into
are new in either run. -/
def AgreeAtAbsent : Ty → Val → Val → Val → Prop
  | .pair a c, v, old, old' => AgreeAtAbsent a v.first old.first old'.first ∧
      AgreeAtAbsent c v.second old.second old'.second
  | .optional _, v, old, old' => v = .absent → Same old old'
  | .sequence _ a, v, old, old' =>
      List.Forall₂ (fun x olds => AgreeAtAbsent a x olds.1 olds.2) v.elements
        ((resize a v.elements.length old.elements).zip (resize a v.elements.length old'.elements))
  | .array _ a, v, old, old' =>
      List.Forall₂ (fun x olds => AgreeAtAbsent a x olds.1 olds.2) v.elements
        (old.elements.zip old'.elements)
  | .serializable _ m, v, old, old' => AgreeAtAbsent m v old old'
  | _, _, _, _ => True

section Lists
variable {α β γ : Type*}

theorem forall₂_of_forall {P : α → Prop} {os : List α} {xs : List γ} (hlen : os.length = xs.length)
    (h : ∀ o ∈ os, P o) : List.Forall₂ (fun o _ => P o) os xs := by
  induction os generalizing xs with
  | nil =>
    rw [List.length_eq_zero_iff.mp hlen.symm]
    exact .nil
  | cons o os ih =>
    cases xs with
    | nil => cases hlen
    | cons x xs =>
      exact .cons (h o List.mem_cons_self)
        (ih (Nat.succ.inj hlen) fun o' ho' => h o' (List.mem_cons_of_mem o ho'))

/-- What is true of the members in one place is true of the lists. -/
theorem forall₂_zipWith_iff {R : β → β → Prop} {C : γ → α × α → Prop} {P : α → γ → Prop}
    {f : α → γ → β} {xs : List γ} {os os' : List α}
    (h : ∀ x ∈ xs, ∀ {o o'}, P o x → P o' x → (R (f o x) (f o' x) ↔ C x (o,o')))
    (hos : List.Forall₂ P os xs) (hos' : List.Forall₂ P os' xs) :
    List.Forall₂ R (List.zipWith f os xs) (List.zipWith f os' xs) ↔
      List.Forall₂ C xs (os.zip os') := by
  induction hos generalizing os' with
  | nil =>
    cases hos'
    exact ⟨fun _ => .nil,fun _ => .nil⟩
  | @cons o x os xs ho _ ih =>
    cases hos' with
    | @cons o' _ os' _ ho' hos' =>
      rw [List.zipWith_cons_cons, List.zipWith_cons_cons, List.zip_cons_cons, List.forall₂_cons,
        List.forall₂_cons, h x List.mem_cons_self ho ho',
        ih (fun y hy => h y (List.mem_cons_of_mem x hy)) hos']

end Lists

theorem same_items_iff {l l' : List Val} : Same (.items l) (.items l') ↔ List.Forall₂ Same l l' := by
  constructor
  · intro h
    cases h with
    | items h => exact h
  · exact .items

theorem same_pair_iff {x y x' y' : Val} :
    Same (.pair x y) (.pair x' y') ↔ Same x x' ∧ Same y y' := by
  constructor
  · intro h
    cases h with
    | pair hx hy => exact ⟨hx,hy⟩
  · rintro ⟨hx,hy⟩
    exact .pair hx hy

theorem same_overlay_iff {t : Ty} {v old old' : Val} (ht : t.HasType v) (hold : Shaped t old)
    (hold' : Shaped t old') : Same (overlay t old v) (overlay t old' v) ↔ AgreeAtAbsent t v old old' := by
  induction t generalizing v old old' with
  | pair a c ha hc =>
    obtain ⟨_,ht1,ht2⟩ := ht
    rw [overlay, overlay, same_pair_iff, ha ht1 hold.1 hold'.1, hc ht2 hold.2 hold'.2]
    exact Iff.rfl
  | optional a _ =>
    rcases ht with rfl | ⟨w,rfl,_⟩
    · exact ⟨fun h _ => h,fun h => h rfl⟩
    · constructor
      · intro _ h
        cases h
      · intro _
        exact Same.refl _
  | sequence c a ha =>
    obtain ⟨hlen,hshaped⟩ := shaped_resize hold v.elements.length
    obtain ⟨hlen',hshaped'⟩ := shaped_resize hold' v.elements.length
    rw [overlay, overlay, same_items_iff]
    apply forall₂_zipWith_iff (fun x hx _ _ ho ho' => ha (ht.2 x hx) ho ho')
    · exact forall₂_of_forall hlen hshaped
    · exact forall₂_of_forall hlen' hshaped'
  | array n a ha =>
    obtain ⟨_,hn,ht⟩ := ht
    rw [overlay, overlay, same_items_iff]
    apply forall₂_zipWith_iff (fun x hx _ _ ho ho' => ha (ht x hx) ho ho')
    · exact forall₂_of_forall (hold.1.trans hn.symm) hold.2
    · exact forall₂_of_forall (hold'.1.trans hn.symm) hold'.2
  | serializable name m hm => exact hm ht hold hold'
  | _ => exact ⟨fun _ => trivial,fun _ => Same.refl v⟩

/-- The same final value in both runs, which leave the same rest of the stream. -/
theorem same_deserialized_iff (b : Build) (t : Ty) (junk junk' : Junk) {v old old' : Val}
    (ht : t.HasType v) (hw : Counted b.ndebug t v) (hold : Shaped t old) (hold' : Shaped t old')
    (r : List Byte) : ∃ w w', deserialize b t junk old ⟨encode t v ++ r,false⟩ = .ok (w,⟨r,false⟩) ∧
      deserialize b t junk' old' ⟨encode t v ++ r,false⟩ = .ok (w',⟨r,false⟩) ∧
      (Same w w' ↔ AgreeAtAbsent t v old old') := by
  obtain ⟨w,hd,hs⟩ := deserialize_overlay b t junk hold ht hw r
  obtain ⟨w',hd',hs'⟩ := deserialize_overlay b t junk' hold' ht hw r
  refine ⟨w,w',hd,hd',?_⟩
  rw [← same_overlay_iff ht hold hold']
  constructor
  · intro h
    exact (hs.symm.trans h).trans hs'
  · intro h
    exact (hs.trans h).trans hs'.symm

end Isml.BinarySerializer
