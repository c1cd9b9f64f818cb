import Isml.Serialization.BinaryEncoding

/-! # The count in front of the elements of a container

Whatever the size of a container, its serializer gets to the end: the limit of the assertion is
that of a 64-bit number, and only sequences have the assertion. The count it leaves in front of
the elements is the number of the elements modulo `2 ^ 16`.
-/
namespace Isml

/-- The type of the items the loop over a container goes through. -/
def Ty.element : Ty → Option Ty
  | .sequence _ a | .set _ a | .array _ a => some a
  | .map _ k a => some (.pair k a)
  | _ => none

namespace BinarySerializer
open ByteOrder StringStream

section Loops
variable {α : Type*} {f g : α → OStream → Result OStream} {l : List α} {out out' : OStream}

theorem foldlM_imp (h : ∀ x ∈ l, ∀ out out', f x out = .ok out' → g x out = .ok out')
    (hl : l.foldlM (fun out x => f x out) out = .ok out') :
    l.foldlM (fun out x => g x out) out = .ok out' := by
  induction l generalizing out with
  | nil => exact hl
  | cons x xs ih =>
    rw [List.foldlM_cons] at hl
    rw [List.foldlM_cons]
    obtain ⟨out1,hx,hxs⟩ := bind_eq_ok.mp hl
    rw [h x List.mem_cons_self out out1 hx, ok_bind]
    exact ih (fun y hy => h y (List.mem_cons_of_mem x hy)) hxs

/-- What the loop leaves behind what was there are the bytes of one pass after the other. -/
theorem foldlM_items
    (h : ∀ x ∈ l, ∀ out out', f x out = .ok out' → ∃ bytes, out' = out ++ bytes)
    (hl : l.foldlM (fun out x => f x out) out = .ok out') :
    ∃ items : List (List Byte), out' = out ++ items.flatten ∧
      List.Forall₂ (fun x bytes => ∃ out, f x out = .ok (out ++ bytes)) l items := by
  induction l generalizing out with
  | nil =>
    cases hl
    exact ⟨[],(List.append_nil _).symm,.nil⟩
  | cons x xs ih =>
    rw [List.foldlM_cons] at hl
    obtain ⟨out1,hx,hxs⟩ := bind_eq_ok.mp hl
    obtain ⟨bytes,rfl⟩ := h x List.mem_cons_self out out1 hx
    obtain ⟨items,hout,hitems⟩ := ih (fun y hy => h y (List.mem_cons_of_mem x hy)) hxs
    refine ⟨bytes :: items,?_,.cons ⟨out,hx⟩ hitems⟩
    rw [hout, List.flatten_cons, List.append_assoc]

end Loops

/-- A run that no assertion stopped is one without assertions. -/
theorem serialize_ndebug {b : Build} {t : Ty} {v : Val} {out out' : OStream}
    (h : serialize b t v out = .ok out') : serialize ⟨b.host,true⟩ t v out = .ok out' := by
  induction t generalizing v out out' with
  | integral k | enumeration name k | floating k => exact h
  | pair a c ha hc =>
    obtain ⟨out1,h1,h2⟩ := bind_eq_ok.mp h
    exact bind_eq_ok.mpr ⟨out1,ha h1,hc h2⟩
  | optional a ha =>
    cases v with
    | present w => exact ha h
    | _ => exact h
  | sequence c a ha =>
    obtain ⟨_,_,h⟩ := bind_eq_ok.mp h
    exact bind_eq_ok.mpr ⟨(),rfl,foldlM_imp (fun x _ out out' hx => ha hx) h⟩
  | set p a ha | array n a ha => exact foldlM_imp (fun x _ out out' hx => ha hx) h
  | map p k a hk ha =>
    refine foldlM_imp (fun x _ out out' hx => ?_) h
    obtain ⟨out1,h1,h2⟩ := bind_eq_ok.mp hx
    exact bind_eq_ok.mpr ⟨out1,hk h1,ha h2⟩
  | serializable name m hm => exact hm h

theorem serialize_append {b : Build} {t : Ty} {v : Val} {out out' : OStream}
    (h : serialize b t v out = .ok out') : ∃ bytes, out' = out ++ bytes := by
  obtain ⟨bytes,hbytes⟩ := serialize_appends b.host t v
  have hok := (serialize_ndebug h).symm.trans (hbytes out)
  exact ⟨bytes,Except.ok.inj hok⟩

/-- A container's serializer writes the count and then goes through the items. -/
theorem serialize_container {b : Build} {t a : Ty} (ha : t.element = some a) {v : Val}
    (ht : t.HasType v) {out out' : OStream} (h : serialize b t v out = .ok out') :
    v.elements.foldlM (fun out x => serialize b a x out)
      (out ++ toBytes sizeOfContainerSize v.elements.length) = .ok out' := by
  cases t with
  | sequence c a' =>
    cases ha
    obtain ⟨_,_,h⟩ := bind_eq_ok.mp h
    rwa [writeContainerSize_eq] at h
  | set p a' =>
    cases ha
    rw [serialize, writeContainerSize_eq] at h
    exact h
  | map p k a' =>
    cases ha
    rw [serialize, writeContainerSize_eq] at h
    exact h
  | array n a' =>
    cases ha
    obtain ⟨_,hlen,_⟩ := ht
    rw [serialize, writeContainerSize_eq, ← hlen] at h
    exact h
  | _ => cases ha

/-- Behind what was in the stream are the bytes of a count and then those of the items, as the
serializer of their type wrote them, one after the other and each of them once. -/
structure CountAndItems (b : Build) (a : Ty) (v : Val) (out out' : OStream) (count : ℕ)
    (items : List (List Byte)) : Prop where
  written : ∃ header : List Byte, header.length = sizeOfContainerSize ∧ ofBytes header = count ∧
    out' = out ++ (header ++ items.flatten)
  each : List.Forall₂ (fun x bytes => ∃ out, serialize b a x out = .ok (out ++ bytes)) v.elements items

theorem countAndItems {b : Build} {t a : Ty} (ha : t.element = some a) {v : Val}
    (ht : t.HasType v) {out out' : OStream} (h : serialize b t v out = .ok out') :
    ∃ items, CountAndItems b a v out out' (v.elements.length % 2 ^ 16) items := by
  have hloop := serialize_container ha ht h
  obtain ⟨items,hout,heach⟩ := foldlM_items (fun x _ out out' hx => serialize_append hx) hloop
  refine ⟨items,⟨toBytes sizeOfContainerSize v.elements.length,toBytes_length _ _,?_,?_⟩,heach⟩
  · exact ofBytes_toBytes sizeOfContainerSize v.elements.length
  · rw [hout, List.append_assoc]

/-- The stream says what the count is. -/
theorem CountAndItems.count_unique {b : Build} {a : Ty} {v : Val} {out out' : OStream}
    {count count' : ℕ} {items items' : List (List Byte)}
    (h : CountAndItems b a v out out' count items) (h' : CountAndItems b a v out out' count' items') :
    count = count' := by
  obtain ⟨header,hlength,rfl,hout⟩ := h.written
  obtain ⟨header',hlength',rfl,hout'⟩ := h'.written
  have hbehind := List.append_cancel_left (hout.symm.trans hout')
  rw [(List.append_inj hbehind (hlength.trans hlength'.symm)).1]

/-- The count that was written is the number of the elements written behind it. -/
def CountsItems (b : Build) (a : Ty) (v : Val) (out out' : OStream) : Prop :=
  ∃ items, CountAndItems b a v out out' items.length items

/-- In a build with assertions, a container that has been written has the right count in front of
its elements exactly if there are not more of them than 16 bits can count. -/
theorem countsItems_iff (host : Endian) {t a : Ty} (ha : t.element = some a) {v : Val}
    (ht : t.HasType v) {out out' : OStream} (h : serialize ⟨host,false⟩ t v out = .ok out') :
    CountsItems ⟨host,false⟩ a v out out' ↔ v.elements.length ≤ 65535 := by
  obtain ⟨items,hitems⟩ := countAndItems ha ht h
  constructor
  · rintro ⟨items',hitems'⟩
    have hcount := hitems'.count_unique hitems
    rw [← hitems'.each.length_eq] at hcount
    omega
  · intro hle
    have hcount : v.elements.length % 2 ^ 16 = items.length := by
      rw [← hitems.each.length_eq]
      omega
    rw [hcount] at hitems
    exact ⟨items,hitems⟩

/-- A vector of bytes, all of them zero. -/
def zeros (n : ℕ) : Val := .items (List.replicate n (.bits 0))

theorem zeros_hasType (n : ℕ) :
    (Ty.sequence "std::vector" (.integral .unsignedChar)).HasType (zeros n) := by
  refine ⟨rfl,fun x hx => ?_⟩
  exact ⟨0,List.eq_of_mem_replicate hx,by decide⟩

/-- The assertion holds of every vector that fits into a 64-bit memory. -/
theorem serialize_zeros (b : Build) {n : ℕ} (hn : n < 2 ^ 64) (out : OStream) :
    serialize b (.sequence "std::vector" (.integral .unsignedChar)) (zeros n) out =
      .ok (out ++ encode (.sequence "std::vector" (.integral .unsignedChar)) (zeros n)) := by
  refine serialize_eq b _ (zeros_hasType n) ⟨?_,fun _ _ => trivial⟩ out
  rw [zeros, Val.elements, List.length_replicate]
  exact Nat.le_of_lt_succ hn

theorem countsItems_iff_three : ∃ out', serialize ⟨.little,false⟩
      (.sequence "std::vector" (.integral .unsignedChar)) (zeros 3) [] = .ok out' ∧
    (CountsItems ⟨.little,false⟩ (.integral .unsignedChar) (zeros 3) [] out' ↔
      (zeros 3).elements.length ≤ 65535) := by
  have h := serialize_zeros ⟨.little,false⟩ (by decide : 3 < 2 ^ 64) []
  exact ⟨_,h,countsItems_iff .little rfl (zeros_hasType 3) h⟩

/-- A vector of 65536 bytes passes the assertion and is written behind a count of 0. -/
theorem not_countsItems_65536 : ∃ out', serialize ⟨.little,false⟩
      (.sequence "std::vector" (.integral .unsignedChar)) (zeros 65536) [] = .ok out' ∧
    (∃ items, items.length = 65536 ∧
      CountAndItems ⟨.little,false⟩ (.integral .unsignedChar) (zeros 65536) [] out' 0 items) ∧
    ¬ CountsItems ⟨.little,false⟩ (.integral .unsignedChar) (zeros 65536) [] out' := by
  have h := serialize_zeros ⟨.little,false⟩ (by decide : 65536 < 2 ^ 64) []
  have hlength : (zeros 65536).elements.length = 65536 := List.length_replicate ..
  obtain ⟨items,hitems⟩ := countAndItems rfl (zeros_hasType 65536) h
  have hzero : (zeros 65536).elements.length % 2 ^ 16 = 0 := congrArg (· % 2 ^ 16) hlength
  rw [hzero] at hitems
  refine ⟨_,h,⟨items,?_,hitems⟩,?_⟩
  · rw [← hitems.each.length_eq, hlength]
  · rintro ⟨items',hitems'⟩
    have hcount := hitems'.count_unique hitems
    rw [← hitems'.each.length_eq, hlength] at hcount
    exact absurd hcount (by decide)

end BinarySerializer

end Isml
