import Mathlib.Data.List.Nodup
import Mathlib.Data.Nat.Basic
import Mathlib.Logic.Equiv.Basic

/-! # Tokens in custody

Numbered tokens lie in slots. A token is issued into a slot, is transferred from slot to slot and
is spent out of a slot. No token is ever in two slots or spent twice. What lies where something is
transferred to is lost, and stays lost; only if that never happens all tokens can be spent.
-/

structure Custody (ι : Type*) where
  slots : ι → Option ℕ
  issued : ℕ
  spent : List ℕ

namespace Custody
variable {ι : Type*}

def empty : Custody ι := ⟨fun _ => none,0,[]⟩

section Operations
variable [DecidableEq ι]

def issue (a : ι) (c : Custody ι) : Custody ι :=
  { c with slots := Function.update c.slots a (some c.issued), issued := c.issued + 1 }

/-- What is in `b` goes to `a`. -/
def transfer (a b : ι) (c : Custody ι) : Custody ι :=
  { c with slots := Function.update (Function.update c.slots b none) a (c.slots b) }

def discard (a : ι) (c : Custody ι) : Custody ι :=
  { c with slots := Function.update c.slots a none }

def spend (a : ι) (c : Custody ι) : Custody ι :=
  { c with slots := Function.update c.slots a none, spent := c.spent ++ (c.slots a).toList }

end Operations

/-- The token is in a slot or was spent. -/
def Present (c : Custody ι) (n : ℕ) : Prop := (∃ a, c.slots a = some n) ∨ n ∈ c.spent

/-- No token is in two places, and none came from elsewhere. -/
structure Exclusive (c : Custody ι) : Prop where
  slot_lt : ∀ a n, c.slots a = some n → n < c.issued
  slot_unspent : ∀ a n, c.slots a = some n → n ∉ c.spent
  slot_unique : ∀ a b n, c.slots a = some n → c.slots b = some n → a = b
  spent_lt : ∀ n ∈ c.spent, n < c.issued
  spent_nodup : c.spent.Nodup

/-- Nothing has been lost. -/
def Complete (c : Custody ι) : Prop := ∀ n < c.issued, c.Present n

def SpentOnce (c : Custody ι) : Prop := ∀ n < c.issued, c.spent.count n = 1

variable {c : Custody ι} {a b : ι} {n : ℕ}

theorem exclusive_empty : (empty : Custody ι).Exclusive where
  slot_lt _ _ h := nomatch h
  slot_unspent _ _ h := nomatch h
  slot_unique _ _ _ h := nomatch h
  spent_lt _ h := nomatch h
  spent_nodup := List.nodup_nil

theorem complete_empty : (empty : Custody ι).Complete := fun _ h => absurd h (Nat.not_lt_zero _)

theorem Exclusive.count_le_one (h : c.Exclusive) (n : ℕ) : c.spent.count n ≤ 1 :=
  List.nodup_iff_count_le_one.mp h.spent_nodup n

/-- Once all slots are empty everything is spent that was not lost. -/
theorem Exclusive.spentOnce_iff (h : c.Exclusive) (hempty : ∀ a, c.slots a = none) :
    c.SpentOnce ↔ c.Complete := by
  constructor
  · intro honce n hn
    exact Or.inr (List.count_pos_iff.mp (Nat.lt_of_lt_of_eq Nat.zero_lt_one (honce n hn).symm))
  · intro hcomplete n hn
    rcases hcomplete n hn with ⟨a,ha⟩ | hspent
    · cases (hempty a).symm.trans ha
    · exact List.count_eq_one_of_mem h.spent_nodup hspent

/-- It does not matter which slot is which. -/
theorem Exclusive.relabel (h : c.Exclusive) (e : Equiv.Perm ι) :
    Exclusive { c with slots := c.slots ∘ e } where
  slot_lt a := h.slot_lt (e a)
  slot_unspent a := h.slot_unspent (e a)
  slot_unique a b n ha hb := e.injective (h.slot_unique (e a) (e b) n ha hb)
  spent_lt := h.spent_lt
  spent_nodup := h.spent_nodup

theorem Complete.relabel (h : c.Complete) (e : Equiv.Perm ι) :
    Complete { c with slots := c.slots ∘ e } := by
  intro n hn
  rcases h n hn with ⟨a,ha⟩ | hspent
  · exact Or.inl ⟨e.symm a,(congrArg c.slots (e.apply_symm_apply a)).trans ha⟩
  · exact Or.inr hspent

section Slots
variable [DecidableEq ι] {slots : ι → Option ℕ} {x : Option ℕ} {k : ι}

theorem slots_of_update (h : Function.update slots a x k = some n) :
    (k = a ∧ x = some n) ∨ (k ≠ a ∧ slots k = some n) := by
  by_cases hk : k = a
  · subst hk
    rw [Function.update_self] at h
    exact Or.inl ⟨rfl,h⟩
  · rw [Function.update_of_ne hk] at h
    exact Or.inr ⟨hk,h⟩

theorem slots_of_clear (h : Function.update slots a none k = some n) : k ≠ a ∧ slots k = some n := by
  rcases slots_of_update h with ⟨_,hnone⟩ | hother
  · cases hnone
  · exact hother

/-- Into an empty slot a token is transferred by exchanging two slots. -/
theorem slots_transfer (ha : c.slots a = none) : (c.transfer a b).slots = c.slots ∘ Equiv.swap a b := by
  funext k
  unfold transfer
  dsimp only [Function.comp_apply]
  by_cases hka : k = a
  · rw [hka, Function.update_self, Equiv.swap_apply_left]
  · rw [Function.update_of_ne hka]
    by_cases hkb : k = b
    · rw [hkb, Function.update_self, Equiv.swap_apply_right, ha]
    · rw [Function.update_of_ne hkb, Equiv.swap_apply_of_ne_of_ne hka hkb]

theorem transfer_self (a : ι) : c.transfer a a = c := by
  have hslots : Function.update (Function.update c.slots a none) a (c.slots a) = c.slots := by
    rw [Function.update_idem, Function.update_eq_self]
  rw [transfer, hslots]

theorem discard_of_empty (ha : c.slots a = none) : c.discard a = c := by
  have hslots : Function.update c.slots a none = c.slots := by
    rw [← ha, Function.update_eq_self]
  rw [discard, hslots]

/-- What is in the way may as well be discarded first. -/
theorem transfer_discard (hab : a ≠ b) : (c.discard a).transfer a b = c.transfer a b := by
  have hslots : Function.update (Function.update (Function.update c.slots a none) b none) a
      (Function.update c.slots a none b) = Function.update (Function.update c.slots b none) a (c.slots b) := by
    rw [Function.update_comm hab, Function.update_idem, Function.update_of_ne hab.symm]
  exact congrArg (fun slots => Custody.mk slots c.issued c.spent) hslots

end Slots

section Exclusive
variable [DecidableEq ι]

theorem Exclusive.issue (h : c.Exclusive) (a : ι) : (c.issue a).Exclusive := by
  have hslots : ∀ k m, (c.issue a).slots k = some m →
      (k = a ∧ c.issued = m) ∨ (k ≠ a ∧ c.slots k = some m) := by
    intro k m hk
    rcases slots_of_update hk with ⟨hka,hm⟩ | hother
    · exact Or.inl ⟨hka,Option.some.inj hm⟩
    · exact Or.inr hother
  refine ⟨fun k m hk => ?_,fun k m hk => ?_,fun k l m hk hl => ?_,fun m hm => ?_,h.spent_nodup⟩
  · rcases hslots k m hk with ⟨_,rfl⟩ | ⟨_,hm⟩
    · exact Nat.lt_succ_self c.issued
    · exact Nat.lt_succ_of_lt (h.slot_lt k m hm)
  · rcases hslots k m hk with ⟨_,rfl⟩ | ⟨_,hm⟩
    · exact fun hspent => Nat.lt_irrefl _ (h.spent_lt _ hspent)
    · exact h.slot_unspent k m hm
  · rcases hslots k m hk with ⟨rfl,rfl⟩ | ⟨_,hk⟩
    · rcases hslots l c.issued hl with ⟨rfl,_⟩ | ⟨_,hl⟩
      · rfl
      · exact absurd (h.slot_lt l _ hl) (Nat.lt_irrefl _)
    · rcases hslots l m hl with ⟨_,rfl⟩ | ⟨_,hl⟩
      · exact absurd (h.slot_lt k _ hk) (Nat.lt_irrefl _)
      · exact h.slot_unique k l m hk hl
  · exact Nat.lt_succ_of_lt (h.spent_lt m hm)

theorem Exclusive.discard (h : c.Exclusive) (a : ι) : (c.discard a).Exclusive where
  slot_lt k n hk := h.slot_lt k n (slots_of_clear hk).2
  slot_unspent k n hk := h.slot_unspent k n (slots_of_clear hk).2
  slot_unique k l n hk hl := h.slot_unique k l n (slots_of_clear hk).2 (slots_of_clear hl).2
  spent_lt := h.spent_lt
  spent_nodup := h.spent_nodup

theorem Exclusive.transfer (h : c.Exclusive) (a b : ι) : (c.transfer a b).Exclusive := by
  by_cases hab : a = b
  · rw [hab, transfer_self]
    exact h
  · have hempty : (c.discard a).slots a = none := by
      unfold Custody.discard
      exact Function.update_self a none c.slots
    have hrelabel := (h.discard a).relabel (Equiv.swap a b)
    rw [← slots_transfer hempty] at hrelabel
    rw [← transfer_discard hab]
    exact hrelabel

theorem mem_spent_spend {m : ℕ} : m ∈ (c.spend a).spent ↔ m ∈ c.spent ∨ c.slots a = some m := by
  unfold spend
  exact List.mem_append.trans (or_congr_right Option.mem_toList)

theorem Exclusive.spend (h : c.Exclusive) (a : ι) : (c.spend a).Exclusive := by
  have hslots : ∀ k m, (c.spend a).slots k = some m → k ≠ a ∧ c.slots k = some m :=
    fun k m hk => slots_of_clear hk
  refine ⟨fun k m hk => h.slot_lt k m (hslots k m hk).2,fun k m hk => ?_,fun k l m hk hl => ?_,
    fun m hm => ?_,?_⟩
  · obtain ⟨hka,hm⟩ := hslots k m hk
    rw [mem_spent_spend, not_or]
    exact ⟨h.slot_unspent k m hm,fun hmem => hka (h.slot_unique k a m hm hmem)⟩
  · exact h.slot_unique k l m (hslots k m hk).2 (hslots l m hl).2
  · exact (mem_spent_spend.mp hm).elim (h.spent_lt m) (h.slot_lt a m)
  · refine List.Nodup.append h.spent_nodup (Option.toList_nodup _) fun m hm hmem => ?_
    exact h.slot_unspent a m (Option.mem_toList.mp hmem) hm

end Exclusive

section Complete
variable [DecidableEq ι]

theorem Complete.issue (h : c.Complete) (ha : c.slots a = none) : (c.issue a).Complete := by
  intro m hm
  rcases Nat.lt_succ_iff_lt_or_eq.mp hm with hm | rfl
  · rcases h m hm with ⟨k,hk⟩ | hspent
    · have hka : k ≠ a := by
        rintro rfl
        cases ha.symm.trans hk
      exact Or.inl ⟨k,(Function.update_of_ne hka _ _).trans hk⟩
    · exact Or.inr hspent
  · exact Or.inl ⟨a,Function.update_self _ _ _⟩

theorem Complete.transfer (h : c.Complete) (ha : c.slots a = none) (b : ι) : (c.transfer a b).Complete := by
  have hrelabel := h.relabel (Equiv.swap a b)
  rw [← slots_transfer ha] at hrelabel
  exact hrelabel

theorem Complete.spend (h : c.Complete) (a : ι) : (c.spend a).Complete := by
  intro m hm
  rcases h m hm with ⟨k,hk⟩ | hmem
  · by_cases hka : k = a
    · exact Or.inr (mem_spent_spend.mpr (Or.inr (hka ▸ hk)))
    · exact Or.inl ⟨k,(Function.update_of_ne hka _ _).trans hk⟩
  · exact Or.inr (mem_spent_spend.mpr (Or.inl hmem))

/-- A token comes from the slot that was written, or it was there. -/
theorem Present.of_update {x : Option ℕ} {issued : ℕ}
    (h : Present ⟨Function.update c.slots a x,issued,c.spent⟩ n) : x = some n ∨ c.Present n := by
  rcases h with ⟨k,hk⟩ | hspent
  · rcases slots_of_update hk with ⟨_,hx⟩ | ⟨_,hk⟩
    · exact Or.inl hx
    · exact Or.inr (Or.inl ⟨k,hk⟩)
  · exact Or.inr (Or.inr hspent)

/-- What is complete after the step was complete before it: what is lost does not come back. -/
theorem Complete.of_issue (h : (c.issue a).Complete) : c.Complete := by
  intro n hn
  rcases (h n (Nat.lt_succ_of_lt hn)).of_update with hnew | hpresent
  · exact absurd (Option.some.inj hnew) (Nat.ne_of_gt hn)
  · exact hpresent

theorem Complete.of_discard (h : (c.discard a).Complete) : c.Complete := by
  intro n hn
  rcases (h n hn).of_update with hnone | hpresent
  · cases hnone
  · exact hpresent

theorem Complete.of_transfer (h : (c.transfer a b).Complete) : c.Complete := by
  intro n hn
  rcases Present.of_update (c := c.discard b) (h n hn) with hb | hpresent
  · exact Or.inl ⟨b,hb⟩
  · rcases hpresent.of_update with hnone | hpresent
    · cases hnone
    · exact hpresent

theorem Complete.of_spend (h : (c.spend a).Complete) : c.Complete := by
  intro n hn
  rcases h n hn with ⟨k,hk⟩ | hspent
  · exact Or.inl ⟨k,(slots_of_clear hk).2⟩
  · exact (mem_spent_spend.mp hspent).elim Or.inr fun ha => Or.inl ⟨a,ha⟩

/-- A slot that is cleared had nothing in it, or that is lost. -/
theorem Exclusive.empty_of_discard (h : c.Exclusive) (hcomplete : (c.discard a).Complete) :
    c.slots a = none := by
  rw [Option.eq_none_iff_forall_ne_some]
  intro n ha
  rcases hcomplete n (h.slot_lt a n ha) with ⟨k,hk⟩ | hspent
  · obtain ⟨hka,hk⟩ := slots_of_clear hk
    exact hka (h.slot_unique k a n hk ha)
  · exact h.slot_unspent a n ha hspent

theorem Exclusive.empty_of_transfer (h : c.Exclusive) (hab : a ≠ b)
    (hcomplete : (c.transfer a b).Complete) : c.slots a = none := by
  rw [← transfer_discard hab] at hcomplete
  exact h.empty_of_discard hcomplete.of_transfer

end Complete

end Custody
