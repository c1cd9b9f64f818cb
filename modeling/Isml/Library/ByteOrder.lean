import Mathlib.Data.List.Basic
import Mathlib.Tactic.Ring

/-! # Fixed-width byte strings of natural numbers

A number of width `w` is stored as `w` bytes, the least significant first. Both
directions are total: a number that does not fit is cut to its low bytes, and a
byte string of any length has a value.
-/
namespace ByteOrder

abbrev Byte := UInt8

/-- The `w` least significant bytes of `n`, lowest first. -/
def toBytes : ℕ → ℕ → List Byte
  | 0, _ => []
  | w + 1, n => UInt8.ofNat n :: toBytes w (n / 256)

/-- The number whose bytes, lowest first, are the given ones. -/
def ofBytes : List Byte → ℕ
  | [] => 0
  | b :: bs => b.toNat + 256 * ofBytes bs

@[simp] theorem toBytes_length (w n : ℕ) : (toBytes w n).length = w := by
  induction w generalizing n with
  | zero => rfl
  | succ w ih => simp only [toBytes, List.length_cons, ih]

theorem ofBytes_lt (bs : List Byte) : ofBytes bs < 256 ^ bs.length := by
  induction bs with
  | nil => simp [ofBytes]
  | cons b bs ih =>
    have hb : b.toNat < 256 := b.toNat_lt
    simp only [ofBytes, List.length_cons, Nat.pow_succ]
    omega

theorem ofBytes_toBytes (w n : ℕ) : ofBytes (toBytes w n) = n % 256 ^ w := by
  induction w generalizing n with
  | zero => simp [toBytes, ofBytes, Nat.mod_one]
  | succ w ih =>
    have hb : (UInt8.ofNat n).toNat = n % 256 := UInt8.toNat_ofNat'
    rw [toBytes, ofBytes, ih, hb, Nat.pow_succ', Nat.mod_mul]

theorem ofBytes_toBytes_of_lt {w n : ℕ} (h : n < 256 ^ w) : ofBytes (toBytes w n) = n := by
  rw [ofBytes_toBytes, Nat.mod_eq_of_lt h]

theorem toBytes_ofBytes (bs : List Byte) : toBytes bs.length (ofBytes bs) = bs := by
  induction bs with
  | nil => rfl
  | cons b bs ih =>
    have hb : b.toNat < 256 := b.toNat_lt
    have hdiv : (b.toNat + 256 * ofBytes bs) / 256 = ofBytes bs := by omega
    have hlow : UInt8.ofNat (b.toNat + 256 * ofBytes bs) = b := by
      apply UInt8.toNat_inj.mp
      rw [UInt8.toNat_ofNat']
      omega
    simp only [ofBytes, List.length_cons, toBytes, hdiv, hlow, ih]

theorem ofBytes_append (xs ys : List Byte) :
    ofBytes (xs ++ ys) = ofBytes xs + 256 ^ xs.length * ofBytes ys := by
  induction xs with
  | nil => simp [ofBytes]
  | cons b xs ih =>
    simp only [List.cons_append, ofBytes, ih, List.length_cons, Nat.pow_succ]
    ring

theorem ofBytes_append_zeros (xs : List Byte) (k : ℕ) :
    ofBytes (xs ++ List.replicate k 0) = ofBytes xs := by
  have hz : ofBytes (List.replicate k 0) = 0 := by
    induction k with
    | zero => rfl
    | succ k ih => simp [List.replicate_succ, ofBytes, ih]
  rw [ofBytes_append, hz, Nat.mul_zero, Nat.add_zero]

@[simp] theorem toBytes_zero (w : ℕ) : toBytes w 0 = List.replicate w 0 := by
  induction w with
  | zero => rfl
  | succ w ih => simp [toBytes, ih, List.replicate_succ]

/-- The bytes of `n` in the opposite order, read as a number again. -/
def byteReverse (w n : ℕ) : ℕ := ofBytes (toBytes w n).reverse

theorem toBytes_byteReverse (w n : ℕ) : toBytes w (byteReverse w n) = (toBytes w n).reverse := by
  have h := toBytes_ofBytes (toBytes w n).reverse
  rwa [List.length_reverse, toBytes_length] at h

end ByteOrder
