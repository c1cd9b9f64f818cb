import Isml.Library.ByteOrder

/-! # Objects in the host's memory and byte swapping

An arithmetic object of size `w` is a number below `256 ^ w`; the host decides in
which order its bytes lie in memory. `ByteUtils.swap` is written with masks and
shifts for the integral types and with a byte loop for the floating-point ones;
both are byte reversal on every object of their size.
-/
namespace Isml
open ByteOrder

/-- `std::endian::native`. -/
inductive Endian where
  | little
  | big
  deriving DecidableEq, Repr

/-- The bytes of the object `n` of size `w`, in address order. -/
def Endian.toMemory (host : Endian) (w n : ℕ) : List Byte :=
  match host with
  | .little => toBytes w n
  | .big => (toBytes w n).reverse

/-- The object whose bytes in address order are the given ones. -/
def Endian.ofMemory (host : Endian) (bytes : List Byte) : ℕ :=
  match host with
  | .little => ByteOrder.ofBytes bytes
  | .big => ByteOrder.ofBytes bytes.reverse

@[simp] theorem Endian.toMemory_length (host : Endian) (w n : ℕ) :
    (host.toMemory w n).length = w := by
  cases host <;> simp [Endian.toMemory]

theorem Endian.toMemory_ofMemory (host : Endian) (bytes : List Byte) :
    host.toMemory bytes.length (host.ofMemory bytes) = bytes := by
  cases host with
  | little => exact toBytes_ofBytes bytes
  | big =>
    have h := toBytes_ofBytes bytes.reverse
    rw [List.length_reverse] at h
    simp [Endian.toMemory, Endian.ofMemory, h]

theorem Endian.ofMemory_toMemory (host : Endian) {w n : ℕ} (h : n < 256 ^ w) :
    host.ofMemory (host.toMemory w n) = n := by
  cases host <;> simp [Endian.toMemory, Endian.ofMemory, ofBytes_toBytes_of_lt h]

theorem Endian.ofMemory_lt (host : Endian) (bytes : List Byte) :
    host.ofMemory bytes < 256 ^ bytes.length := by
  cases host with
  | little => exact ofBytes_lt bytes
  | big => simpa [Endian.ofMemory] using ofBytes_lt bytes.reverse

namespace ByteUtils

def swap16 (c : ℕ) : ℕ :=
  (c &&& 0xFF00) >>> 8
    ||| (c &&& 0x00FF) <<< 8

def swap32 (c : ℕ) : ℕ :=
  (c &&& 0xFF000000) >>> 24
    ||| (c &&& 0x00FF0000) >>> 8
    ||| (c &&& 0x0000FF00) <<< 8
    ||| (c &&& 0x000000FF) <<< 24

def swap64 (c : ℕ) : ℕ :=
  (c &&& 0xFF00000000000000) >>> 56
    ||| (c &&& 0x00FF000000000000) >>> 40
    ||| (c &&& 0x0000FF0000000000) >>> 24
    ||| (c &&& 0x000000FF00000000) >>> 8
    ||| (c &&& 0x00000000FF000000) <<< 8
    ||| (c &&& 0x0000000000FF0000) <<< 24
    ||| (c &&& 0x000000000000FF00) <<< 40
    ||| (c &&& 0x00000000000000FF) <<< 56

/-- `swap` of the integral types, chosen by `sizeof(T)`. -/
def swapIntegral (w n : ℕ) : ℕ :=
  match w with
  | 2 => swap16 n
  | 4 => swap32 n
  | 8 => swap64 n
  | _ => n

/-- `swap` of the floating-point types: the bytes in memory, last to first. -/
def swapFloating (host : Endian) (w n : ℕ) : ℕ :=
  host.ofMemory (host.toMemory w n).reverse

private theorem and_mask (c k : ℕ) : c &&& (0xFF <<< k) = (c / 2 ^ k % 256) * 2 ^ k := by
  have hshift : c &&& (0xFF <<< k) = ((c >>> k) &&& 0xFF) <<< k := by
    apply Nat.eq_of_testBit_eq
    intro i
    simp only [Nat.testBit_and, Nat.testBit_shiftLeft, Nat.testBit_shiftRight]
    by_cases hik : k ≤ i
    · simp [hik]
    · simp [hik]
  have hlow : (c >>> k) &&& 0xFF = (c >>> k) % 256 := Nat.and_two_pow_sub_one_eq_mod (c >>> k) 8
  rw [hshift, hlow, Nat.shiftLeft_eq, Nat.shiftRight_eq_div_pow]

/-- The byte at bit `k`, masked and moved down to bit `k - j`. -/
private theorem mask_shiftRight (c k j : ℕ) (hj : j ≤ k) :
    (c &&& (0xFF <<< k)) >>> j = (c / 2 ^ k % 256) * 2 ^ (k - j) := by
  have hk : 2 ^ k = 2 ^ (k - j) * 2 ^ j := by rw [← Nat.pow_add, Nat.sub_add_cancel hj]
  rw [and_mask, Nat.shiftRight_eq_div_pow]
  nth_rewrite 2 [hk]
  rw [← Nat.mul_assoc, Nat.mul_div_cancel _ (Nat.two_pow_pos j)]

/-- The byte at bit `k`, masked and moved up to bit `k + j`. -/
private theorem mask_shiftLeft (c k j : ℕ) :
    (c &&& (0xFF <<< k)) <<< j = (c / 2 ^ k % 256) * 2 ^ (k + j) := by
  rw [and_mask, Nat.shiftLeft_eq, Nat.mul_assoc, Nat.pow_add]

private theorem ofBytes_singleton (n : ℕ) : n % 256 * 2 ^ 0 = ofBytes [UInt8.ofNat n] := by
  simp [ofBytes]

/-- An `or` with a byte above all there are puts it behind them. -/
private theorem ofBytes_or (xs : List Byte) {k : ℕ} (hk : 8 * xs.length = k) (n : ℕ) :
    ofBytes xs ||| n % 256 * 2 ^ k = ofBytes (xs ++ [UInt8.ofNat n]) := by
  subst hk
  have hpow : 256 ^ xs.length = 2 ^ (8 * xs.length) := (Nat.pow_mul 2 8 xs.length).symm
  have hlt : ofBytes xs < 2 ^ (8 * xs.length) := hpow ▸ ofBytes_lt xs
  have hlast : ofBytes [UInt8.ofNat n] = n % 256 := by simp [ofBytes]
  rw [Nat.or_comm, Nat.mul_comm, ← Nat.two_pow_add_eq_or_of_lt hlt, ofBytes_append, hlast, hpow,
    Nat.add_comm]

theorem swap16_eq (c : ℕ) : swap16 c = byteReverse 2 c := by
  have h1 : (c &&& 0xFF00) >>> 8 = c / 2 ^ 8 % 256 * 2 ^ 0 := mask_shiftRight c 8 8 le_rfl
  have h0 : (c &&& 0x00FF) <<< 8 = c / 2 ^ 0 % 256 * 2 ^ 8 := mask_shiftLeft c 0 8
  rw [swap16, h1, h0, ofBytes_singleton]
  simp (disch := simp) only [ofBytes_or, List.cons_append, List.nil_append]
  simp [byteReverse, toBytes]

theorem swap32_eq (c : ℕ) : swap32 c = byteReverse 4 c := by
  have h3 : (c &&& 0xFF000000) >>> 24 = c / 2 ^ 24 % 256 * 2 ^ 0 := mask_shiftRight c 24 24 le_rfl
  have h2 : (c &&& 0x00FF0000) >>> 8 = c / 2 ^ 16 % 256 * 2 ^ 8 :=
    mask_shiftRight c 16 8 (by decide)
  have h1 : (c &&& 0x0000FF00) <<< 8 = c / 2 ^ 8 % 256 * 2 ^ 16 := mask_shiftLeft c 8 8
  have h0 : (c &&& 0x000000FF) <<< 24 = c / 2 ^ 0 % 256 * 2 ^ 24 := mask_shiftLeft c 0 24
  rw [swap32, h3, h2, h1, h0, ofBytes_singleton]
  simp (disch := simp) only [ofBytes_or, List.cons_append, List.nil_append]
  simp [byteReverse, toBytes, Nat.div_div_eq_div_mul]

theorem swap64_eq (c : ℕ) : swap64 c = byteReverse 8 c := by
  have h7 : (c &&& 0xFF00000000000000) >>> 56 = c / 2 ^ 56 % 256 * 2 ^ 0 :=
    mask_shiftRight c 56 56 le_rfl
  have h6 : (c &&& 0x00FF000000000000) >>> 40 = c / 2 ^ 48 % 256 * 2 ^ 8 :=
    mask_shiftRight c 48 40 (by decide)
  have h5 : (c &&& 0x0000FF0000000000) >>> 24 = c / 2 ^ 40 % 256 * 2 ^ 16 :=
    mask_shiftRight c 40 24 (by decide)
  have h4 : (c &&& 0x000000FF00000000) >>> 8 = c / 2 ^ 32 % 256 * 2 ^ 24 :=
    mask_shiftRight c 32 8 (by decide)
  have h3 : (c &&& 0x00000000FF000000) <<< 8 = c / 2 ^ 24 % 256 * 2 ^ 32 := mask_shiftLeft c 24 8
  have h2 : (c &&& 0x0000000000FF0000) <<< 24 = c / 2 ^ 16 % 256 * 2 ^ 40 := mask_shiftLeft c 16 24
  have h1 : (c &&& 0x000000000000FF00) <<< 40 = c / 2 ^ 8 % 256 * 2 ^ 48 := mask_shiftLeft c 8 40
  have h0 : (c &&& 0x00000000000000FF) <<< 56 = c / 2 ^ 0 % 256 * 2 ^ 56 := mask_shiftLeft c 0 56
  rw [swap64, h7, h6, h5, h4, h3, h2, h1, h0, ofBytes_singleton]
  simp (disch := simp) only [ofBytes_or, List.cons_append, List.nil_append]
  simp [byteReverse, toBytes, Nat.div_div_eq_div_mul]

/-- `swap` of an integral reverses its bytes. -/
theorem swapIntegral_eq {w n : ℕ} (hw : w = 1 ∨ w = 2 ∨ w = 4 ∨ w = 8) (hn : n < 256 ^ w) :
    swapIntegral w n = byteReverse w n := by
  rcases hw with rfl | rfl | rfl | rfl
  · have hone : n % 256 = n := Nat.mod_eq_of_lt hn
    simp [swapIntegral, byteReverse, toBytes, ByteOrder.ofBytes, hone]
  · exact swap16_eq n
  · exact swap32_eq n
  · exact swap64_eq n

/-- `swap` of a floating-point value reverses its bytes on either kind of host. -/
theorem swapFloating_eq (host : Endian) (w n : ℕ) :
    swapFloating host w n = byteReverse w n := by
  cases host <;> simp [swapFloating, Endian.ofMemory, Endian.toMemory, byteReverse]

end ByteUtils

/-- Swapped for a big-endian host, an object lies in memory lowest byte first. -/
theorem Endian.toMemory_byteReverse (w n : ℕ) :
    Endian.big.toMemory w (byteReverse w n) = toBytes w n := by
  simp [Endian.toMemory, toBytes_byteReverse]

/-- Bytes stored lowest first have their value once a big-endian host has swapped them. -/
theorem Endian.byteReverse_ofMemory (bytes : List Byte) :
    byteReverse bytes.length (Endian.big.ofMemory bytes) = ByteOrder.ofBytes bytes := by
  have h := toBytes_ofBytes bytes.reverse
  rw [List.length_reverse] at h
  simp [byteReverse, Endian.ofMemory, h]

end Isml
