import Mathlib.Data.Int.Notation
import Mathlib.Data.List.TakeWhile
import Mathlib.Data.Nat.Notation
import Mathlib.Tactic.NormNum

/-! # Decimal integers the way `std::stoi` reads them

Blanks and a sign may stand in front of the digits, and what is behind them is ignored.
-/
namespace Decimal

/-- `isspace` of the C locale. -/
def isSpace (c : Char) : Bool := c == ' ' || (9 ≤ c.toNat && c.toNat ≤ 13)

/-- Whether there is a minus sign, and what is behind the sign. -/
def readSign : List Char → Bool × List Char
  | c :: s => if c == '-' then (true,s) else if c == '+' then (false,s) else (false,c :: s)
  | [] => (false,[])

def valueOf (digits : List Char) : ℕ := Nat.ofDigitChars 10 digits 0

/-- Nothing comes back for `std::invalid_argument` and for `std::out_of_range`. -/
def stoi (s : List Char) : Option ℤ :=
  let (negative,s) := readSign (s.dropWhile isSpace)
  let digits := s.takeWhile Char.isDigit
  if digits.isEmpty then none
  else
    let value : ℤ := if negative then -(valueOf digits : ℤ) else valueOf digits
    if -2 ^ 31 ≤ value ∧ value < 2 ^ 31 then some value else none

theorem toNat_of_isDigit {c : Char} (h : c.isDigit = true) : 48 ≤ c.toNat ∧ c.toNat ≤ 57 := by
  unfold Char.isDigit at h
  simp only [ge_iff_le, Bool.and_eq_true, decide_eq_true_eq, UInt32.le_iff_toNat_le] at h
  exact h

/-- A digit is neither a blank nor a sign. -/
theorem isSpace_of_isDigit {c : Char} (h : c.isDigit = true) : isSpace c = false := by
  have hc := toNat_of_isDigit h
  have hblank : (c == ' ') = false := by
    rw [beq_eq_false_iff_ne]
    rintro rfl
    exact absurd hc (by decide)
  have hcontrol : decide (c.toNat ≤ 13) = false := decide_eq_false (by omega)
  rw [isSpace, hblank, hcontrol, Bool.and_false, Bool.or_false]

theorem readSign_of_isDigit {c : Char} (h : c.isDigit = true) (s : List Char) :
    readSign (c :: s) = (false,c :: s) := by
  have hminus : (c == '-') = false := by
    rw [beq_eq_false_iff_ne]
    rintro rfl
    exact absurd h (by decide)
  have hplus : (c == '+') = false := by
    rw [beq_eq_false_iff_ne]
    rintro rfl
    exact absurd h (by decide)
  simp only [readSign, hminus, hplus, Bool.false_eq_true, if_false]

/-- Blanks, a sign that may be missing, and digits, with other text behind them. -/
structure Numeral where
  blanks : List Char
  minus : Option Bool
  digits : List Char
  rest : List Char
  blanks_chars : ∀ c ∈ blanks, isSpace c = true
  digits_ne : digits ≠ []
  digits_chars : ∀ c ∈ digits, c.isDigit = true
  rest_head : ∀ c ∈ rest.head?, c.isDigit = false

namespace Numeral
variable (x : Numeral)

def signText : Option Bool → List Char
  | none => []
  | some true => ['-']
  | some false => ['+']

def text : List Char := x.blanks ++ (signText x.minus ++ (x.digits ++ x.rest))

def value : ℤ := if x.minus = some true then -(valueOf x.digits : ℤ) else valueOf x.digits

theorem readSign_text : readSign (signText x.minus ++ (x.digits ++ x.rest)) =
    (decide (x.minus = some true),x.digits ++ x.rest) := by
  obtain ⟨c,digits,hdigits⟩ := List.exists_cons_of_ne_nil x.digits_ne
  have hc := x.digits_chars c (hdigits ▸ List.mem_cons_self)
  rcases hminus : x.minus with _ | _ | _
  · rw [hdigits, signText, List.nil_append, List.cons_append, readSign_of_isDigit hc]
    rfl
  · rfl
  · rfl

theorem dropWhile_text : x.text.dropWhile isSpace = signText x.minus ++ (x.digits ++ x.rest) := by
  obtain ⟨c,digits,hdigits⟩ := List.exists_cons_of_ne_nil x.digits_ne
  have hc := x.digits_chars c (hdigits ▸ List.mem_cons_self)
  rw [text, List.dropWhile_append_of_pos x.blanks_chars]
  rcases x.minus with _ | _ | _
  · rw [hdigits, signText, List.nil_append, List.cons_append]
    exact List.dropWhile_cons_of_neg (by rw [isSpace_of_isDigit hc]; exact Bool.false_ne_true)
  · rfl
  · rfl

theorem takeWhile_digits : (x.digits ++ x.rest).takeWhile Char.isDigit = x.digits := by
  rw [List.takeWhile_append_of_pos x.digits_chars]
  cases hrest : x.rest with
  | nil => rw [List.takeWhile_nil, List.append_nil]
  | cons c rest =>
    have hc : c.isDigit = false := x.rest_head c (by rw [hrest]; rfl)
    rw [List.takeWhile_cons_of_neg (by rw [hc]; exact Bool.false_ne_true), List.append_nil]

/-- A numeral is read as its value if that is an `int`. -/
theorem stoi_text : stoi x.text = if -2 ^ 31 ≤ x.value ∧ x.value < 2 ^ 31 then some x.value else none := by
  have hne : x.digits.isEmpty = false := by rw [List.isEmpty_eq_false_iff]; exact x.digits_ne
  unfold stoi
  simp only [dropWhile_text, readSign_text, takeWhile_digits, hne, Bool.false_eq_true, if_false,
    decide_eq_true_eq]
  rfl

end Numeral

theorem readSign_signText (s : List Char) :
    ∃ minus, s = Numeral.signText minus ++ (readSign s).2 ∧ ((readSign s).1 = true ↔ minus = some true) := by
  cases s with
  | nil => exact ⟨none,rfl,nofun,nofun⟩
  | cons c s =>
    dsimp only [readSign]
    split_ifs with hminus hplus
    · exact ⟨some true,by rw [eq_of_beq hminus]; rfl,fun _ => rfl,fun _ => rfl⟩
    · exact ⟨some false,by rw [eq_of_beq hplus]; rfl,nofun,nofun⟩
    · exact ⟨none,rfl,nofun,nofun⟩

/-- Nothing but numerals can be read. -/
theorem exists_numeral {s : List Char} {n : ℤ} (h : stoi s = some n) :
    ∃ x : Numeral, x.text = s ∧ x.value = n ∧ -2 ^ 31 ≤ n ∧ n < 2 ^ 31 := by
  obtain ⟨minus,hsign,hminus⟩ := readSign_signText (s.dropWhile isSpace)
  simp only [stoi, Option.ite_none_left_eq_some, Option.ite_none_right_eq_some, Option.some.injEq] at h
  obtain ⟨hdigits,hrange,hvalue⟩ := h
  rw [hvalue] at hrange
  refine ⟨⟨s.takeWhile isSpace,minus,(readSign (s.dropWhile isSpace)).2.takeWhile Char.isDigit,
    (readSign (s.dropWhile isSpace)).2.dropWhile Char.isDigit,fun c => List.mem_takeWhile_imp,
    fun hnil => hdigits (List.isEmpty_iff.mpr hnil),fun c => List.mem_takeWhile_imp,fun c hc => ?_⟩,
    ?_,?_,hrange⟩
  · have hhead := List.head?_dropWhile_not Char.isDigit (readSign (s.dropWhile isSpace)).2
    rw [Option.mem_def.mp hc] at hhead
    exact hhead
  · rw [Numeral.text, List.takeWhile_append_dropWhile, ← hsign, List.takeWhile_append_dropWhile]
  · rw [← hvalue]
    exact if_congr hminus.symm rfl rfl

theorem stoi_digits {digits : List Char} (hne : digits ≠ []) (h : ∀ c ∈ digits, c.isDigit = true) :
    stoi digits = if valueOf digits < 2 ^ 31 then some (valueOf digits : ℤ) else none := by
  have hread := Numeral.stoi_text ⟨[],none,digits,[],nofun,hne,h,nofun⟩
  have hlow : (-2 ^ 31 : ℤ) ≤ (valueOf digits : ℤ) := by omega
  have hiff : ((valueOf digits : ℤ) < 2 ^ 31) ↔ valueOf digits < 2 ^ 31 := by omega
  simpa only [Numeral.text, Numeral.signText, Numeral.value, reduceCtorEq, if_false, List.nil_append,
    List.append_nil, hlow, true_and, hiff] using hread

theorem valueOf_toDigits (n : ℕ) : valueOf (Nat.toDigits 10 n) = n := Nat.ofDigitChars_ten_toDigits

theorem isDigit_of_mem_toDigits {n : ℕ} {c : Char} (h : c ∈ Nat.toDigits 10 n) : c.isDigit = true :=
  Nat.isDigit_of_mem_toDigits (by decide) (by decide) h

theorem stoi_toDigits (n : ℕ) :
    stoi (Nat.toDigits 10 n) = if n < 2 ^ 31 then some (n : ℤ) else none := by
  rw [stoi_digits Nat.toDigits_ne_nil fun _ => isDigit_of_mem_toDigits, valueOf_toDigits]

end Decimal
