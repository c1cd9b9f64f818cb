import Mathlib.Algebra.Group.Nat.Defs
import Isml.Serialization.Value
import Isml.Base.Exceptions

/-! # The value types the binary serializer supports

One constructor for each specialization of `BinarySerializer`, nested at will. The
widths are those of an LP64 host. `HasType` says which contents an object of a type
can have; the element counts of containers are bounded separately, because the
serializer writes them in 16 bits and the containers do not.
-/
namespace Isml

/-- The types with `std::is_integral_v`. -/
inductive IntegralType where
  | bool | char | signedChar | unsignedChar | wchar | char8 | char16 | char32
  | short | unsignedShort | int | unsignedInt | long | unsignedLong | longLong | unsignedLongLong
  deriving DecidableEq, Repr

def IntegralType.size : IntegralType → ℕ
  | .bool | .char | .signedChar | .unsignedChar | .char8 => 1
  | .char16 | .short | .unsignedShort => 2
  | .wchar | .char32 | .int | .unsignedInt => 4
  | .long | .unsignedLong | .longLong | .unsignedLongLong => 8

/-- The number of bit patterns that are values. -/
def IntegralType.range : IntegralType → ℕ
  | .bool => 2
  | k => 256 ^ k.size

def IntegralType.name : IntegralType → String
  | .bool => "bool"
  | .char => "char"
  | .signedChar => "signed char"
  | .unsignedChar => "unsigned char"
  | .wchar => "wchar_t"
  | .char8 => "char8_t"
  | .char16 => "char16_t"
  | .char32 => "char32_t"
  | .short => "short"
  | .unsignedShort => "unsigned short"
  | .int => "int"
  | .unsignedInt => "unsigned int"
  | .long => "long"
  | .unsignedLong => "unsigned long"
  | .longLong => "long long"
  | .unsignedLongLong => "unsigned long long"

theorem IntegralType.size_cases (k : IntegralType) :
    k.size = 1 ∨ k.size = 2 ∨ k.size = 4 ∨ k.size = 8 := by
  cases k <;> decide

theorem IntegralType.size_pos (k : IntegralType) : 0 < k.size := by
  cases k <;> decide

theorem IntegralType.range_le (k : IntegralType) : k.range ≤ 256 ^ k.size := by
  cases k <;> decide

theorem IntegralType.range_pos (k : IntegralType) : 0 < k.range := by
  cases k <;> decide

/-- The types with `std::is_floating_point_v`. A `long double` is one of 128 bits without padding; that of
x87 has 6 bytes of padding, which are written as they happen to be. -/
inductive FloatingType where
  | float | double | longDouble
  deriving DecidableEq, Repr

def FloatingType.size : FloatingType → ℕ
  | .float => 4
  | .double => 8
  | .longDouble => 16

def FloatingType.name : FloatingType → String
  | .float => "float"
  | .double => "double"
  | .longDouble => "long double"

theorem FloatingType.size_pos (k : FloatingType) : 0 < k.size := by
  cases k <;> decide

/-- `sequence` is any of `std::vector`, `std::list`, `std::deque`, `std::string`;
`serializable` is a class derived from `Serializable` whose three functions handle
its members one after the other, `members` being the pair of them. -/
inductive Ty where
  | integral (k : IntegralType)
  | floating (k : FloatingType)
  | enumeration (name : String) (underlying : IntegralType)
  | pair (a b : Ty)
  | optional (a : Ty)
  | sequence (container : String) (a : Ty)
  | set (p : KeyPolicy) (a : Ty)
  | map (p : KeyPolicy) (k a : Ty)
  | array (n : ℕ) (a : Ty)
  | serializable (name : String) (members : Ty)

namespace Ty

/-- `typeid(T).name()`. -/
def name : Ty → String
  | .integral k => k.name
  | .floating k => k.name
  | .enumeration name _ => name
  | .pair a b => "std::pair<" ++ a.name ++ ", " ++ b.name ++ ">"
  | .optional a => "std::optional<" ++ a.name ++ ">"
  | .sequence container a => container ++ "<" ++ a.name ++ ">"
  | .set p a => "set<" ++ a.name ++ ", " ++ p.name ++ ">"
  | .map p k a => "map<" ++ k.name ++ ", " ++ a.name ++ ", " ++ p.name ++ ">"
  | .array n a => "std::array<" ++ a.name ++ ", " ++ toString n ++ ">"
  | .serializable name _ => name

/-- The value-initialized object, `T {}`. -/
def default : Ty → Val
  | .integral _ | .floating _ | .enumeration _ _ => .bits 0
  | .pair a b => .pair a.default b.default
  | .optional _ => .absent
  | .sequence _ _ => .items []
  | .set p _ | .map p _ _ => p.container []
  | .array n a => .items (List.replicate n a.default)
  | .serializable _ m => m.default

/-- The contents an object of the type can have. -/
def HasType : Ty → Val → Prop
  | .integral k, v | .enumeration _ k, v => ∃ n, v = .bits n ∧ n < k.range
  | .floating k, v => ∃ n, v = .bits n ∧ n < 256 ^ k.size
  | .pair a b, v => v = .pair v.first v.second ∧ a.HasType v.first ∧ b.HasType v.second
  | .optional a, v => v = .absent ∨ ∃ w, v = .present w ∧ a.HasType w
  | .sequence _ a, v => v = .items v.elements ∧ ∀ x ∈ v.elements, a.HasType x
  | .set p a, v => v = p.container v.elements ∧ p.Distinct id v.elements ∧
      ∀ x ∈ v.elements, a.HasType x
  | .map p k a, v => v = p.container v.elements ∧ p.Distinct Val.first v.elements ∧
      ∀ x ∈ v.elements, x = .pair x.first x.second ∧ k.HasType x.first ∧ a.HasType x.second
  | .array n a, v => v = .items v.elements ∧ v.elements.length = n ∧ ∀ x ∈ v.elements, a.HasType x
  | .serializable _ m, v => m.HasType v

/-- Every container in the object, at any depth, has at most `limit` elements. -/
def Within (limit : ℕ) : Ty → Val → Prop
  | .integral _, _ | .floating _, _ | .enumeration _ _, _ => True
  | .pair a b, v => a.Within limit v.first ∧ b.Within limit v.second
  | .optional a, v => ∀ w, v = .present w → a.Within limit w
  | .sequence _ a, v | .set _ a, v | .array _ a, v =>
      v.elements.length ≤ limit ∧ ∀ x ∈ v.elements, a.Within limit x
  | .map _ k a, v =>
      v.elements.length ≤ limit ∧
        ∀ x ∈ v.elements, k.Within limit x.first ∧ a.Within limit x.second
  | .serializable _ m, v => m.Within limit v

theorem Within.mono {limit limit' : ℕ} (h : limit ≤ limit') {t : Ty} {v : Val}
    (hw : t.Within limit v) : t.Within limit' v := by
  induction t generalizing v with
  | integral _ | floating _ | enumeration _ _ => trivial
  | pair a b ha hb => exact ⟨ha hw.1,hb hw.2⟩
  | optional a ha => exact fun w hv => ha (hw w hv)
  | sequence _ a ha | set _ a ha | array _ a ha =>
    exact ⟨Nat.le_trans hw.1 h,fun x hx => ha (hw.2 x hx)⟩
  | map _ k a hk ha =>
    exact ⟨Nat.le_trans hw.1 h,fun x hx => ⟨hk (hw.2 x hx).1,ha (hw.2 x hx).2⟩⟩
  | serializable _ m hm => exact hm hw

theorem distinct_nil (p : KeyPolicy) (key : Val → Val) : p.Distinct key [] := by
  cases p <;> exact List.Pairwise.nil

theorem default_hasType (t : Ty) : t.HasType t.default := by
  induction t with
  | integral k => exact ⟨0,rfl,k.range_pos⟩
  | floating k => exact ⟨0,rfl,Nat.pow_pos (by decide)⟩
  | enumeration name k => exact ⟨0,rfl,k.range_pos⟩
  | pair a b ha hb => exact ⟨rfl,ha,hb⟩
  | optional a _ => exact Or.inl rfl
  | sequence c a _ => exact ⟨rfl,by simp [default, Val.elements]⟩
  | set p a _ => simp [HasType, default, distinct_nil]
  | map p k a _ _ => simp [HasType, default, distinct_nil]
  | array n a ha =>
    refine ⟨rfl,by simp [default, Val.elements],?_⟩
    intro x hx
    rw [List.eq_of_mem_replicate hx]
    exact ha
  | serializable name m hm => exact hm

end Ty

/-- The contents of uninitialized local variables. A declaration is named by the path
of loop indices and members that leads to it, so two of them need not agree. -/
abbrev Junk := List ℕ → ℕ

def Junk.child (junk : Junk) (i : ℕ) : Junk := fun path => junk (i :: path)

/-- The object a declaration `T value;` in a function body makes: class types are
constructed, arithmetic objects and enumerators keep what is in memory. -/
def Ty.uninitialized : Ty → Junk → Val
  | .integral k, junk | .enumeration _ k, junk => .bits (junk [] % 256 ^ k.size)
  | .floating k, junk => .bits (junk [] % 256 ^ k.size)
  | .array n a, junk => .items ((List.range n).map fun i => a.uninitialized (junk.child i))
  | t, _ => t.default

end Isml
