import Isml.Serialization.HostIndependence

/-! # What a peer can put into an object

The decoder is given any bytes: too few of them, other counts than the sender's, keys that come
twice, flags that are neither zero nor one. Where it returns, the target has contents of its type
and no container in it is longer than 16 bits can count, so what was received can be sent again.
-/
namespace Isml
open ByteOrder StringStream

/-- What `Compare` is asked for beyond asymmetry. -/
def KeyPolicy.Transitive : KeyPolicy → Prop
  | .ordered c => ∀ x y z, c.less x y = true → c.less y z = true → c.less x z = true
  | .hashed _ => True

/-- The types whose objects every byte pattern makes contents for: a `bool` has two of them only.
The lengths of arrays are such that they can be counted. -/
def Ty.Receivable : Ty → Prop
  | .integral k | .enumeration _ k => k ≠ .bool
  | .floating _ => True
  | .pair a c => a.Receivable ∧ c.Receivable
  | .optional a | .sequence _ a => a.Receivable
  | .set p a => p.Transitive ∧ a.Receivable
  | .map p k a => p.Transitive ∧ k.Receivable ∧ a.Receivable
  | .array n a => n ≤ 65535 ∧ a.Receivable
  | .serializable _ m => m.Receivable

section Insertion
variable {p : KeyPolicy} {key : Val → Val} {x : Val} {l : List Val}

end Insertion

namespace BinarySerializer

/-- Contents of the type that can be sent. -/
structure Sendable (t : Ty) (v : Val) : Prop where
  hasType : t.HasType v
  within : t.Within 65535 v

section Reads
variable {host : Endian} {w old : ℕ} {s : IStream}

end Reads

section Sendable
variable {a c k : Ty} {p : KeyPolicy} {n : ℕ} {name : String} {v w x y : Val} {l : List Val}

theorem Sendable.items (h : Sendable (.sequence name a) v) : ∀ x ∈ v.elements, Sendable a x :=
  fun x hx => ⟨h.hasType.2 x hx,h.within.2 x hx⟩

theorem Sendable.array (h : Sendable (.array n a) v) :
    v.elements.length = n ∧ ∀ x ∈ v.elements, Sendable a x :=
  ⟨h.hasType.2.1,fun x hx => ⟨h.hasType.2.2 x hx,h.within.2 x hx⟩⟩

end Sendable

end BinarySerializer

end Isml
