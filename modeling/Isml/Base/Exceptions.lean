import Mathlib.Data.Nat.Notation

/-! # Base types, build settings and the ways a call can fail

A call of the library returns, leaves with an exception, or stops the process in a
failed `assert`; the last is only possible in a build without `NDEBUG`.
-/
namespace Isml

abbrev MessageType := BitVec 16
abbrev MessageLength := BitVec 16
abbrev MessageId := BitVec 32
abbrev SessionId := BitVec 64

def kBadMsgId : MessageId := 0

def kBadSessionId : SessionId := 0

/-- The exceptions thrown by the modelled functions, with the data they carry.
`badWeakPtr` and `promiseAlreadySatisfied` come from the standard library. -/
inductive Exception where
  | io (message : String)
  | invalidArgument (message : String)
  | unknownMessageType (message : String) (messageType : MessageType)
  | fieldDoesNotExist (message fieldName : String) (sessionId : SessionId) (messageId : MessageId)
  | malformedUrl (message : String)
  | badWeakPtr
  | promiseAlreadySatisfied
  deriving DecidableEq, Repr

inductive Fault where
  | thrown (e : Exception)
  | assertionFailed
  deriving DecidableEq, Repr

abbrev Result (α : Type) := Except Fault α

def raise {α : Type} (e : Exception) : Result α := .error (.thrown e)

/-- `assert`: nothing is checked when `NDEBUG` is defined. -/
def assertThat (ndebug : Bool) (condition : Bool) : Result Unit :=
  if ndebug || condition then .ok () else .error .assertionFailed

@[simp] theorem assertThat_true (ndebug : Bool) : assertThat ndebug true = .ok () := by
  simp [assertThat]

theorem assertThat_eq_ok {ndebug condition : Bool} :
    assertThat ndebug condition = .ok () ↔ ndebug = true ∨ condition = true := by
  unfold assertThat
  cases ndebug <;> cases condition <;> simp

theorem bind_eq_ok {α β : Type} {x : Result α} {f : α → Result β} {b : β} :
    (x >>= f) = .ok b ↔ ∃ a, x = .ok a ∧ f a = .ok b := by
  cases x with
  | ok a => exact ⟨fun h => ⟨a,rfl,h⟩,fun ⟨_,ha,hf⟩ => Except.ok.inj ha ▸ hf⟩
  | error e => exact ⟨fun h => (nomatch h),fun ⟨_,ha,_⟩ => (nomatch ha)⟩

@[simp] theorem ok_bind {α β : Type} (a : α) (f : α → Result β) :
    ((Except.ok a : Result α) >>= f) = f a := rfl

@[simp] theorem error_bind {α β : Type} (e : Fault) (f : α → Result β) :
    ((Except.error e : Result α) >>= f) = .error e := rfl

end Isml
