import Isml.Base.Exceptions
import Isml.Library.Decimal
import Isml.Library.Regex
import Mathlib.Data.List.AList

/-! # `Url` and `UrlBuilder`

A string is the list of its characters; a byte is the character with its code. The expression
`Url::s_regex` is that of RFC 3986. `match.size()` is one more than the number of its groups, so
the conditions on it hold whenever it matches; a group that took no part is the empty string. The
`regex_error` of a `regex_match` that gives up, and its use of the stack, are left out.
-/
namespace Isml.Net
open Regex

abbrev CharString := List Char

abbrev Parameters := AList fun _ : CharString => CharString

structure Url where
  protocol : CharString
  hostname : CharString
  port : BitVec 32
  path : CharString
  query : CharString
  parameters : Parameters

structure UrlBuilder where
  url : Url

/-- An order in which the entries of an `unordered_map` can be visited. -/
structure ParameterOrder where
  visited : Parameters → List (CharString × CharString)
  perm : ∀ m, (visited m).Perm (m.entries.map fun e => (e.1,e.2))

namespace ParameterOrder
variable (order : ParameterOrder) {m : Parameters}

/-- The order in which the entries are stored. -/
def stored : ParameterOrder := ⟨fun m => m.entries.map fun e => (e.1,e.2),fun _ => List.Perm.refl _⟩

def reversed : ParameterOrder :=
  ⟨fun m => (m.entries.map fun e => (e.1,e.2)).reverse,fun _ => List.reverse_perm _⟩

/-- Each entry is visited, and nothing else. -/
theorem mem_visited {name value : CharString} :
    (name,value) ∈ order.visited m ↔ m.lookup name = some value := by
  rw [(order.perm m).mem_iff, List.mem_map, ← Option.mem_def, AList.mem_lookup_iff]
  constructor
  · rintro ⟨e,he,hpair⟩
    obtain ⟨rfl,rfl⟩ := Prod.mk.inj hpair
    exact he
  · intro he
    exact ⟨_,he,rfl⟩

theorem names_nodup : ((order.visited m).map Prod.fst).Nodup := by
  rw [((order.perm m).map Prod.fst).nodup_iff, List.map_map]
  exact m.nodupKeys

end ParameterOrder

/-- `substr`. -/
def substr (s : CharString) (pos count : ℕ) : CharString := (s.drop pos).take count

section Find
variable {c : Char} {x s : CharString}

/-- `find` of a character. -/
theorem findIdx_of_notMem (h : c ∉ s) : s.findIdx? (· == c) = none := by
  rw [List.findIdx?_eq_none_iff]
  intro c' hc'
  rw [beq_eq_false_iff_ne]
  rintro rfl
  exact h hc'

theorem findIdx_append (h : c ∉ x) : (x ++ c :: s).findIdx? (· == c) = some x.length := by
  rw [List.findIdx?_append, findIdx_of_notMem h, Option.none_or, List.findIdx?_cons, beq_self_eq_true,
    if_pos rfl, Option.map_some, Nat.zero_add]

/-- The first of the characters is at the same place. -/
theorem append_cons_inj {y t : CharString} (hx : c ∉ x) (hy : c ∉ y)
    (h : x ++ c :: s = y ++ c :: t) : x = y ∧ s = t := by
  have hbehind : ∀ {x s : CharString}, c ∉ x → (x ++ c :: s).dropWhile (· != c) = c :: s := by
    intro x s hx
    rw [List.dropWhile_append_of_pos]
    · exact List.dropWhile_cons_of_neg (by simp)
    · intro c' hc'
      rw [bne_iff_ne]
      rintro rfl
      exact hx hc'
  have hst := (hbehind hx).symm.trans ((congrArg _ h).trans (hbehind hy))
  rw [hst] at h
  exact ⟨List.append_cancel_right h,(List.cons.inj hst).2⟩

theorem substr_front : substr (x ++ s) 0 x.length = x := by
  rw [substr, List.drop_zero, List.take_left]

theorem substr_behind :
    substr (x ++ c :: s) (x.length + 1) ((x ++ c :: s).length - x.length - 1) = s := by
  have hdrop : (x ++ c :: s).drop (x.length + 1) = s := by
    rw [← List.drop_drop, List.drop_left]
    rfl
  rw [substr, hdrop]
  apply List.take_of_length_le
  simp only [List.length_append, List.length_cons]
  omega

end Find

/-- A class `[^...]`. -/
def noneOf (chars : CharString) : Char → Bool := fun c => decide (c ∉ chars)

theorem noneOf_eq_false {chars : CharString} {c : Char} : noneOf chars c = false ↔ c ∈ chars := by
  simp [noneOf]

theorem noneOf_eq_true {chars : CharString} {c : Char} : noneOf chars c = true ↔ c ∉ chars :=
  decide_eq_true_iff

namespace Url

def new : Url := ⟨[],[],0,[],[],∅⟩

/-- `[^:/?#]`. -/
def schemeChar : Char → Bool := noneOf [':', '/', '?', '#']

/-- `[^/?#]`. -/
def authorityChar : Char → Bool := noneOf ['/', '?', '#']

/-- `[^?#]`. -/
def pathChar : Char → Bool := noneOf ['?', '#']

/-- `[^#]`. -/
def queryChar : Char → Bool := noneOf ['#']

/-- `.`, which does not match the end of a line. -/
def anyChar : Char → Bool := noneOf ['\n', '\r']

/-- `[a-zA-Z0-9]`. -/
def alphanumeric : Char → Bool := Char.isAlphanum

def schemePattern : Pattern Char := .group 1 (.seq (.group 2 (.plus (.oneOf schemeChar))) (.char ':'))

def authorityPattern : Pattern Char :=
  .group 3 (.seq (.char '/') (.seq (.char '/') (.group 4 (.star (.oneOf authorityChar)))))

def pathPattern : Pattern Char := .group 5 (.star (.oneOf pathChar))

def queryPattern : Pattern Char := .group 6 (.seq (.char '?') (.group 7 (.star (.oneOf queryChar))))

def fragmentPattern : Pattern Char := .group 8 (.seq (.char '#') (.group 9 (.star (.oneOf anyChar))))

/-- `^(([^:/?#]+):)?(\/\/([^/?#]*))?([^?#]*)(\?([^#]*))?(#(.*))?`, where the beginning of the
string is where `regex_match` begins. -/
def sRegex : Pattern Char :=
  .seq (.optional schemePattern) (.seq (.optional authorityPattern) (.seq pathPattern
    (.seq (.optional queryPattern) (.optional fragmentPattern))))

/-- `[a-zA-Z0-9]+\=[a-zA-Z0-9]+`. -/
def pairPattern : Pattern Char :=
  .seq (.plus (.oneOf alphanumeric)) (.seq (.char '=') (.plus (.oneOf alphanumeric)))

/-- `([a-zA-Z0-9]+\=[a-zA-Z0-9]+)+`. -/
def sParamRegex : Pattern Char := .plus (.group 1 pairPattern)

def addParameter (name value : CharString) (u : Url) : Url :=
  { u with parameters := u.parameters.insert name value }

/-- `fmt::format("{}={}", ...)`. -/
def printParameter (p : CharString × CharString) : CharString := p.1 ++ '=' :: p.2

def toString (order : ParameterOrder) (u : Url) : CharString :=
  let str := u.protocol ++ [':', '/', '/'] ++ u.hostname
  let str := if u.port ≠ 0 then str ++ ':' :: Nat.toDigits 10 u.port.toNat else str
  let str :=
    if !u.path.isEmpty then
      let str := if u.path.head? ≠ some '/' then str ++ ['/'] else str
      str ++ u.path
    else str
  let str := if !u.query.isEmpty then str ++ '/' :: u.query else str
  match order.visited u.parameters with
  | [] => str
  | p :: ps =>
    let str := str ++ ['?'] ++ printParameter p
    ps.foldl (fun str p => str ++ ['&'] ++ printParameter p) str

end Url

namespace UrlBuilder

def new : UrlBuilder := ⟨Url.new⟩

def setProtocol (protocol : CharString) (b : UrlBuilder) : UrlBuilder :=
  { b with url := { b.url with protocol := protocol } }

def setHostname (hostname : CharString) (b : UrlBuilder) : UrlBuilder :=
  { b with url := { b.url with hostname := hostname } }

def setPort (port : BitVec 32) (b : UrlBuilder) : UrlBuilder :=
  { b with url := { b.url with port := port } }

def setPath (path : CharString) (b : UrlBuilder) : UrlBuilder :=
  { b with url := { b.url with path := path } }

def setQuery (query : CharString) (b : UrlBuilder) : UrlBuilder :=
  { b with url := { b.url with query := query } }

def addParameter (name value : CharString) (b : UrlBuilder) : UrlBuilder :=
  { b with url := b.url.addParameter name value }

def build (b : UrlBuilder) : Result Url :=
  if b.url.protocol.isEmpty then raise (.malformedUrl "Protocol is not specified")
  else if b.url.hostname.isEmpty then raise (.malformedUrl "Protocol is not specified")
  else .ok b.url

end UrlBuilder

namespace Url

/-- `match[n].str()`. -/
def str (m : Match Char) (n : ℕ) : CharString := (m.groups n).getD []

/-- The host and the port of the authority; the `int` of `std::stoi` becomes an `unsigned`. -/
def parseHostport (hostport : CharString) (b : UrlBuilder) : Result UrlBuilder :=
  match hostport.findIdx? (· == ':') with
  | none => .ok (b.setHostname hostport)
  | some sep =>
    let b := b.setHostname (substr hostport 0 sep)
    if sep < hostport.length then
      match Decimal.stoi (substr hostport (sep + 1) (hostport.length - sep - 1)) with
      | some port => .ok (b.setPort (BitVec.ofInt 32 port))
      | none => raise (.malformedUrl "Invalid port value")
    else .ok b

/-- A pair is a name and a value with the sign between them. -/
theorem mem_language_pair {w : CharString} (h : w ∈ pairPattern.language) :
    ∃ name value, w = name ++ '=' :: value ∧ name ≠ [] ∧ value ≠ [] ∧
      (∀ c ∈ name, alphanumeric c = true) ∧ ∀ c ∈ value, alphanumeric c = true := by
  obtain ⟨name,hname,v,hv,rfl⟩ := Language.mem_mul.mp h
  obtain ⟨sign,hsign,value,hvalue,rfl⟩ := Language.mem_mul.mp hv
  obtain ⟨hname,hnames⟩ := Pattern.mem_language_plus hname
  obtain ⟨hvalue,hvalues⟩ := Pattern.mem_language_plus hvalue
  rw [Pattern.mem_language_char hsign]
  exact ⟨name,value,rfl,hname,hvalue,hnames,hvalues⟩

theorem pair_shorter {s kv suffix : CharString} (h : regexSearch sParamRegex s = some (kv,suffix)) :
    suffix.length < s.length := by
  obtain ⟨before,rfl,hkv⟩ := regexSearch_sound h
  obtain ⟨first,hfirst,others,_,rfl⟩ := Language.mem_mul.mp hkv
  obtain ⟨name,value,rfl,_⟩ := mem_language_pair hfirst
  simp only [List.length_append, List.length_cons]
  omega

/-- The loop over the parameters. -/
def parseParameters (parameters : CharString) (b : UrlBuilder) : UrlBuilder :=
  match _h : regexSearch sParamRegex parameters with
  | none => b
  | some (kv,suffix) =>
    match kv.findIdx? (· == '=') with
    | none => parseParameters suffix b
    | some sep =>
      if sep < kv.length then
        parseParameters suffix
          (b.addParameter (substr kv 0 sep) (substr kv (sep + 1) (kv.length - sep - 1)))
      else parseParameters suffix b
  termination_by parameters.length
  decreasing_by all_goals exact pair_shorter _h

def parse (s : CharString) : Result Url :=
  match regexMatch sRegex s with
  | none => raise (.malformedUrl "Cannot parse string")
  | some m => do
    let b := UrlBuilder.new.setProtocol (str m 2)
    let b ← parseHostport (str m 4) b
    let b := b.setPath (str m 5)
    let b := parseParameters (str m 7) b
    b.build

end Url

end Isml.Net
