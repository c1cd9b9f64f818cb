import Isml.Net.QueryParameters
import Isml.Net.UrlParts

/-! # What `Url::parse` makes of the parts

The members of the result are the parts, the authority cut at its first colon. Strings with a
scheme, a host and a port written by its number, which are those the printer writes, are parsed
back to these.
-/
namespace Isml.Net
open Regex Regex.Pattern Url

section Hostport
variable {hostname port : CharString} (b : UrlBuilder)

theorem parseHostport_host (h : ':' ∉ hostname) :
    parseHostport hostname b = .ok (b.setHostname hostname) := by
  rw [parseHostport, findIdx_of_notMem h]

theorem parseHostport_colon (h : ':' ∉ hostname) : parseHostport (hostname ++ ':' :: port) b =
    match Decimal.stoi port with
    | some n => .ok ((b.setHostname hostname).setPort (BitVec.ofInt 32 n))
    | none => raise (.malformedUrl "Invalid port value") := by
  have hlt : hostname.length < (hostname ++ ':' :: port).length := by
    rw [List.length_append, List.length_cons]
    omega
  rw [parseHostport, findIdx_append h]
  dsimp only
  rw [if_pos hlt, substr_front]
  cases hport : Decimal.stoi port with
  | none => simp only [substr_behind, hport]
  | some n => simp only [substr_behind, hport]

end Hostport

/-- The parameters the loop finds in a query. -/
def parametersOf (query : CharString) : Parameters :=
  (parseParameters query UrlBuilder.new).url.parameters

theorem parseParameters_url (query : CharString) {b : UrlBuilder} (h : b.url.parameters = ∅) :
    (parseParameters query b).url = { b.url with parameters := parametersOf query } := by
  obtain ⟨ps,_,hadd⟩ := exists_parameters query
  rw [parametersOf, hadd, hadd, addParameters_url, addParameters_url, h]
  rfl

/-- Distinct alphanumeric parameters are found as they are. -/
theorem lookup_parametersOf {ps : List (CharString × CharString)} (hps : (ps.map Prod.fst).Nodup)
    (halpha : ∀ p ∈ ps, AlphanumericPair p) {name value : CharString} :
    (parametersOf (queryText ps)).lookup name = some value ↔ (name,value) ∈ ps := by
  have hequals : ∀ p ∈ ps, '=' ∉ p.1 ∧ '=' ∉ p.2 := fun p hp =>
    ⟨equals_notMem (halpha p hp).name_chars,equals_notMem (halpha p hp).value_chars⟩
  have htrim : ∀ p ∈ ps, trim p = some p := fun p hp => trim_alphanumeric (halpha p hp)
  rw [parametersOf, parseParameters_queryText hequals, addParameters_url, List.filterMap_congr htrim,
    List.filterMap_some]
  exact lookup_insertParameters hps

theorem alphanumericPair_of_lookup {query name value : CharString}
    (h : (parametersOf query).lookup name = some value) : AlphanumericPair (name,value) := by
  obtain ⟨ps,hps,hadd⟩ := exists_parameters query
  rw [parametersOf, hadd, addParameters_url] at h
  rcases mem_of_lookup_insertParameters h with hmem | hempty
  · exact hps _ hmem
  · rw [show UrlBuilder.new.url.parameters = ∅ from rfl, AList.lookup_empty] at hempty
    cases hempty

namespace UrlParts
variable {p : UrlParts} {hostname port : CharString}

/-- What is built of the parts and a host and a port. -/
def url (p : UrlParts) (hostname : CharString) (port : BitVec 32) : Url :=
  ⟨p.scheme.getD [],hostname,port,p.path,[],parametersOf (p.query.getD [])⟩

theorem parse_oneLine (h : p.OneLine) : parse p.text =
    parseHostport (p.authority.getD []) (UrlBuilder.new.setProtocol (p.scheme.getD [])) >>= fun b =>
      (parseParameters (p.query.getD []) (b.setPath p.path)).build := by
  obtain ⟨hscheme,hauthority,hpath,hquery⟩ := p.groups_eq
  rw [parse, p.regexMatch_text h]
  simp only [str, hscheme, hauthority, hpath, hquery, Option.getD_some]

theorem parse_lineBreak (h : ¬ p.OneLine) : parse p.text = raise (.malformedUrl "Cannot parse string") := by
  rw [parse, p.regexMatch_lineBreak h]

theorem parse_host (h : p.OneLine) (hauthority : p.authority.getD [] = hostname)
    (hcolon : ':' ∉ hostname) : parse p.text = UrlBuilder.build ⟨p.url hostname 0⟩ := by
  rw [parse_oneLine h, hauthority, parseHostport_host _ hcolon, ok_bind]
  apply congrArg UrlBuilder.build
  apply congrArg UrlBuilder.mk
  exact parseParameters_url _ rfl

theorem parse_port (h : p.OneLine) (hauthority : p.authority.getD [] = hostname ++ ':' :: port)
    (hcolon : ':' ∉ hostname) : parse p.text =
      match Decimal.stoi port with
      | some n => UrlBuilder.build ⟨p.url hostname (BitVec.ofInt 32 n)⟩
      | none => raise (.malformedUrl "Invalid port value") := by
  rw [parse_oneLine h, hauthority, parseHostport_colon _ hcolon]
  cases Decimal.stoi port with
  | none => rfl
  | some n =>
    rw [ok_bind]
    apply congrArg UrlBuilder.build
    apply congrArg UrlBuilder.mk
    exact parseParameters_url _ rfl

theorem build_eq_ok {b : UrlBuilder} {u : Url} :
    b.build = .ok u ↔ b.url.protocol ≠ [] ∧ b.url.hostname ≠ [] ∧ b.url = u := by
  unfold UrlBuilder.build
  simp only [List.isEmpty_iff]
  split_ifs with hprotocol hhostname
  · exact iff_of_false nofun fun h => h.1 hprotocol
  · exact iff_of_false nofun fun h => h.2.1 hhostname
  · simp only [Except.ok.injEq, ne_eq, hprotocol, hhostname, not_false_eq_true, true_and]

end UrlParts

/-- A string with a scheme and a host, without a fragment; the port 0 is not written. -/
structure UrlForm where
  protocol : CharString
  hostname : CharString
  port : ℕ
  path : CharString
  query : Option CharString
  protocol_ne : protocol ≠ []
  protocol_chars : ∀ c ∈ protocol, schemeChar c = true
  hostname_ne : hostname ≠ []
  hostname_chars : ∀ c ∈ hostname, schemeChar c = true
  path_chars : ∀ c ∈ path, pathChar c = true
  path_rooted : ∀ c ∈ path.head?, c = '/'
  query_chars : ∀ w ∈ query, ∀ c ∈ w, queryChar c = true

namespace UrlForm
variable (f : UrlForm)

def portText : CharString := if f.port = 0 then [] else ':' :: Nat.toDigits 10 f.port

def text : CharString := f.protocol ++ [':', '/', '/'] ++ f.hostname ++ f.portText ++ f.path ++
  delimited ['?'] f.query

theorem authorityChar_of_schemeChar {c : Char} (h : schemeChar c = true) : authorityChar c = true :=
  noneOf_eq_true.mpr fun hmem => noneOf_eq_true.mp h (List.mem_cons_of_mem _ hmem)

theorem schemeChar_of_isDigit {c : Char} (h : c.isDigit = true) : schemeChar c = true := by
  apply noneOf_eq_true.mpr
  simp only [List.mem_cons, List.not_mem_nil, or_false, not_or]
  refine ⟨?_,?_,?_,?_⟩ <;> rintro rfl <;> exact absurd h (by decide)

theorem authority_chars : ∀ c ∈ f.hostname ++ f.portText, authorityChar c = true := by
  intro c hc
  rcases List.mem_append.mp hc with hc | hc
  · exact authorityChar_of_schemeChar (f.hostname_chars c hc)
  · unfold portText at hc
    split at hc
    · cases hc
    · rcases List.mem_cons.mp hc with rfl | hc
      · decide
      · exact authorityChar_of_schemeChar (schemeChar_of_isDigit (Decimal.isDigit_of_mem_toDigits hc))

def parts : UrlParts where
  scheme := some f.protocol
  authority := some (f.hostname ++ f.portText)
  path := f.path
  query := f.query
  fragment := none
  scheme_chars w hw := by
    cases hw
    exact ⟨f.protocol_ne,f.protocol_chars⟩
  scheme_absent h := nomatch h
  authority_chars w hw := by
    cases hw
    exact f.authority_chars
  authority_absent h := nomatch h
  path_chars := f.path_chars
  path_rooted _ := f.path_rooted
  query_chars := f.query_chars

theorem text_parts : f.parts.text = f.text := by
  simp only [UrlParts.text, UrlParts.relativeText, parts, schemeText, delimited, text,
    List.append_assoc, List.append_nil, List.cons_append, List.nil_append]

theorem oneLine : f.parts.OneLine := fun _ h => nomatch h

def url : Url := ⟨f.protocol,f.hostname,BitVec.ofNat 32 f.port,f.path,[],parametersOf (f.query.getD [])⟩

/-- The number of the port is read as an `int`. -/
theorem parse_text : parse f.text =
    if f.port < 2 ^ 31 then .ok f.url else raise (.malformedUrl "Invalid port value") := by
  have hcolon : ':' ∉ f.hostname := fun hmem => absurd (f.hostname_chars ':' hmem) (by decide)
  have hbuild : ∀ port, UrlBuilder.build ⟨f.parts.url f.hostname port⟩ = .ok { f.url with port := port } :=
    fun port => UrlParts.build_eq_ok.mpr ⟨f.protocol_ne,f.hostname_ne,rfl⟩
  rw [← f.text_parts]
  by_cases hport : f.port = 0
  · have hauthority : f.parts.authority.getD [] = f.hostname := by
      rw [parts, Option.getD_some, portText, if_pos hport, List.append_nil]
    rw [UrlParts.parse_host f.oneLine hauthority hcolon, hbuild, if_pos (by omega), url, hport]
    rfl
  · have hauthority : f.parts.authority.getD [] = f.hostname ++ ':' :: Nat.toDigits 10 f.port := by
      rw [parts, Option.getD_some, portText, if_neg hport]
    rw [UrlParts.parse_port f.oneLine hauthority hcolon, Decimal.stoi_toDigits]
    split_ifs with hlt
    · exact hbuild _
    · rfl

end UrlForm

end Isml.Net
