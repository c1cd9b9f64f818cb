import Isml.Net.Ports

/-! # The strings that `Url::parse` accepts

They are the ones of a grammar: a protocol, a host, a port, a path, a query and a fragment, each with the
characters and in the place it has to be. What is built has the parts as they are in the string, without
the fragment. Every other string is malformed.
-/
namespace Isml.Net
open Url

/-- The parts of an accepted string. The port is what `std::stoi` takes. -/
structure AcceptedUrl where
  protocol : CharString
  hostname : CharString
  port : Option CharString
  path : CharString
  query : Option CharString
  fragment : Option CharString
  protocol_ne : protocol ≠ []
  protocol_chars : ∀ c ∈ protocol, schemeChar c = true
  hostname_ne : hostname ≠ []
  hostname_chars : ∀ c ∈ hostname, schemeChar c = true
  port_chars : ∀ w ∈ port, ∀ c ∈ w, authorityChar c = true
  port_number : ∀ w ∈ port, ∃ n, Decimal.stoi w = some n
  path_chars : ∀ c ∈ path, pathChar c = true
  path_rooted : ∀ c ∈ path.head?, c = '/'
  query_chars : ∀ w ∈ query, ∀ c ∈ w, queryChar c = true
  fragment_chars : ∀ w ∈ fragment, ∀ c ∈ w, anyChar c = true

theorem schemeChar_iff {c : Char} : schemeChar c = true ↔ c ≠ ':' ∧ authorityChar c = true := by
  unfold schemeChar authorityChar
  rw [noneOf_eq_true, noneOf_eq_true, List.mem_cons, not_or]

namespace AcceptedUrl
variable (a : AcceptedUrl)

def text : CharString := a.protocol ++ [':', '/', '/'] ++ a.hostname ++ delimited [':'] a.port ++ a.path ++
  delimited ['?'] a.query ++ delimited ['#'] a.fragment

/-- The `int` becomes an `unsigned`. -/
def portNumber : BitVec 32 := BitVec.ofInt 32 ((a.port.bind Decimal.stoi).getD 0)

def url : Url := ⟨a.protocol,a.hostname,a.portNumber,a.path,[],parametersOf (a.query.getD [])⟩

theorem authority_chars : ∀ c ∈ a.hostname ++ delimited [':'] a.port, authorityChar c = true := by
  intro c hc
  rcases List.mem_append.mp hc with hc | hc
  · exact (schemeChar_iff.mp (a.hostname_chars c hc)).2
  · cases hport : a.port with
    | none =>
      rw [hport] at hc
      cases hc
    | some w =>
      rw [hport] at hc
      rcases List.mem_cons.mp hc with rfl | hc
      · decide
      · exact a.port_chars w hport c hc

def parts : UrlParts where
  scheme := some a.protocol
  authority := some (a.hostname ++ delimited [':'] a.port)
  path := a.path
  query := a.query
  fragment := a.fragment
  scheme_chars w hw := by
    cases hw
    exact ⟨a.protocol_ne,a.protocol_chars⟩
  scheme_absent h := nomatch h
  authority_chars w hw := by
    cases hw
    exact a.authority_chars
  authority_absent h := nomatch h
  path_chars := a.path_chars
  path_rooted _ := a.path_rooted
  query_chars := a.query_chars

theorem text_parts : a.parts.text = a.text := by
  simp only [UrlParts.text, UrlParts.relativeText, parts, schemeText, delimited, text,
    List.append_assoc, List.cons_append, List.nil_append]

/-- Strings of the grammar are accepted. -/
theorem parse_text : parse a.text = .ok a.url := by
  have hcolon : ':' ∉ a.hostname := fun hmem => (schemeChar_iff.mp (a.hostname_chars ':' hmem)).1 rfl
  have hbuild : ∀ port, UrlBuilder.build ⟨a.parts.url a.hostname port⟩ = .ok { a.url with port := port } :=
    fun port => UrlParts.build_eq_ok.mpr ⟨a.protocol_ne,a.hostname_ne,rfl⟩
  have honeLine : a.parts.OneLine := a.fragment_chars
  rw [← a.text_parts]
  cases hport : a.port with
  | none =>
    have hauthority : a.parts.authority.getD [] = a.hostname := by
      change a.hostname ++ delimited [':'] a.port = a.hostname
      rw [hport]
      exact List.append_nil _
    have hnumber : a.portNumber = 0 := by
      rw [portNumber, hport]
      rfl
    rw [UrlParts.parse_host honeLine hauthority hcolon, hbuild, ← hnumber]
    rfl
  | some w =>
    obtain ⟨n,hn⟩ := a.port_number w hport
    have hauthority : a.parts.authority.getD [] = a.hostname ++ ':' :: w := by
      change a.hostname ++ delimited [':'] a.port = a.hostname ++ ':' :: w
      rw [hport]
      rfl
    have hnumber : a.portNumber = BitVec.ofInt 32 n := by
      rw [portNumber, hport, Option.bind_some, hn]
      rfl
    rw [UrlParts.parse_port honeLine hauthority hcolon, hn]
    dsimp only
    rw [hbuild, ← hnumber]
    rfl

end AcceptedUrl

section Parts
variable {p : UrlParts} {hostname : CharString} {port : Option CharString}

/-- Parts that were accepted are parts of the grammar. -/
theorem UrlParts.exists_accepted (hline : p.OneLine) (hscheme : p.scheme.getD [] ≠ [])
    (hauthority : p.authority.getD [] = hostname ++ delimited [':'] port) (hhost : hostname ≠ [])
    (hcolon : ':' ∉ hostname) (hport : ∀ w ∈ port, ∃ n, Decimal.stoi w = some n) :
    ∃ a : AcceptedUrl, a.text = p.text ∧
      a.url = p.url hostname (BitVec.ofInt 32 ((port.bind Decimal.stoi).getD 0)) := by
  obtain ⟨protocol,hprotocol⟩ : ∃ w, p.scheme = some w := by
    cases h : p.scheme with
    | none =>
      rw [h] at hscheme
      exact absurd rfl hscheme
    | some w => exact ⟨w,rfl⟩
  have hsome : p.authority = some (hostname ++ delimited [':'] port) := by
    cases h : p.authority with
    | none =>
      rw [h] at hauthority
      exact absurd (List.append_eq_nil_iff.mp hauthority.symm).1 hhost
    | some w =>
      rw [h] at hauthority
      exact congrArg some hauthority
  have hchars := p.authority_chars _ hsome
  let a : AcceptedUrl :=
    { protocol := protocol
      hostname := hostname
      port := port
      path := p.path
      query := p.query
      fragment := p.fragment
      protocol_ne := (p.scheme_chars protocol hprotocol).1
      protocol_chars := (p.scheme_chars protocol hprotocol).2
      hostname_ne := hhost
      hostname_chars := fun c hc => schemeChar_iff.mpr
        ⟨fun h => hcolon (h ▸ hc),hchars c (List.mem_append_left _ hc)⟩
      port_chars := by
        rintro w rfl c hc
        exact hchars c (List.mem_append_right _ (List.mem_cons_of_mem _ hc))
      port_number := hport
      path_chars := p.path_chars
      path_rooted := p.path_rooted (by rw [hsome]; exact Option.some_ne_none _)
      query_chars := p.query_chars
      fragment_chars := hline }
  have hparts : a.parts = p := by
    cases p
    cases hprotocol
    cases hsome
    rfl
  refine ⟨a,?_,?_⟩
  · rw [← a.text_parts, hparts]
  · unfold AcceptedUrl.url UrlParts.url
    rw [hprotocol]
    rfl

end Parts

/-- A string is accepted exactly if it is one of the grammar, with the `Url` of its parts; every other one
is malformed. -/
theorem accepted_iff (s : CharString) :
    (∀ u, parse s = .ok u ↔ ∃ a : AcceptedUrl, a.text = s ∧ a.url = u) ∧
      ((∀ a : AcceptedUrl, a.text ≠ s) → ∃ message, parse s = raise (.malformedUrl message)) := by
  have hiff : ∀ u, parse s = .ok u ↔ ∃ a : AcceptedUrl, a.text = s ∧ a.url = u := by
    intro u
    constructor
    · intro h
      have hline : (UrlParts.ofString s).OneLine := by
        by_contra hline
        cases (parse_ofString_lineBreak hline).symm.trans h
      rw [← UrlParts.text_ofString (s := s)]
      by_cases hcolon : ':' ∈ authorityOf s
      · obtain ⟨hostname,port,hsplit,hhost⟩ := List.eq_append_cons_of_mem hcolon
        rw [parse_ofString_port hline ⟨hsplit,hhost⟩] at h
        cases hstoi : Decimal.stoi port with
        | none =>
          rw [hstoi] at h
          cases h
        | some n =>
          rw [hstoi] at h
          obtain ⟨hprotocol,hne,rfl⟩ := UrlParts.build_eq_ok.mp h
          have hauthority : authorityOf s = hostname ++ delimited [':'] (some port) := hsplit
          have hnumber : ∀ w ∈ some port, ∃ n, Decimal.stoi w = some n := by
            rintro w ⟨⟩
            exact ⟨n,hstoi⟩
          obtain ⟨a,htext,hurl⟩ := UrlParts.exists_accepted hline hprotocol hauthority hne hhost hnumber
          refine ⟨a,htext,hurl.trans ?_⟩
          rw [Option.bind_some, hstoi, Option.getD_some]
      · rw [parse_ofString_host hline hcolon] at h
        obtain ⟨hprotocol,hne,rfl⟩ := UrlParts.build_eq_ok.mp h
        have hauthority : authorityOf s = authorityOf s ++ delimited [':'] none := (List.append_nil _).symm
        obtain ⟨a,htext,hurl⟩ := UrlParts.exists_accepted hline hprotocol hauthority hne hcolon nofun
        exact ⟨a,htext,hurl⟩
    · rintro ⟨a,rfl,rfl⟩
      exact a.parse_text
  refine ⟨hiff,fun hnone => ?_⟩
  rcases parse_cases s with ⟨u,hu⟩ | hmalformed
  · obtain ⟨a,ha,_⟩ := (hiff u).mp hu
    exact absurd ha (hnone a)
  · exact hmalformed

end Isml.Net
