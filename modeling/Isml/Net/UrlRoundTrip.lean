import Isml.Net.Ports

/-! # `Url::parse` after `Url::toString`

What is parsed or built of admissible parts is printed as a string of the form that is parsed back
to its parts, but the query is printed as the end of the path, and a port that is no `int` cannot
be read.
-/
namespace Isml.Net
open Url

/-- The parts of a URL avoid the characters that end them. -/
structure Printable (u : Url) : Prop where
  protocol_ne : u.protocol ≠ []
  protocol_chars : ∀ c ∈ u.protocol, schemeChar c = true
  hostname_ne : u.hostname ≠ []
  hostname_chars : ∀ c ∈ u.hostname, schemeChar c = true
  path_chars : ∀ c ∈ u.path, pathChar c = true
  path_rooted : ∀ c ∈ u.path.head?, c = '/'
  query_chars : ∀ c ∈ u.query, alphanumeric c = true
  parameters_chars : ∀ name value, u.parameters.lookup name = some value → AlphanumericPair (name,value)

/-- A result of `parse`, or of `build` with such parts and a port of at most 65535. -/
inductive Obtained : Url → Prop where
  | parsed {s : CharString} {u : Url} (h : parse s = .ok u) : Obtained u
  | built {b : UrlBuilder} {u : Url} (h : b.build = .ok u) (hu : Printable u)
      (hport : u.port.toNat ≤ 65535) : Obtained u

structure SameParts (u u' : Url) : Prop where
  protocol : u'.protocol = u.protocol
  hostname : u'.hostname = u.hostname
  port : u'.port = u.port
  path : u'.path = u.path
  parameters : ∀ name, u'.parameters.lookup name = u.parameters.lookup name

/-- In whatever order the parameters are printed, the parts are parsed back. -/
def RoundTrips (u : Url) : Prop :=
  ∀ order, ∃ u', parse (toString order u) = .ok u' ∧ SameParts u u'

section Parsed
variable {s : CharString} {u : Url}

theorem mem_authorityOf {c : Char} (h : c ∈ authorityOf s) : authorityChar c = true := by
  unfold authorityOf at h
  cases hauthority : (UrlParts.ofString s).authority with
  | none =>
    rw [hauthority] at h
    cases h
  | some w =>
    rw [hauthority] at h
    exact (UrlParts.ofString s).authority_chars w hauthority c h

/-- The host of a result lies in front of a colon or of the end of the authority. -/
theorem parse_eq_ok (h : parse s = .ok u) : ∃ hostname port, u = (UrlParts.ofString s).url hostname port ∧
    u.protocol ≠ [] ∧ hostname ≠ [] ∧ ':' ∉ hostname ∧ hostname <+: authorityOf s := by
  have hline : (UrlParts.ofString s).OneLine := by
    by_contra hline
    cases (parse_ofString_lineBreak hline).symm.trans h
  by_cases hcolon : ':' ∈ authorityOf s
  · obtain ⟨hostname,port,hsplit,hhost⟩ := List.eq_append_cons_of_mem hcolon
    rw [parse_ofString_port hline ⟨hsplit,hhost⟩] at h
    split at h
    · obtain ⟨hprotocol,hne,rfl⟩ := UrlParts.build_eq_ok.mp h
      exact ⟨_,_,rfl,hprotocol,hne,hhost,⟨_,hsplit.symm⟩⟩
    · cases h
  · rw [parse_ofString_host hline hcolon] at h
    obtain ⟨hprotocol,hne,rfl⟩ := UrlParts.build_eq_ok.mp h
    exact ⟨_,_,rfl,hprotocol,hne,hcolon,List.prefix_refl _⟩

theorem schemeChar_of_authorityChar {c : Char} (h : authorityChar c = true) (hc : c ≠ ':') :
    schemeChar c = true := by
  apply noneOf_eq_true.mpr
  rw [List.mem_cons, not_or]
  exact ⟨hc,noneOf_eq_true.mp h⟩

theorem printable_of_parse (h : parse s = .ok u) : Printable u := by
  obtain ⟨hostname,port,rfl,hprotocol,hne,hcolon,hfront⟩ := parse_eq_ok h
  refine ⟨hprotocol,?_,hne,?_,(UrlParts.ofString s).path_chars,?_,nofun,?_⟩
  · intro c hc
    cases hscheme : (UrlParts.ofString s).scheme with
    | none =>
      rw [UrlParts.url, hscheme] at hc
      cases hc
    | some w =>
      rw [UrlParts.url, hscheme] at hc
      exact ((UrlParts.ofString s).scheme_chars w hscheme).2 c hc
  · intro c hc
    refine schemeChar_of_authorityChar (mem_authorityOf (hfront.subset hc)) ?_
    rintro rfl
    exact hcolon hc
  · apply (UrlParts.ofString s).path_rooted
    intro hnone
    rw [authorityOf, hnone] at hfront
    exact hne (List.prefix_nil.mp hfront)
  · exact fun name value => alphanumericPair_of_lookup

end Parsed

theorem Obtained.printable {u : Url} (h : Obtained u) : Printable u := by
  cases h with
  | parsed h => exact printable_of_parse h
  | built _ hu _ => exact hu

/-- What stands between the port and the parameters. -/
def printedPath (u : Url) : CharString := u.path ++ if u.query.isEmpty then [] else '/' :: u.query

theorem printedPath_eq_path {u : Url} : printedPath u = u.path ↔ u.query = [] := by
  rw [printedPath, List.append_right_eq_self]
  cases u.query with
  | nil => exact iff_of_true rfl rfl
  | cons c query => exact iff_of_false nofun nofun

theorem noneOf_of_alphanumeric {chars : CharString} (hchars : ∀ c ∈ chars, alphanumeric c = false) {c : Char}
    (hc : alphanumeric c = true) : noneOf chars c = true := by
  apply noneOf_eq_true.mpr
  intro hmem
  exact absurd (hc.symm.trans (hchars c hmem)) (by decide)

namespace Printable
variable {u : Url} (h : Printable u) (order : ParameterOrder)
include h

theorem alphanumericPair {p : CharString × CharString} (hp : p ∈ order.visited u.parameters) :
    AlphanumericPair p := h.parameters_chars p.1 p.2 (order.mem_visited.mp hp)

theorem printedPath_chars : ∀ c ∈ printedPath u, pathChar c = true := by
  intro c hc
  rcases List.mem_append.mp hc with hc | hc
  · exact h.path_chars c hc
  · split at hc
    · cases hc
    · rcases List.mem_cons.mp hc with rfl | hc
      · decide
      · refine noneOf_of_alphanumeric ?_ (h.query_chars c hc)
        exact List.forall_mem_cons.mpr ⟨by decide,List.forall_mem_singleton.mpr (by decide)⟩

theorem printedPath_rooted : ∀ c ∈ (printedPath u).head?, c = '/' := by
  intro c hc
  unfold printedPath at hc
  cases hpath : u.path with
  | nil =>
    rw [hpath, List.nil_append] at hc
    split at hc
    · cases hc
    · exact (Option.some.inj hc).symm
  | cons c' path =>
    rw [hpath] at hc
    exact h.path_rooted c (hpath ▸ hc)

/-- The string that is printed. -/
def form : UrlForm where
  protocol := u.protocol
  hostname := u.hostname
  port := u.port.toNat
  path := printedPath u
  query := queryOf (order.visited u.parameters)
  protocol_ne := h.protocol_ne
  protocol_chars := h.protocol_chars
  hostname_ne := h.hostname_ne
  hostname_chars := h.hostname_chars
  path_chars := h.printedPath_chars
  path_rooted := h.printedPath_rooted
  query_chars _ hw := queryChar_queryOf (fun _ hp => h.alphanumericPair order hp) hw

theorem toString_eq : toString order u = (h.form order).text := by
  have hpath : ∀ str : CharString, (if !u.path.isEmpty then
      (if u.path.head? ≠ some '/' then str ++ ['/'] else str) ++ u.path else str) = str ++ u.path := by
    intro str
    cases hu : u.path with
    | nil => exact (List.append_nil str).symm
    | cons c path =>
      have hc : c = '/' := h.path_rooted c (by rw [hu]; rfl)
      rw [hc]
      rfl
  have hquery : ∀ str : CharString, (if !u.query.isEmpty then str ++ '/' :: u.query else str) =
      str ++ if u.query.isEmpty then [] else '/' :: u.query := by
    intro str
    cases u.query with
    | nil => exact (List.append_nil str).symm
    | cons c query => rfl
  have hport : ∀ str : CharString, (if u.port ≠ 0 then str ++ ':' :: Nat.toDigits 10 u.port.toNat else str) =
      str ++ (h.form order).portText := by
    intro str
    unfold UrlForm.portText
    by_cases hzero : u.port = 0
    · have hnat : (h.form order).port = 0 := congrArg BitVec.toNat hzero
      rw [if_neg (not_not.mpr hzero), if_pos hnat, List.append_nil]
    · have hnat : (h.form order).port ≠ 0 := fun hnat => hzero (BitVec.eq_of_toNat_eq hnat)
      rw [if_pos hzero, if_neg hnat]
      rfl
  unfold Url.toString
  dsimp only
  rw [hport, hpath, hquery, UrlForm.text]
  cases hvisited : order.visited u.parameters with
  | nil =>
    simp only [form, printedPath, hvisited, queryOf, delimited, List.append_assoc, List.append_nil]
  | cons p ps =>
    dsimp only
    rw [foldl_printParameter]
    simp only [form, printedPath, hvisited, queryOf, queryText, delimited, List.append_assoc]

theorem url_form_port : (h.form order).url.port = u.port := by
  rw [UrlForm.url, form, BitVec.ofNat_toNat, BitVec.setWidth_eq]

theorem lookup_form (name : CharString) :
    (h.form order).url.parameters.lookup name = u.parameters.lookup name := by
  apply Option.ext
  intro value
  have hquery : (h.form order).url.parameters = parametersOf (queryText (order.visited u.parameters)) :=
    congrArg parametersOf (queryOf_getD _)
  rw [hquery, lookup_parametersOf order.names_nodup fun p hp => h.alphanumericPair order hp]
  exact order.mem_visited

end Printable

/-- The number of the port has to be an `int`, and what is printed behind the path is not the query. -/
theorem RoundTrips.conditions {u : Url} (h : RoundTrips u) (hu : Printable u) :
    u.port.toNat < 2 ^ 31 ∧ u.query = [] := by
  obtain ⟨u',hparse,hparts⟩ := h .stored
  rw [hu.toString_eq, UrlForm.parse_text] at hparse
  split at hparse
  · rename_i hport
    cases hparse
    exact ⟨hport,printedPath_eq_path.mp hparts.path⟩
  · cases hparse

/-- The parts come back exactly if the port is an `int` and there is no query. -/
theorem roundTrips_iff {u : Url} (h : Obtained u) :
    RoundTrips u ↔ u.port.toNat < 2 ^ 31 ∧ u.query = [] := by
  have hu := h.printable
  constructor
  · exact fun hround => hround.conditions hu
  · rintro ⟨hport,hquery⟩ order
    refine ⟨(hu.form order).url,?_,rfl,rfl,hu.url_form_port order,printedPath_eq_path.mpr hquery,
      hu.lookup_form order⟩
    rw [hu.toString_eq, UrlForm.parse_text]
    exact if_pos hport

def queryBuilder : UrlBuilder :=
  ((UrlBuilder.new.setProtocol ['s']).setHostname ['h']).setQuery ['q']

/-- Built of the protocol `s`, the host `h` and the query `q`. -/
def queried : Url := queryBuilder.url

theorem obtained_queried : Obtained queried := by
  refine .built (b := queryBuilder) rfl ?_ (by decide)
  refine ⟨by decide,List.forall_mem_singleton.mpr (by decide),by decide,
    List.forall_mem_singleton.mpr (by decide),nofun,nofun,List.forall_mem_singleton.mpr (by decide),
    fun name value h => ?_⟩
  cases (AList.lookup_empty name).symm.trans h

theorem roundTrips_iff_queried : RoundTrips queried ↔ queried.port.toNat < 2 ^ 31 ∧ queried.query = [] :=
  roundTrips_iff obtained_queried

/-- It is printed as `s://h/q`, which has a path and no query. -/
theorem not_roundTrips_queried : Obtained queried ∧ ¬ RoundTrips queried :=
  ⟨obtained_queried,fun h => absurd (h.conditions obtained_queried.printable).2 (by decide)⟩

end Isml.Net
