import Isml.Net.UrlForm

/-! # Parameters of unreserved characters

RFC 3986 leaves `-`, `.`, `_` and `~` unreserved as well; `Url::s_param_regex` knows letters and
digits only, and finds the alphanumeric text around the sign of a parameter.
-/
namespace Isml.Net
open Regex Url

def unreserved (c : Char) : Bool := alphanumeric c || decide (c ∈ ['-', '.', '_', '~'])

/-- `scheme://host/path?k1=v1&...&kn=vn`. -/
structure UnreservedUrl where
  scheme : CharString
  hostname : CharString
  path : CharString
  parameters : List (CharString × CharString)
  scheme_ne : scheme ≠ []
  scheme_chars : ∀ c ∈ scheme, schemeChar c = true
  hostname_ne : hostname ≠ []
  hostname_chars : ∀ c ∈ hostname, schemeChar c = true
  path_chars : ∀ c ∈ path, pathChar c = true
  names_nodup : (parameters.map Prod.fst).Nodup
  parameters_ne : ∀ p ∈ parameters, p.1 ≠ [] ∧ p.2 ≠ []
  parameters_chars : ∀ p ∈ parameters, ∀ c ∈ p.1 ++ p.2, unreserved c = true

namespace UnreservedUrl
variable (w : UnreservedUrl)

def text : CharString :=
  w.scheme ++ [':', '/', '/'] ++ w.hostname ++ '/' :: w.path ++ '?' :: queryText w.parameters

/-- The parameters of the result are those of the string. -/
def ParsedFaithfully : Prop :=
  ∃ u, parse w.text = .ok u ∧
    ∀ name value, u.parameters.lookup name = some value ↔ (name,value) ∈ w.parameters

theorem reserved_notMem {p : CharString × CharString} (hp : p ∈ w.parameters) {c : Char}
    (hc : unreserved c = false) : c ∉ p.1 ∧ c ∉ p.2 := by
  rw [← not_or, ← List.mem_append]
  intro hmem
  exact absurd ((w.parameters_chars p hp c hmem).symm.trans hc) (by decide)

theorem query_chars : ∀ c ∈ queryText w.parameters, queryChar c = true := by
  apply queryChar_queryText
  intro p hp
  rw [List.mem_append, not_or]
  exact w.reserved_notMem hp (by decide)

def form : UrlForm where
  protocol := w.scheme
  hostname := w.hostname
  port := 0
  path := '/' :: w.path
  query := some (queryText w.parameters)
  protocol_ne := w.scheme_ne
  protocol_chars := w.scheme_chars
  hostname_ne := w.hostname_ne
  hostname_chars := w.hostname_chars
  path_chars := List.forall_mem_cons.mpr ⟨by decide,w.path_chars⟩
  path_rooted c hc := (Option.some.inj hc).symm
  query_chars q hq := by
    cases hq
    exact w.query_chars

theorem text_form : w.form.text = w.text := by
  simp [UrlForm.text, UrlForm.portText, form, text, delimited]

theorem parse_text : parse w.text = .ok w.form.url := by
  rw [← text_form, UrlForm.parse_text]
  exact if_pos (show 0 < 2 ^ 31 by decide)

/-- The parameters that are found. -/
theorem parameters_eq :
    w.form.url.parameters = insertParameters (w.parameters.filterMap trim) ∅ := by
  have hequals : ∀ p ∈ w.parameters, '=' ∉ p.1 ∧ '=' ∉ p.2 := fun p hp =>
    w.reserved_notMem hp (by decide)
  have hfound := congrArg UrlBuilder.url (parseParameters_queryText hequals UrlBuilder.new)
  rw [addParameters_url] at hfound
  exact congrArg Url.parameters hfound

theorem ParsedFaithfully.alphanumeric {w : UnreservedUrl} (h : w.ParsedFaithfully) :
    ∀ p ∈ w.parameters, AlphanumericPair p := by
  obtain ⟨u,hu,hlookup⟩ := h
  cases w.parse_text.symm.trans hu
  intro p hp
  have hfound := (hlookup p.1 p.2).mpr hp
  rw [parameters_eq] at hfound
  rcases mem_of_lookup_insertParameters hfound with hmem | hempty
  · obtain ⟨q,_,hq⟩ := List.mem_filterMap.mp hmem
    exact alphanumericPair_of_trim hq
  · rw [AList.lookup_empty] at hempty
    cases hempty

/-- The parameters come out as they are in the string exactly if they are alphanumeric. -/
theorem parsedFaithfully_iff :
    w.ParsedFaithfully ↔ ∀ p ∈ w.parameters, ∀ c ∈ p.1 ++ p.2, alphanumeric c = true := by
  constructor
  · intro h p hp c hc
    have halpha := h.alphanumeric p hp
    exact (List.mem_append.mp hc).elim (halpha.name_chars c) (halpha.value_chars c)
  · intro h
    have hpairs : ∀ p ∈ w.parameters, trim p = some p := by
      intro p hp
      obtain ⟨hname,hvalue⟩ := w.parameters_ne p hp
      exact trim_alphanumeric ⟨hname,hvalue,fun c hc => h p hp c (List.mem_append_left _ hc),
        fun c hc => h p hp c (List.mem_append_right _ hc)⟩
    refine ⟨w.form.url,w.parse_text,fun name value => ?_⟩
    rw [parameters_eq, List.filterMap_congr hpairs, List.filterMap_some]
    exact lookup_insertParameters w.names_nodup

/-- `p://n/?a-b=1`. -/
def hyphenated : UnreservedUrl where
  scheme := ['p']
  hostname := ['n']
  path := []
  parameters := [(['a', '-', 'b'],['1'])]
  scheme_ne := by decide
  scheme_chars := List.forall_mem_singleton.mpr (by decide)
  hostname_ne := by decide
  hostname_chars := List.forall_mem_singleton.mpr (by decide)
  path_chars := List.forall_mem_nil _
  names_nodup := by decide
  parameters_ne := by decide
  parameters_chars := List.forall_mem_singleton.mpr (List.forall_mem_cons.mpr ⟨by decide,
    List.forall_mem_cons.mpr ⟨by decide,List.forall_mem_cons.mpr ⟨by decide,
      List.forall_mem_singleton.mpr (by decide)⟩⟩⟩)

/-- Of the name only its end is kept. -/
theorem not_parsedFaithfully_hyphenated :
    hyphenated.form.url.parameters.lookup ['b'] = some ['1'] ∧ ¬ hyphenated.ParsedFaithfully := by
  constructor
  · rw [parameters_eq]
    exact AList.lookup_insert ∅
  · intro h
    have halpha := (h.alphanumeric _ List.mem_cons_self).name_chars '-' (by decide)
    exact absurd halpha (by decide)

end UnreservedUrl

end Isml.Net
