import Isml.Library.NodeList
import Isml.Net.UrlRoundTrip

/-! # `Url::toString` after `Url::parse`

All parts of a canonical string are printed as they were, but the parameters come back in the order
in which an `unordered_map` is visited.
-/
namespace Isml.Net
open Url

/-- `scheme://host[:port][/path][?k1=v1&...&kn=vn]`. -/
structure CanonicalUrl where
  scheme : CharString
  hostname : CharString
  port : Option ℕ
  path : Option CharString
  parameters : List (CharString × CharString)
  scheme_ne : scheme ≠ []
  scheme_chars : ∀ c ∈ scheme, schemeChar c = true
  hostname_ne : hostname ≠ []
  hostname_chars : ∀ c ∈ hostname, schemeChar c = true
  port_range : ∀ n ∈ port, 1 ≤ n ∧ n ≤ 65535
  path_chars : ∀ w ∈ path, ∀ c ∈ w, pathChar c = true
  names_nodup : (parameters.map Prod.fst).Nodup
  parameters_chars : ∀ p ∈ parameters, AlphanumericPair p

namespace CanonicalUrl
variable (w : CanonicalUrl)

def text : CharString := w.scheme ++ [':', '/', '/'] ++ w.hostname ++
  delimited [':'] (w.port.map (Nat.toDigits 10)) ++ delimited ['/'] w.path ++
    delimited ['?'] (queryOf w.parameters)

/-- In whatever order the parameters are visited, what is parsed is printed as the string it was. -/
def FixedPoint : Prop := ∀ order, ∃ u, parse w.text = .ok u ∧ Url.toString order u = w.text

theorem path_form : (∀ c ∈ delimited ['/'] w.path, pathChar c = true) ∧
    ∀ c ∈ (delimited ['/'] w.path).head?, c = '/' := by
  cases hpath : w.path with
  | none => exact ⟨nofun,nofun⟩
  | some path =>
    refine ⟨?_,fun c hc => (Option.some.inj hc).symm⟩
    exact List.forall_mem_cons.mpr ⟨by decide,w.path_chars path hpath⟩

def form : UrlForm where
  protocol := w.scheme
  hostname := w.hostname
  port := w.port.getD 0
  path := delimited ['/'] w.path
  query := queryOf w.parameters
  protocol_ne := w.scheme_ne
  protocol_chars := w.scheme_chars
  hostname_ne := w.hostname_ne
  hostname_chars := w.hostname_chars
  path_chars := w.path_form.1
  path_rooted := w.path_form.2
  query_chars _ hq := queryChar_queryOf w.parameters_chars hq

theorem port_lt : w.form.port < 2 ^ 31 := by
  change w.port.getD 0 < 2 ^ 31
  cases hport : w.port with
  | none => decide
  | some n =>
    have hn := w.port_range n hport
    rw [Option.getD_some]
    omega

theorem text_form : w.form.text = w.text := by
  have hport : w.form.portText = delimited [':'] (w.port.map (Nat.toDigits 10)) := by
    unfold UrlForm.portText
    cases hport : w.port with
    | none => exact if_pos (by rw [form, hport]; rfl)
    | some n =>
      have hn := w.port_range n hport
      have hform : w.form.port = n := by rw [form, hport]; rfl
      rw [hform, if_neg (by omega)]
      rfl
  rw [UrlForm.text, hport]
  rfl

theorem parse_text : parse w.text = .ok w.form.url := by
  rw [← text_form, UrlForm.parse_text, if_pos w.port_lt]

theorem lookup_parameters {name value : CharString} :
    w.form.url.parameters.lookup name = some value ↔ (name,value) ∈ w.parameters := by
  have hquery : w.form.url.parameters = parametersOf (queryText w.parameters) :=
    congrArg parametersOf (queryOf_getD _)
  rw [hquery]
  exact lookup_parametersOf w.names_nodup w.parameters_chars

/-- The parameters are printed in some order. -/
theorem visited_perm (order : ParameterOrder) : (order.visited w.form.url.parameters).Perm w.parameters := by
  rw [List.perm_ext_iff_of_nodup order.names_nodup.of_map w.names_nodup.of_map]
  rintro ⟨name,value⟩
  rw [order.mem_visited]
  exact w.lookup_parameters

/-- The string is printed exactly if its parameters are visited in their order. -/
theorem toString_eq_iff (order : ParameterOrder) :
    Url.toString order w.form.url = w.text ↔ order.visited w.form.url.parameters = w.parameters := by
  have hprintable := printable_of_parse w.parse_text
  have hport : (hprintable.form order).portText = w.form.portText := by
    have hnat : (hprintable.form order).port = w.form.port :=
      Nat.mod_eq_of_lt (w.port_lt.trans (by decide))
    rw [UrlForm.portText, UrlForm.portText, hnat]
  have hpath : (hprintable.form order).path = w.form.path := printedPath_eq_path.mpr rfl
  rw [hprintable.toString_eq, ← text_form, UrlForm.text, UrlForm.text, hport, hpath]
  constructor
  · intro h
    have hquery := delimited_inj (List.append_cancel_left h)
    exact queryOf_inj (fun _ hp => hprintable.alphanumericPair order hp) w.parameters_chars hquery
  · intro h
    have hquery : (hprintable.form order).query = w.form.query := congrArg queryOf h
    rw [hquery]
    rfl

/-- Two orders that are the reverse of each other print the same text only of one parameter. -/
theorem FixedPoint.length_le {w : CanonicalUrl} (h : w.FixedPoint) : w.parameters.length ≤ 1 := by
  have hvisited : ∀ order : ParameterOrder, order.visited w.form.url.parameters = w.parameters := by
    intro order
    obtain ⟨u,hu,htext⟩ := h order
    cases w.parse_text.symm.trans hu
    exact (w.toString_eq_iff order).mp htext
  have hreverse : w.parameters.reverse = w.parameters := by
    calc w.parameters.reverse = (ParameterOrder.stored.visited w.form.url.parameters).reverse := by
          rw [hvisited]
      _ = ParameterOrder.reversed.visited w.form.url.parameters := rfl
      _ = w.parameters := hvisited _
  exact (List.reverse_eq_self_iff_length_le w.names_nodup.of_map).mp hreverse

/-- Whatever the order is, the string comes back exactly if it has at most one parameter. -/
theorem fixedPoint_iff : w.FixedPoint ↔ w.parameters.length ≤ 1 := by
  constructor
  · exact FixedPoint.length_le
  · intro hlength order
    refine ⟨w.form.url,w.parse_text,(w.toString_eq_iff order).mpr ?_⟩
    have hperm := w.visited_perm order
    rcases hparameters : w.parameters with _ | ⟨p,_ | ⟨q,ps⟩⟩
    · rw [hparameters] at hperm
      exact hperm.eq_nil
    · rw [hparameters] at hperm
      exact List.perm_singleton.mp hperm
    · rw [hparameters, List.length_cons, List.length_cons] at hlength
      omega

/-- `s://h?a=1&b=2`. -/
def twoParameters : CanonicalUrl where
  scheme := ['s']
  hostname := ['h']
  port := none
  path := none
  parameters := [(['a'],['1']),(['b'],['2'])]
  scheme_ne := by decide
  scheme_chars := List.forall_mem_singleton.mpr (by decide)
  hostname_ne := by decide
  hostname_chars := List.forall_mem_singleton.mpr (by decide)
  port_range n h := absurd h (Option.not_mem_none n)
  path_chars path h := absurd h (Option.not_mem_none path)
  names_nodup := by decide
  parameters_chars := List.forall_mem_cons.mpr ⟨alphanumericPair_singleton (by decide) (by decide),
    List.forall_mem_singleton.mpr (alphanumericPair_singleton (by decide) (by decide))⟩

/-- A map that is visited from `b` to `a` prints `s://h?b=2&a=1`. -/
theorem not_fixedPoint_twoParameters : ¬ twoParameters.FixedPoint :=
  fun h => absurd h.length_le (by decide)

end CanonicalUrl

end Isml.Net
