import Isml.Net.Url
import Mathlib.Data.List.DropRight

/-! # The loop over the parameters of a query

`Url::s_param_regex` is searched in what is left of the query. A match is one alphanumeric name
and one alphanumeric value, both as long as they can be: the outer repetition never finds a
second pair where the first one ends.
-/
namespace Isml.Net
open Regex Regex.Pattern

/-- A pair of a non-empty alphanumeric name and value. -/
structure AlphanumericPair (p : CharString × CharString) : Prop where
  name_ne : p.1 ≠ []
  value_ne : p.2 ≠ []
  name_chars : ∀ c ∈ p.1, Url.alphanumeric c = true
  value_chars : ∀ c ∈ p.2, Url.alphanumeric c = true

/-- A match begins here. -/
def PairAhead (s : CharString) : Prop :=
  ∃ p rest, s = Url.printParameter p ++ rest ∧ AlphanumericPair p

namespace Url
variable {s kv suffix : CharString} {p : CharString × CharString} {b : UrlBuilder}

theorem alphanumericPair_singleton {c d : Char} (hc : alphanumeric c = true) (hd : alphanumeric d = true) :
    AlphanumericPair ([c],[d]) :=
  ⟨List.cons_ne_nil _ _,List.cons_ne_nil _ _,List.forall_mem_singleton.mpr hc,
    List.forall_mem_singleton.mpr hd⟩

theorem equals_not_alphanumeric : alphanumeric '=' = false := by decide

theorem equals_notMem {w : CharString} (h : ∀ c ∈ w, alphanumeric c = true) : '=' ∉ w := fun hmem =>
  absurd ((h '=' hmem).symm.trans equals_not_alphanumeric) (by decide)

/-- Where a pair is, there is one that ends in front of a character of another kind. -/
theorem exists_longest (h : PairAhead s) :
    ∃ p rest, s = printParameter p ++ rest ∧ AlphanumericPair p ∧ Stops alphanumeric rest := by
  obtain ⟨⟨name,value⟩,rest,rfl,hp⟩ := h
  refine ⟨(name,value ++ rest.takeWhile alphanumeric),rest.dropWhile alphanumeric,?_,?_,
    stops_dropWhile alphanumeric rest⟩
  · simp only [printParameter, List.append_assoc, List.cons_append, List.takeWhile_append_dropWhile]
  · refine ⟨hp.name_ne,List.append_ne_nil_of_left_ne_nil hp.value_ne _,hp.name_chars,?_⟩
    intro c hc
    rcases List.mem_append.mp hc with hc | hc
    · exact hp.value_chars c hc
    · exact List.mem_takeWhile_imp hc

theorem pairAhead_of_language {w rest : CharString} (h : w ∈ pairPattern.language) :
    PairAhead (w ++ rest) := by
  obtain ⟨name,value,rfl,hname,hvalue,hnames,hvalues⟩ := mem_language_pair h
  exact ⟨(name,value),rest,rfl,hname,hvalue,hnames,hvalues⟩

theorem not_pairAhead_of_stops (h : Stops alphanumeric s) : ¬ PairAhead s := by
  rintro ⟨⟨name,value⟩,rest,rfl,hp⟩
  obtain ⟨c,name,rfl⟩ := List.exists_cons_of_ne_nil hp.name_ne
  have hc := hp.name_chars c List.mem_cons_self
  exact absurd ((h c rfl).symm.trans hc) (by decide)

/-- Behind a pair that is as long as it can be there is no other one. -/
theorem run_pair (hp : AlphanumericPair p) (hs : Stops alphanumeric s) :
    ∃ g, sParamRegex.run some (Match.start (printParameter p ++ s)) = some ⟨s,g⟩ := by
  refine ⟨Function.update (fun _ => none) 1 (some (printParameter p)),?_⟩
  have htext : printParameter p ++ s = p.1 ++ '=' :: (p.2 ++ s) := by
    simp only [printParameter, List.append_assoc, List.cons_append]
  have hconsumed := consumed_append (printParameter p) s (fun _ => none) fun _ => none
  rw [htext] at hconsumed
  rw [Match.start, htext, sParamRegex, plus, run, run, pairPattern, run]
  apply run_plus_longest hp.name_ne hp.name_chars
  · intro c hc
    obtain rfl : '=' = c := Option.some.inj hc
    exact equals_not_alphanumeric
  rw [run, run_char]
  apply run_plus_longest hp.value_ne hp.value_chars hs
  rw [hconsumed, run_star_none]
  · rfl
  · intro k
    apply run_eq_none
    rintro w rest hrest hw
    have hsplit : s = w ++ rest := hrest
    rw [hsplit] at hs
    exact not_pairAhead_of_stops hs (pairAhead_of_language hw)

theorem run_noPair (h : ¬ PairAhead s) : sParamRegex.run some (Match.start s) = none := by
  apply run_eq_none
  rintro w rest hrest hw
  obtain ⟨first,hfirst,others,_,rfl⟩ := Language.mem_mul.mp hw
  apply h
  rw [show s = first ++ (others ++ rest) by rw [← List.append_assoc]; exact hrest]
  exact pairAhead_of_language hfirst

/-- A search finds one pair, up to a character of another kind. -/
theorem search_eq_some (h : regexSearch sParamRegex s = some (kv,suffix)) :
    ∃ p, kv = printParameter p ∧ AlphanumericPair p := by
  obtain ⟨before,s',m,rfl,hm,rfl,rfl⟩ := regexSearch_eq_some h
  have hahead : PairAhead s' := by
    by_contra hnone
    rw [run_noPair hnone] at hm
    cases hm
  obtain ⟨p,rest,rfl,hp,hrest⟩ := exists_longest hahead
  obtain ⟨g,hrun⟩ := run_pair hp hrest
  cases hrun.symm.trans hm
  exact ⟨p,consumed_append (printParameter p) rest (fun _ => none) g,hp⟩

theorem parseParameters_none (h : regexSearch sParamRegex s = none) (b : UrlBuilder) :
    parseParameters s b = b := by
  rw [parseParameters]
  split
  · rfl
  · rename_i hsome
    cases h.symm.trans hsome

theorem parseParameters_some (h : regexSearch sParamRegex s = some (printParameter p,suffix))
    (hp : AlphanumericPair p) (b : UrlBuilder) :
    parseParameters s b = parseParameters suffix (b.addParameter p.1 p.2) := by
  have hname := equals_notMem hp.name_chars
  have hlt : p.1.length < (p.1 ++ '=' :: p.2).length := by
    rw [List.length_append, List.length_cons]
    omega
  rw [parseParameters]
  split
  · rename_i hnone
    cases hnone.symm.trans h
  · rename_i kv suffix' hsome
    cases hsome.symm.trans h
    rw [printParameter, findIdx_append hname]
    dsimp only
    rw [if_pos hlt, substr_front, substr_behind]

/-- What the loop does is decided by what the search finds. -/
theorem parseParameters_congr {s' : CharString} (h : regexSearch sParamRegex s = regexSearch sParamRegex s')
    (b : UrlBuilder) : parseParameters s b = parseParameters s' b := by
  cases hs : regexSearch sParamRegex s with
  | none => rw [parseParameters_none hs, parseParameters_none (h.symm.trans hs)]
  | some found =>
    obtain ⟨kv,suffix⟩ := found
    obtain ⟨p,rfl,hp⟩ := search_eq_some hs
    rw [parseParameters_some hs hp, parseParameters_some (h.symm.trans hs) hp]

/-- Places where no match begins are passed over. -/
theorem parseParameters_skip {x : CharString}
    (h : ∀ y z, x = y ++ z → z ≠ [] → ¬ PairAhead (z ++ s)) (b : UrlBuilder) :
    parseParameters (x ++ s) b = parseParameters s b := by
  induction x with
  | nil => rfl
  | cons c x ih =>
    have hhere : ¬ PairAhead (c :: (x ++ s)) := h [] (c :: x) rfl (List.cons_ne_nil c x)
    rw [List.cons_append, parseParameters_congr (regexSearch_skip (run_noPair hhere))]
    apply ih
    intro y z hx
    exact h (c :: y) z (congrArg (c :: ·) hx)

/-- The name in front of the first sign is all there is to a match. -/
theorem pairAhead_iff {y z : CharString} (hy : '=' ∉ y) : PairAhead (y ++ '=' :: z) ↔
    y ≠ [] ∧ (∀ c ∈ y, alphanumeric c = true) ∧ ¬ Stops alphanumeric z := by
  constructor
  · rintro ⟨⟨name,value⟩,rest,htext,hp⟩
    rw [printParameter, List.append_assoc, List.cons_append] at htext
    obtain ⟨rfl,rfl⟩ := append_cons_inj hy (equals_notMem hp.name_chars) htext
    refine ⟨hp.name_ne,hp.name_chars,fun hstops => ?_⟩
    obtain ⟨c,value,rfl⟩ := List.exists_cons_of_ne_nil hp.value_ne
    have hc := hp.value_chars c List.mem_cons_self
    exact absurd ((hstops c rfl).symm.trans hc) (by decide)
  · rintro ⟨hne,hchars,hstops⟩
    cases z with
    | nil => exact absurd (fun _ h => nomatch h) hstops
    | cons c z =>
      have hc : alphanumeric c = true := by
        by_contra hc
        apply hstops
        intro c' hc'
        cases hc'
        exact Bool.eq_false_of_not_eq_true hc
      refine ⟨(y,[c]),z,by simp [printParameter],hne,List.cons_ne_nil _ _,hchars,?_⟩
      exact List.forall_mem_singleton.mpr hc

/-- Where the first sign is behind the next separator, or missing, no match begins. -/
theorem not_pairAhead_of_separated {z t : CharString} (hz : '=' ∉ z)
    (ht : ∀ c ∈ t.head?, c = '&') : ¬ PairAhead (z ++ t) := by
  rintro ⟨⟨name,value⟩,rest,htext,hp⟩
  rw [printParameter, List.append_assoc, List.cons_append] at htext
  rcases List.append_eq_append_iff.mp htext with ⟨w,hname,hw⟩ | ⟨w,hz',hw⟩
  · dsimp only at hname
    cases w with
    | nil =>
      rw [List.nil_append] at hw
      exact absurd (ht '=' (by rw [hw]; rfl)) (by decide)
    | cons c w =>
      obtain rfl := ht c (by rw [hw]; rfl)
      have hmem : '&' ∈ name := hname ▸ List.mem_append_right _ List.mem_cons_self
      exact absurd (hp.name_chars '&' hmem) (by decide)
  · cases w with
    | nil =>
      rw [List.nil_append] at hw
      exact absurd (ht '=' (by rw [← hw]; rfl)) (by decide)
    | cons c w =>
      obtain ⟨rfl,_⟩ := List.cons.inj hw
      exact hz (hz' ▸ List.mem_append_right _ List.mem_cons_self)

/-- What is found of a parameter: the end of its name and the beginning of its value. -/
def trim (p : CharString × CharString) : Option (CharString × CharString) :=
  if p.1.rtakeWhile alphanumeric = [] ∨ p.2.takeWhile alphanumeric = [] then none
  else some (p.1.rtakeWhile alphanumeric,p.2.takeWhile alphanumeric)

theorem alphanumericPair_of_trim {q : CharString × CharString} (h : trim p = some q) :
    AlphanumericPair q := by
  unfold trim at h
  split at h
  · cases h
  · rename_i hne
    cases h
    rw [not_or] at hne
    exact ⟨hne.1,hne.2,fun _ => List.mem_rtakeWhile_imp,fun _ => List.mem_takeWhile_imp⟩

/-- What is cut off is what is in front of the name and behind the value. -/
theorem eq_append_of_trim {q : CharString × CharString} (h : trim p = some q) :
    p.1 = p.1.rdropWhile alphanumeric ++ q.1 ∧ p.2 = q.2 ++ p.2.dropWhile alphanumeric := by
  unfold trim at h
  split at h
  · cases h
  · cases h
    exact ⟨List.rdropWhile_append_rtakeWhile.symm,List.takeWhile_append_dropWhile.symm⟩

theorem trim_alphanumeric (hp : AlphanumericPair p) : trim p = some p := by
  have hname : p.1.rtakeWhile alphanumeric = p.1 := List.rtakeWhile_eq_self_iff.mpr hp.name_chars
  have hvalue : p.2.takeWhile alphanumeric = p.2 := List.takeWhile_eq_self_iff.mpr hp.value_chars
  rw [trim, hname, hvalue, if_neg (not_or.mpr ⟨hp.name_ne,hp.value_ne⟩)]

section Parameter
variable {t : CharString}

theorem stops_ampersand (ht : ∀ c ∈ t.head?, c = '&') : Stops alphanumeric t := by
  intro c hc
  rw [ht c hc]
  decide

theorem stops_append {w : CharString} (hw : Stops alphanumeric w) (ht : ∀ c ∈ t.head?, c = '&') :
    Stops alphanumeric (w ++ t) := by
  cases w with
  | nil => exact stops_ampersand ht
  | cons c w => exact hw

theorem not_forall_of_rdropWhile {chars : Char → Bool} {w y z : CharString}
    (h : w.rdropWhile chars = y ++ z) (hne : z ≠ []) : ¬ ∀ c ∈ z, chars c = true := by
  intro hchars
  have hwne : w.rdropWhile chars ≠ [] := by
    rw [h]
    exact List.append_ne_nil_of_right_ne_nil y hne
  have hlast : (w.rdropWhile chars).getLast hwne = z.getLast hne := by
    rw [List.getLast_congr hwne (h ▸ hwne) h, List.getLast_append_of_ne_nil _ hne]
  apply List.rdropWhile_last_not chars w hwne
  rw [hlast]
  exact hchars _ (List.getLast_mem hne)

/-- A pair begins in a parameter only if the end of its name and the beginning of its value are
alphanumeric. -/
theorem not_pairAhead_of_trim (hname : '=' ∉ p.1) (ht : ∀ c ∈ t.head?, c = '&') (h : trim p = none)
    {y w : CharString} (hw : p.1 = y ++ w) : ¬ PairAhead (w ++ '=' :: (p.2 ++ t)) := by
  intro hahead
  have hwname : '=' ∉ w := fun hmem => hname (hw ▸ List.mem_append_right y hmem)
  obtain ⟨hne,hchars,hstops⟩ := (pairAhead_iff hwname).mp hahead
  have hends : p.1.rtakeWhile alphanumeric = [] ∨ p.2.takeWhile alphanumeric = [] := by
    by_contra hends
    rw [trim, if_neg hends] at h
    cases h
  rcases hends with hends | hbegins
  · have hwhole : p.1.rdropWhile alphanumeric = y ++ w := by
      have happend := List.rdropWhile_append_rtakeWhile (l := p.1) (p := alphanumeric)
      rw [hends, List.append_nil] at happend
      exact happend.trans hw
    exact not_forall_of_rdropWhile hwhole hne hchars
  · apply hstops
    refine stops_append ?_ ht
    intro c hc
    by_contra halpha
    have hcons : p.2 = c :: p.2.tail := List.eq_cons_of_mem_head? hc
    rw [hcons, List.takeWhile_cons_of_pos (Bool.eq_true_of_not_eq_false halpha)] at hbegins
    cases hbegins

/-- Nothing is found of such a parameter. -/
theorem parseParameters_nothing (hname : '=' ∉ p.1) (hvalue : '=' ∉ p.2) (ht : ∀ c ∈ t.head?, c = '&')
    (h : trim p = none) (b : UrlBuilder) : parseParameters (printParameter p ++ t) b = parseParameters t b := by
  apply parseParameters_skip
  intro y z hyz hne
  rcases List.append_eq_append_iff.mp hyz with ⟨w,_,hw⟩ | ⟨w,hy,rfl⟩
  · cases w with
    | nil =>
      rw [List.nil_append] at hw
      rw [← hw]
      exact not_pairAhead_of_trim hname ht h (List.append_nil p.1).symm
    | cons c w =>
      obtain ⟨_,hw⟩ := List.cons.inj hw
      exact not_pairAhead_of_separated (fun hmem => hvalue (hw ▸ List.mem_append_right w hmem)) ht
  · rw [List.append_assoc]
    exact not_pairAhead_of_trim hname ht h hy

/-- What is found of any other one is what it is trimmed to. -/
theorem parseParameters_found (hname : '=' ∉ p.1) (hvalue : '=' ∉ p.2) (ht : ∀ c ∈ t.head?, c = '&')
    {q : CharString × CharString} (h : trim p = some q) (b : UrlBuilder) :
    parseParameters (printParameter p ++ t) b = parseParameters t (b.addParameter q.1 q.2) := by
  have hq := alphanumericPair_of_trim h
  let front := p.1.rdropWhile alphanumeric
  let behind := p.2.dropWhile alphanumeric
  obtain ⟨hfront : p.1 = front ++ q.1,hbehind : p.2 = q.2 ++ behind⟩ := eq_append_of_trim h
  have htext : printParameter p ++ t = front ++ (printParameter q ++ (behind ++ t)) := by
    rw [printParameter, hfront, hbehind]
    simp only [printParameter, List.append_assoc, List.cons_append]
  have hsearch : ∃ g, sParamRegex.run some (Match.start (printParameter q ++ (behind ++ t))) =
      some ⟨behind ++ t,g⟩ := run_pair hq (stops_append (stops_dropWhile alphanumeric p.2) ht)
  obtain ⟨g,hrun⟩ := hsearch
  have hhere := regexSearch_here hrun
  rw [Match.start, consumed_append] at hhere
  rw [htext, parseParameters_skip, parseParameters_some hhere hq, parseParameters_skip]
  · intro y z hyz _
    exact not_pairAhead_of_separated
      (fun hmem => hvalue (hbehind ▸ List.mem_append_right _ (hyz ▸ List.mem_append_right y hmem))) ht
  · intro y z hyz hne hahead
    rw [printParameter, List.append_assoc, List.cons_append, ← List.append_assoc] at hahead
    have hmem : '=' ∉ z ++ q.1 := by
      intro hmem
      apply hname
      rw [hfront, hyz, List.append_assoc]
      exact List.mem_append_right y hmem
    obtain ⟨_,hchars,_⟩ := (pairAhead_iff hmem).mp hahead
    exact not_forall_of_rdropWhile hyz hne fun c hc => hchars c (List.mem_append_left _ hc)

end Parameter

section Parameters
variable {ps : List (CharString × CharString)} {m : Parameters} {name value : CharString}

/-- The parameters behind the first one, each with its separator. -/
def queryTail (ps : List (CharString × CharString)) : CharString :=
  ps.flatMap fun p => '&' :: printParameter p

/-- `k1=v1&...&kn=vn`. -/
def queryText : List (CharString × CharString) → CharString
  | [] => []
  | p :: ps => printParameter p ++ queryTail ps

/-- The text of the parameters, where there are any. -/
def queryOf : List (CharString × CharString) → Option CharString
  | [] => none
  | p :: ps => some (queryText (p :: ps))

theorem queryOf_getD (ps : List (CharString × CharString)) : (queryOf ps).getD [] = queryText ps := by
  cases ps with
  | nil => rfl
  | cons p ps => rfl

theorem foldl_printParameter (str : CharString) (ps : List (CharString × CharString)) :
    ps.foldl (fun str p => str ++ ['&'] ++ printParameter p) str = str ++ queryTail ps := by
  induction ps generalizing str with
  | nil => exact (List.append_nil str).symm
  | cons p ps ih =>
    rw [List.foldl_cons, ih]
    simp only [queryTail, List.flatMap_cons, List.append_assoc, List.cons_append, List.nil_append]

theorem queryTail_head (ps : List (CharString × CharString)) : ∀ c ∈ (queryTail ps).head?, c = '&' := by
  cases ps with
  | nil => exact fun _ h => nomatch h
  | cons p ps => exact fun _ h => (Option.some.inj h).symm

theorem mem_queryTail {c : Char} (h : c ∈ queryTail ps) : c = '&' ∨ ∃ p ∈ ps, c ∈ printParameter p := by
  obtain ⟨p,hp,hc⟩ := List.mem_flatMap.mp h
  exact (List.mem_cons.mp hc).imp_right fun hc => ⟨p,hp,hc⟩

theorem mem_queryText {c : Char} (h : c ∈ queryText ps) : c = '&' ∨ ∃ p ∈ ps, c ∈ printParameter p := by
  cases ps with
  | nil => cases h
  | cons p ps =>
    rcases List.mem_append.mp h with hc | hc
    · exact Or.inr ⟨p,List.mem_cons_self,hc⟩
    · exact (mem_queryTail hc).imp_right fun ⟨q,hq,hc⟩ => ⟨q,List.mem_cons_of_mem p hq,hc⟩

theorem mem_printParameter {c : Char} {p : CharString × CharString} (h : c ∈ printParameter p) :
    c = '=' ∨ c ∈ p.1 ++ p.2 := by
  rcases List.mem_append.mp h with hc | hc
  · exact Or.inr (List.mem_append_left _ hc)
  · exact (List.mem_cons.mp hc).imp_right fun hc => List.mem_append_right _ hc

/-- A text of parameters that avoid the sign of a fragment is a query. -/
theorem queryChar_queryText (h : ∀ p ∈ ps, '#' ∉ p.1 ++ p.2) : ∀ c ∈ queryText ps, queryChar c = true := by
  intro c hc
  apply noneOf_eq_true.mpr
  rw [List.mem_singleton]
  rintro rfl
  obtain hamp | ⟨p,hp,hc⟩ := mem_queryText hc
  · exact absurd hamp (by decide)
  · exact (mem_printParameter hc).elim (fun hsign => absurd hsign (by decide)) (h p hp)

theorem queryTail_cons (p : CharString × CharString) (ps : List (CharString × CharString)) :
    queryTail (p :: ps) = '&' :: (p.1 ++ '=' :: (p.2 ++ queryTail ps)) := by
  simp only [queryTail, List.flatMap_cons, printParameter, List.append_assoc, List.cons_append]

/-- Alphanumeric parameters can be told from their text. -/
theorem queryTail_inj {qs : List (CharString × CharString)} (hps : ∀ p ∈ ps, AlphanumericPair p)
    (hqs : ∀ q ∈ qs, AlphanumericPair q) (h : queryTail ps = queryTail qs) : ps = qs := by
  induction ps generalizing qs with
  | nil =>
    cases qs with
    | nil => rfl
    | cons q qs => cases h
  | cons p ps ih =>
    cases qs with
    | nil => cases h
    | cons q qs =>
      obtain ⟨hp,hps⟩ := List.forall_mem_cons.mp hps
      obtain ⟨hq,hqs⟩ := List.forall_mem_cons.mp hqs
      have hstops : ∀ rs, Stops alphanumeric (queryTail rs) := fun rs => stops_ampersand (queryTail_head rs)
      rw [queryTail_cons, queryTail_cons] at h
      have htext := (List.cons.inj h).2
      obtain ⟨hname,hbehind⟩ := append_cons_inj (equals_notMem hp.name_chars) (equals_notMem hq.name_chars) htext
      have hvalue : p.2 = q.2 := by
        have htake := congrArg (List.takeWhile alphanumeric) hbehind
        rwa [takeWhile_of_stops hp.value_chars (hstops ps), takeWhile_of_stops hq.value_chars (hstops qs)]
          at htake
      rw [hvalue] at hbehind
      rw [Prod.ext hname hvalue, ih hps hqs (List.append_cancel_left hbehind)]

theorem queryOf_inj {qs : List (CharString × CharString)} (hps : ∀ p ∈ ps, AlphanumericPair p)
    (hqs : ∀ q ∈ qs, AlphanumericPair q) (h : queryOf ps = queryOf qs) : ps = qs := by
  cases ps with
  | nil =>
    cases qs with
    | nil => rfl
    | cons q qs => cases h
  | cons p ps =>
    cases qs with
    | nil => cases h
    | cons q qs => exact queryTail_inj hps hqs (congrArg ('&' :: ·) (Option.some.inj h))

theorem queryChar_queryOf (h : ∀ p ∈ ps, AlphanumericPair p) {w : CharString} (hw : queryOf ps = some w) :
    ∀ c ∈ w, queryChar c = true := by
  have htext : w = queryText ps := by
    rw [← queryOf_getD, hw]
    rfl
  rw [htext]
  apply queryChar_queryText
  intro p hp hmem
  rcases List.mem_append.mp hmem with hmem | hmem
  · exact absurd ((h p hp).name_chars '#' hmem) (by decide)
  · exact absurd ((h p hp).value_chars '#' hmem) (by decide)

def addParameters (ps : List (CharString × CharString)) (b : UrlBuilder) : UrlBuilder :=
  ps.foldl (fun b p => b.addParameter p.1 p.2) b

def insertParameters (ps : List (CharString × CharString)) (m : Parameters) : Parameters :=
  ps.foldl (fun m p => m.insert p.1 p.2) m

theorem addParameters_url (ps : List (CharString × CharString)) (b : UrlBuilder) :
    (addParameters ps b).url = { b.url with parameters := insertParameters ps b.url.parameters } := by
  induction ps generalizing b with
  | nil => rfl
  | cons p ps ih => exact ih (b.addParameter p.1 p.2)

/-- The separator in front of the first parameter makes no difference. -/
theorem parseParameters_queryTail (ps : List (CharString × CharString)) (b : UrlBuilder) :
    parseParameters (queryTail ps) b = parseParameters (queryText ps) b := by
  cases ps with
  | nil => rfl
  | cons p ps =>
    apply parseParameters_congr
    apply regexSearch_skip
    exact run_noPair (not_pairAhead_of_stops (stops_ampersand (queryTail_head (p :: ps))))

/-- Of each parameter that can be found the loop adds what it is trimmed to. -/
theorem parseParameters_queryText (h : ∀ p ∈ ps, '=' ∉ p.1 ∧ '=' ∉ p.2) (b : UrlBuilder) :
    parseParameters (queryText ps) b = addParameters (ps.filterMap trim) b := by
  induction ps generalizing b with
  | nil => exact parseParameters_none rfl b
  | cons p ps ih =>
    obtain ⟨hp,hps⟩ := List.forall_mem_cons.mp h
    rw [queryText]
    cases htrim : trim p with
    | none =>
      rw [parseParameters_nothing hp.1 hp.2 (queryTail_head ps) htrim, parseParameters_queryTail, ih hps,
        List.filterMap_cons_none htrim]
    | some q =>
      rw [parseParameters_found hp.1 hp.2 (queryTail_head ps) htrim, parseParameters_queryTail, ih hps,
        List.filterMap_cons_some htrim]
      rfl

/-- Whatever the query is, alphanumeric parameters are all that is added. -/
theorem exists_parameters (s : CharString) : ∃ ps, (∀ p ∈ ps, AlphanumericPair p) ∧
    ∀ b, parseParameters s b = addParameters ps b := by
  induction hlength : s.length using Nat.strong_induction_on generalizing s with
  | _ n ih =>
    cases hsearch : regexSearch sParamRegex s with
    | none => exact ⟨[],by simp,parseParameters_none hsearch⟩
    | some found =>
      obtain ⟨kv,suffix⟩ := found
      obtain ⟨p,rfl,hp⟩ := search_eq_some hsearch
      obtain ⟨ps,hps,hadd⟩ := ih suffix.length (hlength ▸ pair_shorter hsearch) suffix rfl
      refine ⟨p :: ps,List.forall_mem_cons.mpr ⟨hp,hps⟩,fun b => ?_⟩
      rw [parseParameters_some hsearch hp, hadd]
      rfl

theorem mem_of_lookup_insertParameters (h : (insertParameters ps m).lookup name = some value) :
    (name,value) ∈ ps ∨ m.lookup name = some value := by
  induction ps generalizing m with
  | nil => exact Or.inr h
  | cons p ps ih =>
    rcases ih h with hmem | hlookup
    · exact Or.inl (List.mem_cons_of_mem p hmem)
    · by_cases hname : name = p.1
      · subst hname
        rw [AList.lookup_insert] at hlookup
        cases hlookup
        exact Or.inl List.mem_cons_self
      · rw [AList.lookup_insert_ne hname] at hlookup
        exact Or.inr hlookup

theorem lookup_insertParameters_of_notMem (h : name ∉ ps.map Prod.fst) :
    (insertParameters ps m).lookup name = m.lookup name := by
  induction ps generalizing m with
  | nil => rfl
  | cons p ps ih =>
    rw [List.map_cons, List.mem_cons, not_or] at h
    exact (ih h.2).trans (AList.lookup_insert_ne h.1)

/-- With distinct names the map holds just the parameters that were added. -/
theorem lookup_insertParameters (hps : (ps.map Prod.fst).Nodup) :
    (insertParameters ps ∅).lookup name = some value ↔ (name,value) ∈ ps := by
  constructor
  · intro h
    exact (mem_of_lookup_insertParameters h).resolve_right (by rw [AList.lookup_empty]; exact nofun)
  · generalize (∅ : Parameters) = m
    intro hmem
    induction ps generalizing m with
    | nil => cases hmem
    | cons p ps ih =>
      rw [List.map_cons, List.nodup_cons] at hps
      rcases List.mem_cons.mp hmem with rfl | hmem
      · exact (lookup_insertParameters_of_notMem hps.1).trans (AList.lookup_insert m)
      · exact ih hps.2 _ hmem

end Parameters

end Url

end Isml.Net
