import Isml.Net.Url

/-! # The parts of a URL

`Url::s_regex` cuts a string into the parts RFC 3986 gives it: the backtracking never has a
choice that matters. Only a fragment with the end of a line in it is not matched.
-/
namespace Isml.Net
open Regex Regex.Pattern Url

/-- A part that may be missing, with the characters in front of it. -/
def delimited (before : CharString) : Option CharString → CharString
  | none => []
  | some w => before ++ w

theorem delimited_inj {c : Char} {a b : Option CharString} (h : delimited [c] a = delimited [c] b) : a = b := by
  cases a with
  | none =>
    cases b with
    | none => rfl
    | some w => cases h
  | some v =>
    cases b with
    | none => cases h
    | some w => exact congrArg some (List.append_cancel_left h)

def schemeText : Option CharString → CharString
  | none => []
  | some w => w ++ [':']

/-- The parts of a string, each free of the characters that end it. -/
structure UrlParts where
  scheme : Option CharString
  authority : Option CharString
  path : CharString
  query : Option CharString
  fragment : Option CharString
  scheme_chars : ∀ w ∈ scheme, w ≠ [] ∧ ∀ c ∈ w, schemeChar c = true
  scheme_absent : scheme = none → ∀ w s, delimited ['/', '/'] authority ++
    (path ++ (delimited ['?'] query ++ delimited ['#'] fragment)) = w ++ s → w ∉ schemePattern.language
  authority_chars : ∀ w ∈ authority, ∀ c ∈ w, authorityChar c = true
  authority_absent : authority = none → ¬ ['/', '/'] <+: path
  path_chars : ∀ c ∈ path, pathChar c = true
  path_rooted : authority ≠ none → ∀ c ∈ path.head?, c = '/'
  query_chars : ∀ w ∈ query, ∀ c ∈ w, queryChar c = true

namespace UrlParts

/-- The text behind the scheme. -/
def relativeText (p : UrlParts) : CharString := delimited ['/', '/'] p.authority ++
  (p.path ++ (delimited ['?'] p.query ++ delimited ['#'] p.fragment))

def text (p : UrlParts) : CharString := schemeText p.scheme ++ p.relativeText

/-- There is no end of a line in the fragment. -/
def OneLine (p : UrlParts) : Prop := ∀ w ∈ p.fragment, ∀ c ∈ w, anyChar c = true

end UrlParts

section Match
variable {β : Type} {k : Match Char → Option β} {x : β} {s w : CharString}
  {g : ℕ → Option CharString} {chars : Char → Bool}

/-- A group with the given characters and another group behind them. -/
def delimitedPattern (n : ℕ) (before : CharString) (chars : Char → Bool) : Pattern Char :=
  .group n (literal before (.group (n + 1) (.star (.oneOf chars))))

theorem authorityPattern_eq : authorityPattern = delimitedPattern 3 ['/', '/'] authorityChar := rfl

theorem queryPattern_eq : queryPattern = delimitedPattern 6 ['?'] queryChar := rfl

theorem fragmentPattern_eq : fragmentPattern = delimitedPattern 8 ['#'] anyChar := rfl

/-- The groups after an optional part. -/
def captured (n : ℕ) (before : CharString) (g : ℕ → Option CharString) :
    Option CharString → ℕ → Option CharString
  | none => g
  | some w => Function.update (Function.update g (n + 1) (some w)) n (some (before ++ w))

/-- An optional part is matched if it is there. -/
theorem run_delimited {n : ℕ} {c : Char} {before : CharString} {part : Option CharString}
    (hchars : ∀ w ∈ part, ∀ c ∈ w, chars c = true) (hstops : part ≠ none → Stops chars s)
    (habsent : part = none → ¬ c :: before <+: s)
    (hk : k ⟨s,captured n (c :: before) g part⟩ = some x) :
    (optional (delimitedPattern n (c :: before) chars)).run k ⟨delimited (c :: before) part ++ s,g⟩ =
      some x := by
  cases part with
  | none =>
    rw [delimited, List.nil_append, run_optional_none]
    · exact hk
    · intro k
      rw [delimitedPattern, run]
      exact run_literal_none (habsent rfl)
  | some w =>
    apply run_optional_some
    rw [delimitedPattern, run, delimited, List.append_assoc, run_literal]
    apply run_group_longest (hchars w rfl) (hstops (Option.some_ne_none w))
    have hconsumed := consumed_append (c :: before ++ w) s g (Function.update g (n + 1) (some w))
    rw [List.append_assoc] at hconsumed
    rw [advancing_of_lt]
    · simpa only [Match.capture, captured, hconsumed] using hk
    · simp only [Match.capture, List.cons_append, List.length_cons, List.length_append]
      omega

/-- The groups after the scheme. -/
def capturedScheme (g : ℕ → Option CharString) : Option CharString → ℕ → Option CharString
  | none => g
  | some w => Function.update (Function.update g 2 (some w)) 1 (some (w ++ [':']))

theorem run_scheme {part : Option CharString}
    (hchars : ∀ w ∈ part, w ≠ [] ∧ ∀ c ∈ w, schemeChar c = true)
    (habsent : part = none → ∀ w r, s = w ++ r → w ∉ schemePattern.language)
    (hk : k ⟨s,capturedScheme g part⟩ = some x) :
    (optional schemePattern).run k ⟨schemeText part ++ s,g⟩ = some x := by
  cases part with
  | none =>
    rw [schemeText, List.nil_append, run_optional_none]
    · exact hk
    · intro k
      exact run_eq_none (habsent rfl)
  | some w =>
    obtain ⟨hne,hw⟩ := hchars w rfl
    apply run_optional_some
    rw [schemePattern, run, run, run, schemeText, List.append_assoc]
    apply run_plus_longest hne hw
    · intro c hc
      obtain rfl : ':' = c := Option.some.inj hc
      decide
    · have hname := consumed_append w ([':'] ++ s) g g
      have htext := consumed_append (w ++ [':']) s g (Function.update g 2 (some w))
      rw [List.append_assoc, List.singleton_append] at htext
      rw [hname, Match.capture, List.singleton_append, run_char, advancing_of_lt]
      · simpa only [Match.capture, capturedScheme, htext, List.singleton_append] using hk
      · simp only [Match.capture, List.length_cons, List.length_append]
        omega

end Match

namespace UrlParts
variable (p : UrlParts)

theorem stops_delimited {chars : Char → Bool} {c : Char} (hc : chars c = false)
    (part : Option CharString) {s : CharString} (hs : Stops chars s) :
    Stops chars (delimited [c] part ++ s) := by
  cases part with
  | none => exact hs
  | some w =>
    intro c' hc'
    obtain rfl : c = c' := Option.some.inj hc'
    exact hc

theorem stops_nil (chars : Char → Bool) : Stops chars [] := fun _ h => nomatch h

/-- The groups of a match. -/
def groups : ℕ → Option CharString :=
  captured 8 ['#'] (captured 6 ['?'] (Function.update (captured 3 ['/', '/']
    (capturedScheme (fun _ => none) p.scheme) p.authority) 5 (some p.path)) p.query) p.fragment

theorem groups_eq : p.groups 2 = p.scheme ∧ p.groups 4 = p.authority ∧ p.groups 5 = some p.path ∧
    p.groups 7 = p.query := by
  unfold groups
  cases p.scheme <;> cases p.authority <;> cases p.query <;> cases p.fragment <;>
    simp [captured, capturedScheme]

theorem not_prefix_append {path s : CharString} (hpath : ¬ ['/', '/'] <+: path)
    (hs : Stops (· == '/') s) : ¬ ['/', '/'] <+: path ++ s := by
  rintro ⟨t,ht⟩
  cases path with
  | nil =>
    rw [List.nil_append] at ht
    exact absurd (hs '/' (by rw [← ht]; rfl)) (by decide)
  | cons c path =>
    cases path with
    | nil =>
      simp only [List.cons_append, List.nil_append, List.cons.injEq] at ht
      exact absurd (hs '/' (by rw [← ht.2]; rfl)) (by decide)
    | cons c' path =>
      simp only [List.cons_append, List.nil_append, List.cons.injEq] at ht
      obtain ⟨rfl,rfl,_⟩ := ht
      exact hpath ⟨path,rfl⟩

/-- Each part is what its group remembers. -/
theorem regexMatch_text (h : p.OneLine) : regexMatch sRegex p.text = some ⟨[],p.groups⟩ := by
  have hnil : delimited ['#'] p.fragment = delimited ['#'] p.fragment ++ [] := (List.append_nil _).symm
  have hfragment : ∀ chars : Char → Bool, chars '#' = false →
      Stops chars (delimited ['#'] p.fragment ++ []) := fun chars hc =>
    stops_delimited hc p.fragment (stops_nil chars)
  have hquery : ∀ chars : Char → Bool, chars '?' = false → chars '#' = false →
      Stops chars (delimited ['?'] p.query ++ (delimited ['#'] p.fragment ++ [])) :=
    fun chars hq hf => stops_delimited hq p.query (hfragment chars hf)
  rw [text, relativeText, hnil, regexMatch, sRegex, run]
  apply run_scheme p.scheme_chars
  · rw [← hnil]
    exact p.scheme_absent
  rw [run, authorityPattern_eq]
  apply run_delimited p.authority_chars
  · intro hauthority c hc
    cases hpath : p.path with
    | nil =>
      rw [hpath, List.nil_append] at hc
      exact hquery authorityChar (by decide) (by decide) c hc
    | cons c' path =>
      rw [hpath] at hc
      obtain rfl : c' = c := Option.some.inj hc
      rw [p.path_rooted hauthority c' (by rw [hpath]; rfl)]
      decide
  · intro habsent
    exact not_prefix_append (p.authority_absent habsent) (hquery _ (by decide) (by decide))
  rw [run, pathPattern]
  apply run_group_longest p.path_chars (hquery pathChar (by decide) (by decide))
  rw [run, queryPattern_eq]
  apply run_delimited p.query_chars
  · exact fun _ => hfragment queryChar (by decide)
  · rintro _ ⟨t,ht⟩
    exact absurd (hfragment (· == '?') (by decide) '?' (by rw [← ht]; rfl)) (by decide)
  rw [fragmentPattern_eq]
  apply run_delimited h
  · exact fun _ => stops_nil anyChar
  · rintro _ ⟨t,ht⟩
    cases ht
  rfl

/-- What is in front of the fragment. -/
def front : CharString := schemeText p.scheme ++
  (delimited ['/', '/'] p.authority ++ (p.path ++ delimited ['?'] p.query))

theorem text_eq : p.text = p.front ++ delimited ['#'] p.fragment := by
  simp only [text, relativeText, front, List.append_assoc]

theorem hash_notMem_delimited {chars : Char → Bool} (hc : chars '#' = false) {before : CharString}
    (hbefore : '#' ∉ before) {part : Option CharString}
    (hpart : ∀ w ∈ part, ∀ c ∈ w, chars c = true) : '#' ∉ delimited before part := by
  cases part with
  | none => exact List.not_mem_nil
  | some w =>
    rw [delimited, List.mem_append, not_or]
    refine ⟨hbefore,fun hmem => ?_⟩
    exact absurd ((hpart w rfl '#' hmem).symm.trans hc) (by decide)

theorem hash_notMem_front : '#' ∉ p.front := by
  have hscheme : '#' ∉ schemeText p.scheme := by
    cases hs : p.scheme with
    | none => exact List.not_mem_nil
    | some w =>
      rw [schemeText, List.mem_append, not_or]
      refine ⟨fun hmem => ?_,by decide⟩
      exact absurd ((p.scheme_chars w hs).2 '#' hmem) (by decide)
  have hauthority : '#' ∉ delimited ['/', '/'] p.authority :=
    hash_notMem_delimited (by decide) (by decide) p.authority_chars
  have hpath : '#' ∉ p.path := fun hmem => absurd (p.path_chars '#' hmem) (by decide)
  have hquery : '#' ∉ delimited ['?'] p.query :=
    hash_notMem_delimited (by decide) (by decide) p.query_chars
  simp only [front, List.mem_append, not_or]
  exact ⟨hscheme,hauthority,hpath,hquery⟩

/-- The expression has no way to match the end of a line behind the sign of a fragment. -/
theorem regexMatch_lineBreak (h : ¬ p.OneLine) : regexMatch sRegex p.text = none := by
  cases hmatch : regexMatch sRegex p.text with
  | none => rfl
  | some m =>
    refine absurd (fun w hw => ?_) h
    obtain ⟨a,ha,t,ht,htext⟩ := Language.mem_mul.mp (regexMatch_sound hmatch)
    obtain ⟨b,hb,u,hu,rfl⟩ := Language.mem_mul.mp ht
    obtain ⟨c,hc,v,hv,rfl⟩ := Language.mem_mul.mp hu
    obtain ⟨d,hd,e,he,rfl⟩ := Language.mem_mul.mp hv
    have ha' : '#' ∉ a := notMem_of_avoids (by decide) ha
    have hb' : '#' ∉ b := notMem_of_avoids (by decide) hb
    have hc' : '#' ∉ c := notMem_of_avoids (by decide) hc
    have hd' : '#' ∉ d := notMem_of_avoids (by decide) hd
    have habcd : '#' ∉ a ++ (b ++ (c ++ d)) := by
      simp only [List.mem_append, not_or]
      exact ⟨ha',hb',hc',hd'⟩
    rw [p.text_eq, hw, delimited, List.singleton_append] at htext
    rcases he with rfl | he
    · rw [List.append_nil] at htext
      exact absurd (htext ▸ List.mem_append_right p.front List.mem_cons_self) habcd
    · obtain ⟨sign,hsign,f,hf,rfl⟩ := Language.mem_mul.mp he
      have hsplit : (a ++ (b ++ (c ++ d))) ++ '#' :: f = p.front ++ '#' :: w := by
        rw [mem_language_char hsign] at htext
        simpa only [List.append_assoc, List.singleton_append] using htext
      obtain ⟨_,rfl⟩ := append_cons_inj habcd p.hash_notMem_front hsplit
      exact mem_language_star hf

end UrlParts

section Split
variable (before : CharString) (chars : Char → Bool) (s : CharString)

/-- A run of the characters and a colon in front of the string, and what is behind them. -/
def splitScheme : Option CharString × CharString :=
  if s.takeWhile schemeChar ≠ [] ∧ (s.dropWhile schemeChar).head? = some ':' then
    (some (s.takeWhile schemeChar),(s.dropWhile schemeChar).tail)
  else (none,s)

/-- A run of the characters behind the given ones, and what is behind that. -/
def splitDelimited : Option CharString × CharString :=
  if before <+: s then
    (some ((s.drop before.length).takeWhile chars),(s.drop before.length).dropWhile chars)
  else (none,s)

theorem splitDelimited_text :
    delimited before (splitDelimited before chars s).1 ++ (splitDelimited before chars s).2 = s := by
  unfold splitDelimited
  split
  · rename_i h
    obtain ⟨t,rfl⟩ := h
    simp only [delimited, List.drop_left, List.append_assoc, List.takeWhile_append_dropWhile]
  · rfl

theorem splitDelimited_some {w : CharString} (h : (splitDelimited before chars s).1 = some w) :
    (∀ c ∈ w, chars c = true) ∧ Stops chars (splitDelimited before chars s).2 := by
  unfold splitDelimited at h ⊢
  split at h
  · rename_i hbefore
    rw [if_pos hbefore]
    cases h
    exact ⟨fun c => List.mem_takeWhile_imp,stops_dropWhile chars _⟩
  · cases h

theorem splitDelimited_none (h : (splitDelimited before chars s).1 = none) :
    ¬ before <+: s ∧ (splitDelimited before chars s).2 = s := by
  unfold splitDelimited at h ⊢
  split at h
  · cases h
  · rename_i hbefore
    rw [if_neg hbefore]
    exact ⟨hbefore,rfl⟩

theorem splitScheme_some {w : CharString} (h : (splitScheme s).1 = some w) :
    s = w ++ ':' :: (splitScheme s).2 ∧ w ≠ [] ∧ ∀ c ∈ w, schemeChar c = true := by
  unfold splitScheme at h ⊢
  split at h
  · rename_i hcond
    rw [if_pos hcond]
    cases h
    refine ⟨?_,hcond.1,fun c => List.mem_takeWhile_imp⟩
    calc s = s.takeWhile schemeChar ++ s.dropWhile schemeChar := List.takeWhile_append_dropWhile.symm
      _ = _ := by rw [List.eq_cons_of_mem_head? hcond.2]; rfl
  · cases h

/-- Without the run and the colon no scheme can be matched. -/
theorem splitScheme_none (h : (splitScheme s).1 = none) :
    (splitScheme s).2 = s ∧ ∀ w t, s = w ++ t → w ∉ schemePattern.language := by
  unfold splitScheme at h ⊢
  split at h
  · cases h
  · rename_i hcond
    rw [if_neg hcond]
    refine ⟨rfl,?_⟩
    rintro w t rfl hw
    obtain ⟨name,hname,colon,hcolon,rfl⟩ := Language.mem_mul.mp hw
    obtain ⟨hne,hchars⟩ := mem_language_plus hname
    have hstop : schemeChar ':' = false := by decide
    apply hcond
    rw [mem_language_char hcolon, List.append_assoc, List.takeWhile_append_of_pos hchars,
      List.dropWhile_append_of_pos hchars]
    simp [hstop, hne]

end Split

namespace UrlParts
variable (s : CharString)

def behindAuthority : CharString := (splitDelimited ['/', '/'] authorityChar (splitScheme s).2).2

def behindPath : CharString := (behindAuthority s).dropWhile pathChar

def behindQuery : CharString := (splitDelimited ['?'] queryChar (behindPath s)).2

theorem stops_behindQuery : Stops queryChar (behindQuery s) := by
  cases hquery : (splitDelimited ['?'] queryChar (behindPath s)).1 with
  | some w => exact (splitDelimited_some _ _ _ hquery).2
  | none =>
    obtain ⟨hbefore,hrest⟩ := splitDelimited_none _ _ _ hquery
    rw [behindQuery, hrest]
    intro c hc
    have hmem : c ∈ ['?', '#'] := noneOf_eq_false.mp (stops_dropWhile pathChar (behindAuthority s) c hc)
    rcases List.mem_cons.mp hmem with rfl | hmem
    · exact absurd (List.eq_cons_of_mem_head? hc ▸ List.cons_prefix_cons.mpr ⟨rfl,List.nil_prefix⟩)
        hbefore
    · exact noneOf_eq_false.mpr hmem

theorem behindQuery_text : delimited ['#'] (splitDelimited ['#'] (fun _ => true) (behindQuery s)).1 =
    behindQuery s := by
  cases hrest : behindQuery s with
  | nil => rfl
  | cons c rest =>
    have hc : c ∈ ['#'] := noneOf_eq_false.mp (stops_behindQuery s c (by rw [hrest]; rfl))
    obtain rfl := List.mem_singleton.mp hc
    have hall : rest.takeWhile (fun _ => true) = rest := List.takeWhile_eq_self_iff.mpr fun _ _ => rfl
    rw [splitDelimited, if_pos (List.cons_prefix_cons.mpr ⟨rfl,List.nil_prefix⟩)]
    exact congrArg ('#' :: ·) hall

theorem behindAuthority_text :
    (behindAuthority s).takeWhile pathChar ++ (delimited ['?'] (splitDelimited ['?'] queryChar
      (behindPath s)).1 ++ behindQuery s) = behindAuthority s := by
  rw [behindQuery, splitDelimited_text, behindPath, List.takeWhile_append_dropWhile]

/-- The parts of a string. -/
def ofString : UrlParts where
  scheme := (splitScheme s).1
  authority := (splitDelimited ['/', '/'] authorityChar (splitScheme s).2).1
  path := (behindAuthority s).takeWhile pathChar
  query := (splitDelimited ['?'] queryChar (behindPath s)).1
  fragment := (splitDelimited ['#'] (fun _ => true) (behindQuery s)).1
  scheme_chars w hw := (splitScheme_some s hw).2
  scheme_absent habsent := by
    obtain ⟨hrest,hlanguage⟩ := splitScheme_none s habsent
    rw [behindQuery_text, behindAuthority_text, behindAuthority, splitDelimited_text, hrest]
    exact hlanguage
  authority_chars w hw := (splitDelimited_some _ _ _ hw).1
  authority_absent habsent := by
    obtain ⟨hbefore,hrest⟩ := splitDelimited_none _ _ _ habsent
    rw [behindAuthority, hrest]
    exact fun h => hbefore (h.trans (List.takeWhile_prefix _))
  path_chars c := List.mem_takeWhile_imp
  path_rooted hpresent := by
    obtain ⟨w,hw⟩ := Option.ne_none_iff_exists'.mp hpresent
    intro c hc
    rw [List.head?_takeWhile, Option.mem_filter_iff] at hc
    have hmem : c ∈ ['/', '?', '#'] := noneOf_eq_false.mp ((splitDelimited_some _ _ _ hw).2 c hc.1)
    exact (List.mem_cons.mp hmem).resolve_right (noneOf_eq_true.mp hc.2)
  query_chars w hw := (splitDelimited_some _ _ _ hw).1

theorem text_ofString : (ofString s).text = s := by
  have hrelative : (ofString s).relativeText = (splitScheme s).2 := by
    rw [relativeText, ofString, behindQuery_text, behindAuthority_text]
    exact splitDelimited_text ['/', '/'] authorityChar (splitScheme s).2
  rw [text, hrelative]
  cases hscheme : (splitScheme s).1 with
  | none =>
    have hnone : (ofString s).scheme = none := hscheme
    rw [hnone, (splitScheme_none s hscheme).1]
    rfl
  | some w =>
    have hsome : (ofString s).scheme = some w := hscheme
    rw [hsome, schemeText, List.append_assoc]
    exact (splitScheme_some s hscheme).1.symm

end UrlParts

end Isml.Net
