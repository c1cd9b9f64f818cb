import Mathlib.Computability.Language

/-! # Regular expressions with groups, matched by backtracking

What follows a part of the pattern is given to it as a continuation. The alternatives of a part
are tried in order, a repetition as often as it can be first, and the first success counts. An
iteration that consumes nothing is no alternative. An implementation may run out of stack or give up
on a long string; that is left out.
-/
namespace Regex

variable {α β : Type*}

inductive Pattern (α : Type*)
  | oneOf (p : α → Bool)
  | seq (r s : Pattern α)
  | optional (r : Pattern α)
  | star (r : Pattern α)
  | group (n : ℕ) (r : Pattern α)

def Pattern.plus (r : Pattern α) : Pattern α := .seq r (.star r)

def Pattern.char [BEq α] (c : α) : Pattern α := .oneOf fun c' => c' == c

/-- The characters one after the other, and then the pattern. -/
def Pattern.literal [BEq α] : List α → Pattern α → Pattern α
  | [],r => r
  | c :: cs,r => .seq (.char c) (literal cs r)

/-- What is left of the input, and the last text of each group. -/
structure Match (α : Type*) where
  rest : List α
  groups : ℕ → Option (List α)

def Match.start (s : List α) : Match α := ⟨s,fun _ => none⟩

/-- What was consumed on the way from the one to the other. -/
def consumed (m m' : Match α) : List α := m.rest.take (m.rest.length - m'.rest.length)

def Match.capture (n : ℕ) (text : List α) (m : Match α) : Match α :=
  { m with groups := Function.update m.groups n (some text) }

/-- Only what is shorter than before is passed on. -/
def advancing (k : Match α → Option β) (m m' : Match α) : Option β :=
  if m'.rest.length < m.rest.length then k m' else none

def iterate (body : (Match α → Option β) → Match α → Option β) (k : Match α → Option β) :
    ℕ → Match α → Option β
  | 0, m => k m
  | n + 1, m => (body (advancing (iterate body k n) m) m).or (k m)

namespace Pattern

def run : Pattern α → (Match α → Option β) → Match α → Option β
  | .oneOf p, k, m =>
    match m.rest with
    | [] => none
    | c :: rest => if p c then k { m with rest := rest } else none
  | .seq r s, k, m => r.run (s.run k) m
  | .optional r, k, m => (r.run (advancing k m) m).or (k m)
  | .star r, k, m => iterate r.run k m.rest.length m
  | .group n r, k, m => r.run (fun m' => k (m'.capture n (consumed m m'))) m

/-- The texts the pattern consumes. -/
def language : Pattern α → Language α
  | .oneOf p => {w | ∃ c, w = [c] ∧ p c = true}
  | .seq r s => r.language * s.language
  | .optional r => 1 + r.language
  | .star r => KStar.kstar r.language
  | .group _ r => r.language

end Pattern

/-- The whole input has to be consumed. -/
def regexMatch (r : Pattern α) (s : List α) : Option (Match α) :=
  r.run (fun m => if m.rest.isEmpty then some m else none) (Match.start s)

/-- The first place at which the pattern matches: the text it consumes, and what is behind it. -/
def regexSearch (r : Pattern α) : List α → Option (List α × List α)
  | [] => (r.run some (Match.start [])).map fun m => (consumed (Match.start []) m,m.rest)
  | c :: s =>
    match r.run some (Match.start (c :: s)) with
    | some m => some (consumed (Match.start (c :: s)) m,m.rest)
    | none => regexSearch r s

/-- No class of the pattern has the character. -/
def Pattern.avoids (c : α) : Pattern α → Bool
  | .oneOf p => !p c
  | .seq r s => r.avoids c && s.avoids c
  | .optional r | .star r | .group _ r => r.avoids c

theorem consumed_append (w s : List α) (g g' : ℕ → Option (List α)) :
    consumed (⟨w ++ s,g⟩ : Match α) ⟨s,g'⟩ = w := by
  have hlength : (w ++ s).length - s.length = w.length := by
    rw [List.length_append]
    omega
  rw [consumed, hlength, List.take_left]

theorem advancing_of_lt {k : Match α → Option β} {m m' : Match α} (h : m'.rest.length < m.rest.length) :
    advancing k m m' = k m' := if_pos h

section Sound
variable {k : Match α → Option β} {m : Match α} {x : β}

theorem iterate_sound {L : Language α} {body : (Match α → Option β) → Match α → Option β}
    (hbody : ∀ (k : Match α → Option β) (m : Match α), body k m = some x →
      ∃ w m', m.rest = w ++ m'.rest ∧ w ∈ L ∧ k m' = some x)
    (n : ℕ) (h : iterate body k n m = some x) :
    ∃ w m', m.rest = w ++ m'.rest ∧ w ∈ KStar.kstar L ∧ k m' = some x := by
  induction n generalizing m with
  | zero => exact ⟨[],m,rfl,Language.nil_mem_kstar L,h⟩
  | succ n ih =>
    rcases Option.or_eq_some_iff.mp h with h | ⟨_,h⟩
    · obtain ⟨w,m',hm,hw,hk⟩ := hbody _ m h
      unfold advancing at hk
      split at hk
      · obtain ⟨v,m'',hm',hv,hx⟩ := ih hk
        refine ⟨w ++ v,m'',by rw [hm, hm', List.append_assoc],?_,hx⟩
        have hstar : w ++ v ∈ L * KStar.kstar L := Language.append_mem_mul hw hv
        rw [← Language.one_add_self_mul_kstar_eq_kstar]
        exact Or.inr hstar
      · cases hk
    · exact ⟨[],m,rfl,Language.nil_mem_kstar L,h⟩

/-- What a run consumes is in the language of the pattern. -/
theorem Pattern.run_sound (r : Pattern α) (h : r.run k m = some x) :
    ∃ w m', m.rest = w ++ m'.rest ∧ w ∈ r.language ∧ k m' = some x := by
  induction r generalizing k m with
  | oneOf p =>
    unfold run at h
    split at h
    · cases h
    · rename_i c rest hrest
      split at h
      · rename_i hc
        exact ⟨[c],⟨rest,m.groups⟩,hrest,⟨c,rfl,hc⟩,h⟩
      · cases h
  | seq r s hr hs =>
    obtain ⟨w,m',hm,hw,h⟩ := hr h
    obtain ⟨v,m'',hm',hv,hx⟩ := hs h
    exact ⟨w ++ v,m'',by rw [hm, hm', List.append_assoc],Language.append_mem_mul hw hv,hx⟩
  | optional r hr =>
    rcases Option.or_eq_some_iff.mp h with h | ⟨_,h⟩
    · obtain ⟨w,m',hm,hw,hk⟩ := hr h
      unfold advancing at hk
      split at hk
      · exact ⟨w,m',hm,Or.inr hw,hk⟩
      · cases hk
    · exact ⟨[],m,rfl,Or.inl rfl,h⟩
  | star r hr => exact iterate_sound (fun _ _ => hr) _ h
  | group n r hr =>
    obtain ⟨w,m',hm,hw,h⟩ := hr h
    exact ⟨w,m'.capture n (consumed m m'),hm,hw,h⟩

end Sound

theorem regexMatch_sound {r : Pattern α} {s : List α} {m : Match α} (h : regexMatch r s = some m) :
    s ∈ r.language := by
  obtain ⟨w,m',hrest,hw,hk⟩ := r.run_sound h
  split at hk
  · rename_i hempty
    rw [List.isEmpty_iff.mp hempty, List.append_nil] at hrest
    have hs : s = w := hrest
    rwa [hs]
  · cases hk

section Search
variable {r : Pattern α} {c : α} {s text suffix : List α} {m : Match α}

theorem regexSearch_here (h : r.run some (Match.start s) = some m) :
    regexSearch r s = some (consumed (Match.start s) m,m.rest) := by
  cases s with
  | nil =>
    rw [regexSearch, h]
    rfl
  | cons c s => rw [regexSearch, h]

theorem regexSearch_skip (h : r.run some (Match.start (c :: s)) = none) :
    regexSearch r (c :: s) = regexSearch r s := by
  rw [regexSearch, h]

/-- What a search finds was matched at some place. -/
theorem regexSearch_eq_some (h : regexSearch r s = some (text,suffix)) :
    ∃ before s' m, s = before ++ s' ∧ r.run some (Match.start s') = some m ∧
      text = consumed (Match.start s') m ∧ suffix = m.rest := by
  induction s with
  | nil =>
    obtain ⟨m,hm,hpair⟩ := Option.map_eq_some_iff.mp h
    cases hpair
    exact ⟨[],[],m,rfl,hm,rfl,rfl⟩
  | cons c s ih =>
    cases hm : r.run some (Match.start (c :: s)) with
    | some m =>
      rw [regexSearch_here hm] at h
      cases h
      exact ⟨[],c :: s,m,rfl,hm,rfl,rfl⟩
    | none =>
      rw [regexSearch_skip hm] at h
      obtain ⟨before,s',m,rfl,hm,htext,hsuffix⟩ := ih h
      exact ⟨c :: before,s',m,rfl,hm,htext,hsuffix⟩

/-- A search finds a text of the language. -/
theorem regexSearch_sound (h : regexSearch r s = some (text,suffix)) :
    ∃ before, s = before ++ (text ++ suffix) ∧ text ∈ r.language := by
  obtain ⟨before,s',m,rfl,hm,rfl,rfl⟩ := regexSearch_eq_some h
  obtain ⟨w,m',hrest,hw,hk⟩ := r.run_sound hm
  cases hk
  have htext : consumed (Match.start s') m = w := by
    rw [consumed, hrest, List.length_append, Nat.add_sub_cancel, List.take_left]
  refine ⟨before,?_,htext ▸ hw⟩
  rw [htext, ← hrest]
  rfl

end Search

namespace Pattern
variable {r : Pattern α} {p : α → Bool} {k : Match α → Option β} {m : Match α} {x : β}
  {w s : List α} {g : ℕ → Option (List α)}

theorem run_eq_none (h : ∀ w s, m.rest = w ++ s → w ∉ r.language) : r.run k m = none := by
  cases hrun : r.run k m with
  | none => rfl
  | some x =>
    obtain ⟨w,m',hm,hw,_⟩ := r.run_sound hrun
    exact absurd hw (h w m'.rest hm)

theorem run_optional_some (h : r.run (advancing k m) m = some x) :
    (optional r).run k m = some x := by
  rw [run, h, Option.some_or]

theorem run_optional_none (h : ∀ k : Match α → Option β, r.run k m = none) :
    (optional r).run k m = k m := by
  rw [run, h, Option.none_or]

theorem run_star_none (h : ∀ k : Match α → Option β, r.run k m = none) :
    (star r).run k m = k m := by
  rw [run]
  cases m.rest.length with
  | zero => rfl
  | succ n => rw [iterate, h, Option.none_or]

/-- The place is not in front of one of the characters. -/
def Stops (p : α → Bool) (s : List α) : Prop := ∀ c ∈ s.head?, p c = false

theorem stops_dropWhile (p : α → Bool) (s : List α) : Stops p (s.dropWhile p) := by
  intro c hc
  have hnot := List.head?_dropWhile_not p s
  rw [Option.mem_def.mp hc] at hnot
  exact hnot

theorem takeWhile_of_stops (hw : ∀ c ∈ w, p c = true) (hs : Stops p s) : (w ++ s).takeWhile p = w := by
  rw [List.takeWhile_append_of_pos hw]
  cases s with
  | nil => exact List.append_nil w
  | cons c s =>
    rw [List.takeWhile_cons_of_neg (by rw [hs c rfl]; exact Bool.false_ne_true), List.append_nil]

theorem run_oneOf_stops (h : Stops p s) : (oneOf p).run k ⟨s,g⟩ = none := by
  cases s with
  | nil => rfl
  | cons c s => simp only [run, h c rfl, Bool.false_eq_true, if_false]

theorem run_oneOf_cons {c : α} (h : p c = true) :
    (oneOf p).run k ⟨c :: s,g⟩ = k ⟨s,g⟩ := if_pos h

theorem run_char [BEq α] [LawfulBEq α] (c : α) : (char c).run k ⟨c :: s,g⟩ = k ⟨s,g⟩ :=
  run_oneOf_cons (beq_self_eq_true c)

theorem run_literal [BEq α] [LawfulBEq α] (w : List α) :
    (literal w r).run k ⟨w ++ s,g⟩ = r.run k ⟨s,g⟩ := by
  induction w with
  | nil => rfl
  | cons c w ih => rw [List.cons_append, literal, run, run_char, ih]

theorem run_literal_none [BEq α] [LawfulBEq α] (h : ¬ w <+: s) :
    (literal w r).run k ⟨s,g⟩ = none := by
  induction w generalizing s with
  | nil => exact absurd List.nil_prefix h
  | cons c w ih =>
    rw [literal, run]
    cases s with
    | nil => rfl
    | cons c' s =>
      by_cases hc : c' = c
      · subst hc
        rw [run_char]
        exact ih fun hw => h (List.cons_prefix_cons.mpr ⟨rfl,hw⟩)
      · exact if_neg (by rw [beq_iff_eq]; exact hc)

/-- A repetition takes all the characters it can, if that leads to a success. -/
theorem run_star_longest (hw : ∀ c ∈ w, p c = true) (hs : Stops p s) (hk : k ⟨s,g⟩ = some x) :
    (star (oneOf p)).run k ⟨w ++ s,g⟩ = some x := by
  have hall : ∀ n, w.length ≤ n → iterate (oneOf p).run k n ⟨w ++ s,g⟩ = some x := by
    intro n hn
    induction w generalizing n with
    | nil =>
      rw [List.nil_append]
      cases n with
      | zero => exact hk
      | succ n => rw [iterate, run_oneOf_stops hs, Option.none_or, hk]
    | cons c w ih =>
      obtain ⟨n,rfl⟩ := Nat.exists_eq_add_of_le' (Nat.one_le_of_lt hn)
      have hnext := ih (fun c' hc' => hw c' (List.mem_cons_of_mem c hc')) n (Nat.le_of_succ_le_succ hn)
      rw [List.cons_append, iterate, run_oneOf_cons (hw c List.mem_cons_self),
        advancing_of_lt (Nat.lt_succ_self _), hnext, Option.some_or]
  exact hall _ (by simp)

/-- The same for a repetition that a group remembers. -/
theorem run_group_longest {n : ℕ} (hw : ∀ c ∈ w, p c = true) (hs : Stops p s)
    (hk : k ((⟨s,g⟩ : Match α).capture n w) = some x) :
    (group n (star (oneOf p))).run k ⟨w ++ s,g⟩ = some x := by
  rw [run]
  apply run_star_longest hw hs
  rwa [consumed_append]

theorem run_plus_longest (hne : w ≠ []) (hw : ∀ c ∈ w, p c = true) (hs : Stops p s)
    (hk : k ⟨s,g⟩ = some x) : (plus (oneOf p)).run k ⟨w ++ s,g⟩ = some x := by
  obtain ⟨c,w,rfl⟩ := List.exists_cons_of_ne_nil hne
  rw [List.cons_append, plus, run, run_oneOf_cons (hw c List.mem_cons_self)]
  exact run_star_longest (fun c' hc' => hw c' (List.mem_cons_of_mem c hc')) hs hk

theorem notMem_of_avoids {c : α} (hr : r.avoids c = true) (h : w ∈ r.language) : c ∉ w := by
  induction r generalizing w with
  | oneOf p =>
    obtain ⟨c',rfl,hp⟩ := h
    rw [List.mem_singleton]
    rintro rfl
    rw [avoids, hp] at hr
    exact Bool.false_ne_true hr
  | seq r s ihr ihs =>
    obtain ⟨u,hu,v,hv,rfl⟩ := Language.mem_mul.mp h
    obtain ⟨hr,hs⟩ := Bool.and_eq_true_iff.mp hr
    rw [List.mem_append, not_or]
    exact ⟨ihr hr hu,ihs hs hv⟩
  | optional r ih =>
    rcases h with rfl | h
    · exact List.not_mem_nil
    · exact ih hr h
  | star r ih =>
    obtain ⟨parts,rfl,hparts⟩ := Language.mem_kstar.mp h
    intro hc
    obtain ⟨part,hpart,hc⟩ := List.mem_flatten.mp hc
    exact ih hr (hparts part hpart) hc
  | group n r ih => exact ih hr h

theorem mem_language_star (h : w ∈ (star (oneOf p)).language) : ∀ c ∈ w, p c = true := by
  obtain ⟨parts,rfl,hparts⟩ := Language.mem_kstar.mp h
  intro c hc
  obtain ⟨part,hpart,hc⟩ := List.mem_flatten.mp hc
  obtain ⟨c',rfl,hp⟩ := hparts part hpart
  rwa [List.mem_singleton.mp hc]

theorem mem_language_plus (h : w ∈ (plus (oneOf p)).language) : w ≠ [] ∧ ∀ c ∈ w, p c = true := by
  obtain ⟨_,⟨c,rfl,hc⟩,v,hv,rfl⟩ := Language.mem_mul.mp h
  refine ⟨List.cons_ne_nil _ _,List.forall_mem_cons.mpr ⟨hc,?_⟩⟩
  exact mem_language_star hv

theorem mem_language_char [BEq α] [LawfulBEq α] {c : α} (h : w ∈ (char c).language) : w = [c] := by
  obtain ⟨c',rfl,hc⟩ := h
  rw [eq_of_beq hc]

end Pattern

end Regex
