import Isml.Net.UrlForm

/-! # The ports that `Url::parse` accepts

`std::stoi` stops at the first character that is no digit, and the `int` it returns becomes an
`unsigned` without a look at its range.
-/
namespace Isml.Net
open Url

/-- The decimal digits of a number from 1 to 65535. -/
def IsPort (text : CharString) (n : ℕ) : Prop :=
  text ≠ [] ∧ (∀ c ∈ text, c.isDigit = true) ∧ Decimal.valueOf text = n ∧ 1 ≤ n ∧ n ≤ 65535

/-- The part of the string between `//` and the path. -/
def authorityOf (s : CharString) : CharString := (UrlParts.ofString s).authority.getD []

/-- The texts in front of the first colon of the authority and behind it. -/
def SplitAuthority (s hostname port : CharString) : Prop :=
  authorityOf s = hostname ++ ':' :: port ∧ ':' ∉ hostname

/-- A port that is parsed is 0 or the number its text denotes, and other texts are malformed. -/
structure OnlyRealPorts (s : CharString) : Prop where
  accepted : ∀ u, parse s = .ok u → (':' ∉ authorityOf s ∧ u.port = 0) ∨
    ∃ hostname port, SplitAuthority s hostname port ∧ IsPort port u.port.toNat
  rejected : ∀ hostname port, SplitAuthority s hostname port → (∀ n, ¬ IsPort port n) →
    ∃ message, parse s = raise (.malformedUrl message)

/-- A numeral of an `int` behind the colon is a port, in a string that has no other fault. -/
def PortChecked (s : CharString) : Prop :=
  ∀ hostname, ∀ x : Decimal.Numeral, SplitAuthority s hostname x.text → hostname ≠ [] →
    (UrlParts.ofString s).scheme ≠ none → (UrlParts.ofString s).OneLine →
    -2 ^ 31 ≤ x.value → x.value < 2 ^ 31 → ∃ n, IsPort x.text n

theorem IsPort.stoi {text : CharString} {n : ℕ} (h : IsPort text n) : Decimal.stoi text = some (n : ℤ) := by
  obtain ⟨hne,hdigits,rfl,_,hle⟩ := h
  rw [Decimal.stoi_digits hne hdigits]
  exact if_pos (by omega)

theorem toNat_ofInt {n : ℕ} (h : n ≤ 65535) : (BitVec.ofInt 32 n).toNat = n := by
  rw [BitVec.ofInt_natCast, BitVec.toNat_ofNat]
  omega

section Parse
variable {s hostname port : CharString}

theorem SplitAuthority.unique (h : SplitAuthority s hostname port) {hostname' port' : CharString}
    (h' : SplitAuthority s hostname' port') : hostname = hostname' ∧ port = port' :=
  append_cons_inj h.2 h'.2 (h.1.symm.trans h'.1)

/-- Without a colon the authority is the host. -/
theorem parse_ofString_host (h : (UrlParts.ofString s).OneLine) (hcolon : ':' ∉ authorityOf s) :
    parse s = UrlBuilder.build ⟨(UrlParts.ofString s).url (authorityOf s) 0⟩ := by
  have hparse := UrlParts.parse_host h rfl hcolon
  rwa [UrlParts.text_ofString] at hparse

theorem parse_ofString_port (h : (UrlParts.ofString s).OneLine) (hsplit : SplitAuthority s hostname port) :
    parse s = match Decimal.stoi port with
      | some n => UrlBuilder.build ⟨(UrlParts.ofString s).url hostname (BitVec.ofInt 32 n)⟩
      | none => raise (.malformedUrl "Invalid port value") := by
  have hparse := UrlParts.parse_port h hsplit.1 hsplit.2
  rwa [UrlParts.text_ofString] at hparse

theorem parse_ofString_lineBreak (h : ¬ (UrlParts.ofString s).OneLine) :
    parse s = raise (.malformedUrl "Cannot parse string") := by
  have hparse := UrlParts.parse_lineBreak h
  rwa [UrlParts.text_ofString] at hparse

theorem build_cases (b : UrlBuilder) :
    b.build = .ok b.url ∨ b.build = raise (.malformedUrl "Protocol is not specified") := by
  unfold UrlBuilder.build
  split_ifs
  · exact Or.inr rfl
  · exact Or.inr rfl
  · exact Or.inl rfl

/-- `parse` returns or throws a `MalformedUrlException`. -/
theorem parse_cases (s : CharString) :
    (∃ u, parse s = .ok u) ∨ ∃ message, parse s = raise (.malformedUrl message) := by
  by_cases hline : (UrlParts.ofString s).OneLine
  · by_cases hcolon : ':' ∈ authorityOf s
    · obtain ⟨hostname,port,hsplit⟩ := List.eq_append_cons_of_mem hcolon
      rw [parse_ofString_port hline hsplit]
      cases Decimal.stoi port with
      | none => exact Or.inr ⟨_,rfl⟩
      | some n => exact (build_cases _).imp (fun h => ⟨_,h⟩) fun h => ⟨_,h⟩
    · rw [parse_ofString_host hline hcolon]
      exact (build_cases _).imp (fun h => ⟨_,h⟩) fun h => ⟨_,h⟩
  · exact Or.inr ⟨_,parse_ofString_lineBreak hline⟩

theorem OnlyRealPorts.of_accepted (h : ∀ u, parse s = .ok u → (':' ∉ authorityOf s ∧ u.port = 0) ∨
    ∃ hostname port, SplitAuthority s hostname port ∧ IsPort port u.port.toNat) : OnlyRealPorts s := by
  refine ⟨h,fun hostname port hsplit hport => ?_⟩
  refine (parse_cases s).resolve_left ?_
  rintro ⟨u,hu⟩
  rcases h u hu with ⟨hcolon,_⟩ | ⟨hostname',port',hsplit',hport'⟩
  · exact hcolon (hsplit.1 ▸ List.mem_append_right _ List.mem_cons_self)
  · obtain ⟨_,rfl⟩ := hsplit.unique hsplit'
    exact hport _ hport'

theorem PortChecked.accepted (h : PortChecked s) {u : Url} (hu : parse s = .ok u) :
    (':' ∉ authorityOf s ∧ u.port = 0) ∨
      ∃ hostname port, SplitAuthority s hostname port ∧ IsPort port u.port.toNat := by
  have hline : (UrlParts.ofString s).OneLine := by
    by_contra hline
    cases (parse_ofString_lineBreak hline).symm.trans hu
  by_cases hcolon : ':' ∈ authorityOf s
  · obtain ⟨hostname,port,hsplit⟩ := List.eq_append_cons_of_mem hcolon
    have hsplit : SplitAuthority s hostname port := hsplit
    rw [parse_ofString_port hline hsplit] at hu
    cases hstoi : Decimal.stoi port with
    | none =>
      rw [hstoi] at hu
      cases hu
    | some n =>
      rw [hstoi] at hu
      obtain ⟨hprotocol,hhostname,rfl⟩ := UrlParts.build_eq_ok.mp hu
      obtain ⟨x,rfl,rfl,hlow,hhigh⟩ := Decimal.exists_numeral hstoi
      have hscheme : (UrlParts.ofString s).scheme ≠ none := by
        intro hnone
        apply hprotocol
        rw [UrlParts.url, hnone]
        rfl
      obtain ⟨n,hn⟩ := h hostname x hsplit hhostname hscheme hline hlow hhigh
      have hvalue : x.value = n := Option.some.inj (hstoi.symm.trans hn.stoi)
      refine Or.inr ⟨hostname,x.text,hsplit,?_⟩
      rw [UrlParts.url, hvalue, toNat_ofInt hn.2.2.2.2]
      exact hn
  · rw [parse_ofString_host hline hcolon] at hu
    obtain ⟨_,_,rfl⟩ := UrlParts.build_eq_ok.mp hu
    exact Or.inl ⟨hcolon,rfl⟩

theorem OnlyRealPorts.portChecked (h : OnlyRealPorts s) : PortChecked s := by
  intro hostname x hsplit hhostname hscheme hline hlow hhigh
  have hparse := parse_ofString_port hline hsplit
  rw [Decimal.Numeral.stoi_text, if_pos ⟨hlow,hhigh⟩] at hparse
  obtain ⟨scheme,hsome⟩ := Option.ne_none_iff_exists'.mp hscheme
  have hne : scheme ≠ [] := ((UrlParts.ofString s).scheme_chars scheme hsome).1
  have hbuild : UrlBuilder.build ⟨(UrlParts.ofString s).url hostname (BitVec.ofInt 32 x.value)⟩ =
      .ok ((UrlParts.ofString s).url hostname (BitVec.ofInt 32 x.value)) := by
    refine UrlParts.build_eq_ok.mpr ⟨?_,hhostname,rfl⟩
    rw [UrlParts.url, hsome]
    exact hne
  rcases h.accepted _ (hparse.trans hbuild) with ⟨hcolon,_⟩ | ⟨hostname',port',hsplit',hport⟩
  · exact absurd (hsplit.1 ▸ List.mem_append_right _ List.mem_cons_self) hcolon
  · obtain ⟨_,rfl⟩ := hsplit.unique hsplit'
    exact ⟨_,hport⟩

end Parse

/-- What is parsed has a real port exactly if nothing but a port is a numeral behind the colon. -/
theorem onlyRealPorts_iff (s : CharString) : OnlyRealPorts s ↔ PortChecked s :=
  ⟨OnlyRealPorts.portChecked,fun h => .of_accepted fun _ => h.accepted⟩

/-- `s://h:-1` is accepted, with the port 4294967295. -/
theorem not_onlyRealPorts_negative : ¬ OnlyRealPorts ['s', ':', '/', '/', 'h', ':', '-', '1'] := by
  intro h
  have hchecked := h.portChecked ['h']
    ⟨[],some true,['1'],[],nofun,by decide,List.forall_mem_singleton.mpr (by decide),nofun⟩
    ⟨rfl,by decide⟩ (by decide) (by decide) (fun _ h => nomatch h) (by decide) (by decide)
  obtain ⟨n,_,hdigits,_⟩ := hchecked
  exact absurd (hdigits '-' (by decide)) (by decide)

end Isml.Net
