import Mathlib.Data.List.AList
import Isml.Session.SessionManager

/-! # `ServiceManager`: what is called on a service

Each of the calls holds `m_services_guard` and is one step. Constructors, `init` and `stop` belong to the
services and may throw; an exception of `init` keeps a service out of the table, one of `stop` leaves it
there, and only a `std::exception` is caught in the loop of `terminate`.
-/
namespace Isml
open LabelledRun

/-- How `stop` ends: it returns, or throws a `std::exception` or something else. -/
inductive StopOutcome where
  | returns
  | throws
  | throwsOther
  deriving DecidableEq, Repr

inductive ServiceCall where
  | init (outcome : Outcome)
  | stop (outcome : StopOutcome)
  deriving DecidableEq, Repr

/-- `m_services`, where services are numbered as they are constructed. Kept for the statements are the
number of services, the calls made on each, and the number of calls of `terminate`, of either kind, that
an exception has left. -/
structure ServiceManager (τ : Type) where
  services : AList fun _ : τ => ℕ
  created : ℕ
  calls : List (ℕ × ServiceCall)
  escaped : ℕ

inductive PublishError where
  | runtime (message : String)
  | constructor
  | init
  deriving DecidableEq, Repr

inductive ManagerEvent (τ : Type) where
  | publish (type : τ) (constructor init : Outcome)
  | terminate (type : τ) (stop : StopOutcome)
  | terminateAll (visits : List (ℕ × StopOutcome))
  | getService (type : τ)

namespace ServiceManager
variable {τ : Type} [DecidableEq τ]

def new : ServiceManager τ := ⟨∅,0,[],0⟩

def record (calls : List (ℕ × ServiceCall)) (m : ServiceManager τ) : ServiceManager τ :=
  { m with calls := m.calls ++ calls }

/-- `publish<ConcreteService>`. -/
def publish (type : τ) (constructor init : Outcome) (m : ServiceManager τ) :
    Except PublishError ℕ × ServiceManager τ :=
  if type ∈ m.services then (.error (.runtime "Service has already been published"),m)
  else
    match constructor with
    | .throws => (.error .constructor,m)
    | .returns =>
      let service := m.created
      let m := { m.record [(service,.init init)] with created := m.created + 1 }
      match init with
      | .throws => (.error .init,m)
      | .returns => (.ok service,{ m with services := m.services.insert type service })

/-- `getService<ConcreteService>`. -/
def getService (type : τ) (m : ServiceManager τ) : Option ℕ := m.services.lookup type

/-- `terminate<ConcreteService>`, and nothing when an exception leaves it. -/
def terminate (type : τ) (stop : StopOutcome) (m : ServiceManager τ) : Option Bool × ServiceManager τ :=
  match m.services.lookup type with
  | none => (some false,m)
  | some service =>
    let m := m.record [(service,.stop stop)]
    match stop with
    | .returns => (some true,{ m with services := m.services.erase type })
    | .throws | .throwsOther => (none,{ m with escaped := m.escaped + 1 })

/-- The services the loop of `terminate` gets to, and whether it gets to its end. -/
def stopAll : List (ℕ × StopOutcome) → List (ℕ × StopOutcome) × Bool
  | [] => ([],true)
  | (service,.throwsOther) :: _ => ([(service,.throwsOther)],false)
  | visit :: visits => (visit :: (stopAll visits).1,(stopAll visits).2)

/-- `terminate()`. -/
def terminateAll (visits : List (ℕ × StopOutcome)) (m : ServiceManager τ) :
    Option Unit × ServiceManager τ :=
  let m' := m.record ((stopAll visits).1.map fun v => (v.1,.stop v.2))
  if (stopAll visits).2 then (some (),{ m' with services := ∅ })
  else (none,{ m' with escaped := m.escaped + 1 })

/-- The loop visits every entry once, in any order. -/
inductive Step : ServiceManager τ → ManagerEvent τ → ServiceManager τ → Prop
  | publish (m : ServiceManager τ) (type : τ) (constructor init : Outcome) :
      Step m (.publish type constructor init) (m.publish type constructor init).2
  | terminate (m : ServiceManager τ) (type : τ) (stop : StopOutcome) :
      Step m (.terminate type stop) (m.terminate type stop).2
  | terminateAll {m : ServiceManager τ} {visits : List (ℕ × StopOutcome)} :
      (visits.map Prod.fst).Perm (m.services.entries.map Sigma.snd) →
        Step m (.terminateAll visits) (m.terminateAll visits).2
  | getService (m : ServiceManager τ) (type : τ) : Step m (.getService type) m

/-- The calls made on a service, in this order. -/
def lifeOf (service : ℕ) (m : ServiceManager τ) : List ServiceCall :=
  (m.calls.filter fun c => c.1 == service).map Prod.snd

/-- The service is in the table. -/
def Held (m : ServiceManager τ) (service : ℕ) : Prop := ∃ type, m.services.lookup type = some service

/-- What may have been called on a service: `init`, once, and when that has returned `stop`, at most once
for each exception that a termination has let out, and at least and at most once more when the service is
gone. -/
inductive Life (escaped : ℕ) (held : Prop) : List ServiceCall → Prop
  | failed (h : ¬ held) : Life escaped held [.init .throws]
  | held (h : held) (stops : List StopOutcome) (hle : stops.length ≤ escaped) :
      Life escaped held (.init .returns :: stops.map .stop)
  | gone (h : ¬ held) (stops : List StopOutcome) (hne : stops ≠ []) (hle : stops.length ≤ escaped + 1) :
      Life escaped held (.init .returns :: stops.map .stop)

structure Kept (m : ServiceManager τ) : Prop where
  once : ∀ type type' service, m.services.lookup type = some service →
    m.services.lookup type' = some service → type = type'
  numbered : ∀ service, m.Held service → service < m.created
  uncreated : ∀ service, m.created ≤ service → m.lifeOf service = []
  lives : ∀ service < m.created, Life m.escaped (m.Held service) (m.lifeOf service)

theorem Life.mono {escaped escaped' : ℕ} {held held' : Prop} {calls : List ServiceCall}
    (h : Life escaped held calls) (hle : escaped ≤ escaped') (hheld : held' ↔ held) :
    Life escaped' held' calls := by
  rw [propext hheld]
  cases h with
  | failed hnot => exact .failed hnot
  | held hyes stops hstops => exact .held hyes stops (by omega)
  | gone hnot stops hne hstops => exact .gone hnot stops hne (by omega)

theorem Life.stops {escaped : ℕ} {held : Prop} {calls : List ServiceCall} (h : Life escaped held calls)
    (hheld : held) : ∃ stops : List StopOutcome, calls = .init .returns :: stops.map .stop ∧
      stops.length ≤ escaped := by
  cases h with
  | failed hnot => exact absurd hheld hnot
  | held _ stops hstops => exact ⟨stops,rfl,hstops⟩
  | gone hnot => exact absurd hheld hnot

section Steps
variable {m t : ServiceManager τ} {e : ManagerEvent τ} {type : τ} {service : ℕ}

omit [DecidableEq τ] in
@[simp] theorem lifeOf_record (calls : List (ℕ × ServiceCall)) (service : ℕ) (m : ServiceManager τ) :
    (m.record calls).lifeOf service =
      m.lifeOf service ++ (calls.filter fun c => c.1 == service).map Prod.snd := by
  simp [lifeOf, record]

/-- The manager when a service was constructed and its `init` has ended. -/
def construct (init : Outcome) (m : ServiceManager τ) : ServiceManager τ :=
  { m.record [(m.created,.init init)] with created := m.created + 1 }

theorem lifeOf_construct (h : Kept m) (init : Outcome) (service : ℕ) : (m.construct init).lifeOf service =
    if service = m.created then [.init init] else m.lifeOf service := by
  have hlife : (m.construct init).lifeOf service = (m.record [(m.created,.init init)]).lifeOf service := rfl
  rw [hlife, lifeOf_record]
  split_ifs with hs
  · simp [hs, h.uncreated m.created le_rfl]
  · simp [Ne.symm hs]

theorem kept_initThrows (h : Kept m) : Kept (m.construct .throws) where
  once := h.once
  numbered service hs := Nat.lt_succ_of_lt (h.numbered service hs)
  uncreated service hs := by
    have hs : m.created + 1 ≤ service := hs
    rw [lifeOf_construct h, if_neg (by omega)]
    exact h.uncreated service (by omega)
  lives service hs := by
    have hs : service < m.created + 1 := hs
    rw [lifeOf_construct h]
    split_ifs with hnew
    · subst hnew
      exact .failed fun hheld => absurd (h.numbered _ hheld) (lt_irrefl _)
    · exact h.lives service (by omega)

theorem lookup_insert_eq_some {type' : τ} {service new : ℕ}
    (hs : (m.services.insert type new).lookup type' = some service) :
    (type' = type ∧ service = new) ∨ (type' ≠ type ∧ m.services.lookup type' = some service) := by
  by_cases ht : type' = type
  · rw [ht, AList.lookup_insert] at hs
    exact Or.inl ⟨ht,(Option.some.inj hs).symm⟩
  · rw [AList.lookup_insert_ne ht] at hs
    exact Or.inr ⟨ht,hs⟩

theorem kept_published (h : Kept m) (htype : type ∉ m.services) :
    Kept { m.construct .returns with services := m.services.insert type m.created } := by
  have hheld : ∀ service, (∃ type', (m.services.insert type m.created).lookup type' = some service) ↔
      m.Held service ∨ service = m.created := by
    intro service
    constructor
    · rintro ⟨type',hs⟩
      rcases lookup_insert_eq_some hs with ⟨_,hnew⟩ | ⟨_,hold⟩
      · exact Or.inr hnew
      · exact Or.inl ⟨type',hold⟩
    · rintro (⟨type',hold⟩ | rfl)
      · have hne : type' ≠ type := by
          rintro rfl
          exact htype (AList.lookup_isSome.mp (by rw [hold]; rfl))
        exact ⟨type',by rw [AList.lookup_insert_ne hne, hold]⟩
      · exact ⟨type,AList.lookup_insert _⟩
  refine ⟨fun type₁ type₂ service h₁ h₂ => ?_,fun service hs => ?_,fun service hs => ?_,fun service hs => ?_⟩
  · rcases lookup_insert_eq_some h₁ with ⟨ht₁,hs₁⟩ | ⟨_,hold₁⟩
    · rcases lookup_insert_eq_some h₂ with ⟨ht₂,_⟩ | ⟨_,hold₂⟩
      · exact ht₁.trans ht₂.symm
      · exact absurd (h.numbered service ⟨type₂,hold₂⟩) (by omega)
    · rcases lookup_insert_eq_some h₂ with ⟨_,hs₂⟩ | ⟨_,hold₂⟩
      · exact absurd (h.numbered service ⟨type₁,hold₁⟩) (by omega)
      · exact h.once type₁ type₂ service hold₁ hold₂
  · show service < m.created + 1
    rcases (hheld service).mp hs with hold | rfl
    · exact Nat.lt_succ_of_lt (h.numbered service hold)
    · exact Nat.lt_succ_self _
  · have hs : m.created + 1 ≤ service := hs
    change (m.construct .returns).lifeOf service = []
    rw [lifeOf_construct h, if_neg (by omega)]
    exact h.uncreated service (by omega)
  · have hs : service < m.created + 1 := hs
    change Life m.escaped _ ((m.construct .returns).lifeOf service)
    rw [lifeOf_construct h]
    split_ifs with hnew
    · exact .held ((hheld service).mpr (Or.inr hnew)) [] (Nat.zero_le _)
    · refine (h.lives service (by omega)).mono le_rfl ?_
      exact (hheld service).trans (or_iff_left hnew)

theorem kept_publish (h : Kept m) (type : τ) (constructor init : Outcome) :
    Kept (m.publish type constructor init).2 := by
  unfold publish
  by_cases htype : type ∈ m.services
  · rw [if_pos htype]
    exact h
  · rw [if_neg htype]
    cases constructor with
    | throws => exact h
    | returns =>
      cases init with
      | throws => exact kept_initThrows h
      | returns => exact kept_published h htype

theorem filter_of_notMem {α : Type} {calls : List (ℕ × α)} (h : service ∉ calls.map Prod.fst) :
    (calls.filter fun c => c.1 == service) = [] := by
  rw [List.filter_eq_nil_iff]
  intro c hc he
  exact h (List.mem_map.mpr ⟨c,hc,by simpa using he⟩)

theorem filter_of_mem {α : Type} {calls : List (ℕ × α)} (hnd : (calls.map Prod.fst).Nodup)
    (h : service ∈ calls.map Prod.fst) : ∃ a, (calls.filter fun c => c.1 == service) = [(service,a)] := by
  induction calls with
  | nil => cases h
  | cons c calls ih =>
    rw [List.map_cons, List.nodup_cons] at hnd
    by_cases hc : c.1 = service
    · subst hc
      refine ⟨c.2,?_⟩
      rw [List.filter_cons_of_pos (by simp), filter_of_notMem hnd.1]
    · rw [List.filter_cons_of_neg (by simpa using hc)]
      exact ih hnd.2 ((List.mem_cons.mp h).resolve_left (Ne.symm hc))

omit [DecidableEq τ] in
theorem lifeOf_recordStops (calls : List (ℕ × StopOutcome)) (service : ℕ) (m : ServiceManager τ) :
    (m.record (calls.map fun c => (c.1,.stop c.2))).lifeOf service =
      m.lifeOf service ++ (calls.filter fun c => c.1 == service).map fun c => .stop c.2 := by
  rw [lifeOf_record, List.filter_map, List.map_map]
  rfl

/-- Services of the table are stopped, each once; a stopped one may stay when an exception gets out, and
one that leaves the table was stopped. -/
theorem kept_stopped (h : Kept m) {calls : List (ℕ × StopOutcome)} (hnd : (calls.map Prod.fst).Nodup)
    (hcalls : ∀ service ∈ calls.map Prod.fst, m.Held service) {services : AList fun _ : τ => ℕ}
    {escaped : ℕ} (hescaped : m.escaped ≤ escaped)
    (hsub : ∀ type service, services.lookup type = some service → m.services.lookup type = some service)
    (hstay : ∀ service ∈ calls.map Prod.fst, (∃ type, services.lookup type = some service) →
      m.escaped < escaped)
    (hleave : ∀ service, m.Held service → (¬ ∃ type, services.lookup type = some service) →
      service ∈ calls.map Prod.fst) :
    Kept { m.record (calls.map fun c => (c.1,.stop c.2)) with services := services, escaped := escaped } where
  once type type' service hs hs' := h.once type type' service (hsub type service hs) (hsub type' service hs')
  numbered service := fun ⟨type,hs⟩ => h.numbered service ⟨type,hsub type service hs⟩
  uncreated service hs := by
    have hnot : service ∉ calls.map Prod.fst := fun hmem =>
      absurd (h.numbered service (hcalls service hmem)) (Nat.not_lt.mpr hs)
    change (m.record _).lifeOf service = []
    rw [lifeOf_recordStops, filter_of_notMem hnot, List.map_nil, List.append_nil]
    exact h.uncreated service hs
  lives service hs := by
    have hlife := h.lives service hs
    change Life escaped (∃ type, services.lookup type = some service) ((m.record _).lifeOf service)
    rw [lifeOf_recordStops]
    by_cases hmem : service ∈ calls.map Prod.fst
    · obtain ⟨o,ho⟩ := filter_of_mem hnd hmem
      obtain ⟨stops,hstops,hle⟩ := hlife.stops (hcalls service hmem)
      have hnext : m.lifeOf service ++ [(service,o)].map (fun c => ServiceCall.stop c.2) =
          .init .returns :: (stops ++ [o]).map .stop := by
        simp [hstops]
      rw [ho, hnext]
      by_cases hheld : ∃ type, services.lookup type = some service
      · have hlt := hstay service hmem hheld
        exact .held hheld _ (by rw [List.length_append, List.length_singleton]; omega)
      · exact .gone hheld _ (by simp) (by rw [List.length_append, List.length_singleton]; omega)
    · rw [filter_of_notMem hmem, List.map_nil, List.append_nil]
      refine hlife.mono hescaped ⟨fun ⟨type,hs⟩ => ⟨type,hsub type service hs⟩,fun hheld => ?_⟩
      by_contra hgone
      exact hmem (hleave service hheld hgone)

theorem kept_terminate (h : Kept m) (type : τ) (stop : StopOutcome) : Kept (m.terminate type stop).2 := by
  unfold terminate
  cases hs : m.services.lookup type with
  | none => exact h
  | some service =>
    have hnd : ([(service,stop)].map Prod.fst).Nodup := List.nodup_singleton _
    have hheld : ∀ s ∈ [(service,stop)].map Prod.fst, m.Held s := by
      intro s hmem
      rw [List.mem_singleton.mp hmem]
      exact ⟨type,hs⟩
    have hstays : Kept { m.record [(service,.stop stop)] with escaped := m.escaped + 1 } :=
      kept_stopped h hnd hheld (Nat.le_succ _) (fun _ _ hs => hs) (fun _ _ _ => Nat.lt_succ_self _)
        fun s hbefore hafter => absurd hbefore hafter
    cases stop with
    | throws => exact hstays
    | throwsOther => exact hstays
    | returns =>
      have herase : ∀ type' s, (m.services.erase type).lookup type' = some s →
          type' ≠ type ∧ m.services.lookup type' = some s := by
        intro type' s hs'
        by_cases ht : type' = type
        · rw [ht, AList.lookup_erase] at hs'
          cases hs'
        · rw [AList.lookup_erase_ne ht] at hs'
          exact ⟨ht,hs'⟩
      refine kept_stopped h hnd hheld le_rfl (fun type' s hs' => (herase type' s hs').2) ?_ ?_
      · rintro s hmem ⟨type',hs'⟩
        obtain ⟨hne,hold⟩ := herase type' s hs'
        rw [List.mem_singleton.mp hmem] at hold
        exact absurd (h.once type' type service hold hs) hne
      · rintro s ⟨type',hold⟩ hafter
        by_cases ht : type' = type
        · rw [ht, hs] at hold
          cases hold
          exact List.mem_singleton_self _
        · exact absurd ⟨type',(AList.lookup_erase_ne ht).trans hold⟩ hafter

theorem stopAll_prefix (visits : List (ℕ × StopOutcome)) :
    (stopAll visits).1 <+: visits ∧ ((stopAll visits).2 = true → (stopAll visits).1 = visits) := by
  induction visits with
  | nil => exact ⟨List.prefix_refl [],fun _ => rfl⟩
  | cons visit visits ih =>
    obtain ⟨service,stop⟩ := visit
    cases stop with
    | throwsOther => exact ⟨⟨visits,rfl⟩,nofun⟩
    | returns | throws =>
      obtain ⟨hfront,hall⟩ := ih
      exact ⟨List.prefix_cons_inj _ |>.mpr hfront,fun hend => congrArg _ (hall hend)⟩

theorem held_iff_mem (m : ServiceManager τ) (service : ℕ) :
    m.Held service ↔ service ∈ m.services.entries.map Sigma.snd := by
  constructor
  · rintro ⟨type,hs⟩
    exact List.mem_map.mpr ⟨⟨type,service⟩,AList.mem_lookup_iff.mp hs,rfl⟩
  · intro hmem
    obtain ⟨⟨type,s⟩,he,rfl⟩ := List.mem_map.mp hmem
    exact ⟨type,AList.mem_lookup_iff.mpr he⟩

theorem Kept.services_nodup (h : Kept m) : (m.services.entries.map Sigma.snd).Nodup := by
  refine List.Nodup.map_on (fun e he e' he' hsame => ?_) (List.NodupKeys.nodup m.services.nodupKeys)
  obtain ⟨type,service⟩ := e
  obtain ⟨type',service'⟩ := e'
  cases hsame
  cases h.once type type' service (AList.mem_lookup_iff.mpr he) (AList.mem_lookup_iff.mpr he')
  rfl

theorem kept_terminateAll (h : Kept m) {visits : List (ℕ × StopOutcome)}
    (hvisits : (visits.map Prod.fst).Perm (m.services.entries.map Sigma.snd)) :
    Kept (m.terminateAll visits).2 := by
  obtain ⟨hfront,hall⟩ := stopAll_prefix visits
  have hmem : ∀ service, m.Held service ↔ service ∈ visits.map Prod.fst := fun service =>
    (held_iff_mem m service).trans hvisits.mem_iff.symm
  have hsub : ((stopAll visits).1.map Prod.fst).Sublist (visits.map Prod.fst) := hfront.sublist.map _
  have hnd : ((stopAll visits).1.map Prod.fst).Nodup :=
    hsub.nodup (hvisits.nodup_iff.mpr h.services_nodup)
  have hheld : ∀ s ∈ (stopAll visits).1.map Prod.fst, m.Held s := fun s hs => (hmem s).mpr (hsub.subset hs)
  unfold terminateAll
  dsimp only
  split_ifs with hend
  · refine kept_stopped h hnd hheld le_rfl (fun _ _ hs => nomatch hs) (fun _ _ ⟨_,hs⟩ => nomatch hs) ?_
    intro service hbefore _
    rw [hall hend]
    exact (hmem service).mp hbefore
  · exact kept_stopped h hnd hheld (Nat.le_succ _) (fun _ _ hs => hs) (fun _ _ _ => Nat.lt_succ_self _)
      fun s hbefore hafter => absurd hbefore hafter

theorem kept_step (h : Kept m) (hstep : Step m e t) : Kept t := by
  cases hstep with
  | publish type constructor init => exact kept_publish h type constructor init
  | terminate type stop => exact kept_terminate h type stop
  | terminateAll hvisits => exact kept_terminateAll h hvisits
  | getService type => exact h

theorem kept_new : Kept (new : ServiceManager τ) where
  once _ _ _ hs := nomatch hs
  numbered _ := fun ⟨_,hs⟩ => nomatch hs
  uncreated _ _ := rfl
  lives service hs := absurd hs (Nat.not_lt_zero service)

/-- In every run `init` is called once on each service, before anything else, and a service of which it has
not returned is nowhere. No service is in the table twice. One that is there was stopped at most once for
each termination, of whatever service, that has let out an exception, and one that is not there any more at
least once and at most once more than that: exactly once, when no termination has let out an exception. -/
theorem lives_of_run {trace : List (ServiceManager τ × ManagerEvent τ)} (hr : Run Step new trace m) :
    (∀ type type' service, m.getService type = some service → m.getService type' = some service →
        type = type') ∧
      (∀ service < m.created, Life m.escaped (m.Held service) (m.lifeOf service)) ∧
      (m.escaped = 0 → ∀ service < m.created, (m.Held service → m.lifeOf service = [.init .returns]) ∧
        (¬ m.Held service → m.lifeOf service = [.init .throws] ∨
          ∃ outcome, m.lifeOf service = [.init .returns,.stop outcome])) := by
  have hkept : Kept m := hr.preserved (fun _ _ _ h hstep => kept_step h hstep) kept_new
  refine ⟨hkept.once,hkept.lives,fun hnone service hs => ?_⟩
  have hlife := hkept.lives service hs
  rw [hnone] at hlife
  generalize m.lifeOf service = calls at hlife
  cases hlife with
  | failed hnot => exact ⟨fun hheld => absurd hheld hnot,fun _ => Or.inl rfl⟩
  | held hheld stops hle =>
    have hnil : stops = [] := List.length_eq_zero_iff.mp (Nat.le_zero.mp hle)
    rw [hnil]
    exact ⟨fun _ => rfl,fun hnot => absurd hheld hnot⟩
  | gone hnot stops hne hle =>
    obtain ⟨outcome,rfl⟩ : ∃ outcome, stops = [outcome] := by
      have hpos := List.length_pos_iff.mpr hne
      exact List.length_eq_one_iff.mp (by omega)
    exact ⟨fun hheld => absurd hheld hnot,fun _ => Or.inr ⟨outcome,rfl⟩⟩

/-- The first of two services throws what is not caught; the second `terminate` stops both. -/
def twiceStoppedEvents : List (ManagerEvent ℕ) :=
  [.publish 3 .returns .returns,.publish 5 .returns .returns,
    .terminateAll [(1,.throwsOther),(0,.returns)],.terminateAll [(1,.throws),(0,.returns)]]

theorem lives_of_run_twiceStopped : ∃ trace m, trace.map Prod.snd = twiceStoppedEvents ∧
    Run Step (new : ServiceManager ℕ) trace m ∧ m.lifeOf 0 = [.init .returns,.stop .returns] ∧
    m.lifeOf 1 = [.init .returns,.stop .throwsOther,.stop .throws] ∧
    ∀ service < m.created, Life m.escaped (m.Held service) (m.lifeOf service) := by
  let m₁ : ServiceManager ℕ := (new.publish 3 .returns .returns).2
  let m₂ := (m₁.publish 5 .returns .returns).2
  let m₃ := (m₂.terminateAll [(1,.throwsOther),(0,.returns)]).2
  let m₄ := (m₃.terminateAll [(1,.throws),(0,.returns)]).2
  have hfirst : Step m₂ (.terminateAll [(1,.throwsOther),(0,.returns)]) m₃ :=
    Step.terminateAll (List.Perm.refl _)
  have hsecond : Step m₃ (.terminateAll [(1,.throws),(0,.returns)]) m₄ := Step.terminateAll (List.Perm.refl _)
  have hr := Run.cons (Step.publish new 3 .returns .returns) (Run.cons (Step.publish m₁ 5 .returns .returns)
    (Run.cons hfirst (Run.cons hsecond (Run.nil m₄))))
  exact ⟨_,_,rfl,hr,rfl,rfl,(lives_of_run hr).2.1⟩

end Steps

end ServiceManager

end Isml
