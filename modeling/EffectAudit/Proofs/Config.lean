import EffectAudit.Config.Policy
import EffectAudit.Proofs.OrderedMap

/-!
# What a configuration asks for

A policy answers as the configuration says that it was made from: each rule has the settings that
stand under its name, files are excluded if they match a pattern, and the ignored effects are those
that the ignore list names.

## Main definitions

* `Config.settingsOf`: the settings of a rule
* `Config.Excludes`: a file matches a pattern
* `Config.Ignores`: an effect is in the ignore list

## Main results

* `Config.Resolved`, `Config.resolved_of_resolve`: what a policy has from its configuration
* `Config.resolve_withoutRules`: a configuration without rules and patterns has a policy
-/

namespace EffectAudit

/-! ## Names of rules -/

theorem Rule.spelledBy_eq (r : Rule) (name : String) :
    r.item.spelledBy name = (r.name == name) := by
  have halias : r.item.aliases = [] := by cases r <;> rfl
  unfold Item.spelledBy
  rw [halias]
  exact Bool.or_false _

theorem Rule.ofName?_name (r : Rule) : ofName? r.name = some r := by
  cases r <;> rfl

/-- A rule has one name. -/
theorem Rule.ofName?_eq_some_iff {name : String} {r : Rule} :
    ofName? name = some r ↔ r.name = name := by
  constructor
  · intro h
    have hspelled := List.find?_some h
    rw [spelledBy_eq] at hspelled
    exact eq_of_beq hspelled
  · rintro rfl
    exact r.ofName?_name

/-! ## Results that may be errors -/

theorem bind_eq_ok {ε α β : Type} {x : Except ε α} {f : α → Except ε β} {b : β} :
    x >>= f = .ok b ↔ ∃ a, x = .ok a ∧ f a = .ok b := by
  constructor
  · intro h
    cases x with
    | error e => cases h
    | ok a => exact ⟨a, rfl, h⟩
  · rintro ⟨a, rfl, h⟩
    exact h

/-! ## Ignore lists -/

/-- An effect is named in the ignore list of some settings. -/
def RuleSettings.Ignores (s : RuleSettings) (registry : Registry) (e : Effect) : Prop :=
  ∃ items, Json.member? "ignore" s.params = some (.array items) ∧
    ∃ name, .string name ∈ items ∧ registry.effect? name = some e

/-- Effects are taken in one after the other. -/
theorem mem_of_foldlM_effect? {registry : Registry} {items : List Json} {start set : EffectSet}
    (h : items.foldlM (fun (set : EffectSet) item =>
      match item with
      | .string name =>
        match registry.effect? name with
        | some e => .ok (set.insert e)
        | none => .error (.unknownEffect name)
      | item => .error (.notAName item)) start =
          (.ok set : Except IgnoreFault EffectSet)) {e : Effect} :
    e ∈ set ↔ e ∈ start ∨ ∃ name, .string name ∈ items ∧ registry.effect? name = some e := by
  induction items generalizing start with
  | nil =>
    cases h
    simp
  | cons item rest ih =>
    rw [List.foldlM_cons] at h
    obtain ⟨next, hitem, hrest⟩ := bind_eq_ok.mp h
    rw [ih hrest]
    split at hitem
    · rename_i name
      split at hitem
      · rename_i e' he'
        cases hitem
        rw [EffectSet.mem_insert, or_comm (a := e = e'), or_assoc]
        refine or_congr_right ?_
        constructor
        · rintro (rfl | ⟨name', hname', heff⟩)
          · exact ⟨name, List.mem_cons_self, he'⟩
          · exact ⟨name', List.mem_cons_of_mem _ hname', heff⟩
        · rintro ⟨name', hname', heff⟩
          rcases List.mem_cons.mp hname' with heq | hname'
          · cases heq
            rw [he'] at heff
            exact .inl (Option.some.inj heff).symm
          · exact .inr ⟨name', hname', heff⟩
      · cases hitem
    · cases hitem

theorem RuleSettings.mem_ignoredEffects {s : RuleSettings} {registry : Registry} {set : EffectSet}
    (h : s.ignoredEffects registry = .ok set) {e : Effect} : e ∈ set ↔ s.Ignores registry e := by
  unfold ignoredEffects at h
  unfold Ignores
  split at h
  · rename_i hnone
    cases h
    simp [hnone]
  · rename_i items hitems
    rw [hitems, mem_of_foldlM_effect? h, or_iff_right (EffectSet.not_mem_empty e)]
    simp
  · cases h

namespace Config

/-- The settings of a rule; if there are none, the usual ones. -/
def settingsOf (c : Config) (r : Rule) : RuleSettings := (c.rules.get? r.name).getD {}

/-- A file matches a pattern of files that report nothing. -/
def Excludes (c : Config) (path : Path) : Prop :=
  ∃ pattern ∈ c.exclude, ∃ g, Glob.parse pattern = .ok g ∧ g.matches path.text = true

/-- An effect need not be used where it is declared. -/
def Ignores (c : Config) (registry : Registry) (e : Effect) : Prop :=
  (c.settingsOf .effectMinimality).Ignores registry e

/-- What a policy has from a configuration. -/
structure Resolved (c : Config) (registry : Registry) (p : Policy) : Prop where
  settings : ∀ r, p.settings? r = c.rules.get? r.name
  excluded : ∀ path, p.isExcluded path = true ↔ c.Excludes path
  ignored : ∀ e, e ∈ p.ignored ↔ c.Ignores registry e
  threshold : p.threshold = c.threshold
  fragments : p.fragments = c.fragments

namespace Resolved

variable {c : Config} {registry : Registry} {p : Policy} (h : c.Resolved registry p)

include h

theorem isEnabled_eq (r : Rule) : p.isEnabled r = (c.settingsOf r).enabled := by
  unfold Policy.isEnabled settingsOf
  rw [h.settings]
  cases c.rules.get? r.name <;> rfl

theorem severityFor_eq (r : Rule) :
    p.severityFor r = (c.settingsOf r).level.getD r.defaultSeverity := by
  unfold Policy.severityFor settingsOf
  rw [h.settings]
  cases c.rules.get? r.name <;> rfl

end Resolved

/-! ## Rules -/

section Rules

variable {registry : Registry}

/-- What taking the settings of a rule into a policy changes. -/
theorem of_resolveRule {p q : Policy} {name : String} {s : RuleSettings}
    (h : resolveRule registry p name s = .ok q) :
    ∃ rule : Rule, rule.name = name ∧
      q = { p with rules := p.rules ++ [(rule, s)], ignored := q.ignored } ∧
      (rule = .effectMinimality → s.ignoredEffects registry = .ok q.ignored) ∧
      (rule ≠ .effectMinimality → q.ignored = p.ignored) := by
  unfold resolveRule at h
  split at h
  · cases h
  · rename_i rule hrule
    have hname := Rule.ofName?_eq_some_iff.mp hrule
    dsimp only at h
    by_cases hr : rule = .effectMinimality
    · rw [if_pos hr] at h
      cases hset : s.ignoredEffects registry with
      | ok set =>
        rw [hset] at h
        cases h
        exact ⟨rule, hname, rfl, fun _ => rfl, fun hne => absurd hr hne⟩
      | error fault =>
        rw [hset] at h
        cases h
    · rw [if_neg hr] at h
      cases h
      exact ⟨rule, hname, rfl, fun heq => absurd heq hr, fun _ => rfl⟩

theorem settings?_append (p : Policy) (rule : Rule) (s : RuleSettings) (r : Rule) :
    { p with rules := p.rules ++ [(rule, s)] }.settings? r =
      (p.settings? r).or (if rule = r then some s else none) := by
  unfold Policy.settings?
  rw [List.find?_append, Option.map_or]
  refine congrArg _ ?_
  by_cases hr : rule = r
  · simp [hr]
  · simp [hr]

/-- Rules are taken in one after the other, and of each name the first settings count. -/
theorem of_resolveRules {l : List (String × RuleSettings)} {p q : Policy}
    (h : l.foldlM (fun p (name, s) => resolveRule registry p name s) p = .ok q) :
    (∀ r, q.settings? r = (p.settings? r).or (OrderedMap.lookup r.name l)) ∧
      q.threshold = p.threshold ∧ q.fragments = p.fragments := by
  induction l generalizing p with
  | nil =>
    cases h
    simp [OrderedMap.lookup]
  | cons e rest ih =>
    obtain ⟨name, s⟩ := e
    rw [List.foldlM_cons] at h
    obtain ⟨next, hnext, hrest⟩ := bind_eq_ok.mp h
    obtain ⟨rule, rfl, hq, -⟩ := of_resolveRule hnext
    obtain ⟨hsettings, hthreshold, hfragments⟩ := ih hrest
    refine ⟨fun r => ?_, hthreshold.trans (by rw [hq]), hfragments.trans (by rw [hq])⟩
    have hstep : next.settings? r = (p.settings? r).or (if rule = r then some s else none) := by
      rw [← settings?_append, hq]
      rfl
    rw [hsettings, hstep, Option.or_assoc, OrderedMap.lookup]
    refine congrArg _ ?_
    by_cases hr : rule = r
    · subst hr
      simp
    · have hne : r.name ≠ rule.name := fun hn => hr (Option.some.inj (by
        rw [← rule.ofName?_name, ← r.ofName?_name, hn]))
      rw [if_neg hr, if_neg fun hc => hne (Std.LawfulEqOrd.eq_of_compare hc), Option.none_or]

/-- The ignored effects are those of the rule about unused effects. -/
theorem ignored_of_resolveRules {l : List (String × RuleSettings)}
    (hl : l.Pairwise fun a b => a.1 ≠ b.1) {p q : Policy}
    (h : l.foldlM (fun p (name, s) => resolveRule registry p name s) p = .ok q) :
    match OrderedMap.lookup Rule.effectMinimality.name l with
    | none => q.ignored = p.ignored
    | some s => s.ignoredEffects registry = .ok q.ignored := by
  induction l generalizing p with
  | nil =>
    cases h
    rfl
  | cons e rest ih =>
    obtain ⟨name, s⟩ := e
    rw [List.foldlM_cons] at h
    obtain ⟨next, hnext, hrest⟩ := bind_eq_ok.mp h
    obtain ⟨rule, rfl, -, hset, hkeep⟩ := of_resolveRule hnext
    obtain ⟨hne, hl⟩ := List.pairwise_cons.mp hl
    have hafter := ih hl hrest
    rw [OrderedMap.lookup]
    by_cases hr : rule = .effectMinimality
    · -- no later settings are those of this rule
      subst hr
      have hnone : OrderedMap.lookup Rule.effectMinimality.name rest = none := by
        cases hs : OrderedMap.lookup Rule.effectMinimality.name rest with
        | none => rfl
        | some s' => exact absurd rfl (hne (_, s') (OrderedMap.mem_of_lookup hs))
      rw [hnone] at hafter
      simp only [Std.ReflOrd.compare_self, if_true]
      rw [hafter]
      exact hset rfl
    · have hname : compare Rule.effectMinimality.name rule.name ≠ .eq := fun hc => hr (by
        have hn := Std.LawfulEqOrd.eq_of_compare hc
        exact Option.some.inj (by rw [← rule.ofName?_name, ← hn]; rfl))
      rw [if_neg hname]
      rw [hkeep hr] at hafter
      exact hafter

end Rules

/-! ## Patterns -/

/-- The tests of patterns pass the paths that one of the patterns matches. -/
theorem any_of_mapM_resolveExclude {patterns : List String} {tests : List (Path → Bool)}
    (h : patterns.mapM resolveExclude = .ok tests) (path : Path) :
    tests.any (· path) = true ↔
      ∃ pattern ∈ patterns, ∃ g, Glob.parse pattern = .ok g ∧ g.matches path.text = true := by
  induction patterns generalizing tests with
  | nil =>
    cases h
    simp
  | cons pattern rest ih =>
    rw [List.mapM_cons] at h
    obtain ⟨test, htest, hrest⟩ := bind_eq_ok.mp h
    obtain ⟨tests', htests', heq⟩ := bind_eq_ok.mp hrest
    cases heq
    obtain ⟨g, hparse, rfl⟩ : ∃ g, Glob.parse pattern = .ok g ∧
        test = fun path => g.matches path.text := by
      unfold resolveExclude at htest
      split at htest
      · rename_i g hg
        cases htest
        exact ⟨g, hg, rfl⟩
      · cases htest
    rw [List.any_cons, Bool.or_eq_true, ih htests', List.exists_mem_cons_iff]
    refine or_congr_left ⟨fun ht => ⟨g, hparse, ht⟩, ?_⟩
    rintro ⟨g', hg', ht⟩
    rw [hparse] at hg'
    cases hg'
    exact ht

/-- **A policy answers as its configuration says.** -/
theorem resolved_of_resolve {c : Config} {registry : Registry} {p : Policy}
    (h : c.resolve registry = .ok p) : c.Resolved registry p := by
  obtain ⟨rules, hrules, h⟩ := bind_eq_ok.mp h
  obtain ⟨tests, htests, heq⟩ := bind_eq_ok.mp h
  cases heq
  obtain ⟨hsettings, hthreshold, hfragments⟩ := of_resolveRules hrules
  have hignored := ignored_of_resolveRules c.rules.nodup_entries hrules
  refine ⟨fun r => (hsettings r).trans (Option.none_or), fun path => ?_, fun e => ?_, hthreshold,
    hfragments⟩
  · exact any_of_mapM_resolveExclude htests path
  · show e ∈ rules.ignored ↔ ((c.rules.get? Rule.effectMinimality.name).getD {}).Ignores registry e
    unfold OrderedMap.get?
    cases hs : OrderedMap.lookup Rule.effectMinimality.name c.rules.entries with
    | none =>
      rw [hs] at hignored
      dsimp only at hignored
      rw [hignored]
      refine iff_of_false (EffectSet.not_mem_empty e) ?_
      rintro ⟨items, hitems, -⟩
      cases hitems
    | some s =>
      rw [hs] at hignored
      exact RuleSettings.mem_ignoredEffects hignored

/-- Without rules and patterns there is nothing to check. -/
theorem resolve_withoutRules (c : Config) (registry : Registry) :
    { c with rules := ∅, exclude := [] }.resolve registry =
      .ok { threshold := c.threshold, fragments := c.fragments } := rfl

end Config

end EffectAudit
