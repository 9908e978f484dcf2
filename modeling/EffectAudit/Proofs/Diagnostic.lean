import EffectAudit.Diagnostic.Basic
import EffectAudit.Proofs.Messages
import EffectAudit.Proofs.Sorting

/-!
# Diagnostics in order

The order in which the diagnostics of a file are listed is total and transitive, and diagnostics
that compare alike have the same place, rule and message. The message of a warning about an effect
that is declared and not used says which effect it is.

## Main definitions

* `Diagnostic.IsReport`: a diagnostic as a finding is reported
* `Diagnostic.WarnsOf`, `Diagnostic.WarnsOfAny`: a diagnostic is a warning about the given effect
* `Diagnostic.PlainIn`: a diagnostic in a file that is no such warning

## Main results

* `Diagnostic.atMost_total`, `Diagnostic.atMost_trans`, `Diagnostic.alike_of_atMost`,
  `Diagnostic.order_eq_iff`: the order
* `Diagnostic.warnsOf_report`: a warning is about one effect
-/

namespace EffectAudit

/-! ## The order of listing -/

theorem Rule.rank_inj {r r' : Rule} (h : r.rank = r'.rank) : r = r' := by
  cases r <;> cases r' <;> first | rfl | cases h

namespace Diagnostic

instance : Std.TransCmp order :=
  inferInstanceAs (Std.TransCmp (compareLex (compareLex (compareLex
    (compareOn fun d : Diagnostic => d.location.span.line)
    (compareOn fun d => d.location.span.column)) (compareOn fun d => d.rule.rank))
    (compareOn fun d => d.message)))

theorem atMost_total (a b : Diagnostic) : atMost a b = true ∨ atMost b a = true := by
  have hswap : order b a = (order a b).swap := Std.OrientedCmp.eq_swap
  unfold atMost
  rw [hswap]
  cases order a b <;> simp

theorem atMost_trans (a b c : Diagnostic) (hab : atMost a b = true) (hbc : atMost b c = true) :
    atMost a c = true :=
  Std.TransCmp.isLE_trans hab hbc

/-- Diagnostics that compare alike have the same rule and the same message. -/
theorem alike_of_atMost {a b : Diagnostic} (hab : atMost a b = true) (hba : atMost b a = true) :
    a.rule = b.rule ∧ a.message = b.message := by
  have heq : order a b = .eq := Std.OrientedCmp.isLE_antisymm hab hba
  unfold order at heq
  simp only [Ordering.then_eq_eq] at heq
  obtain ⟨⟨-, hrank⟩, hmessage⟩ := heq
  exact ⟨Rule.rank_inj (Std.LawfulEqOrd.eq_of_compare hrank),
    Std.LawfulEqOrd.eq_of_compare hmessage⟩

/-- What diagnostics that compare alike have in common. -/
theorem order_eq_iff {a b : Diagnostic} :
    order a b = .eq ↔ a.location.span.line = b.location.span.line ∧
      a.location.span.column = b.location.span.column ∧ a.rule = b.rule ∧
      a.message = b.message := by
  unfold order
  simp only [Ordering.then_eq_eq, Std.LawfulEqOrd.compare_eq_iff_eq]
  constructor
  · rintro ⟨⟨⟨hline, hcolumn⟩, hrank⟩, hmessage⟩
    exact ⟨hline, hcolumn, Rule.rank_inj hrank, hmessage⟩
  · rintro ⟨hline, hcolumn, hrule, hmessage⟩
    exact ⟨⟨⟨hline, hcolumn⟩, congrArg Rule.rank hrule⟩, hmessage⟩

theorem atMost_of_order_eq {a b : Diagnostic} (h : order a b = .eq) :
    atMost a b = true ∧ atMost b a = true := by
  have hswap : order b a = (order a b).swap := Std.OrientedCmp.eq_swap
  unfold atMost
  rw [hswap, h]
  exact ⟨rfl, rfl⟩

/-- A diagnostic is the report of a finding as it was made: it has the severity of its rule, and the
text of its line is not looked up. -/
def IsReport (d : Diagnostic) : Prop :=
  ∃ (finding : Finding) (file : Path) (span : Span), d = finding.report file span

end Diagnostic

theorem Finding.isReport_report (finding : Finding) (file : Path) (span : Span) :
    (finding.report file span).IsReport := ⟨finding, file, span, rfl⟩

/-! ## Warnings about unused effects -/

namespace Diagnostic

/-- A diagnostic is a warning that the given effect is declared and not used. -/
def WarnsOf (d : Diagnostic) (e : Effect) : Prop :=
  d.rule = .effectMinimality ∧ ∃ function, d.message = (Finding.unusedEffect function e).message

/-- A diagnostic is a warning about one of the given effects. -/
def WarnsOfAny (d : Diagnostic) (effects : EffectSet) : Prop := ∃ e, e ∈ effects ∧ d.WarnsOf e

/-- A diagnostic in the given file that is no warning about unused effects. -/
structure PlainIn (path : Path) (d : Diagnostic) : Prop where
  file : d.location.file = path
  rule : d.rule ≠ .effectMinimality

theorem warnsOf_report {function : String} {e e' : Effect} {path : Path} {span : Span} :
    ((Finding.unusedEffect function e).report path span).WarnsOf e' ↔ e = e' := by
  constructor
  · rintro ⟨-, function', hmessage⟩
    exact (Finding.eq_of_message_unusedEffect hmessage).2
  · rintro rfl
    exact ⟨rfl, function, rfl⟩

theorem warnsOfAny_report {function : String} {e : Effect} {path : Path} {span : Span}
    {effects : EffectSet} :
    ((Finding.unusedEffect function e).report path span).WarnsOfAny effects ↔ e ∈ effects := by
  unfold WarnsOfAny
  simp only [warnsOf_report]
  exact ⟨fun ⟨_, he, heq⟩ => heq ▸ he, fun he => ⟨e, he, rfl⟩⟩

theorem PlainIn.not_warnsOfAny {path : Path} {d : Diagnostic} (h : d.PlainIn path)
    (effects : EffectSet) : ¬ d.WarnsOfAny effects :=
  fun ⟨_, _, hw⟩ => h.rule hw.1

/-- Diagnostics that compare alike warn of the same effects. -/
theorem warnsOfAny_congr {a b : Diagnostic} (hab : atMost a b = true) (hba : atMost b a = true)
    (effects : EffectSet) : a.WarnsOfAny effects ↔ b.WarnsOfAny effects := by
  obtain ⟨hrule, hmessage⟩ := alike_of_atMost hab hba
  unfold WarnsOfAny WarnsOf
  rw [hrule, hmessage]

end Diagnostic

end EffectAudit
