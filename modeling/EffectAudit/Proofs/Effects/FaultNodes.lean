import EffectAudit.Effects.Verdict
import EffectAudit.Proofs.Nodes

/-!
# Faults in effects are different

Of the faults in the effects of a function each is reported once, if the tokens of its `uses` clause
stand at different places. Functions with different names have no fault in common, if their calls
stand at different places.

## Main definitions

* `LinkedProgram.IsEffectFault`: the faults that a function may have

## Main results

* `LinkedProgram.isEffectFault_of_mem`: the faults of a function are of these kinds
* `LinkedProgram.IsEffectFault.same`: faults that functions have in common
* `LinkedProgram.nodup_effectFaults`: no fault of a function is reported twice
-/

namespace EffectAudit.LinkedProgram

variable {p : LinkedProgram} {summaries : Summaries} {ignored : EffectSet} {f : FunctionRef}

/-- The fault of a function with the given signature and body: a call that brings effects to a pure
function, a `uses` clause of one, an effect that is missing, or a token that is not used. -/
def IsEffectFault (s : Signature) (body : BoundFunction) (d : Diagnostic) : Prop :=
  (∃ c ∈ body.calls, ∃ callee effects,
    d = (Finding.pureCallsEffectful s.name callee effects).report s.path c.span) ∨
  (∃ declared span, d = (Finding.pureDeclaresEffects s.name declared).report s.path span) ∨
  (∃ e chain suggested span,
    d = (Finding.missingEffect s.name e chain suggested).report s.path span) ∨
  ∃ t ∈ s.tokens, ∃ e, d = (Finding.unusedEffect s.name e).report s.path t.span

theorem isEffectFault_of_mem_impurity? {s : Signature} {body : BoundFunction}
    {summary : EffectSummary} {d : Diagnostic}
    (h : d ∈ (p.impurity? summaries s body summary).toList) : IsEffectFault s body d := by
  have h := Option.mem_toList.mp h
  unfold impurity? at h
  dsimp only at h
  split at h
  · rename_i c hc
    cases h
    split at hc
    · cases hc
    · exact .inl ⟨c, List.mem_of_find?_eq_some hc, _, _, rfl⟩
  · split at h
    · cases h
    · cases h
      exact .inr (.inl ⟨_, _, rfl⟩)

theorem mem_unusedEffects_cases {s : Signature} {summary : EffectSummary} {d : Diagnostic}
    (h : d ∈ p.unusedEffects ignored s summary) :
    ∃ t ∈ s.tokens, ∃ e, d = (Finding.unusedEffect s.name e).report s.path t.span := by
  unfold unusedEffects at h
  split at h
  · obtain ⟨t, ht, h⟩ := List.mem_filterMap.mp h
    split at h
    · cases h
    · split at h
      · cases h
      · cases h
        exact ⟨t, ht, _, rfl⟩
  · exact absurd h List.not_mem_nil

theorem isEffectFault_of_mem {d : Diagnostic} (h : d ∈ p.effectFaults summaries ignored f) :
    ∃ s body, p.signature? f = some s ∧ p.body? f = some body ∧ IsEffectFault s body d := by
  unfold effectFaults at h
  split at h
  · rename_i s body summary hs hbody _
    refine ⟨s, body, hs, hbody, ?_⟩
    split at h
    · exact absurd h List.not_mem_nil
    · split at h
      · exact isEffectFault_of_mem_impurity? h
      · rcases List.mem_append.mp h with h | h
        · obtain ⟨e, -, rfl⟩ := List.mem_map.mp h
          exact .inr (.inr (.inl ⟨_, _, _, _, rfl⟩))
        · exact .inr (.inr (.inr (mem_unusedEffects_cases h)))
  · exact absurd h List.not_mem_nil

theorem IsEffectFault.reportedBy {s : Signature} {body : BoundFunction} {d : Diagnostic}
    (h : IsEffectFault s body d) : d.ReportedBy .effects := by
  rcases h with ⟨_, -, _, _, rfl⟩ | ⟨_, _, rfl⟩ | ⟨_, _, _, _, rfl⟩ | ⟨_, -, _, rfl⟩ <;>
    exact Finding.reportedBy_report rfl _ _

theorem eq_of_report_missingEffect {name name' chain chain' : String} {e e' : Effect}
    {suggested suggested' : EffectSet} {path path' : Path} {span span' : Span}
    (h : (Finding.missingEffect name e chain suggested).report path span =
      (Finding.missingEffect name' e' chain' suggested').report path' span') :
    name = name' ∧ e = e' := by
  have hmessage : (Finding.missingEffect name e chain suggested).message =
    (Finding.missingEffect name' e' chain' suggested').message := congrArg Diagnostic.message h
  exact Finding.eq_of_message_missingEffect hmessage

/-- Two functions with a common fault have the same name, or calls of theirs stand at one place. -/
theorem IsEffectFault.same {s s' : Signature} {body body' : BoundFunction} {d : Diagnostic}
    (h : IsEffectFault s body d) (h' : IsEffectFault s' body' d) :
    s.name = s'.name ∨ ∃ c ∈ body.calls, ∃ c' ∈ body'.calls, c.span = c'.span := by
  -- the rule tells the kind of fault but for the two of pure functions, and the message the rest
  rcases h with ⟨c, hc, _, _, rfl⟩ | ⟨_, _, rfl⟩ | ⟨_, _, _, _, rfl⟩ | ⟨_, -, _, rfl⟩
  · rcases h' with ⟨c', hc', _, _, h'⟩ | ⟨_, _, h'⟩ | ⟨_, _, _, _, h'⟩ | ⟨_, -, _, h'⟩
    · exact .inr ⟨c, hc, c', hc', congrArg (·.location.span) h'⟩
    · exact absurd (congrArg Diagnostic.message h') Finding.message_pureCallsEffectful_ne
    · cases congrArg Diagnostic.rule h'
    · cases congrArg Diagnostic.rule h'
  · rcases h' with ⟨_, -, _, _, h'⟩ | ⟨_, _, h'⟩ | ⟨_, _, _, _, h'⟩ | ⟨_, -, _, h'⟩
    · exact absurd (congrArg Diagnostic.message h').symm Finding.message_pureCallsEffectful_ne
    · exact .inl (Finding.eq_of_message_pureDeclaresEffects (congrArg Diagnostic.message h'))
    · cases congrArg Diagnostic.rule h'
    · cases congrArg Diagnostic.rule h'
  · rcases h' with ⟨_, -, _, _, h'⟩ | ⟨_, _, h'⟩ | ⟨_, _, _, _, h'⟩ | ⟨_, -, _, h'⟩
    · cases congrArg Diagnostic.rule h'
    · cases congrArg Diagnostic.rule h'
    · exact .inl (eq_of_report_missingEffect h').1
    · cases congrArg Diagnostic.rule h'
  · rcases h' with ⟨_, -, _, _, h'⟩ | ⟨_, _, h'⟩ | ⟨_, _, _, _, h'⟩ | ⟨_, -, _, h'⟩
    · cases congrArg Diagnostic.rule h'
    · cases congrArg Diagnostic.rule h'
    · cases congrArg Diagnostic.rule h'
    · exact .inl (Finding.eq_of_message_unusedEffect (congrArg Diagnostic.message h')).1

theorem nodup_missingEffects (s : Signature) (summary : EffectSummary) :
    (missingEffects summaries s summary).Nodup := by
  have hall : Effect.all.Nodup := by decide
  refine (hall.filter _).map_on fun e _ e' _ h => ?_
  exact (eq_of_report_missingEffect h).2

theorem nodes_unusedEffects (s : Signature) (summary : EffectSummary) :
    ((p.unusedEffects ignored s summary).map (·.node)).Sublist
      (s.tokens.map (·.span.node .token)) := by
  unfold unusedEffects
  split
  · rw [List.map_filterMap, List.filterMap_eq_flatMap_toList, List.map_eq_flatMap]
    refine List.Sublist.flatMap_right _ fun t _ => ?_
    split
    · exact List.nil_sublist _
    · split
      · exact List.nil_sublist _
      · rw [Option.map_some, Option.toList_some, Finding.node_report]
        exact .refl _
  · exact List.nil_sublist _

/-- The faults of a function are different, if the tokens of its `uses` clause stand apart. -/
theorem nodup_effectFaults {s : Signature} (hs : p.signature? f = some s)
    (htokens : (s.tokens.map (·.span.node .token)).Nodup) :
    (p.effectFaults summaries ignored f).Nodup := by
  unfold effectFaults
  rw [hs]
  split
  · rename_i s' body summary hs' _ _
    cases hs'
    split
    · exact .nil
    · split
      · exact Option.toList_nodup _
      · refine List.nodup_append.mpr ⟨nodup_missingEffects s summary,
          ((nodes_unusedEffects s summary).nodup htokens).of_map _, fun d hd d' hd' heq => ?_⟩
        obtain ⟨e, -, rfl⟩ := List.mem_map.mp hd
        obtain ⟨t, -, e', rfl⟩ := mem_unusedEffects_cases hd'
        cases congrArg Diagnostic.rule heq
  · exact .nil

end EffectAudit.LinkedProgram
