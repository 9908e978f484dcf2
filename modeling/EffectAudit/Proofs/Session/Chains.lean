import EffectAudit.Proofs.Effects.Chain
import EffectAudit.Proofs.Session.Incremental

/-!
# Chains in reports

In a program without halted files every function has a body, so the chain that a report shows with a
missing effect either ends in an operation that has the effect or stops where recursion comes back
to one of its functions. The second can happen only where a function calls two members of a group of
functions that call each other.

## Main results

* `Session.chain_ends_in_operation_or_recursion`: where chains lead
* `Session.exists_chain_cut_by_recursion`: a chain that does not get to its operation
-/

namespace EffectAudit.Session

/-- **Chains lead to operations, unless recursion branches.** In a program without halted files, let
an effect be required by a function with a body. Its chain starts at the function, each further
function is called by the one before, and it ends in an operation that has the effect, or it stops
at the first function that it has twice; in that case another function of the same group, which the
chain misses, has the way out. If no function behind calls two different members of its own group,
the chain ends in an operation. The note of a missing effect shows the chain. -/
theorem chain_ends_in_operation_or_recursion (before : Session) (units : List SourceUnit) :
    let s := before.analyze units
    (∀ key file, s.program.get? key = some file → s.graph.isHalted key = false) →
    ∀ f b, s.linked.body? f = some b → ∃ summary, s.summaries.get? f = some summary ∧
      (∀ e, e ∈ summary.required →
        let chain := s.summaries.chain f e
        (∃ rest, chain.functions = f :: rest) ∧ chain.functions.IsChain s.linked.Calls ∧
        (s.linked.EndsInOperation e chain ∨ s.linked.StopsInRecursion e chain) ∧
        (s.linked.Unbranched f → s.linked.EndsInOperation e chain)) ∧
      ∀ ignored, ∀ d ∈ s.linked.effectFaults s.summaries ignored f, d.rule = .effectCompleteness →
        ∃ e, e ∈ summary.required ∧
          d.notes = ["required through " ++ (s.summaries.chain f e).text] := by
  intro s hhalt f b hb
  have hs : s.Current := current_analyze before units
  have hp := hs.closed_linked
  have hf := hp.body f b hb
  have hbodies : ∀ g, s.linked.Reaches f g → ∃ b, s.linked.body? g = some b := fun g hg =>
    hs.toBound.exists_body (hp.mem_functions_of_reaches hg hf) (hhalt g.file)
  refine ⟨_, hs.summaries.get?_of_mem hf, fun e he => ?_, fun ignored d hd hrule => ?_⟩
  · have he := LinkedProgram.mem_requiredEffects.mp he
    refine ⟨(LinkedProgram.follows_chain hp hs.summaries hbodies he).exists_rest,
      LinkedProgram.isChain_calls hp hs.summaries hbodies he,
      LinkedProgram.endsInOperation_or_stopsInRecursion hp hs.summaries hbodies he,
      LinkedProgram.endsInOperation_of_unbranched hp hs.summaries hbodies he⟩
  · obtain ⟨signature, -, summary, e, hsignature, -, hget, he, rfl⟩ :=
      LinkedProgram.of_missingEffect hd hrule
    cases (hs.summaries.get?_of_mem hf).symm.trans hget
    refine ⟨e, he, ?_⟩
    rw [SymbolTable.ref_of_lookup? hsignature]
    rfl

/-! ## A queue -/

/-- A file with three functions that call each other, of which the last one posts. The calls of the
second one are given. -/
def queueUnit (stepBody : List Stmt) : SourceUnit where
  path := ⟨"queue.cdz"⟩
  declarations :=
    [⟨.function { name := "start", returns := .named "Unit", body := callBody { name := "step" } },
        ⟨0, 1, 1⟩⟩,
      ⟨.function { name := "step", returns := .named "Unit", effects := [⟨"Network", ⟨2, 3, 1⟩⟩],
                   body := stepBody }, ⟨1, 2, 1⟩⟩,
      ⟨.function { name := "send", returns := .named "Unit", effects := [⟨"Network", ⟨4, 5, 1⟩⟩],
                   body := callBody { qualifier := some "http", name := "post" }
                     ++ callBody { name := "start" } }, ⟨3, 4, 1⟩⟩]

/-- The session after the analysis of this file. -/
def queueSession (stepBody : List Stmt) : Session :=
  (start .standard {}).analyze [queueUnit stepBody]

/-- The function of the given name in the file. -/
def queueRef (name : String) : FunctionRef := ⟨Path.key ⟨"queue.cdz"⟩, name⟩

theorem chain_ends_in_operation_of_ring :
    let s := queueSession (callBody { name := "send" })
    s.linked.Unbranched (queueRef "start") ∧
    s.linked.EndsInOperation .network (s.summaries.chain (queueRef "start") .network) := by
  intro s
  have hhalt : ∀ key ∈ s.program.keys, s.graph.isHalted key = false := by decide +kernel
  have hunbranched : s.linked.Unbranched (queueRef "start") :=
    LinkedProgram.unbranched_ofBodies (by decide +kernel) _
  obtain ⟨b, hb⟩ : ∃ b, s.linked.body? (queueRef "start") = some b :=
    Option.isSome_iff_exists.mp (by decide +kernel)
  obtain ⟨summary, hget, hchains, -⟩ := chain_ends_in_operation_or_recursion (start .standard {})
    [queueUnit (callBody { name := "send" })]
    (fun key file hfile => hhalt key (OrderedMap.mem_keys.mpr ⟨file, hfile⟩)) _ b hb
  have he : (s.summaries.get? (queueRef "start")).any (·.required.contains .network) = true := by
    decide +kernel
  have hget : s.summaries.get? (queueRef "start") = some summary := hget
  rw [hget] at he
  exact ⟨hunbranched, (hchains _ he).2.2.2 hunbranched⟩

/-- **A chain may come back and miss its operation.** The second function of the file first calls
back the first one, and only then the one that posts. -/
theorem exists_chain_cut_by_recursion :
    ¬ ∀ (registry : Registry) (policy : Policy) (units : List SourceUnit),
      let s := (start registry policy).analyze units
      (∀ key file, s.program.get? key = some file → s.graph.isHalted key = false) →
      ∀ f b, s.linked.body? f = some b → ∀ summary, s.summaries.get? f = some summary →
        ∀ e, e ∈ summary.required → ∃ op, (s.summaries.chain f e).finish = .operation op := by
  intro h
  let s := queueSession (callBody { name := "start" } ++ callBody { name := "send" })
  have hhalt : ∀ key ∈ s.program.keys, s.graph.isHalted key = false := by decide +kernel
  obtain ⟨b, hb⟩ : ∃ b, s.linked.body? (queueRef "start") = some b :=
    Option.isSome_iff_exists.mp (by decide +kernel)
  obtain ⟨summary, hget⟩ : ∃ summary, s.summaries.get? (queueRef "start") = some summary :=
    Option.isSome_iff_exists.mp (by decide +kernel)
  have he : (s.summaries.get? (queueRef "start")).any (·.required.contains .network) = true := by
    decide +kernel
  rw [hget] at he
  obtain ⟨op, hop⟩ := h .standard {}
    [queueUnit (callBody { name := "start" } ++ callBody { name := "send" })]
    (fun key file hfile => hhalt key (OrderedMap.mem_keys.mpr ⟨file, hfile⟩)) _ b hb _ hget _ he
  have hcut : (s.summaries.chain (queueRef "start") .network).finish = .cut := by decide +kernel
  cases hcut.symm.trans hop

end EffectAudit.Session
