import EffectAudit.Proofs.Locality
import EffectAudit.Proofs.Session.Edit

/-!
# Analysis after an edit

The part of a session that is found anew after an edit is all that the edit can have changed. Files
that are not bound again keep their bindings. A function that does not come to call into a file that
was bound again reaches the same functions with the same bodies as before, so it keeps its summary
and its faults; and so on up to the diagnostics of files.

## Main results

* `Session.Editable.bound_rebound`, `Session.Editable.verified_reverified`,
  `Session.Editable.current_change`: the stages of an analysis after an edit
* `Session.Editable.diagnosticsOf_eq`: files that are not reported keep their diagnostics
-/

namespace EffectAudit.Session

/-! ## The stages after an edit -/

/-- The session after these files were bound. -/
def rebound (s : Session) (path : Path) (unit : SourceUnit) : Session :=
  (s.replaceFile path unit).bind (s.boundAgain path unit)

/-- The functions that are checked again. -/
def checkedAgain (s : Session) (path : Path) (unit : SourceUnit) : List FunctionRef :=
  (s.rebound path unit).affected (s.boundAgain path unit)

/-- The files whose results are checked again. -/
def dischargedAgain (s : Session) (path : Path) (unit : SourceUnit) : FileSet :=
  s.toDischarge (s.rebound path unit) path (s.boundAgain path unit)

/-- The session after functions and results were checked. -/
def reverified (s : Session) (path : Path) (unit : SourceUnit) : Session :=
  (s.rebound path unit).verify (s.checkedAgain path unit) (s.dischargedAgain path unit)

/-- The files that are published again. -/
def publishedAgain (s : Session) (path : Path) (unit : SourceUnit) : FileSet :=
  s.toPublish (s.reverified path unit) (s.boundAgain path unit) (s.dischargedAgain path unit)
    (s.checkedAgain path unit)

theorem change_fst (s : Session) (path : Path) (unit : SourceUnit) :
    (s.change path unit).1 =
      (s.reverified path unit).publish (s.publishedAgain path unit) := by
  dsimp only [change, reverified, publishedAgain, dischargedAgain, checkedAgain, rebound,
    boundAgain]

/-- Replacing a file leaves bindings and results to be found anew as they are. -/
theorem replaceFile_frame (s : Session) (path : Path) (unit : SourceUnit) :
    (s.replaceFile path unit).bindings = s.bindings ∧
      (s.replaceFile path unit).discharge = s.discharge := by
  dsimp only [replaceFile]
  exact ⟨rfl, rfl⟩

/-- What binding leaves as it was. -/
structure ReboundFrame (s : Session) (path : Path) (unit : SourceUnit) : Prop where
  registry : (s.rebound path unit).registry = s.registry
  policy : (s.rebound path unit).policy = s.policy
  program : (s.rebound path unit).program = (s.replaceFile path unit).program
  graph : (s.rebound path unit).graph = (s.replaceFile path unit).graph
  symbols : (s.rebound path unit).symbols = (s.replaceFile path unit).symbols
  published : (s.rebound path unit).published = s.published

theorem rebound_frame (s : Session) (path : Path) (unit : SourceUnit) :
    s.ReboundFrame path unit := by
  constructor <;> (unfold rebound; rw [bind_eq])
  all_goals rfl

/-- The functions that an edit removes. -/
def functionsGone (s : Session) (path : Path) (unit : SourceUnit) : List FunctionRef :=
  (s.symbols.functionsIn path.key).filter fun f =>
    decide (f ∉ (s.replaceFile path unit).symbols.functionsIn path.key)

theorem rebound_findings (s : Session) (path : Path) (unit : SourceUnit) :
    (s.rebound path unit).summaries =
        s.summaries.filter (fun f _ => f ∉ s.functionsGone path unit) ∧
      (s.rebound path unit).effectFaults =
        s.effectFaults.filter fun f _ => f ∉ s.functionsGone path unit := by
  unfold rebound
  rw [bind_eq]
  exact ⟨rfl, rfl⟩

theorem scope_rebound (s : Session) (path : Path) (unit : SourceUnit) (key : FileKey) :
    (s.rebound path unit).scope key = (s.replaceFile path unit).scope key := by
  have hframe := rebound_frame s path unit
  unfold scope
  rw [hframe.registry, hframe.graph, hframe.symbols]
  rfl

theorem lookup?_rebound {s : Session} {path : Path} {unit : SourceUnit} {f : FunctionRef}
    (hf : f.file ≠ path.key) :
    (s.rebound path unit).symbols.lookup? f = s.symbols.lookup? f := by
  rw [(rebound_frame s path unit).symbols]
  exact lookup?_replaceFile hf

namespace Editable

variable {s : Session} {path : Path} {unit : SourceUnit} (h : s.Editable path unit)

include h

/-! ## After binding -/

theorem path_of_binding {key : FileKey} {e : Path × FileBinding} {f : SourceFile}
    (he : (s.replaceFile path unit).bindings.get? key = some e)
    (hf : (s.replaceFile path unit).program.get? key = some f) : e.1 = f.path := by
  have he' : s.bindings.get? key = some e := he
  rw [h.current.bindings] at he'
  obtain ⟨f', hf', -, rfl⟩ := Loaded.freshBinding?_eq_some_iff.mp he'
  obtain ⟨f'', hf'', hpath⟩ := h.replaceable.exists_file unit hf'
  rw [hf] at hf''
  cases hf''
  exact hpath.symm

theorem bound_rebound : (s.rebound path unit).Bound :=
  bound_bind h.replaceable.lists_boundAgain h.loaded_replaceFile (fun _ _ _ => h.path_of_binding)
    fun key hkey => (h.current.bindings key).trans
      (h.replaceable.freshBinding?_eq hkey (h.inOwnModule key)).symm

theorem get?_bindings_rebound {key : FileKey}
    (hkey : (s.boundAgain path unit).contains key = false) :
    (s.rebound path unit).bindings.get? key = s.bindings.get? key := by
  unfold rebound
  rw [get?_bindings_bind h.replaceable.lists_boundAgain fun _ _ _ => h.path_of_binding, hkey,
    (replaceFile_frame s path unit).1, if_neg Bool.false_ne_true]

/-! ## Functions that are not checked again -/

/-- Of a function in a file that was not bound again the same is known as before. -/
theorem sameAt {g : FunctionRef} (hg : (s.boundAgain path unit).contains g.file = false) :
    (s.rebound path unit).linked.SameAt s.linked g := by
  constructor
  · rw [h.bound_rebound.body?_linked, h.current.body?_linked, h.get?_bindings_rebound hg]
  · exact lookup?_rebound (ne_of_not_bound hg)

/-- A function in a file that was not bound again calls no function of the edited file. -/
theorem file_ne_of_calls {f g : FunctionRef}
    (hf : (s.boundAgain path unit).contains f.file = false)
    (hcall : (s.rebound path unit).linked.Calls f g) : g.file ≠ path.key := by
  obtain ⟨b, hb, -⟩ := hcall.exists_body
  obtain ⟨file, hfile, -⟩ := h.bound_rebound.exists_decl.mp hb
  rw [(rebound_frame s path unit).program] at hfile
  have hvis := (h.bound_rebound.visible_of_calls hcall).2
  rw [scope_rebound] at hvis
  -- the called function is in the file itself or in a module that the file sees
  rcases hvis with hown | ⟨m, hm, hmem⟩
  · rw [hown]
    exact ne_of_not_bound hf
  · have ht := h.replaceable.not_touches_of_sees hf hfile (h.inOwnModule _ _ hfile) hm
    exact h.replaceable.ne_of_mem_filesOf ht hmem

theorem mem_checkedAgain_iff {f : FunctionRef} :
    f ∈ s.checkedAgain path unit ↔ ∃ g, (s.boundAgain path unit).contains g.file = true ∧
      g ∈ (s.rebound path unit).symbols.functions ∧ (s.rebound path unit).linked.Reaches f g := by
  have hb := h.bound_rebound
  unfold checkedAgain affected
  rw [hb.closed_linked.mem_callersOf_iff]
  refine exists_congr fun g => ?_
  rw [List.mem_flatMap]
  constructor
  · rintro ⟨⟨key, hkey, hg⟩, hr⟩
    obtain ⟨hfun, rfl⟩ := SymbolTable.mem_functionsIn_iff.mp hg
    exact ⟨OrderedMap.contains_iff.mpr (OrderedMap.mem_keys.mp hkey), hfun, hr⟩
  · rintro ⟨hc, hfun, hr⟩
    have hkey := OrderedMap.mem_keys.mpr (OrderedMap.contains_iff.mp hc)
    exact ⟨⟨g.file, hkey, SymbolTable.mem_functionsIn_iff.mpr ⟨hfun, rfl⟩⟩, hr⟩

section NotChecked

variable {f : FunctionRef} (hf : f ∈ (s.rebound path unit).symbols.functions)
  (hn : f ∉ s.checkedAgain path unit)

include hf hn

/-- What a function reaches that is not checked again is in files that were not bound again. -/
theorem not_bound_of_reaches {g : FunctionRef} (hr : (s.rebound path unit).linked.Reaches f g) :
    (s.boundAgain path unit).contains g.file = false := by
  by_contra hc
  refine hn (h.mem_checkedAgain_iff.mpr ⟨g, by simpa using hc, ?_, hr⟩)
  exact h.bound_rebound.closed_linked.mem_functions_of_reaches hr hf

theorem sameAt_of_reaches {g : FunctionRef} (hr : (s.rebound path unit).linked.Reaches f g) :
    (s.rebound path unit).linked.SameAt s.linked g :=
  h.sameAt (h.not_bound_of_reaches hf hn hr)

theorem mem_functions_before : f ∈ s.symbols.functions := by
  obtain ⟨sig, hs⟩ := SymbolTable.mem_functions_iff.mp hf
  rw [lookup?_rebound (ne_of_not_bound (h.not_bound_of_reaches hf hn .refl))] at hs
  exact SymbolTable.mem_functions_iff.mpr ⟨sig, hs⟩

theorem exactSummary_eq :
    (s.rebound path unit).linked.exactSummary f = s.linked.exactSummary f :=
  LinkedProgram.exactSummary_congr (rebound_frame s path unit).registry
    fun _ hr => h.sameAt_of_reaches hf hn hr

omit hf in
/-- What a function calls that is not checked again is not checked again. -/
theorem not_checked_of_reaches {g : FunctionRef}
    (hr : (s.rebound path unit).linked.Reaches f g) : g ∉ s.checkedAgain path unit := by
  intro hg
  obtain ⟨k, hc, hk, hgk⟩ := h.mem_checkedAgain_iff.mp hg
  exact hn (h.mem_checkedAgain_iff.mpr ⟨k, hc, hk, hr.trans hgk⟩)

end NotChecked

/-! ## Functions that are gone -/

omit h in
theorem mem_functionsGone_iff {f : FunctionRef} :
    f ∈ s.functionsGone path unit ↔ f ∈ s.symbols.functions ∧ f.file = path.key ∧
      f ∉ (s.rebound path unit).symbols.functions := by
  unfold functionsGone
  rw [List.mem_filter, SymbolTable.mem_functionsIn_iff, decide_eq_true_eq,
    SymbolTable.mem_functionsIn_iff, (rebound_frame s path unit).symbols, and_assoc]
  exact and_congr_right fun _ => and_congr_right fun hk => not_congr (and_iff_left hk)

section Gone

variable {α : Type} {m : OrderedMap FunctionRef α} {f : FunctionRef}

omit h

theorem get?_filter_of_mem (hf : f ∈ (s.rebound path unit).symbols.functions) :
    (m.filter fun f _ => f ∉ s.functionsGone path unit).get? f = m.get? f := by
  have hn : f ∉ s.functionsGone path unit := fun hg => (mem_functionsGone_iff.mp hg).2.2 hf
  rw [OrderedMap.get?_filter]
  cases m.get? f <;> simp [hn]

/-- What was known of functions that are in the table no more is dropped. -/
theorem get?_filter_of_not_mem (hf : f ∉ (s.rebound path unit).symbols.functions)
    (hm : f ∉ s.symbols.functions → m.get? f = none) :
    (m.filter fun f _ => f ∉ s.functionsGone path unit).get? f = none := by
  rw [OrderedMap.get?_filter]
  by_cases hs : f ∈ s.symbols.functions
  · -- a function that is in the table no more was declared in the edited file
    have hfile : f.file = path.key := by
      by_contra hne
      obtain ⟨sig, hsig⟩ := SymbolTable.mem_functions_iff.mp hs
      rw [← lookup?_rebound hne] at hsig
      exact hf (SymbolTable.mem_functions_iff.mpr ⟨sig, hsig⟩)
    have hg := mem_functionsGone_iff.mpr ⟨hs, hfile, hf⟩
    cases m.get? f <;> simp [hg]
  · rw [hm hs]
    rfl

end Gone

/-! ## After verification -/

theorem get?_summaries_of_mem {f : FunctionRef} (hf : f ∈ (s.rebound path unit).symbols.functions)
    (hn : f ∉ s.checkedAgain path unit) :
    (s.rebound path unit).summaries.get? f =
      some ((s.rebound path unit).linked.exactSummary f) := by
  rw [(rebound_findings s path unit).1, get?_filter_of_mem hf,
    h.current.summaries.get?_of_mem (h.mem_functions_before hf hn), h.exactSummary_eq hf hn]

theorem get?_summaries_of_not_mem {f : FunctionRef}
    (hf : f ∉ (s.rebound path unit).symbols.functions) :
    (s.rebound path unit).summaries.get? f = none := by
  rw [(rebound_findings s path unit).1]
  exact get?_filter_of_not_mem hf fun hs => h.current.summaries.get?_of_not_mem hs

theorem exactSummaries_refresh : (s.rebound path unit).linked.ExactSummaries
    ((s.rebound path unit).refreshSummaries (s.rebound path unit).linked
      (s.checkedAgain path unit)) := by
  have hclosed := h.bound_rebound.closed_linked
  unfold refreshSummaries
  exact hclosed.exactSummaries_refresh hclosed.calleesFirst_groups
    (fun _ => h.get?_summaries_of_mem) fun _ => h.get?_summaries_of_not_mem

/-- A function that is not checked again keeps its faults. -/
theorem faultsOf_eq {f : FunctionRef} (hf : f ∈ (s.rebound path unit).symbols.functions)
    (hn : f ∉ s.checkedAgain path unit) :
    (s.rebound path unit).faultsOf (s.rebound path unit).linked
        ((s.rebound path unit).refreshSummaries (s.rebound path unit).linked
          (s.checkedAgain path unit)) f =
      s.faultsOf s.linked s.summaries f := by
  have hexact := h.exactSummaries_refresh
  -- what the function reaches is not checked again either, and its summaries were exact before
  have hsum : ∀ g, (s.rebound path unit).linked.Reaches f g →
      ((s.rebound path unit).refreshSummaries (s.rebound path unit).linked
        (s.checkedAgain path unit)).get? g = s.summaries.get? g := by
    intro g hr
    have hg := h.bound_rebound.closed_linked.mem_functions_of_reaches hr hf
    have hng := h.not_checked_of_reaches hn hr
    rw [hexact.get?_of_mem hg, h.current.summaries.get?_of_mem (h.mem_functions_before hg hng),
      h.exactSummary_eq hg hng]
  have hfaults := LinkedProgram.effectFaults_congr (rebound_frame s path unit).registry
    (fun _ hr => h.sameAt_of_reaches hf hn hr) hsum hexact
    s.policy.ignored
  unfold faultsOf
  rw [lookup?_rebound (ne_of_not_bound (h.not_bound_of_reaches hf hn .refl)),
    (rebound_frame s path unit).policy, hfaults]

omit h in
theorem faultsOf_of_not_mem {t : Session} {p : LinkedProgram}
    {m : LinkedProgram.Summaries} {f : FunctionRef} (hf : f ∉ t.symbols.functions) :
    t.faultsOf p m f = [] := by
  have hl : t.symbols.lookup? f = none := by
    by_contra hne
    exact hf (SymbolTable.mem_functions_iff.mpr (Option.ne_none_iff_exists'.mp hne))
  unfold faultsOf
  rw [hl]

theorem get?_effectFaults {f : FunctionRef} (hn : f ∉ s.checkedAgain path unit)
    (files : FileSet) :
    (s.rebound path unit).effectFaults.get? f =
      ((s.rebound path unit).verify (s.checkedAgain path unit) files).freshFaults? f := by
  rw [(rebound_findings s path unit).2, freshFaults?_verify]
  by_cases hf : f ∈ (s.rebound path unit).symbols.functions
  · rw [h.faultsOf_eq hf hn, get?_filter_of_mem hf, h.current.faults f]
    dsimp only [freshFaults?]
  · rw [faultsOf_of_not_mem hf]
    refine get?_filter_of_not_mem hf fun hs => ?_
    rw [h.current.faults f]
    unfold freshFaults?
    rw [faultsOf_of_not_mem hs]
    rfl

theorem lists_boundAgain_rebound :
    (s.rebound path unit).program.Lists (s.boundAgain path unit) := by
  rw [(rebound_frame s path unit).program]
  exact h.replaceable.lists_boundAgain

theorem lists_dischargedAgain :
    (s.rebound path unit).program.Lists (s.dischargedAgain path unit) := by
  unfold dischargedAgain toDischarge
  split
  · exact Program.lists_files _
  · exact h.lists_boundAgain_rebound

/-- A file that is not discharged again is not bound again, and either the conversions of errors are
the same as before or the file is not there. -/
theorem of_not_discharged {key : FileKey}
    (hkey : (s.dischargedAgain path unit).contains key = false) :
    (s.boundAgain path unit).contains key = false ∧
      ((s.rebound path unit).program.get? key = none ∨
        (s.rebound path unit).symbols.conversionSet path.key =
          s.symbols.conversionSet path.key) := by
  unfold dischargedAgain toDischarge at hkey
  split at hkey
  · -- the conversions have changed, and then all files are discharged again
    have hnone := not_contains_files hkey
    refine ⟨?_, .inl hnone⟩
    by_contra hc
    obtain ⟨p, hp⟩ := OrderedMap.contains_iff.mp (by simpa using hc)
    obtain ⟨f, hf, -⟩ := h.lists_boundAgain_rebound key p hp
    rw [hnone] at hf
    cases hf
  · rename_i hconv
    exact ⟨hkey, .inr (not_not.mp hconv)⟩

omit h in
theorem converts_eq (hconv : (s.rebound path unit).symbols.conversionSet path.key =
    s.symbols.conversionSet path.key) :
    (s.rebound path unit).symbols.converts = s.symbols.converts := by
  refine SymbolTable.converts_congr fun key c => ?_
  by_cases hk : key = path.key
  · rw [hk, ← SymbolTable.mem_conversionSet, hconv, SymbolTable.mem_conversionSet]
  · rw [(rebound_frame s path unit).symbols,
      SymbolTable.conversionsIn_congr (get?_symbols_replaceFile hk)]

theorem get?_program_rebound {key : FileKey} (hk : key ≠ path.key) :
    (s.rebound path unit).program.get? key = s.program.get? key := by
  rw [(rebound_frame s path unit).program]
  exact h.replaceable.get?_program_of_ne unit hk

theorem binding?_rebound {key : FileKey}
    (hkey : (s.boundAgain path unit).contains key = false) :
    (s.rebound path unit).binding? key = s.binding? key := by
  unfold binding?
  rw [h.get?_bindings_rebound hkey]

/-- A file that is not bound again keeps its results, unless conversions of errors have changed. -/
theorem freshDischarge?_eq {key : FileKey}
    (hkey : (s.boundAgain path unit).contains key = false)
    (hconv : (s.rebound path unit).symbols.conversionSet path.key =
      s.symbols.conversionSet path.key) :
    (s.rebound path unit).freshDischarge? key = s.freshDischarge? key := by
  unfold freshDischarge?
  rw [h.get?_program_rebound (ne_of_not_bound hkey), (rebound_frame s path unit).policy,
    h.binding?_rebound hkey]
  cases hf : s.program.get? key with
  | none => simp only [Option.bind_none]
  | some f =>
    cases hb : s.bindings.get? key with
    | none =>
      unfold binding?
      rw [hb]
      simp only [Option.map_none]
    | some e =>
      have hdis : (s.rebound path unit).linked.fileDischarge e.2 f.unit =
          s.linked.fileDischarge e.2 f.unit := by
        refine LinkedProgram.fileDischarge_congr (converts_eq hconv) (fun name => ?_) ?_
        · rw [h.current.listed.unit_key hf]
          exact lookup?_rebound (ne_of_not_bound hkey)
        · intro b hb' g hg
          -- what the file calls is not in the edited file
          have he := (h.get?_bindings_rebound hkey).trans hb
          obtain ⟨rfl, hcall⟩ := h.bound_rebound.calls_of_mem he hb' hg
          exact lookup?_rebound (h.file_ne_of_calls hkey hcall)
      unfold binding?
      rw [hb]
      dsimp only [Option.bind_some, Option.map_some]
      rw [hdis]

omit h in
theorem get?_discharge_rebound (key : FileKey) :
    (s.rebound path unit).discharge.get? key =
      if (s.boundAgain path unit).contains key = true ∧
        (s.replaceFile path unit).freshBinding? key = none then none
      else s.discharge.get? key := by
  unfold rebound
  rw [get?_discharge_bind, (replaceFile_frame s path unit).2]

omit h in
theorem freshDischarge?_eq_none_iff {t : Session} {key : FileKey} :
    t.freshDischarge? key = none ↔ ∀ f, t.program.get? key = some f →
      t.policy.isExcluded f.path = true ∨ t.bindings.get? key = none := by
  unfold freshDischarge? binding?
  cases t.program.get? key with
  | none => simp
  | some f =>
    cases hex : t.policy.isExcluded f.path <;> simp [hex]

/-- Nothing is left of the results of a file of which there should be none. -/
theorem get?_discharge_of_none {key : FileKey}
    (hnone : (s.rebound path unit).freshDischarge? key = none) :
    (s.rebound path unit).discharge.get? key = none := by
  rw [get?_discharge_rebound]
  split
  · rfl
  · rename_i hc
    rw [h.current.discharge key, freshDischarge?_eq_none_iff]
    intro f hf
    obtain ⟨f', hf', hpath⟩ := h.replaceable.exists_file unit hf
    rw [← (rebound_frame s path unit).program] at hf'
    have hcases := freshDischarge?_eq_none_iff.mp hnone f' hf'
    rw [(rebound_frame s path unit).policy, hpath] at hcases
    refine hcases.imp_right fun hb => ?_
    -- a file that lost its binding was bound again, and then its results were dropped
    by_cases hbound : (s.boundAgain path unit).contains key = true
    · refine absurd ⟨hbound, ?_⟩ hc
      rw [← freshBinding?_bind (s.replaceFile path unit) (s.boundAgain path unit)]
      exact (h.bound_rebound.bindings key).symm.trans hb
    · rwa [h.get?_bindings_rebound (by simpa using hbound)] at hb

/-- Verification after an edit brings effects and results up to date. -/
theorem verified_reverified : (s.reverified path unit).Verified := by
  refine verified_verify h.bound_rebound h.lists_dischargedAgain (fun _ => h.get?_summaries_of_mem)
    (fun _ => h.get?_summaries_of_not_mem) (fun _ hn => h.get?_effectFaults hn _) fun key hkey => ?_
  by_cases hnone : (s.rebound path unit).freshDischarge? key = none
  · rw [hnone]
    exact h.get?_discharge_of_none hnone
  · rcases hkey with hkey | hkey
    · obtain ⟨hbound, hprogram | hconv⟩ := h.of_not_discharged hkey
      · -- the file is not there, so it has no results
        refine absurd ?_ hnone
        unfold freshDischarge?
        rw [hprogram]
        rfl
      · -- the file was not bound again, and its results are those from before
        rw [h.freshDischarge?_eq hbound hconv, ← h.current.discharge key]
        rw [get?_discharge_rebound, if_neg fun hc => by rw [hbound] at hc; cases hc.1]
    · exact absurd hkey hnone

/-! ## After publication -/

omit h in
theorem sameProgram_reverified : (s.reverified path unit).SameProgram (s.rebound path unit) :=
  sameProgram_verify _ _ _

theorem path_of_lookup? {f : FunctionRef} {sig : Signature}
    (hs : (s.reverified path unit).symbols.lookup? f = some sig) :
    ∃ file, (s.rebound path unit).program.get? f.file = some file ∧ file.path = sig.path := by
  rw [sameProgram_reverified.symbols] at hs
  obtain ⟨file, hfile, d, -, -, rfl⟩ := h.bound_rebound.exists_decl_of_lookup? hs
  exact ⟨file, hfile, (h.bound_rebound.listed _ _ hfile).2.symm⟩

theorem lists_publishedAgain :
    (s.rebound path unit).program.Lists (s.publishedAgain path unit) := by
  have hlisted := h.bound_rebound.listed
  intro key p hp
  -- the set is built in four parts: files bound, discharged, of functions checked, of other imports
  rcases FileSet.of_get?_addAll hp with hp | ⟨hm, rfl⟩
  · rcases FileSet.of_get?_addAll hp with hp | ⟨hm, rfl⟩
    · rcases FileSet.of_get?_addAll hp with hp | ⟨hm, rfl⟩
      · exact h.lists_boundAgain_rebound key p hp
      · obtain ⟨k, hk⟩ := OrderedMap.mem_values.mp hm
        obtain ⟨f, hf, rfl⟩ := h.lists_dischargedAgain k p hk
        exact ⟨f, by rw [(hlisted k f hf).1]; exact hf, rfl⟩
    · obtain ⟨f, -, hmap⟩ := List.mem_filterMap.mp hm
      obtain ⟨sig, hsig, rfl⟩ := Option.map_eq_some_iff.mp hmap
      obtain ⟨file, hfile, hpath⟩ := h.path_of_lookup? hsig
      exact ⟨file, by rw [← hpath, (hlisted _ _ hfile).1]; exact hfile, hpath⟩
  · obtain ⟨k, f, hf, -, rfl⟩ := Loaded.mem_filesWhere_iff.mp hm
    rw [sameProgram_reverified.program] at hf
    exact ⟨f, by rw [(hlisted k f hf).1]; exact hf, rfl⟩

section NotPublished

variable {key : FileKey} (hkey : (s.publishedAgain path unit).contains key = false)

include hkey

omit h in
/-- A file that is not published again belongs to none of the parts of the set. -/
theorem of_not_published :
    (s.boundAgain path unit).contains key = false ∧
    (∀ p ∈ (s.dischargedAgain path unit).values, p.key ≠ key) ∧
    (∀ f ∈ s.checkedAgain path unit, ∀ sig, (s.reverified path unit).symbols.lookup? f = some sig →
      sig.path.key ≠ key) ∧
    ∀ f, (s.reverified path unit).program.get? key = some f → f.path.key = key →
      s.graph.diagnosticsOf key = (s.reverified path unit).graph.diagnosticsOf key := by
  have hnot : ¬ (s.publishedAgain path unit).contains key = true := by
    rw [hkey]
    exact Bool.false_ne_true
  unfold publishedAgain toPublish at hnot
  rw [FileSet.contains_addAll, FileSet.contains_addAll, FileSet.contains_addAll, not_or, not_or,
    not_or] at hnot
  obtain ⟨⟨⟨hbound, hdischarged⟩, hchecked⟩, hchanged⟩ := hnot
  refine ⟨by simpa using hbound, fun p hp heq => hdischarged ⟨p, hp, heq⟩, ?_, ?_⟩
  · intro f hf sig hsig heq
    exact hchecked ⟨sig.path, List.mem_filterMap.mpr ⟨f, hf, by rw [hsig]; rfl⟩, heq⟩
  · intro f hf hpath
    by_contra hne
    exact hchanged ⟨f.path, Loaded.mem_filesWhere_iff.mpr ⟨key, f, hf, decide_eq_true hne, rfl⟩,
      hpath⟩

omit h in
theorem not_bound_of_not_published : (s.boundAgain path unit).contains key = false :=
  (of_not_published hkey).1

theorem not_discharged_of_not_published :
    (s.dischargedAgain path unit).contains key = false := by
  by_contra hc
  obtain ⟨p, hp⟩ := OrderedMap.contains_iff.mp (by simpa using hc)
  obtain ⟨f, hf, rfl⟩ := h.lists_dischargedAgain key p hp
  exact (of_not_published hkey).2.1 f.path (OrderedMap.mem_values.mpr ⟨key, hp⟩)
    (h.bound_rebound.listed key f hf).1

theorem not_checked_of_not_published {f : FunctionRef}
    (hf : f ∈ (s.rebound path unit).symbols.functionsIn key) :
    f ∉ s.checkedAgain path unit := by
  intro hc
  obtain ⟨hfun, rfl⟩ := SymbolTable.mem_functionsIn_iff.mp hf
  obtain ⟨sig, hsig⟩ := SymbolTable.mem_functions_iff.mp hfun
  rw [← sameProgram_reverified.symbols] at hsig
  obtain ⟨file, hfile, hpath⟩ := h.path_of_lookup? hsig
  refine (of_not_published hkey).2.2.1 f hc sig hsig ?_
  rw [← hpath]
  exact (h.bound_rebound.listed _ _ hfile).1

theorem diagnosticsOf_graph {f : SourceFile}
    (hf : (s.rebound path unit).program.get? key = some f) :
    (s.reverified path unit).graph.diagnosticsOf key = s.graph.diagnosticsOf key := by
  have hpath := (h.bound_rebound.listed key f hf).1
  rw [← sameProgram_reverified.program] at hf
  exact ((of_not_published hkey).2.2.2 f hf hpath).symm

/-- What is known to be wrong in a file that is not published again was known before. -/
theorem found_eq {f : SourceFile} (hf : (s.rebound path unit).program.get? key = some f) :
    (s.reverified path unit).found key = s.found key := by
  have hbound := not_bound_of_not_published hkey
  have hdis := h.not_discharged_of_not_published hkey
  have hbinding : (s.reverified path unit).binding? key = s.binding? key :=
    (sameProgram_reverified.binding?_eq key).trans (h.binding?_rebound hbound)
  have hfunctions : (s.reverified path unit).symbols.functionsIn key =
      s.symbols.functionsIn key := by
    unfold SymbolTable.functionsIn
    rw [sameProgram_reverified.symbols, (rebound_frame s path unit).symbols,
      signaturesIn_replaceFile (ne_of_not_bound hbound)]
  have hfaults : ∀ g ∈ s.symbols.functionsIn key,
      (s.reverified path unit).effectFaults.get? g = s.effectFaults.get? g := by
    intro g hg
    rw [← hfunctions, sameProgram_reverified.symbols] at hg
    have hn := h.not_checked_of_not_published hkey hg
    have hmem := (SymbolTable.mem_functionsIn_iff.mp hg).1
    unfold reverified
    rw [effectFaults_verify, get?_refreshFaults, if_neg hn, (rebound_findings s path unit).2,
      get?_filter_of_mem hmem]
  have hdischarge : (s.reverified path unit).discharge.get? key = s.discharge.get? key := by
    unfold reverified
    rw [discharge_verify, get?_dischargeFiles h.lists_dischargedAgain, hdis,
      if_neg Bool.false_ne_true, get?_discharge_rebound,
      if_neg fun hc => by rw [hbound] at hc; cases hc.1]
  have hflat : ((s.symbols.functionsIn key).flatMap fun g =>
      ((s.reverified path unit).effectFaults.get? g).getD []) =
      (s.symbols.functionsIn key).flatMap fun g => (s.effectFaults.get? g).getD [] :=
    congrArg List.flatten (List.map_congr_left fun g hg => by rw [hfaults g hg])
  unfold found
  rw [h.diagnosticsOf_graph hkey hf, hbinding, hfunctions, hdischarge, hflat]

theorem freshShown?_eq : (s.reverified path unit).freshShown? key = s.freshShown? key := by
  have hbound := not_bound_of_not_published hkey
  have hget := h.get?_program_rebound (ne_of_not_bound hbound)
  have hpolicy : (s.reverified path unit).policy = s.policy :=
    sameProgram_reverified.policy.trans (rebound_frame s path unit).policy
  unfold freshShown?
  rw [sameProgram_reverified.program, hget, hpolicy]
  cases hf : s.program.get? key with
  | none => simp only [Option.map_none]
  | some f =>
    have hshown : (s.reverified path unit).shownDiagnostics key f.unit =
        s.shownDiagnostics key f.unit := by
      unfold shownDiagnostics
      rw [h.found_eq hkey (hget.trans hf), hpolicy]
    simp only [Option.map_some, hshown]

end NotPublished

omit h in
theorem published_reverified : (s.reverified path unit).published = s.published := by
  refine Eq.trans ?_ (rebound_frame s path unit).published
  dsimp only [reverified, verify]

/-- **The analysis after an edit leads to a current session.** -/
theorem current_change : (s.change path unit).1.Current := by
  rw [change_fst]
  refine current_publish h.verified_reverified ?_ fun key hkey => ?_
  · rw [sameProgram_reverified.program]
    exact h.lists_publishedAgain
  · rw [published_reverified, h.freshShown?_eq hkey]
    exact h.current.published key

/-- **Files that are not reported after an edit keep their diagnostics.** -/
theorem diagnosticsOf_eq {key : FileKey}
    (hkey : ∀ e ∈ (s.change path unit).2.files, e.1.key ≠ key) :
    (s.change path unit).1.diagnosticsOf key = s.diagnosticsOf key := by
  have hlists : (s.reverified path unit).program.Lists (s.publishedAgain path unit) := by
    rw [sameProgram_reverified.program]
    exact h.lists_publishedAgain
  have hget := get?_published_publish hlists
  rw [← change_fst] at hget
  cases hc : (s.publishedAgain path unit).contains key with
  | false =>
    unfold diagnosticsOf
    rw [hget, hc, if_neg Bool.false_ne_true, published_reverified]
  | true =>
    -- a file that is published again is in the program, and so it is reported
    obtain ⟨p, hp⟩ := OrderedMap.contains_iff.mp hc
    obtain ⟨f, hf, rfl⟩ := hlists key p hp
    have hshown : ∃ ds, (s.change path unit).1.published.get? key = some ds := by
      rw [hget, if_pos hc]
      unfold freshShown?
      rw [hf]
      exact ⟨_, rfl⟩
    obtain ⟨ds, hds⟩ := hshown
    have hmem : (f.path, ds) ∈ (s.change path unit).2.files :=
      List.mem_filterMap.mpr ⟨(key, f.path), OrderedMap.mem_entries_iff.mpr hp, by
        show ((s.change path unit).1.published.get? key).map _ = _
        rw [hds]
        rfl⟩
    rw [sameProgram_reverified.program] at hf
    exact absurd (h.bound_rebound.listed key f hf).1 (hkey _ hmem)

end Editable

end EffectAudit.Session
