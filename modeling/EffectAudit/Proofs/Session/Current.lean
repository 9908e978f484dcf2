import EffectAudit.Proofs.Effects.Inference
import EffectAudit.Proofs.Session.Bound
import EffectAudit.Session.Analysis

/-!
# Sessions that are up to date

A session is current if everything that it knows is what an analysis of its program finds. Each
stage of an analysis brings the part that it is given up to date and leaves the rest alone, so a
stage that is given all that is out of date leads to a session where nothing is.

## Main definitions

* `Session.Verified`, `Session.Current`: effects, results and diagnostics are up to date
* `Session.OnlyBound`: nothing is known but bindings

## Main results

* `Session.get?_bindings_bind`, `Session.get?_discharge_bind`: what binding files changes
* `Session.verified_verify`: when verification brings a session up to date
* `Session.current_publish`: when publication does
* `Session.current_analyze`: the analysis of a program leads to a current session
-/

namespace EffectAudit.Session

/-! ## What should be known -/

/-- The faults in effects that should be known of a function. -/
def freshFaults? (s : Session) (f : FunctionRef) : Option (List Diagnostic) :=
  let faults := s.faultsOf s.linked s.summaries f
  if faults.isEmpty then none else some faults

/-- What should be known of the results in a file. -/
def freshDischarge? (s : Session) (key : FileKey) : Option FileDischarge :=
  (s.program.get? key).bind fun f =>
    if s.policy.isExcluded f.path then none
    else (s.binding? key).map fun b => s.linked.fileDischarge b f.unit

/-- The diagnostics of a file that should be shown. -/
def freshShown? (s : Session) (key : FileKey) : Option (List Diagnostic) :=
  (s.program.get? key).map fun f =>
    if s.policy.isExcluded f.path then [] else s.shownDiagnostics key f.unit

/-- Effects and results are up to date. -/
structure Verified (s : Session) : Prop extends Bound s where
  summaries : s.linked.ExactSummaries s.summaries
  faults : ∀ f, s.effectFaults.get? f = s.freshFaults? f
  discharge : ∀ key, s.discharge.get? key = s.freshDischarge? key

/-- Everything is up to date. -/
structure Current (s : Session) : Prop extends Verified s where
  published : ∀ key, s.published.get? key = s.freshShown? key

/-! ## Binding -/

/-- What binding a file does to the bindings. -/
def rebind (s : Session) (m : OrderedMap FileKey (Path × FileBinding)) (e : FileKey × Path) :
    OrderedMap FileKey (Path × FileBinding) :=
  match s.program.unit? e.1 with
  | none => m.erase e.1
  | some u =>
    if s.graph.isHalted e.1 then m.erase e.1
    else
      m.insert e.1 (((m.get? e.1).map (·.1)).getD e.2,
        Scope.bindFile s.registry s.symbols s.graph u)

/-- What binding a file does to the results in files. -/
def dropUnbound (s : Session) (m : OrderedMap FileKey FileDischarge) (e : FileKey × Path) :
    OrderedMap FileKey FileDischarge :=
  if s.freshBinding? e.1 = none then m.erase e.1 else m

theorem bindFile_eq (s : Session) (e : FileKey × Path) :
    s.bindFile e.1 e.2 =
      { s with bindings := s.rebind s.bindings e, discharge := s.dropUnbound s.discharge e } := by
  unfold bindFile rebind dropUnbound freshBinding? Program.unit?
  cases s.program.get? e.1 with
  | none => rfl
  | some f =>
    cases hh : s.graph.isHalted e.1 with
    | true => rfl
    | false => rfl

theorem bind_eq (s : Session) (files : FileSet) :
    s.bind files =
      { s with
        bindings := files.entries.foldl s.rebind s.bindings
        discharge := files.entries.foldl s.dropUnbound s.discharge } := by
  unfold bind
  generalize files.entries = l
  induction l generalizing s with
  | nil => rfl
  | cons e rest ih =>
    rw [List.foldl_cons, bindFile_eq, ih]
    rfl

section Bind

variable {s : Session} {files : FileSet} (hfiles : s.program.Lists files)

include hfiles

/-- Binding files brings their bindings up to date, where bindings that exist are listed by the
right paths. -/
theorem get?_bindings_bind
    (hpaths : ∀ key e f, s.bindings.get? key = some e → s.program.get? key = some f → e.1 = f.path)
    (key : FileKey) :
    (s.bind files).bindings.get? key =
      if files.contains key = true then s.freshBinding? key else s.bindings.get? key := by
  rw [bind_eq]
  -- a file that is bound already keeps the path by which it was listed
  let update (k : FileKey) (old : Option (Path × FileBinding)) : Option (Path × FileBinding) :=
    (s.program.get? k).bind fun f =>
      if s.graph.isHalted k then none
      else some ((old.map (·.1)).getD f.path, Scope.bindFile s.registry s.symbols s.graph f.unit)
  have hstep : ∀ m, ∀ e ∈ files.entries, ∀ k, (s.rebind m e).get? k =
      if k = e.1 then update k (m.get? k) else m.get? k := by
    intro m e he k
    obtain ⟨f, hf, hpath⟩ := hfiles e.1 e.2 (OrderedMap.mem_entries_iff.mp he)
    unfold rebind Program.unit?
    by_cases hk : k = e.1
    · subst hk
      simp only [update, hf, if_pos, Option.map_some, Option.bind_some, hpath]
      split
      · rw [OrderedMap.get?_erase_self]
      · rw [OrderedMap.get?_insert_self]
    · rw [hf, if_neg hk]
      dsimp only [Option.map_some]
      split
      · rw [OrderedMap.get?_erase_of_ne hk]
      · rw [OrderedMap.get?_insert_of_ne hk]
  refine (OrderedMap.get?_foldl_entries files s.rebind update hstep s.bindings key).trans
    (if_congr Iff.rfl ?_ rfl)
  unfold freshBinding?
  simp only [update]
  cases hf : s.program.get? key with
  | none => rfl
  | some f =>
    have hlisted : ((s.bindings.get? key).map (·.1)).getD f.path = f.path := by
      cases he : s.bindings.get? key with
      | none => rfl
      | some e => exact hpaths key e f he hf
    dsimp only [Option.bind_some]
    rw [hlisted]

omit hfiles in
theorem get?_discharge_bind (key : FileKey) :
    (s.bind files).discharge.get? key =
      if files.contains key = true ∧ s.freshBinding? key = none then none
      else s.discharge.get? key := by
  rw [bind_eq]
  let update (k : FileKey) (old : Option FileDischarge) : Option FileDischarge :=
    if s.freshBinding? k = none then none else old
  have hstep : ∀ m, ∀ e ∈ files.entries, ∀ k, (s.dropUnbound m e).get? k =
      if k = e.1 then update k (m.get? k) else m.get? k := by
    intro m e _ k
    unfold dropUnbound
    by_cases hk : k = e.1
    · subst hk
      simp only [update, if_pos]
      split
      · rw [OrderedMap.get?_erase_self]
      · rfl
    · rw [if_neg hk]
      split
      · rw [OrderedMap.get?_erase_of_ne hk]
      · rfl
  refine (OrderedMap.get?_foldl_entries files s.dropUnbound update hstep s.discharge key).trans ?_
  by_cases hc : files.contains key = true
  · rw [if_pos hc]
    exact if_congr (and_iff_right hc).symm rfl rfl
  · rw [if_neg hc, if_neg fun h => hc h.1]

omit hfiles in
theorem freshBinding?_bind (s : Session) (files : FileSet) (key : FileKey) :
    (s.bind files).freshBinding? key = s.freshBinding? key := by
  rw [bind_eq]
  rfl

/-- **Binding brings a session up to date** that is given all files whose bindings may be out of
date. -/
theorem bound_bind (hs : s.Loaded)
    (hpaths : ∀ key e f, s.bindings.get? key = some e → s.program.get? key = some f → e.1 = f.path)
    (h : ∀ key, files.contains key = false → s.bindings.get? key = s.freshBinding? key) :
    (s.bind files).Bound := by
  refine ⟨⟨?_, ?_, ?_⟩, fun key => ?_⟩
  · rw [bind_eq]
    exact hs.listed
  · rw [bind_eq]
    exact hs.graph
  · rw [bind_eq]
    exact hs.symbols
  · rw [get?_bindings_bind hfiles hpaths, freshBinding?_bind]
    cases hc : files.contains key with
    | true => rfl
    | false => exact h key hc

end Bind

/-! ## Verification -/

section Verify

variable {s : Session} {p : LinkedProgram} {m : LinkedProgram.Summaries}

/-- Faults that are found anew replace those that were known. -/
theorem get?_refreshFaults (fs : List FunctionRef) (f : FunctionRef) :
    (s.refreshFaults p m fs).get? f =
      if f ∈ fs then
        if (s.faultsOf p m f).isEmpty then none else some (s.faultsOf p m f)
      else s.effectFaults.get? f := by
  have hfold : ∀ (l : List FunctionRef) (known : OrderedMap FunctionRef (List Diagnostic)),
      (l.foldl (fun known g =>
        let faults := s.faultsOf p m g
        if faults.isEmpty then known else known.insert g faults) known).get? f =
      if f ∈ l ∧ (s.faultsOf p m f).isEmpty = false then some (s.faultsOf p m f)
      else known.get? f := by
    intro l
    induction l with
    | nil => simp
    | cons g rest ih =>
      intro known
      rw [List.foldl_cons, ih]
      -- a fault that is found for `f` is the same each time that `f` is met
      by_cases hfg : f = g
      · subst hfg
        dsimp only
        cases he : (s.faultsOf p m f).isEmpty with
        | true => simp
        | false => simp
      · have hmem : f ∈ g :: rest ↔ f ∈ rest := List.mem_cons.trans (or_iff_right hfg)
        simp only [hmem]
        refine if_congr Iff.rfl rfl ?_
        split
        · rfl
        · rw [OrderedMap.get?_insert_of_ne hfg]
  unfold refreshFaults
  rw [hfold, OrderedMap.get?_filter]
  by_cases hf : f ∈ fs
  · -- what was known of the given functions is dropped before
    cases he : (s.faultsOf p m f).isEmpty with
    | true => cases s.effectFaults.get? f <;> simp [hf]
    | false => simp [hf]
  · cases s.effectFaults.get? f <;> simp [hf]

/-- Results that are found anew replace those that were known. -/
theorem get?_dischargeFiles {files : FileSet} (hfiles : s.program.Lists files)
    (known : OrderedMap FileKey FileDischarge) (key : FileKey) :
    (files.entries.foldl (fun known e => s.dischargeFile s.linked known e.1 e.2) known).get? key =
      if files.contains key = true then (s.freshDischarge? key).or (known.get? key)
      else known.get? key := by
  have hstep : ∀ known, ∀ e ∈ files.entries, ∀ k,
      (s.dischargeFile s.linked known e.1 e.2).get? k =
      if k = e.1 then (s.freshDischarge? k).or (known.get? k) else known.get? k := by
    intro known e he k
    obtain ⟨f, hf, hpath⟩ := hfiles e.1 e.2 (OrderedMap.mem_entries_iff.mp he)
    unfold dischargeFile freshDischarge? Program.unit?
    by_cases hk : k = e.1
    · subst hk
      rw [if_pos rfl, hf, ← hpath]
      dsimp only [Option.map_some, Option.bind_some]
      split
      · rfl
      · cases s.binding? e.1 with
        | none => rfl
        | some b =>
          dsimp only
          rw [OrderedMap.get?_insert_self]
          rfl
    · rw [hf, if_neg hk]
      dsimp only [Option.map_some]
      split
      · rfl
      · cases s.binding? e.1 with
        | none => rfl
        | some b =>
          dsimp only
          rw [OrderedMap.get?_insert_of_ne hk]
  exact OrderedMap.get?_foldl_entries files
    (fun known e => s.dischargeFile s.linked known e.1 e.2)
    (fun k old => (s.freshDischarge? k).or old) hstep known key

theorem sameProgram_verify (s : Session) (fs : List FunctionRef) (files : FileSet) :
    (s.verify fs files).SameProgram s := by
  constructor <;> dsimp only [verify]

theorem summaries_verify (s : Session) (fs : List FunctionRef) (files : FileSet) :
    (s.verify fs files).summaries = s.refreshSummaries s.linked fs := by
  dsimp only [verify]

theorem effectFaults_verify (s : Session) (fs : List FunctionRef) (files : FileSet) :
    (s.verify fs files).effectFaults =
      s.refreshFaults s.linked (s.refreshSummaries s.linked fs) fs := by
  dsimp only [verify]

theorem discharge_verify (s : Session) (fs : List FunctionRef) (files : FileSet) :
    (s.verify fs files).discharge =
      files.entries.foldl (fun m e => s.dischargeFile s.linked m e.1 e.2) s.discharge := by
  dsimp only [verify]

theorem SameProgram.freshDischarge?_eq {s t : Session} (h : s.SameProgram t) (key : FileKey) :
    s.freshDischarge? key = t.freshDischarge? key := by
  unfold freshDischarge?
  rw [h.program, h.policy, h.linked_eq, h.binding?_eq]

theorem SameProgram.faultsOf_eq {s t : Session} (h : s.SameProgram t) (p : LinkedProgram)
    (m : LinkedProgram.Summaries) (f : FunctionRef) : s.faultsOf p m f = t.faultsOf p m f := by
  unfold faultsOf
  rw [h.symbols, h.policy]

theorem freshFaults?_verify (s : Session) (fs : List FunctionRef) (files : FileSet)
    (f : FunctionRef) :
    (s.verify fs files).freshFaults? f =
      if (s.faultsOf s.linked (s.refreshSummaries s.linked fs) f).isEmpty then none
      else some (s.faultsOf s.linked (s.refreshSummaries s.linked fs) f) := by
  have hsame := sameProgram_verify s fs files
  unfold freshFaults?
  rw [hsame.linked_eq, summaries_verify, hsame.faultsOf_eq]

/-- **Verification brings a session up to date** that is given all functions and all files of which
something may be out of date. -/
theorem verified_verify (hs : s.Bound) {fs : List FunctionRef} {files : FileSet}
    (hfiles : s.program.Lists files)
    (hin : ∀ f ∈ s.symbols.functions, f ∉ fs →
      s.summaries.get? f = some (s.linked.exactSummary f))
    (hout : ∀ f, f ∉ s.symbols.functions → s.summaries.get? f = none)
    (hfaults : ∀ f, f ∉ fs → s.effectFaults.get? f = (s.verify fs files).freshFaults? f)
    (hdischarge : ∀ key, files.contains key = false ∨ s.freshDischarge? key = none →
      s.discharge.get? key = s.freshDischarge? key) :
    (s.verify fs files).Verified := by
  have hexact : s.linked.ExactSummaries (s.refreshSummaries s.linked fs) := by
    unfold refreshSummaries
    exact hs.closed_linked.exactSummaries_refresh hs.closed_linked.calleesFirst_groups hin hout
  have hsame := sameProgram_verify s fs files
  refine ⟨hsame.bound hs, ?_, fun f => ?_, fun key => ?_⟩
  · rw [hsame.linked_eq, summaries_verify]
    exact hexact
  · -- faults of the given functions are found anew, the others are as they should be
    by_cases hf : f ∈ fs
    · rw [freshFaults?_verify, effectFaults_verify, get?_refreshFaults, if_pos hf]
    · rw [← hfaults f hf, effectFaults_verify, get?_refreshFaults, if_neg hf]
  · rw [hsame.freshDischarge?_eq, discharge_verify, get?_dischargeFiles hfiles]
    cases hc : files.contains key with
    | false =>
      rw [if_neg (by simp)]
      exact hdischarge key (.inl hc)
    | true =>
      rw [if_pos rfl]
      cases hd : s.freshDischarge? key with
      | none => exact (hdischarge key (.inr hd)).trans hd
      | some d => rfl

end Verify

/-! ## Publication -/

section Publish

variable {s : Session} {files : FileSet}

/-- What publishing a file does to the diagnostics that are published. -/
def republish (s : Session) (m : OrderedMap FileKey (List Diagnostic)) (e : FileKey × Path) :
    OrderedMap FileKey (List Diagnostic) :=
  match s.program.unit? e.1 with
  | none => m.erase e.1
  | some u => m.insert e.1 (if s.policy.isExcluded e.2 then [] else s.shownDiagnostics e.1 u)

theorem publish_eq (s : Session) (files : FileSet) :
    s.publish files = { s with published := files.entries.foldl s.republish s.published } := by
  have hone : ∀ (s : Session) (e : FileKey × Path),
      s.publishFile e.1 e.2 = { s with published := s.republish s.published e } := by
    intro s e
    unfold publishFile republish
    cases s.program.unit? e.1 <;> rfl
  unfold publish
  generalize files.entries = l
  induction l generalizing s with
  | nil => rfl
  | cons e rest ih =>
    rw [List.foldl_cons, hone, ih]
    rfl

theorem sameProgram_publish (s : Session) (files : FileSet) : (s.publish files).SameProgram s := by
  rw [publish_eq]
  constructor <;> rfl

theorem get?_published_publish (hfiles : s.program.Lists files) (key : FileKey) :
    (s.publish files).published.get? key =
      if files.contains key = true then s.freshShown? key else s.published.get? key := by
  rw [publish_eq]
  have hstep : ∀ m, ∀ e ∈ files.entries, ∀ k, (s.republish m e).get? k =
      if k = e.1 then s.freshShown? k else m.get? k := by
    intro m e he k
    obtain ⟨f, hf, hpath⟩ := hfiles e.1 e.2 (OrderedMap.mem_entries_iff.mp he)
    unfold republish freshShown? Program.unit?
    rw [hf, ← hpath]
    dsimp only [Option.map_some]
    by_cases hk : k = e.1
    · subst hk
      rw [if_pos rfl, OrderedMap.get?_insert_self, hf]
      rfl
    · rw [if_neg hk, OrderedMap.get?_insert_of_ne hk]
  exact OrderedMap.get?_foldl_entries files s.republish (fun k _ => s.freshShown? k) hstep
    s.published key

/-- **Publication brings a session up to date** that is given all files whose diagnostics may be out
of date. -/
theorem current_publish (hs : s.Verified) (hfiles : s.program.Lists files)
    (h : ∀ key, files.contains key = false → s.published.get? key = s.freshShown? key) :
    (s.publish files).Current := by
  have hget := get?_published_publish hfiles
  rw [publish_eq] at hget ⊢
  generalize files.entries.foldl s.republish s.published = published at hget ⊢
  have hsame : { s with published }.SameProgram s := ⟨rfl, rfl, rfl, rfl, rfl, rfl⟩
  refine ⟨⟨hsame.bound hs.toBound, ?_, fun f => ?_, fun key => ?_⟩, fun key => ?_⟩
  · rw [hsame.linked_eq]
    exact hs.summaries
  · unfold freshFaults?
    rw [hsame.linked_eq, hsame.faultsOf_eq]
    exact hs.faults f
  · rw [hsame.freshDischarge?_eq]
    exact hs.discharge key
  · refine (hget key).trans ?_
    show _ = s.freshShown? key
    cases hc : files.contains key with
    | true => rfl
    | false => exact h key hc

end Publish

/-! ## Whole programs -/

theorem files_collectAll_eq (t : SymbolTable) (registry : Registry) (graph : ModuleGraph) :
    (t.collectAll registry graph).files =
      graph.table.program.entries.foldl
        (fun m e => m.insert e.2.unit.path.key
          (FileSymbols.ofUnit registry ((graph.moduleOf? e.1).getD "") e.2.unit)) t.files := by
  unfold SymbolTable.collectAll
  generalize graph.table.program.entries = l
  induction l generalizing t with
  | nil => rfl
  | cons e rest ih =>
    rw [List.foldl_cons, ih, List.foldl_cons, SymbolTable.files_collect]

/-- Collecting the files of a program takes in what each of them declares. -/
theorem get?_collectAll (t : SymbolTable) (registry : Registry) {program : Program}
    (hp : program.WellListed) (policy : Policy) (key : FileKey) :
    (t.collectAll registry (.build program policy)).files.get? key =
      match program.get? key with
      | some f => some (FileSymbols.ofUnit registry f.moduleName f.unit)
      | none => t.files.get? key := by
  let graph := ModuleGraph.build program policy
  let update (k : FileKey) (old : Option FileSymbols) : Option FileSymbols :=
    ((program.get? k).map fun f => FileSymbols.ofUnit registry f.moduleName f.unit).or old
  have hstep : ∀ m : OrderedMap FileKey FileSymbols, ∀ e ∈ program.entries, ∀ k,
      (m.insert e.2.unit.path.key
        (FileSymbols.ofUnit registry ((graph.moduleOf? e.1).getD "") e.2.unit)).get? k =
      if k = e.1 then update k (m.get? k) else m.get? k := by
    intro m e he k
    have hf := OrderedMap.mem_entries_iff.mp he
    have hmodule : graph.moduleOf? e.1 = some e.2.moduleName := by
      show (program.get? e.1).map (·.moduleName) = _
      rw [hf]
      rfl
    rw [hp.unit_key hf, hmodule]
    by_cases hk : k = e.1
    · subst hk
      rw [if_pos rfl, OrderedMap.get?_insert_self]
      simp only [update, hf]
      rfl
    · rw [if_neg hk, OrderedMap.get?_insert_of_ne hk]
  rw [files_collectAll_eq]
  refine (OrderedMap.get?_foldl_entries program _ update hstep t.files key).trans ?_
  cases hf : program.get? key with
  | none => simp [OrderedMap.contains, hf]
  | some f => simp [OrderedMap.contains, hf, update]

theorem loaded_load (s : Session) (units : List SourceUnit) : (s.load units).Loaded where
  listed := Program.wellListed_ofUnits units
  graph := rfl
  symbols key := by
    refine (get?_collectAll _ _ (Program.wellListed_ofUnits units) s.policy key).trans ?_
    show _ = ((Program.ofUnits units).get? key).map _
    cases (Program.ofUnits units).get? key with
    | none => rfl
    | some f => rfl

theorem not_contains_files {p : Program} {key : FileKey} (h : p.files.contains key = false) :
    p.get? key = none := by
  by_contra hne
  obtain ⟨f, hf⟩ := Option.ne_none_iff_exists'.mp hne
  rw [Program.contains_files.mpr ⟨f, hf⟩] at h
  cases h

/-- Files are bound, and nothing else is known. -/
structure OnlyBound (s : Session) : Prop extends Bound s where
  summaries : s.summaries = ∅
  effectFaults : s.effectFaults = ∅
  discharge : ∀ key, s.discharge.get? key = none
  published : s.published = ∅

theorem program_bind (s : Session) (files : FileSet) : (s.bind files).program = s.program := by
  rw [bind_eq]

theorem onlyBound_load (s : Session) (units : List SourceUnit) :
    ((s.load units).bind (s.load units).program.files).OnlyBound := by
  have hload := loaded_load s units
  have hbindings : (s.load units).bindings = ∅ := rfl
  refine ⟨bound_bind (Program.lists_files _) hload (fun key e f he => ?_) fun key hc => ?_,
    ?_, ?_, fun key => ?_, ?_⟩
  · rw [hbindings] at he
    cases he
  · unfold freshBinding?
    rw [hbindings, not_contains_files hc]
    rfl
  · rw [bind_eq]
    rfl
  · rw [bind_eq]
    rfl
  · rw [get?_discharge_bind]
    split <;> rfl
  · rw [bind_eq]
    rfl

/-- If nothing is known but the bindings, all functions and all files have to be verified. -/
theorem OnlyBound.verified {s : Session} (h : s.OnlyBound) :
    (s.verify s.symbols.functions s.program.files).Verified := by
  refine verified_verify h.toBound s.program.lists_files (fun f hf hn => absurd hf hn)
    (fun f _ => ?_)
    (fun f hf => ?_) fun key hkey => ?_
  · rw [h.summaries]
    rfl
  · -- what is not in the table has no faults
    have hlookup : s.symbols.lookup? f = none := by
      by_contra hne
      exact hf (SymbolTable.mem_functions_iff.mpr (Option.ne_none_iff_exists'.mp hne))
    rw [h.effectFaults, freshFaults?_verify]
    unfold faultsOf
    rw [hlookup]
    rfl
  · rw [h.discharge key]
    rcases hkey with hkey | hkey
    · unfold freshDischarge?
      rw [not_contains_files hkey]
      rfl
    · exact hkey.symm

theorem OnlyBound.current {s : Session} (h : s.OnlyBound) :
    ((s.verify s.symbols.functions s.program.files).publish s.program.files).Current := by
  have hverified := h.verified
  have hprogram := (sameProgram_verify s s.symbols.functions s.program.files).program
  have hpublished : (s.verify s.symbols.functions s.program.files).published = ∅ := by
    dsimp only [verify]
    exact h.published
  generalize s.verify s.symbols.functions s.program.files = v at hverified hprogram hpublished
  rw [← hprogram]
  refine current_publish hverified v.program.lists_files fun key hkey => ?_
  unfold freshShown?
  rw [hpublished, not_contains_files hkey]
  rfl

/-- **The analysis of a program leads to a current session**, whatever was known before. -/
theorem current_analyze (s : Session) (units : List SourceUnit) : (s.analyze units).Current := by
  have hcurrent := (onlyBound_load s units).current
  rw [program_bind] at hcurrent
  exact hcurrent

end EffectAudit.Session
