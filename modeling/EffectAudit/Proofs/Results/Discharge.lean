import EffectAudit.Proofs.Function.Binding
import EffectAudit.Proofs.Syntax.Occurrence
import EffectAudit.Results.Discharge
import Mathlib.Data.List.Nodup

/-!
# Handled results

The check of results finds the type of a call by the place where the call stands, so it takes the
right function only if no two calls of a body stand at one place. Then a body without a fault
handles every result that a call in it returns: what stands around the call propagates it to a
caller that can take the error, or takes it apart.

## Main definitions

* `Scope.HasType`: the types of expressions in a file
* `Scope.Handled`: a result is propagated or taken apart

## Main results

* `mem_calls_iff`: the calls of a body
* `LinkedProgram.typeOf?_eq_some_iff`: the types that are found are the types of expressions
* `LinkedProgram.handled_of_occurrenceFaults`: results are handled where no fault is found
-/

namespace EffectAudit

theorem Ty.result?_eq_some_iff {t ok err : Ty} :
    t.result? = some (ok, err) ↔ t = .result ok err := by
  constructor
  · intro h
    unfold result? at h
    split at h
    · cases h
      rfl
    · cases h
  · rintro rfl
    rfl

theorem Ty.result?_eq_none_iff {t : Ty} :
    t.result? = none ↔ ∀ ok error, t ≠ .result ok error := by
  rw [Option.eq_none_iff_forall_ne_some, Prod.forall]
  simp only [ne_eq, Ty.result?_eq_some_iff]

/-! ## Types of expressions -/

/-- The calls of a body are its call expressions. -/
theorem mem_calls_iff {body : List Stmt} {call : Spanned CallPath} :
    call ∈ Stmt.calls body ↔
      ∃ use type? args, Placed body (.expr use (.node call.span type? (.call call.node args))) := by
  constructor
  · intro h
    obtain ⟨e, he, hcall⟩ := List.mem_filterMap.mp h
    obtain ⟨o, ho, rfl⟩ := List.mem_map.mp he
    have hplaced : Placed body (.expr o.use o.expr) := placed_iff.mpr ⟨o, ho, rfl, rfl⟩
    obtain ⟨path, hpath, rfl⟩ := Option.map_eq_some_iff.mp hcall
    generalize o.expr = e at hplaced hpath
    obtain ⟨span, type?, form⟩ := e
    cases form with
    | call _ args =>
      cases hpath
      exact ⟨o.use, type?, args, hplaced⟩
    | _ => cases hpath
  · rintro ⟨use, type?, args, h⟩
    obtain ⟨o, ho, -, he⟩ := placed_iff.mp h
    refine List.mem_filterMap.mpr ⟨o.expr, List.mem_map.mpr ⟨o, ho, rfl⟩, ?_⟩
    rw [he]
    rfl

/-- The type of an expression in a file: the one attached to it, or else the one that the called
function returns, or that of what parentheses enclose. -/
inductive Scope.HasType (s : Scope) : Expr → Ty → Prop
  | attached {span t form} : HasType s (.node span (some t) form) t
  | call {span path args g signature} : s.resolve path = .bound (.function g) →
      s.symbols.lookup? g = some signature →
      HasType s (.node span none (.call path args)) signature.returns
  | paren {span inner t} : HasType s inner t → HasType s (.node span none (.paren inner)) t

/-- What parentheses enclose has a type only if they have one. -/
theorem Scope.HasType.exists_of_wraps {s : Scope} {outer e : Expr} {t : Ty} (h : s.HasType e t)
    (hwraps : outer.Wraps e) : ∃ t', s.HasType outer t' := by
  induction hwraps with
  | self _ => exact ⟨t, h⟩
  | @paren _ type? _ _ _ ih =>
    cases type? with
    | some t' => exact ⟨t', .attached⟩
    | none =>
      obtain ⟨t', ht'⟩ := ih h
      exact ⟨t', .paren ht'⟩

namespace LinkedProgram

variable {p : LinkedProgram} {s : Scope} {d : FunctionDecl}

theorem callType?_eq_some_iff {body : BoundFunction} {span : Span} {t : Ty} :
    p.callType? body span = some t ↔ ∃ g, body.calleeAt? span = some (.function g) ∧
      ∃ signature, p.signature? g = some signature ∧ signature.returns = t := by
  unfold callType?
  constructor
  · intro h
    split at h
    · rename_i g hg
      exact ⟨g, hg, Option.map_eq_some_iff.mp h⟩
    · cases h
  · rintro ⟨g, hg, hsignature⟩
    rw [hg]
    exact Option.map_eq_some_iff.mpr hsignature

/-- The types that are found in a body are the types of its expressions. -/
theorem typeOf?_eq_some_iff (hsymbols : p.symbols = s.symbols)
    (hspans : ((Stmt.calls d.body).map (·.span)).Nodup) {use : Use} {t : Ty} :
    (e : Expr) → Placed d.body (.expr use e) →
      (p.typeOf? (s.boundFunction d) e = some t ↔ s.HasType e t)
  | .node _ (some _) _, _ => by
    constructor
    · intro h
      cases h
      exact .attached
    · intro h
      cases h
      rfl
  | .node span none (.call path args), he => by
    have hcall : ⟨path, span⟩ ∈ Stmt.calls d.body := mem_calls_iff.mpr ⟨use, none, args, he⟩
    have hcallee : ∀ g, (s.boundFunction d).calleeAt? span = some (.function g) ↔
        s.resolve path = .bound (.function g) :=
      fun _ => Scope.calleeAt?_boundFunction hspans hcall
    have hlookup : ∀ g signature, p.signature? g = some signature ↔
        s.symbols.lookup? g = some signature := by
      intro g signature
      rw [signature?, hsymbols]
    constructor
    · intro h
      obtain ⟨g, hg, signature, hs, rfl⟩ := callType?_eq_some_iff.mp h
      exact .call ((hcallee g).mp hg) ((hlookup g signature).mp hs)
    · intro h
      cases h with
      | call hr hs =>
        exact callType?_eq_some_iff.mpr ⟨_, (hcallee _).mpr hr, _, (hlookup _ _).mpr hs, rfl⟩
  | .node _ none (.paren inner), he => by
    constructor
    · intro h
      exact .paren ((typeOf?_eq_some_iff hsymbols hspans inner he.paren).mp h)
    · intro h
      cases h with
      | paren hinner => exact (typeOf?_eq_some_iff hsymbols hspans inner he.paren).mpr hinner
  | .node _ none (.literal _), _ | .node _ none (.ident _), _ | .node _ none (.propagate _), _
  | .node _ none (.matching _ _), _ | .node _ none (.statusBranch _ _ _ _), _
  | .node _ none (.access _), _ | .node _ none (.construct _ _), _
  | .node _ none (.binary _ _ _), _ | .node _ none (.unary _ _), _ =>
    ⟨(nomatch ·), (nomatch ·)⟩

end LinkedProgram

/-! ## Results that are handled -/

/-- What becomes of the result of `e`, in the body of a function that returns `returns`: `e` is the
operand of a `?` that hands an error on as one that it converts to, or what a branch is on that
handles both outcomes. -/
inductive Scope.Handled (s : Scope) (converts : Ty → Ty → Prop) (returns : Ty) (code : List Stmt)
    (e : Expr) : Prop
  | propagated {use span type? operand ok error okOut errorOut} :
      Placed code (.expr use (.node span type? (.propagate operand))) → operand.Wraps e →
      s.HasType operand (.result ok error) → returns = .result okOut errorOut →
      converts error errorOut → Handled s converts returns code e
  | matched {use span type? scrutinee arms} :
      Placed code (.expr use (.node span type? (.matching scrutinee arms))) →
      scrutinee.Wraps e → (∃ arm ∈ arms, arm.pattern.Handles "Ok") →
      (∃ arm ∈ arms, arm.pattern.Handles "Err") → Handled s converts returns code e
  | branched {use span type? subject check yes no} :
      Placed code (.expr use (.node span type? (.statusBranch subject check yes (some no)))) →
      subject.Wraps e → Handled s converts returns code e

theorem Scope.Handled.mono {s : Scope} {converts converts' : Ty → Ty → Prop} {returns : Ty}
    {code : List Stmt} {e : Expr} (h : s.Handled converts returns code e)
    (himp : ∀ a b, converts a b → converts' a b) : s.Handled converts' returns code e := by
  cases h with
  | propagated hplaced hwraps htype hreturns hconv =>
    exact .propagated hplaced hwraps htype hreturns (himp _ _ hconv)
  | matched hplaced hwraps hok herr => exact .matched hplaced hwraps hok herr
  | branched hplaced hwraps => exact .branched hplaced hwraps

namespace LinkedProgram

variable {p : LinkedProgram} {s : Scope} {d : FunctionDecl} {signature : Signature}

theorem of_propagationFinding?_eq_none {body : BoundFunction} {operand : Expr} {t : Ty}
    (ht : p.typeOf? body operand = some t)
    (h : p.propagationFinding? signature body operand = none) :
    ∃ ok error okOut errorOut, t = .result ok error ∧ signature.returns = .result okOut errorOut ∧
      p.symbols.converts error errorOut = true := by
  unfold propagationFinding? at h
  rw [ht] at h
  dsimp only at h
  split at h
  · cases h
  · rename_i okOut errorOut hreturns
    split at h
    · cases h
    · rename_i ok error htype
      split at h
      · rename_i hconv
        exact ⟨ok, error, okOut, errorOut, Ty.result?_eq_some_iff.mp htype,
          Ty.result?_eq_some_iff.mp hreturns, hconv⟩
      · cases h

/-- An expression without a fault: its own result has a use without a fault, and if it is a `?`, the
operand is propagated without a fault. -/
theorem of_occurrenceFaults {body : BoundFunction}
    (hclean : ∀ o ∈ Stmt.blockOccurrences d.body, p.occurrenceFaults signature body o = [])
    {use : Use} {e : Expr} (he : Placed d.body (.expr use e)) :
    (∀ callee, p.resultCallee? body e = some callee → use.fault? callee = none) ∧
      p.propagationFault? signature body e = none := by
  obtain ⟨o, ho, rfl, rfl⟩ := placed_iff.mp he
  have hnil := hclean o ho
  rw [occurrenceFaults, List.map_eq_nil_iff, List.append_eq_nil_iff, Option.toList_eq_nil_iff,
    Option.toList_eq_nil_iff] at hnil
  refine ⟨fun callee hcallee => ?_, hnil.2⟩
  have hresult := hnil.1
  rwa [resultFault?, hcallee] at hresult

/-- **Results are handled where no fault is found.** -/
theorem handled_of_occurrenceFaults (hsymbols : p.symbols = s.symbols)
    (hspans : ((Stmt.calls d.body).map (·.span)).Nodup)
    (hclean : ∀ o ∈ Stmt.blockOccurrences d.body,
      p.occurrenceFaults signature (s.boundFunction d) o = [])
    {use : Use} {span : Span} {type? : Option Ty} {path : CallPath} {args : List Expr}
    {ok error : Ty}
    (he : Placed d.body (.expr use (.node span type? (.call path args))))
    (ht : s.HasType (.node span type? (.call path args)) (.result ok error)) :
    s.Handled (fun a b => p.symbols.converts a b = true) signature.returns d.body
      (.node span type? (.call path args)) := by
  have htype := (typeOf?_eq_some_iff hsymbols hspans _ he).mpr ht
  have hcallee : p.resultCallee? (s.boundFunction d) (.node span type? (.call path args)) =
      some path.text := by
    show (if ((p.typeOf? _ _).map (·.isResult)).getD false then some path.text else none) = _
    rw [htype]
    rfl
  have hfault := (of_occurrenceFaults hclean he).1 _ hcallee
  cases use with
  -- a result that is just used is a fault
  | plain => cases hfault
  | propagated =>
    obtain ⟨_, _, _, operand, hplaced, hwraps⟩ := he.exists_propagate
    -- the operand is the call or parentheses around it, and the fault is about its type
    obtain ⟨t, hoperand⟩ := ht.exists_of_wraps hwraps
    obtain ⟨_, _, _, _, rfl, hreturns, hconv⟩ := of_propagationFinding?_eq_none
      ((typeOf?_eq_some_iff hsymbols hspans operand hplaced.operand).mpr hoperand)
      (of_occurrenceFaults hclean hplaced).2
    exact .propagated hplaced hwraps hoperand hreturns hconv
  | scrutinized coverage =>
    -- a branch that does not cover both outcomes is a fault
    have hfull : coverage.isFull = true := by
      by_contra hnot
      rw [Use.fault?, if_neg hnot] at hfault
      cases hfault
    rcases he.exists_branch with ⟨_, _, _, _, _, hplaced, hwraps, rfl⟩ |
      ⟨_, _, _, _, _, _, no, hplaced, hwraps, rfl⟩
    · obtain ⟨hok, herr⟩ := Coverage.isFull_ofArms_iff.mp hfull
      exact .matched hplaced hwraps hok herr
    · obtain ⟨no', rfl⟩ := Option.isSome_iff_exists.mp (Coverage.isFull_ofStatus_iff.mp hfull)
      exact .branched hplaced hwraps

end LinkedProgram

end EffectAudit
