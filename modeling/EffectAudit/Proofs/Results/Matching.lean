import EffectAudit.Proofs.Results.Judgement

/-!
# Values that a match takes

A match handles an outcome of a result if an arm is a wildcard, a binding or named for the outcome.
The arguments of a constructor are not looked at, so this is about outcomes and not about values:
for each outcome that is handled there is a value of it that an arm takes, but an arm that tests
what an outcome carries may leave other values of it to no arm. All values of an outcome are taken
if and only if one arm takes them all.

## Main definitions

* `Value`, `Pattern.accepts`: values, and the patterns that match them
* `Pattern.takesAll`: a pattern that leaves no value of an outcome

## Main results

* `Pattern.handles_iff`, `Pattern.handles_iff_of_length`: a pattern handles the outcomes of which it
  matches a value
* `forall_accepted_iff`: when arms take all values of an outcome
* `LinkedProgram.matched_by_outcome`: what coverage and the records of a function say of values
* `exists_value_unmatched`: values that no arm takes, though both outcomes are handled
-/

namespace EffectAudit

/-- A value that a match may be on. -/
inductive Value where
  | literal (value : Literal)
  | construct (name : String) (args : List Value)

/-- A value with many arguments. -/
def Value.wide (n : Nat) : Value := .construct "Row" (List.replicate n (.literal .unit))

/-! ## Matching -/

mutual

/-- Whether a pattern matches a value. -/
def Pattern.accepts : Pattern → Value → Bool
  | .wildcard, _ => true
  | .binding _, _ => true
  | .literal l, .literal m => l == m
  | .literal _, .construct _ _ => false
  | .construct _ _, .literal _ => false
  | .construct name args, .construct name' values =>
    name == name' && Pattern.acceptsAll args values

/-- Whether patterns match as many values, each its own. -/
def Pattern.acceptsAll : List (Spanned Pattern) → List Value → Bool
  | [], [] => true
  | ⟨p, _⟩ :: rest, v :: vs => p.accepts v && Pattern.acceptsAll rest vs
  | [], _ :: _ => false
  | _ :: _, [] => false

end

namespace Pattern

theorem accepts_construct {name name' : String} {args : List (Spanned Pattern)}
    {values : List Value} :
    (construct name args).accepts (.construct name' values) = true ↔
      name = name' ∧ acceptsAll args values = true := by
  rw [accepts, Bool.and_eq_true, beq_iff_eq]

/-- Patterns match no other number of values. -/
theorem length_of_acceptsAll {args : List (Spanned Pattern)} {values : List Value}
    (h : acceptsAll args values = true) : args.length = values.length := by
  induction args generalizing values with
  | nil =>
    cases values with
    | nil => rfl
    | cons v vs => cases h
  | cons a rest ih =>
    cases values with
    | nil => cases h
    | cons v vs =>
      rw [acceptsAll, Bool.and_eq_true] at h
      simp [ih h.2]

mutual

/-- Every pattern matches some value. -/
theorem exists_accepted : (p : Pattern) → ∃ v, p.accepts v = true
  | .wildcard => ⟨.literal .unit, rfl⟩
  | .binding _ => ⟨.literal .unit, rfl⟩
  | .literal l => ⟨.literal l, by simp [accepts]⟩
  | .construct name args => by
    obtain ⟨values, hvalues⟩ := exists_acceptedAll args
    exact ⟨.construct name values, accepts_construct.mpr ⟨rfl, hvalues⟩⟩

theorem exists_acceptedAll :
    (args : List (Spanned Pattern)) → ∃ values, acceptsAll args values = true
  | [] => ⟨[], rfl⟩
  | ⟨p, _⟩ :: rest => by
    obtain ⟨v, hv⟩ := exists_accepted p
    obtain ⟨vs, hvs⟩ := exists_acceptedAll rest
    exact ⟨v :: vs, by simp [acceptsAll, hv, hvs]⟩

end

/-- **A pattern handles the outcomes of which it matches a value.** -/
theorem handles_iff {p : Pattern} {outcome : String} :
    p.Handles outcome ↔ ∃ values, p.accepts (.construct outcome values) = true := by
  cases p with
  | wildcard => exact iff_of_true trivial ⟨[], rfl⟩
  | binding name => exact iff_of_true trivial ⟨[], rfl⟩
  | literal l =>
    refine iff_of_false id ?_
    rintro ⟨values, h⟩
    cases h
  | construct name args =>
    constructor
    · rintro rfl
      obtain ⟨values, hvalues⟩ := exists_acceptedAll args
      exact ⟨values, accepts_construct.mpr ⟨rfl, hvalues⟩⟩
    · rintro ⟨values, h⟩
      exact (accepts_construct.mp h).1

/-- Outcomes carry one value. A pattern that gives them one argument handles those of which it
matches a value with one. -/
theorem handles_iff_of_length {p : Pattern} {outcome : String}
    (h : ∀ args, p = .construct outcome args → args.length = 1) :
    p.Handles outcome ↔ ∃ v, p.accepts (.construct outcome [v]) = true := by
  rw [handles_iff]
  constructor
  · rintro ⟨values, haccepts⟩
    cases p with
    | wildcard => exact ⟨.literal .unit, rfl⟩
    | binding name => exact ⟨.literal .unit, rfl⟩
    | literal l => cases haccepts
    | construct name args =>
      obtain ⟨rfl, hall⟩ := accepts_construct.mp haccepts
      obtain ⟨v, rfl⟩ := List.length_eq_one_iff.mp
        ((length_of_acceptsAll hall).symm.trans (h args rfl))
      exact ⟨v, haccepts⟩
  · rintro ⟨v, haccepts⟩
    exact ⟨[v], haccepts⟩

/-! ## Patterns that leave nothing -/

/-- Whether a pattern is a wildcard or a binding. -/
def isOpen : Pattern → Bool
  | .wildcard | .binding _ => true
  | .literal _ | .construct _ _ => false

/-- Whether a pattern matches an outcome whatever it carries. -/
def takesAll (outcome : String) : Pattern → Bool
  | .wildcard | .binding _ => true
  | .construct name [⟨p, _⟩] => name == outcome && p.isOpen
  | .construct _ _ | .literal _ => false

theorem accepts_of_isOpen {p : Pattern} (h : p.isOpen = true) (v : Value) : p.accepts v = true := by
  cases p with
  | wildcard => cases v <;> rfl
  | binding name => cases v <;> rfl
  | literal l => cases h
  | construct name args => cases h

theorem accepts_of_takesAll {p : Pattern} {outcome : String} (h : p.takesAll outcome = true)
    (v : Value) : p.accepts (.construct outcome [v]) = true := by
  unfold takesAll at h
  split at h
  · rfl
  · rfl
  · rename_i name p span
    rw [Bool.and_eq_true, beq_iff_eq] at h
    refine accepts_construct.mpr ⟨h.1, ?_⟩
    simp [acceptsAll, accepts_of_isOpen h.2 v]
  · cases h
  · cases h

/-- A pattern that tests its value misses all values with enough arguments. -/
theorem exists_bound_of_isOpen_eq_false {p : Pattern} (h : p.isOpen = false) :
    ∃ bound, ∀ n, bound < n → p.accepts (.wide n) = false := by
  cases p with
  | wildcard => cases h
  | binding name => cases h
  | literal l => exact ⟨0, fun n _ => rfl⟩
  | construct name args =>
    refine ⟨args.length, fun n hn => Bool.eq_false_iff.mpr fun haccepts => ?_⟩
    have hlength := length_of_acceptsAll (accepts_construct.mp haccepts).2
    rw [List.length_replicate] at hlength
    omega

theorem exists_bound_of_takesAll_eq_false {p : Pattern} {outcome : String}
    (h : p.takesAll outcome = false) :
    ∃ bound, ∀ n, bound < n → p.accepts (.construct outcome [.wide n]) = false := by
  unfold takesAll at h
  split at h
  · cases h
  · cases h
  · rename_i name p span
    rcases Bool.and_eq_false_iff.mp h with hname | hopen
    · refine ⟨0, fun n _ => Bool.eq_false_iff.mpr fun haccepts => ?_⟩
      exact beq_eq_false_iff_ne.mp hname (accepts_construct.mp haccepts).1
    · obtain ⟨bound, hbound⟩ := exists_bound_of_isOpen_eq_false hopen
      refine ⟨bound, fun n hn => ?_⟩
      simp [accepts, acceptsAll, hbound n hn]
  · -- a constructor with any other number of arguments matches no outcome that carries one value
    rename_i name args hargs
    refine ⟨0, fun n _ => Bool.eq_false_iff.mpr fun haccepts => ?_⟩
    obtain ⟨a, rfl⟩ := List.length_eq_one_iff.mp
      (length_of_acceptsAll (accepts_construct.mp haccepts).2)
    exact hargs a.node a.span rfl
  · exact ⟨0, fun n _ => rfl⟩

end Pattern

/-- **Arms take all values of an outcome** if and only if one of them does. -/
theorem forall_accepted_iff {arms : List Arm} {outcome : String} :
    (∀ v, ∃ arm ∈ arms, arm.pattern.accepts (.construct outcome [v]) = true) ↔
      ∃ arm ∈ arms, arm.pattern.takesAll outcome = true := by
  constructor
  · intro hall
    by_contra hnone
    -- there is a value that is too wide for each of the arms
    have hbound : ∃ bound, ∀ arm ∈ arms, ∀ n, bound < n →
        arm.pattern.accepts (.construct outcome [.wide n]) = false := by
      clear hall
      induction arms with
      | nil => exact ⟨0, fun arm harm => absurd harm List.not_mem_nil⟩
      | cons arm rest ih =>
        simp only [List.mem_cons, exists_eq_or_imp, not_or, Bool.not_eq_true] at hnone
        obtain ⟨first, hfirst⟩ := Pattern.exists_bound_of_takesAll_eq_false hnone.1
        obtain ⟨bound, hbound⟩ := ih hnone.2
        refine ⟨first + bound, List.forall_mem_cons.mpr ⟨fun n hn => hfirst n (by omega), ?_⟩⟩
        exact fun arm harm n hn => hbound arm harm n (by omega)
    obtain ⟨bound, hbound⟩ := hbound
    obtain ⟨arm, harm, haccepts⟩ := hall (.wide (bound + 1))
    rw [hbound arm harm _ (by omega)] at haccepts
    cases haccepts
  · rintro ⟨arm, harm, htakes⟩ v
    exact ⟨arm, harm, Pattern.accepts_of_takesAll htakes v⟩

/-- Both outcomes are handled if and only if of each a value is taken. -/
theorem Coverage.isFull_ofArms_iff_accepts {arms : List Arm} :
    (ofArms arms).isFull = true ↔ ∀ outcome ∈ ["Ok", "Err"], ∃ arm ∈ arms, ∃ values,
      arm.pattern.accepts (.construct outcome values) = true := by
  simp only [isFull_ofArms_iff, Pattern.handles_iff, List.forall_mem_cons, List.not_mem_nil,
    false_imp_iff, implies_true, and_true]

/-- The same with values that carry one value, if arms give the outcomes one argument. -/
theorem Coverage.isFull_ofArms_iff_of_length {arms : List Arm}
    (h : ∀ arm ∈ arms, ∀ outcome ∈ ["Ok", "Err"], ∀ args,
      arm.pattern = .construct outcome args → args.length = 1) :
    (ofArms arms).isFull = true ↔ ∀ outcome ∈ ["Ok", "Err"], ∃ arm ∈ arms, ∃ v,
      arm.pattern.accepts (.construct outcome [v]) = true := by
  rw [isFull_ofArms_iff_accepts]
  refine forall₂_congr fun outcome houtcome => ?_
  refine exists_congr fun arm => and_congr_right fun harm => ?_
  rw [← Pattern.handles_iff, Pattern.handles_iff_of_length (h arm harm outcome houtcome)]

/-- Where arms that handle an outcome take all of it, outcomes that are handled leave nothing. -/
theorem Coverage.accepted_of_isFull {arms : List Arm} (hfull : (ofArms arms).isFull = true)
    (hopen : ∀ arm ∈ arms, ∀ outcome ∈ ["Ok", "Err"], arm.pattern.Handles outcome →
      arm.pattern.takesAll outcome = true) :
    ∀ outcome ∈ ["Ok", "Err"], ∀ v, ∃ arm ∈ arms,
      arm.pattern.accepts (.construct outcome [v]) = true := by
  intro outcome houtcome
  obtain ⟨arm, harm, hvalues⟩ := isFull_ofArms_iff_accepts.mp hfull outcome houtcome
  have htakes := hopen arm harm outcome houtcome (Pattern.handles_iff.mpr hvalues)
  exact forall_accepted_iff.mpr ⟨arm, harm, htakes⟩

namespace LinkedProgram

variable {p : LinkedProgram}

/-- A result that is recorded as matched is what a match with arms for both outcomes is on, or a
branch on the status that has an `else`. -/
theorem exists_branch_of_matched {binding : FileBinding} {file : FileKey} {d : FunctionDecl}
    {r : ResultCall} (hr : r ∈ (p.functionDischarge binding file d).calls)
    (hmatched : r.state = .matched) :
    ∃ e, e.callPath?.map CallPath.text = some r.callee ∧ r.span = e.span ∧
      ((∃ use span type? scrutinee arms,
        Placed d.body (.expr use (.node span type? (.matching scrutinee arms))) ∧
          scrutinee.Wraps e ∧ (Coverage.ofArms arms).isFull = true) ∨
      ∃ use span type? subject check yes no,
        Placed d.body (.expr use (.node span type? (.statusBranch subject check yes (some no)))) ∧
          subject.Wraps e) := by
  rcases p.functionDischarge_cases binding file d with hnone | ⟨signature, b, -, -, -, heq⟩
  · rw [hnone] at hr
    exact absurd hr List.not_mem_nil
  rw [heq] at hr
  obtain ⟨o, ho, hcall⟩ := List.mem_filterMap.mp hr
  obtain ⟨callee, hcallee, rfl⟩ := Option.map_eq_some_iff.mp hcall
  obtain ⟨c, hfull, huse⟩ := Discharge.ofUse_eq_matched.mp hmatched
  have hplaced : Placed d.body (.expr (.scrutinized c) o.expr) := placed_iff.mpr ⟨o, ho, huse, rfl⟩
  refine ⟨o.expr, callee_of_resultCallee? hcallee, rfl, ?_⟩
  rcases hplaced.exists_branch with ⟨use, span, type?, scrutinee, arms, hmatch, hwraps, rfl⟩ |
    ⟨use, span, type?, subject, check, yes, no, hbranch, hwraps, rfl⟩
  · exact .inl ⟨use, span, type?, scrutinee, arms, hmatch, hwraps, hfull⟩
  · obtain ⟨no', rfl⟩ := Option.isSome_iff_exists.mp (Coverage.isFull_ofStatus_iff.mp hfull)
    exact .inr ⟨use, span, type?, subject, check, yes, no', hbranch, hwraps⟩

/-- **Matches are judged by outcomes.** The arms of a match handle both outcomes if and only if of
each outcome some value is taken by an arm. This value has as many arguments as the arm gives it,
and one if all arms give outcomes one. What follows is about the values that outcomes have, those
with one argument. All values of an outcome are taken if and only if one arm takes them all: a
wildcard, a binding, or the constructor of the outcome with one wildcard or binding. So if arms
handle both outcomes and no arm tests what an outcome carries, all values of both are taken. A
result that is recorded as matched through a match is what a match with such coverage is on. -/
theorem matched_by_outcome :
    (∀ arms, (Coverage.ofArms arms).isFull = true ↔
      ∀ outcome ∈ ["Ok", "Err"], ∃ arm ∈ arms, ∃ values,
        arm.pattern.accepts (.construct outcome values) = true) ∧
    (∀ arms, (∀ arm ∈ arms, ∀ outcome ∈ ["Ok", "Err"], ∀ args,
        arm.pattern = .construct outcome args → args.length = 1) →
      ((Coverage.ofArms arms).isFull = true ↔
        ∀ outcome ∈ ["Ok", "Err"], ∃ arm ∈ arms, ∃ v,
          arm.pattern.accepts (.construct outcome [v]) = true)) ∧
    (∀ (arms : List Arm) outcome,
      (∀ v, ∃ arm ∈ arms, arm.pattern.accepts (.construct outcome [v]) = true) ↔
        ∃ arm ∈ arms, arm.pattern.takesAll outcome = true) ∧
    (∀ arms, (Coverage.ofArms arms).isFull = true →
      (∀ arm ∈ arms, ∀ outcome ∈ ["Ok", "Err"], arm.pattern.Handles outcome →
        arm.pattern.takesAll outcome = true) →
      ∀ outcome ∈ ["Ok", "Err"], ∀ v, ∃ arm ∈ arms,
        arm.pattern.accepts (.construct outcome [v]) = true) ∧
    ∀ (p : LinkedProgram) binding file d, ∀ r ∈ (p.functionDischarge binding file d).calls,
      r.state = .matched →
      ∃ e, e.callPath?.map CallPath.text = some r.callee ∧ r.span = e.span ∧
        ((∃ use span type? scrutinee arms,
          Placed d.body (.expr use (.node span type? (.matching scrutinee arms))) ∧
            scrutinee.Wraps e ∧ (Coverage.ofArms arms).isFull = true) ∨
        ∃ use span type? subject check yes no,
          Placed d.body (.expr use (.node span type? (.statusBranch subject check yes (some no)))) ∧
            subject.Wraps e) :=
  ⟨fun _ => Coverage.isFull_ofArms_iff_accepts, fun _ => Coverage.isFull_ofArms_iff_of_length,
    fun _ _ => forall_accepted_iff,
    fun _ => Coverage.accepted_of_isFull, fun _ _ _ _ _ => exists_branch_of_matched⟩

/-- A function with a match on a result. -/
def branchingDecl (arms : List Arm) : FunctionDecl where
  name := "branching"
  returns := .unit
  body := [.node ⟨2, 3, 6⟩ (.expr (.node ⟨2, 3, 6⟩ none
    (.matching (.node ⟨2, 9, 4⟩ none (.call { name := "load" } [])) arms)))]

/-- The file of this function and of the one that it calls. -/
def branchingUnit (arms : List Arm) : SourceUnit where
  path := ⟨"m.cdz"⟩
  declarations :=
    [⟨.function { name := "load", returns := .result (.named "Int") (.named "IoError") },
        ⟨8, 1, 1⟩⟩,
      ⟨.function (branchingDecl arms), ⟨1, 1, 1⟩⟩]

/-- What is found in the function. -/
def branchingDischarge (arms : List Arm) : FileDischarge :=
  let p := ofBodies .standard (SymbolTable.collect ∅ .standard "m" (branchingUnit arms)) []
  let graph := ModuleGraph.build (.ofUnits [branchingUnit arms]) {}
  p.functionDischarge (Scope.bindFile .standard p.symbols graph (branchingUnit arms))
    (branchingUnit arms).path.key (branchingDecl arms)

/-- An arm for an outcome with a pattern for what it carries. -/
def outcomeArm (outcome : String) (payload : Pattern) : Arm :=
  .node ⟨3, 5, 2⟩ ⟨.construct outcome [⟨payload, ⟨3, 8, 1⟩⟩], ⟨3, 5, 5⟩⟩ (.block [])

theorem open_arms_matched :
    let arms := [outcomeArm "Ok" (.binding "x"), outcomeArm "Err" .wildcard]
    (Coverage.ofArms arms).isFull = true ∧
    (∀ outcome ∈ ["Ok", "Err"], ∃ arm ∈ arms, ∃ v,
      arm.pattern.accepts (.construct outcome [v]) = true) ∧
    (∀ arm ∈ arms, ∀ outcome ∈ ["Ok", "Err"], arm.pattern.Handles outcome →
      arm.pattern.takesAll outcome = true) ∧
    (∀ outcome ∈ ["Ok", "Err"], ∀ v, ∃ arm ∈ arms,
      arm.pattern.accepts (.construct outcome [v]) = true) ∧
    ∃ r ∈ (branchingDischarge arms).calls, r.state = .matched ∧
      ∃ e : Expr, e.callPath?.map CallPath.text = some r.callee ∧ r.span = e.span := by
  intro arms
  obtain ⟨-, hone, -, htaken, hrecords⟩ := matched_by_outcome
  have hfull : (Coverage.ofArms arms).isFull = true := by decide
  have hopen : ∀ arm ∈ arms, ∀ outcome ∈ ["Ok", "Err"], arm.pattern.Handles outcome →
      arm.pattern.takesAll outcome = true := by
    simp [arms, outcomeArm, Arm.pattern, Pattern.Handles, Pattern.takesAll, Pattern.isOpen]
  have hlength : ∀ arm ∈ arms, ∀ outcome ∈ ["Ok", "Err"], ∀ args,
      arm.pattern = .construct outcome args → args.length = 1 := by
    simp [arms, outcomeArm, Arm.pattern]
  obtain ⟨r, hr, hmatched⟩ : ∃ r ∈ (branchingDischarge arms).calls, r.state = .matched := by
    decide +kernel
  obtain ⟨e, hcallee, hspan, -⟩ := hrecords _ _ _ _ r hr hmatched
  exact ⟨hfull, (hone arms hlength).mp hfull, hopen, htaken arms hfull hopen, r, hr, hmatched, e,
    hcallee, hspan⟩

/-- **Outcomes that are handled may leave values.** A match with the arms `Ok(1)` and `Err(e)` is
recorded as one that handles both outcomes, and nothing is reported, but no arm takes `Ok(2)`. -/
theorem exists_value_unmatched :
    let narrow := [outcomeArm "Ok" (.literal (.int 1)), outcomeArm "Err" (.binding "e")]
    (branchingDischarge narrow).calls.map (·.state) = [.matched] ∧
    (branchingDischarge narrow).diagnostics = [] ∧
    ¬ ∀ arms : List Arm, (Coverage.ofArms arms).isFull = true →
      ∀ v, (∃ arm ∈ arms, arm.pattern.accepts (.construct "Ok" [v]) = true) ∧
        ∃ arm ∈ arms, arm.pattern.accepts (.construct "Err" [v]) = true := by
  intro narrow
  refine ⟨by decide +kernel, by decide +kernel, fun h => ?_⟩
  have hok : ∃ arm ∈ narrow, arm.pattern.accepts (.construct "Ok" [.literal (.int 2)]) = true :=
    (h narrow (by decide) (.literal (.int 2))).1
  exact absurd hok (by decide)

end LinkedProgram

end EffectAudit
