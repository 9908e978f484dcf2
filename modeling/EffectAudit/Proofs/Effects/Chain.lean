import EffectAudit.Proofs.Effects.Origin
import EffectAudit.Proofs.Locality

/-!
# Where chains of calls lead

The chain of an effect goes from origin to origin. Each of its functions calls the next one, and if
all bodies are known it ends in an operation that has the effect, unless it comes back to a function
that it has left. Then it is inside a group of functions that call each other, and the way out of
the group is at a member that the chain misses: an origin inside a group is the first call of any
member, and that need not lead towards the way out. Where no function calls two members of its
group, a chain visits all of them and does not miss the way out.

## Main definitions

* `LinkedProgram.EndsInOperation`, `LinkedProgram.StopsInRecursion`: how a chain can end
* `LinkedProgram.Unbranched`: no function behind a function calls two members of its group
* `LinkedProgram.Follows`: what following origins leads to, step by step

## Main results

* `LinkedProgram.follows_followOrigins`: the computed chain follows origins
* `LinkedProgram.isChain_calls`: its functions call each other
* `LinkedProgram.endsInOperation_or_stopsInRecursion`: how it ends
* `LinkedProgram.endsInOperation_of_unbranched`: when it does not stop in recursion
-/

namespace EffectAudit.LinkedProgram

open Relation

/-- Some call of `h` has the effect, or brings it from outside the group of `h`. -/
def HasWayOut (p : LinkedProgram) (e : Effect) (h : FunctionRef) : Prop :=
  ∃ c ∈ p.sites h, p.Performs e c ∨
    ∃ k, c.callee = .function k ∧ ¬ p.SameGroup h k ∧ p.Requires k e

/-- The chain has no function twice and ends in an operation with the effect, which its last
function calls. -/
def EndsInOperation (p : LinkedProgram) (e : Effect) (chain : Chain) : Prop :=
  ∃ init g op, chain = ⟨init ++ [g], .operation op⟩ ∧ (init ++ [g]).Nodup ∧
    p.registry.effectOf op = e ∧ ∃ c ∈ p.sites g, c.callee = .operation op

/-- The chain stops at the first function that it has twice, and the way out of the group of that
function is at a member that the chain misses. -/
def StopsInRecursion (p : LinkedProgram) (e : Effect) (chain : Chain) : Prop :=
  ∃ init g h, chain = ⟨init ++ [g], .cut⟩ ∧ init.Nodup ∧ g ∈ init ∧ h ∉ init ∧
    p.SameGroup g h ∧ p.HasWayOut e h

/-- No function behind `f` calls two different members of its own group. -/
def Unbranched (p : LinkedProgram) (f : FunctionRef) : Prop :=
  ∀ a b c, p.Reaches f a → p.Calls a b → p.Calls a c → p.SameGroup a b → p.SameGroup a c → b = c

/-- The effect enters `f` by a call of `g`. -/
def EntersThrough (p : LinkedProgram) (e : Effect) (f g : FunctionRef) : Prop :=
  ∃ span, (p.exactSummary f).origin? e = some (.call g span)

/-- What following the origins of an effect from a function leads to, where `before` are the
functions that came earlier. -/
inductive Follows (p : LinkedProgram) (e : Effect) :
    List FunctionRef → FunctionRef → Chain → Prop
  | operation {before : List FunctionRef} {f : FunctionRef} {op : Operation} {span : Span}
      (origin : (p.exactSummary f).origin? e = some (.operation op span)) :
      Follows p e before f ⟨[f], .operation op⟩
  | again {before : List FunctionRef} {f g : FunctionRef} (enters : p.EntersThrough e f g)
      (old : g ∈ f :: before) : Follows p e before f ⟨[f, g], .cut⟩
  | further {before : List FunctionRef} {f g : FunctionRef} {chain : Chain}
      (enters : p.EntersThrough e f g) (new : g ∉ f :: before)
      (rest : Follows p e (f :: before) g chain) : Follows p e before f (.cons f chain)

variable {p : LinkedProgram} {e : Effect}

/-! ## Entering calls -/

theorem EntersThrough.calls {f g : FunctionRef} (h : p.EntersThrough e f g) : p.Calls f g :=
  h.elim fun _ => calls_of_origin

/-- Only required effects enter. -/
theorem requires_of_origin {f : FunctionRef} {b : BoundFunction} (hb : p.body? f = some b)
    {o : Origin} (h : (p.exactSummary f).origin? e = some o) : p.Requires f e := by
  obtain ⟨before, after, hsplit, -⟩ := List.lookup_eq_some_iff.mp h
  have hkey : e ∈ (p.exactSummary f).origins.map (·.1) := by
    rw [hsplit]
    simp
  rw [map_fst_origins hb, EffectSet.mem_toList] at hkey
  exact mem_requiredEffects.mp hkey

theorem EntersThrough.requires {f g : FunctionRef} (h : p.EntersThrough e f g) :
    p.Requires f e := by
  obtain ⟨b, hb, -⟩ := h.calls.exists_body
  exact h.elim fun _ => requires_of_origin hb

/-- Where an effect enters a function with a body: at an operation that has it, or through a call
that is no farther than any other call that brings it. -/
theorem origin_cases {f : FunctionRef} {b : BoundFunction} (hb : p.body? f = some b)
    (he : p.Requires f e) :
    (∃ op span, (p.exactSummary f).origin? e = some (.operation op span) ∧
      p.registry.effectOf op = e ∧ ∃ c ∈ p.sites f, c.callee = .operation op) ∨
    ∃ g span, (p.exactSummary f).origin? e = some (.call g span) ∧ p.Requires g e ∧
      ∀ d ∈ p.sites f, e ∈ p.calleeEffects d.callee →
        p.distance f (.function g) ≤ p.distance f d.callee := by
  obtain ⟨c, horigin, hfirst, hleast⟩ := exists_origin hb he
  have hbrings := hfirst.holds.2
  unfold Origin.ofSite at horigin
  cases hcallee : c.callee with
  | operation op =>
    rw [hcallee] at horigin hbrings
    exact .inl ⟨op, c.span, horigin, mem_calleeEffects_operation.mp hbrings, c, hfirst.mem, hcallee⟩
  | function g =>
    rw [hcallee] at horigin hbrings hleast
    exact .inr ⟨g, c.span, horigin, mem_calleeEffects_function.mp hbrings, hleast⟩

/-- A function that an effect enters through a member of its group has no way out. -/
theorem not_hasWayOut {f g : FunctionRef} (henters : p.EntersThrough e f g)
    (hback : p.Reaches g f) : ¬ p.HasWayOut e f := by
  obtain ⟨b, hb, -⟩ := henters.calls.exists_body
  have he := henters.requires
  obtain ⟨span, horigin⟩ := henters
  rcases origin_cases hb he with ⟨op, span', hoperation, -⟩ | ⟨k, span', hcall, -, hleast⟩
  · rw [horigin] at hoperation
    cases hoperation
  · rw [horigin] at hcall
    cases hcall
    rintro ⟨c, hc, hout⟩
    -- a call that leads out is nearer than one that stays, and no nearer call brings the effect
    have hfar : p.distance f (.function g) = 2 := if_pos hback
    rcases hout with hperforms | ⟨k, hk, hgroup, hrequires⟩
    · obtain ⟨hzero, hbrings⟩ := (performs_iff (f := f)).mp hperforms
      have := hleast c hc hbrings
      omega
    · have hnear : p.distance f c.callee = 1 := by
        have hfk : p.Reaches f k := .single ⟨c, hc, hk⟩
        rw [hk]
        exact if_neg fun hkf => hgroup ⟨hfk, hkf⟩
      have := hleast c hc (hk ▸ mem_calleeEffects_function.mpr hrequires)
      omega

/-- A group of functions with bodies that require an effect has a way out. -/
theorem exists_hasWayOut {f : FunctionRef} (hbodies : ∀ g, p.Reaches f g → ∃ b, p.body? g = some b)
    (he : p.Requires f e) : ∃ h, p.SameGroup f h ∧ p.HasWayOut e h := by
  obtain ⟨k, hk, hintroduces⟩ := he
  induction hk using ReflTransGen.head_induction_on with
  | refl =>
    rcases hintroduces with ⟨c, hc, hperforms⟩ | ⟨hnone, -⟩
    · exact ⟨k, ⟨.refl, .refl⟩, c, hc, .inl hperforms⟩
    · obtain ⟨b, hb⟩ := hbodies k .refl
      rw [hnone] at hb
      cases hb
  | @head f g hcall hrest ih =>
    -- the call leaves the group, or the way out is the one of the callee
    by_cases hback : p.Reaches g f
    · obtain ⟨h, ⟨hgh, hhg⟩, hout⟩ := ih fun k hk => hbodies k (.head hcall hk)
      exact ⟨h, ⟨.head hcall hgh, hhg.trans hback⟩, hout⟩
    · obtain ⟨c, hc, hcg⟩ := hcall
      exact ⟨f, ⟨.refl, .refl⟩, c, hc, .inr ⟨g, hcg, fun hg => hback hg.2, k, hrest, hintroduces⟩⟩

/-! ## Following origins -/

/-- **The computed chain follows origins** as long as bodies are known, and it has calls enough to
do so. -/
theorem follows_followOrigins {m : Summaries} (hp : p.Closed) (hm : p.ExactSummaries m) {n : Nat}
    {before : List FunctionRef} {f : FunctionRef}
    (hbodies : ∀ g, p.Reaches f g → ∃ b, p.body? g = some b) (he : p.Requires f e)
    (hnd : (f :: before).Nodup) (hbefore : ∀ g ∈ before, ∃ s, m.get? g = some s)
    (hn : m.entries.length < n + before.length) :
    p.Follows e before f (followOrigins m e n before f) := by
  induction n generalizing before f with
  | zero =>
    -- all of `before` have summaries, so there is at least one call left
    have hle := Summaries.length_le (List.nodup_cons.mp hnd).2 hbefore
    omega
  | succ n ih =>
    obtain ⟨b, hb⟩ := hbodies f .refl
    have hget : m.get? f = some (p.exactSummary f) := hm.get?_of_mem (hp.body f b hb)
    unfold followOrigins
    rw [hget, Option.bind_some]
    rcases origin_cases hb he with ⟨op, span, horigin, -⟩ | ⟨g, span, horigin, hrequires, -⟩
    · rw [horigin]
      exact .operation horigin
    · have henters : p.EntersThrough e f g := ⟨span, horigin⟩
      rw [horigin]
      dsimp only
      split
      · rename_i hold
        exact .again henters hold
      · rename_i hnew
        refine .further henters hnew (ih ?_ hrequires ?_ ?_ ?_)
        · exact fun k hk => hbodies k (.head henters.calls hk)
        · exact List.nodup_cons.mpr ⟨hnew, hnd⟩
        · intro k hk
          rcases List.mem_cons.mp hk with rfl | hk
          · exact ⟨_, hget⟩
          · exact hbefore k hk
        · rw [List.length_cons]
          omega

namespace Follows

variable {before : List FunctionRef} {f : FunctionRef} {chain : Chain}

theorem exists_rest (h : p.Follows e before f chain) : ∃ rest, chain.functions = f :: rest := by
  cases h with
  | operation => exact ⟨[], rfl⟩
  | again => exact ⟨[_], rfl⟩
  | further => exact ⟨_, rfl⟩

theorem reaches (h : p.Follows e before f chain) {k : FunctionRef} (hk : k ∈ chain.functions) :
    p.Reaches f k := by
  induction h with
  | operation =>
    rw [List.mem_singleton.mp hk]
    exact .refl
  | again enters =>
    rcases List.mem_cons.mp hk with rfl | hk
    · exact .refl
    · rw [List.mem_singleton.mp hk]
      exact .single enters.calls
  | further enters _ _ ih =>
    rcases List.mem_cons.mp hk with rfl | hk
    · exact .refl
    · exact .head enters.calls (ih hk)

/-- The effect enters each function of the chain through the next one. -/
theorem isChain (h : p.Follows e before f chain) : chain.functions.IsChain (p.EntersThrough e) := by
  induction h with
  | operation => exact .singleton _
  | again enters => exact .cons_cons enters (.singleton _)
  | further enters _ rest ih =>
    obtain ⟨more, hmore⟩ := rest.exists_rest
    show List.IsChain _ (_ :: _)
    rw [hmore] at ih ⊢
    exact .cons_cons enters ih

/-- How a chain can end: at an operation, or at a function that came before. -/
theorem cases_finish (h : p.Follows e before f chain) (hnd : (f :: before).Nodup) :
    (∃ init g op span, chain = ⟨init ++ [g], .operation op⟩ ∧
      (before.reverse ++ (init ++ [g])).Nodup ∧
      (p.exactSummary g).origin? e = some (.operation op span)) ∨
    ∃ init g, chain = ⟨init ++ [g], .cut⟩ ∧ (before.reverse ++ init).Nodup ∧
      g ∈ before.reverse ++ init := by
  induction h with
  | @operation before f op span origin =>
    refine .inl ⟨[], f, op, span, rfl, ?_, origin⟩
    rw [List.nil_append, ← List.reverse_cons]
    exact List.nodup_reverse.mpr hnd
  | @again before f g enters old =>
    refine .inr ⟨[f], g, rfl, ?_⟩
    rw [← List.reverse_cons]
    exact ⟨List.nodup_reverse.mpr hnd, List.mem_reverse.mpr old⟩
  | @further before f g chain enters new rest ih =>
    -- the function that is left is the last of those that came before, or the first of the chain
    rcases ih (List.nodup_cons.mpr ⟨new, hnd⟩) with
      ⟨init, k, op, span, rfl, hfresh, horigin⟩ | ⟨init, k, rfl, hfresh, hold⟩
    · rw [List.reverse_cons, List.append_assoc] at hfresh
      exact .inl ⟨f :: init, k, op, span, rfl, hfresh, horigin⟩
    · rw [List.reverse_cons, List.append_assoc] at hfresh hold
      exact .inr ⟨f :: init, k, rfl, hfresh, hold⟩

end Follows

/-! ## Chains that stop -/

/-- Each function of a chain but the last has a next one, from where the chain goes on to its last
function. -/
theorem exists_next_of_isChain {α : Type} {R : α → α → Prop} {init : List α} {z : α}
    (h : (init ++ [z]).IsChain R) {a : α} (ha : a ∈ init) :
    ∃ b ∈ init ++ [z], R a b ∧ ReflTransGen R b z := by
  induction init generalizing a with
  | nil => exact absurd ha List.not_mem_nil
  | cons x rest ih =>
    have hrest : (rest ++ [z]).IsChain R := h.of_cons
    rcases List.mem_cons.mp ha with rfl | ha
    · cases rest with
      | nil =>
        refine ⟨z, by simp, ?_, .refl⟩
        simpa using h
      | cons y rest =>
        obtain ⟨hab, -⟩ := List.isChain_cons_cons.mp h
        obtain ⟨b, -, hyb, hbz⟩ := ih hrest List.mem_cons_self
        exact ⟨y, by simp, hab, .head hyb hbz⟩
    · obtain ⟨b, hb, hab, hbz⟩ := ih hrest ha
      exact ⟨b, List.mem_cons_of_mem _ hb, hab, hbz⟩

section Stops

variable {init : List FunctionRef} {g : FunctionRef}
  (hchain : (init ++ [g]).IsChain (p.EntersThrough e)) (hg : g ∈ init)

include hchain

/-- Each function of a chain but the last enters a function that leads on to the last one. -/
theorem exists_enters {a : FunctionRef} (ha : a ∈ init) :
    ∃ b ∈ init ++ [g], p.EntersThrough e a b ∧ p.Reaches b g := by
  obtain ⟨b, hb, hab, hbg⟩ := exists_next_of_isChain hchain ha
  exact ⟨b, hb, hab, ReflTransGen.mono (fun _ _ h => h.calls) _ _ hbg⟩

/-- A chain misses all members of its last group that have a way out. -/
theorem not_mem_of_hasWayOut {h : FunctionRef} (hgroup : p.SameGroup g h)
    (hout : p.HasWayOut e h) : h ∉ init := by
  intro hmem
  obtain ⟨k, -, henters, hkg⟩ := exists_enters hchain hmem
  exact not_hasWayOut henters (hkg.trans hgroup.1) hout

include hg

/-- If each member of a group calls one member only, a chain that comes back has visited them
all. -/
theorem mem_of_unbranched {f h : FunctionRef} (hunbranched : p.Unbranched f) (hf : p.Reaches f g)
    (hgroup : p.SameGroup g h) : h ∈ init := by
  have hvisited : ∀ {k}, p.Reaches g k → p.Reaches k h → k ∈ init := by
    intro k hgk
    induction hgk with
    | refl => exact fun _ => hg
    | @tail a k hga hak ih =>
      intro hkh
      have ha : a ∈ init := ih (.head hak hkh)
      -- the one member that `a` calls is the next function of the chain
      obtain ⟨b, hb, hab, hbg⟩ := exists_enters hchain ha
      have hka : p.Reaches k a := hkh.trans (hgroup.2.trans hga)
      have heq : k = b := hunbranched a k b (hf.trans hga) hak hab.calls ⟨.single hak, hka⟩
        ⟨.single hab.calls, hbg.trans hga⟩
      rw [heq]
      rcases List.mem_append.mp hb with hb | hb
      · exact hb
      · rwa [List.mem_singleton.mp hb]
  exact hvisited hgroup.1 .refl

end Stops

/-! ## Where chains lead -/

section Chain

variable {m : Summaries} (hp : p.Closed) (hm : p.ExactSummaries m) {f : FunctionRef}
  (hbodies : ∀ g, p.Reaches f g → ∃ b, p.body? g = some b) (he : p.Requires f e)

include hp hm hbodies he

theorem follows_chain : p.Follows e [] f (m.chain f e) :=
  follows_followOrigins hp hm hbodies he (List.nodup_singleton f)
    (fun _ h => absurd h List.not_mem_nil) (Nat.lt_succ_self _)

/-- Each function of a chain calls the next one. -/
theorem isChain_calls : (m.chain f e).functions.IsChain p.Calls :=
  (follows_chain hp hm hbodies he).isChain.imp fun _ _ h => h.calls

/-- A chain that does not end in an operation comes back to one of its functions. -/
theorem endsInOperation_or_comesBack : p.EndsInOperation e (m.chain f e) ∨
    ∃ init g, m.chain f e = ⟨init ++ [g], .cut⟩ ∧ init.Nodup ∧ g ∈ init ∧ p.Reaches f g ∧
      (init ++ [g]).IsChain (p.EntersThrough e) := by
  have hfollows := follows_chain hp hm hbodies he
  rcases hfollows.cases_finish (List.nodup_singleton f) with
    ⟨init, g, op, span, heq, hnd, horigin⟩ | ⟨init, g, heq, hnd, hg⟩
  · -- the last function is known, and the operation is the origin of the effect there
    have hfg : p.Reaches f g := hfollows.reaches (by simp [heq])
    obtain ⟨b, hb⟩ := hbodies g hfg
    rcases origin_cases hb (requires_of_origin hb horigin) with
      ⟨op', span', horigin', heffect, hcalls⟩ | ⟨k, span', hcall, -⟩
    · cases horigin.symm.trans horigin'
      exact .inl ⟨init, g, op, heq, hnd, heffect, hcalls⟩
    · cases horigin.symm.trans hcall
  · have hfg : p.Reaches f g := hfollows.reaches (by simp [heq])
    have hchain := hfollows.isChain
    rw [heq] at hchain
    exact .inr ⟨init, g, heq, hnd, hg, hfg, hchain⟩

omit hp hm he in
/-- A chain that comes back misses a way out of the group where it does. -/
theorem exists_missed_wayOut {init : List FunctionRef} {g : FunctionRef} (hg : g ∈ init)
    (hfg : p.Reaches f g) (hchain : (init ++ [g]).IsChain (p.EntersThrough e)) :
    ∃ h, h ∉ init ∧ p.SameGroup g h ∧ p.HasWayOut e h := by
  obtain ⟨b, -, henters, -⟩ := exists_enters hchain hg
  obtain ⟨h, hgroup, hout⟩ :=
    exists_hasWayOut (fun k hk => hbodies k (hfg.trans hk)) henters.requires
  exact ⟨h, not_mem_of_hasWayOut hchain hgroup hout, hgroup, hout⟩

/-- **A chain ends in an operation or stops in recursion.** -/
theorem endsInOperation_or_stopsInRecursion :
    p.EndsInOperation e (m.chain f e) ∨ p.StopsInRecursion e (m.chain f e) := by
  rcases endsInOperation_or_comesBack hp hm hbodies he with
    hends | ⟨init, g, heq, hnd, hg, hfg, hchain⟩
  · exact .inl hends
  · obtain ⟨h, hmissed⟩ := exists_missed_wayOut hbodies hg hfg hchain
    exact .inr ⟨init, g, h, heq, hnd, hg, hmissed⟩

/-- **A chain ends in an operation where recursion does not branch.** -/
theorem endsInOperation_of_unbranched (hunbranched : p.Unbranched f) :
    p.EndsInOperation e (m.chain f e) := by
  rcases endsInOperation_or_comesBack hp hm hbodies he with
    hends | ⟨init, g, -, -, hg, hfg, hchain⟩
  · exact hends
  · obtain ⟨h, hmissed, hgroup, -⟩ := exists_missed_wayOut hbodies hg hfg hchain
    exact absurd (mem_of_unbranched hchain hg hunbranched hfg hgroup) hmissed

end Chain

/-- Recursion does not branch where every body calls one function at most. -/
theorem unbranched_ofBodies {registry : Registry} {symbols : SymbolTable}
    {bodies : List BoundFunction} (h : ∀ b ∈ bodies, ∀ x ∈ b.callees, ∀ y ∈ b.callees, x = y)
    (f : FunctionRef) : (ofBodies registry symbols bodies).Unbranched f := by
  intro a x y _ hx hy _ _
  obtain ⟨b, hb, hxb⟩ := hx.exists_body
  have hyb := (calls_of_body hb).mp hy
  obtain ⟨b', hb', he⟩ := List.mem_map.mp (OrderedMap.mem_of_get?_ofList hb)
  cases he
  exact h _ hb' x hxb y hyb

end EffectAudit.LinkedProgram
