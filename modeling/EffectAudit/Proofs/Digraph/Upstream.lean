import EffectAudit.Proofs.Digraph.Vertices

/-!
# Vertices upstream

The vertices that reach one of some others are gathered with a stack. A vertex is seen once, and
then its predecessors have been seen or are on the stack. So when the stack is empty, what has been
seen is closed upstream.

## Main definitions

* `Digraph.Covers`: what the gathering keeps
* `Digraph.LeadsInto`: what it finds

## Main results

* `Digraph.Covers.visit`, `Digraph.leadsInto_visit_iff`: one vertex
* `Digraph.mem_gatherUpstream_iff`: what is seen from any stack
* `Digraph.mem_upstream_iff`: the gathered vertices are those that reach one of the given ones
-/

namespace EffectAudit.Digraph

open Relation

variable {α : Type} [DecidableEq α] {g : Digraph α}

/-- The predecessors of what has been seen have been seen or are on the stack. -/
def Covers (g : Digraph α) (stack seen : List α) : Prop :=
  ∀ v ∈ seen, ∀ u ∈ g.predecessors v, u ∈ seen ∨ u ∈ stack

/-- A vertex leads to one that has been seen or is on the stack. -/
def LeadsInto (g : Digraph α) (stack seen : List α) (w : α) : Prop :=
  ∃ v, (v ∈ seen ∨ v ∈ stack) ∧ ReflTransGen (fun a b => b ∈ g.predecessors a) v w

section Step

variable {stack seen fresh : List α} {v w : α}

omit [DecidableEq α] in
variable (stack) in
/-- A vertex on the stack that has been seen makes no difference. -/
theorem mem_or_mem_cons_iff (hv : v ∈ seen) (u : α) :
    u ∈ seen ∨ u ∈ v :: stack ↔ u ∈ seen ∨ u ∈ stack := by
  rw [List.mem_cons]
  refine ⟨?_, fun h => h.imp id .inr⟩
  rintro (hu | rfl | hu)
  · exact .inl hu
  · exact .inl hv
  · exact .inr hu

/-- When a vertex has been seen, its other predecessors are on the stack. -/
theorem Covers.visit (h : g.Covers (v :: stack) seen)
    (hfresh : ∀ u, u ∈ fresh ↔ u ∈ g.predecessors v ∧ u ∉ v :: seen) :
    g.Covers (fresh ++ stack) (v :: seen) := by
  intro x hx u hu
  rw [List.mem_append, hfresh]
  rcases List.mem_cons.mp hx with rfl | hx
  · by_cases hseen : u ∈ x :: seen
    · exact .inl hseen
    · exact .inr (.inl ⟨hu, hseen⟩)
  · rcases h x hx u hu with hseen | hstack
    · exact .inl (List.mem_cons_of_mem _ hseen)
    · rcases List.mem_cons.mp hstack with rfl | hstack
      · exact .inl List.mem_cons_self
      · exact .inr (.inr hstack)

/-- What leads to a predecessor of a vertex leads to the vertex. -/
theorem leadsInto_visit_iff (hfresh : ∀ u, u ∈ fresh ↔ u ∈ g.predecessors v ∧ u ∉ v :: seen) :
    g.LeadsInto (fresh ++ stack) (v :: seen) w ↔ g.LeadsInto (v :: stack) seen w := by
  constructor
  · rintro ⟨x, hx, hpath⟩
    rw [List.mem_cons, List.mem_append, hfresh] at hx
    rcases hx with (rfl | hx) | ⟨hx, -⟩ | hx
    · exact ⟨x, .inr List.mem_cons_self, hpath⟩
    · exact ⟨x, .inl hx, hpath⟩
    · exact ⟨v, .inr List.mem_cons_self, .head hx hpath⟩
    · exact ⟨x, .inr (List.mem_cons_of_mem _ hx), hpath⟩
  · rintro ⟨x, hx, hpath⟩
    rw [List.mem_cons] at hx
    refine ⟨x, ?_, hpath⟩
    rw [List.mem_cons, List.mem_append]
    rcases hx with hx | rfl | hx
    · exact .inl (.inr hx)
    · exact .inl (.inl rfl)
    · exact .inr (.inr hx)

end Step

/-- With predecessors that have been seen or are on the stack, everything is seen that leads to a
vertex seen or on the stack. -/
theorem mem_gatherUpstream_iff {stack seen : List α} (hcovers : g.Covers stack seen) {w : α} :
    w ∈ g.gatherUpstream stack seen ↔ g.LeadsInto stack seen w := by
  fun_induction gatherUpstream g stack seen with
  | case1 seen =>
    refine ⟨fun hw => ⟨w, .inl hw, .refl⟩, ?_⟩
    rintro ⟨v, hv, hpath⟩
    induction hpath with
    | refl => exact hv.resolve_right List.not_mem_nil
    | tail _ hlast ih => exact (hcovers _ ih _ hlast).resolve_right List.not_mem_nil
  | case2 v stack seen hv ih =>
    have hstack := mem_or_mem_cons_iff stack hv
    rw [ih fun x hx u hu => (hstack u).mp (hcovers x hx u hu)]
    unfold LeadsInto
    simp only [hstack]
  | case3 v stack seen hv fresh ih =>
    have hfresh : ∀ u, u ∈ fresh.reverse ↔ u ∈ g.predecessors v ∧ u ∉ v :: seen := by
      intro u
      rw [List.mem_reverse, List.mem_filter, decide_eq_true_eq]
    rw [ih (hcovers.visit hfresh), leadsInto_visit_iff hfresh]

/-- **The gathered vertices are those that reach one of the given ones.** -/
theorem mem_upstream_iff (hg : g.WellFormed) (hs : g.Simple) {start : List α} {w : α} :
    w ∈ g.upstream start ↔ ∃ v ∈ start, g.Reaches w v := by
  have hpredecessors : (fun a b => b ∈ g.predecessors a) =
      Function.swap fun a b => b ∈ g.successors a := by
    funext a b
    exact propext (mem_predecessors_iff hg hs)
  unfold upstream
  rw [mem_gatherUpstream_iff fun v hv => absurd hv List.not_mem_nil]
  unfold LeadsInto
  refine exists_congr fun v => ?_
  rw [List.mem_reverse, or_iff_right List.not_mem_nil, hpredecessors, reflTransGen_swap,
    reaches_iff_reflTransGen]

end EffectAudit.Digraph
