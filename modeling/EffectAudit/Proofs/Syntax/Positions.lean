import EffectAudit.Proofs.Syntax.Walk
import EffectAudit.Syntax.Layout
import Mathlib.Data.List.Nodup

/-!
# Positions of laid out syntax

Layout counts lines and columns. The expressions of a line take its columns from left to right, and
what is nested in them takes lines that no other expression has, though the layout of the line goes
on after it. So no position is given twice. Positions are kept in words; they stay apart as long as
the counts fit.

## Main definitions

* `Expr.positions`, `Stmt.positions`: the lines and columns that layout counts up to
* `InLine`, `Below`: where expressions have their positions

## Main results

* `Expr.inLine_layout`, `Stmt.below_layout`: the positions of laid out syntax
* `UnitBuilder.below_build`: the positions in a file that was put together
* `Below.counts_eq`, `Below.nodup_starts`: positions are as counted and different if the counts fit
  into words
-/

namespace EffectAudit

/-! ## Counted positions -/

mutual

/-- The line and the column of each expression in the order of a walk, as they are counted when the
expression is laid out. -/
def Expr.positions (line last column : Nat) : Expr → List (Nat × Nat)
  | .node _ _ form => (line, column) :: form.positions line last (column + form.width + 1)

/-- The positions of the expressions inside a form. -/
def ExprForm.positions (line last column : Nat) : ExprForm → List (Nat × Nat)
  | .literal _ | .ident _ | .access _ => []
  | .call _ args | .construct _ args => Expr.listPositions line last column args
  | .propagate e | .unary _ e | .paren e => e.positions line last column
  | .binary lhs _ rhs =>
    let (_, last', column') := lhs.layout line last column
    lhs.positions line last column ++ rhs.positions line last' column'
  | .matching scrutinee arms =>
    let (_, last', _) := scrutinee.layout line last column
    scrutinee.positions line last column ++ Arm.listPositions last' arms
  | .statusBranch subject _ yes none =>
    let (_, last', _) := subject.layout line last column
    subject.positions line last column ++ Stmt.positions last' yes
  | .statusBranch subject _ yes (some no) =>
    let (_, last', _) := subject.layout line last column
    let (_, last'') := Stmt.blockLayout last' yes
    subject.positions line last column ++ Stmt.positions last' yes ++ Stmt.positions (last'' + 1) no

/-- The positions of the expressions of some expressions. -/
def Expr.listPositions (line last column : Nat) : List Expr → List (Nat × Nat)
  | [] => []
  | e :: es =>
    let (_, last', column') := e.layout line last column
    e.positions line last column ++ Expr.listPositions line last' column' es

/-- The positions of the expressions of the bodies of arms. -/
def Arm.listPositions (last : Nat) : List Arm → List (Nat × Nat)
  | [] => []
  | .node _ _ (.expr value) :: arms =>
    let (_, last', _) := value.layout (last + 1) (last + 1) (bodyColumn + 12)
    value.positions (last + 1) (last + 1) (bodyColumn + 12) ++ Arm.listPositions last' arms
  | .node _ _ (.block body) :: arms =>
    let (_, last') := Stmt.blockLayout (last + 1) body
    Stmt.positions (last + 1) body ++ Arm.listPositions last' arms

/-- The positions of the expressions in the form of the statement on the given line. -/
def StmtForm.positions (line : Nat) : StmtForm → List (Nat × Nat)
  | .bind _ _ e | .assign _ e | .expr e => e.positions line line bodyColumn
  | .ret none => []
  | .ret (some e) => e.positions line line (bodyColumn + 7)
  | .branch condition yes none =>
    let (_, last, _) := condition.layout line line (bodyColumn + 3)
    condition.positions line line (bodyColumn + 3) ++ Stmt.positions last yes
  | .branch condition yes (some no) =>
    let (_, last, _) := condition.layout line line (bodyColumn + 3)
    let (_, last') := Stmt.blockLayout last yes
    condition.positions line line (bodyColumn + 3) ++ Stmt.positions last yes
      ++ Stmt.positions (last' + 1) no
  | .loop condition body =>
    let (_, last, _) := condition.layout line line (bodyColumn + 6)
    condition.positions line line (bodyColumn + 6) ++ Stmt.positions last body

/-- The positions of the expressions of a block. -/
def Stmt.positions (last : Nat) : List Stmt → List (Nat × Nat)
  | [] => []
  | .node _ form :: rest =>
    let (_, last') := form.layout (last + 1)
    form.positions (last + 1) ++ Stmt.positions last' rest

end

/-- The line and the column of an expression. -/
def Expr.start (e : Expr) : UInt32 × UInt32 := (e.span.line, e.span.column)

/-- A counted position in words. -/
def inWords (p : Nat × Nat) : UInt32 × UInt32 := (UInt32.ofNat p.1, UInt32.ofNat p.2)

/-! ## Regions -/

/-- Expressions with their positions, which are on a line between two columns or on lines that come
after `last` and go up to `last'`. -/
structure InLine (line last last' column column' : Nat) (es : List Expr) (ps : List (Nat × Nat)) :
    Prop where
  starts : es.map Expr.start = ps.map inWords
  last_le : last ≤ last'
  column_le : column ≤ column'
  place : ∀ p ∈ ps, p.1 = line ∧ column ≤ p.2 ∧ p.2 < column' ∨ last < p.1 ∧ p.1 ≤ last'
  nodup : ps.Nodup

/-- Expressions with their positions, which are on lines that come after `last` and go up to
`last'`. -/
structure Below (last last' : Nat) (es : List Expr) (ps : List (Nat × Nat)) : Prop where
  starts : es.map Expr.start = ps.map inWords
  last_le : last ≤ last'
  place : ∀ p ∈ ps, last < p.1 ∧ p.1 ≤ last'
  nodup : ps.Nodup

namespace InLine

variable {line last last' last'' column column' column'' : Nat} {es es' : List Expr}
  {ps ps' : List (Nat × Nat)}

theorem nil : InLine line last last column column [] [] :=
  ⟨rfl, Nat.le_refl _, Nat.le_refl _, by simp, .nil⟩

/-- An expression comes before its parts. -/
theorem cons {e : Expr} {width : Nat} (he : e.start = inWords (line, column)) (hline : line ≤ last)
    (h : InLine line last last' (column + width + 1) column' es ps) :
    InLine line last last' column column' (e :: es) ((line, column) :: ps) where
  starts := by rw [List.map_cons, List.map_cons, he, h.starts]
  last_le := h.last_le
  column_le := by have := h.column_le; omega
  place := by
    have := h.column_le
    rintro p (_ | ⟨_, hp⟩)
    · exact .inl ⟨rfl, Nat.le_refl _, by omega⟩
    · rcases h.place p hp with ⟨h₁, h₂, h₃⟩ | hbelow
      · exact .inl ⟨h₁, by omega, h₃⟩
      · exact .inr hbelow
  nodup := by
    refine List.nodup_cons.mpr ⟨fun hp => ?_, h.nodup⟩
    rcases h.place _ hp with ⟨-, h₂, -⟩ | ⟨h₁, -⟩ <;> dsimp only at * <;> omega

/-- Expressions of one line, the second where the first have left off. -/
theorem append (hline : line ≤ last) (h : InLine line last last' column column' es ps)
    (h' : InLine line last' last'' column' column'' es' ps') :
    InLine line last last'' column column'' (es ++ es') (ps ++ ps') where
  starts := by rw [List.map_append, List.map_append, h.starts, h'.starts]
  last_le := Nat.le_trans h.last_le h'.last_le
  column_le := Nat.le_trans h.column_le h'.column_le
  place := by
    have := h.last_le
    have := h'.last_le
    have := h.column_le
    have := h'.column_le
    intro p hp
    rcases List.mem_append.mp hp with hp | hp
    · have := h.place p hp
      omega
    · have := h'.place p hp
      omega
  nodup := by
    refine List.nodup_append.mpr ⟨h.nodup, h'.nodup, ?_⟩
    rintro p hp _ hp' rfl
    have := h.place p hp
    have := h'.place p hp'
    have := h.last_le
    omega

/-- Expressions of a line and what is nested in them. -/
theorem append_below (hline : line ≤ last) (h : InLine line last last' column column' es ps)
    (h' : Below last' last'' es' ps') :
    InLine line last last'' column column' (es ++ es') (ps ++ ps') :=
  h.append hline ⟨h'.starts, h'.last_le, Nat.le_refl _, fun p hp => .inr (h'.place p hp), h'.nodup⟩

theorem mono (h : InLine line last last' column column' es ps) (hle : last' ≤ last'') :
    InLine line last last'' column column' es ps where
  starts := h.starts
  last_le := Nat.le_trans h.last_le hle
  column_le := h.column_le
  place p hp := (h.place p hp).imp_right fun hb => ⟨hb.1, Nat.le_trans hb.2 hle⟩
  nodup := h.nodup

/-- A line with what is nested in it, where nothing is on the line before. -/
theorem below (h : InLine (last + 1) (last + 1) last' column column' es ps) :
    Below last last' es ps where
  starts := h.starts
  last_le := by have := h.last_le; omega
  place p hp := by
    have := h.place p hp
    have := h.last_le
    omega
  nodup := h.nodup

end InLine

namespace Below

variable {last last' last'' : Nat} {es es' : List Expr} {ps ps' : List (Nat × Nat)}

theorem nil : Below last last [] [] := ⟨rfl, Nat.le_refl _, by simp, .nil⟩

theorem append (h : Below last last' es ps) (h' : Below last' last'' es' ps') :
    Below last last'' (es ++ es') (ps ++ ps') where
  starts := by rw [List.map_append, List.map_append, h.starts, h'.starts]
  last_le := Nat.le_trans h.last_le h'.last_le
  place p hp := by
    have := h.last_le
    have := h'.last_le
    rcases List.mem_append.mp hp with hp | hp
    · have := h.place p hp
      omega
    · have := h'.place p hp
      omega
  nodup := by
    refine List.nodup_append.mpr ⟨h.nodup, h'.nodup, ?_⟩
    rintro p hp _ hp' rfl
    have := h.place p hp
    have := h'.place p hp'
    omega

theorem mono_left (h : Below last' last'' es ps) (hle : last ≤ last') :
    Below last last'' es ps where
  starts := h.starts
  last_le := Nat.le_trans hle h.last_le
  place p hp := ⟨Nat.lt_of_le_of_lt hle (h.place p hp).1, (h.place p hp).2⟩
  nodup := h.nodup

theorem mono_right (h : Below last last' es ps) (hle : last' ≤ last'') :
    Below last last'' es ps where
  starts := h.starts
  last_le := Nat.le_trans h.last_le hle
  place p hp := ⟨(h.place p hp).1, Nat.le_trans (h.place p hp).2 hle⟩
  nodup := h.nodup

end Below

/-! ## Laid out syntax -/

mutual

theorem Expr.inLine_layout {line last : Nat} (hline : line ≤ last) (column : Nat) : (e : Expr) →
    InLine line last (e.layout line last column).2.1 column (e.layout line last column).2.2
      (e.layout line last column).1.walk (e.positions line last column)
  | .node _ _ form => .cons rfl hline (ExprForm.inLine_layout hline _ form)

theorem ExprForm.inLine_layout {line last : Nat} (hline : line ≤ last) (column : Nat) :
    (form : ExprForm) →
    InLine line last (form.layout line last column).2.1 column (form.layout line last column).2.2
      (form.layout line last column).1.walk (form.positions line last column)
  | .literal _ | .ident _ | .access _ => .nil
  | .call _ args | .construct _ args => Expr.inLine_listLayout hline column args
  | .propagate e | .unary _ e | .paren e => Expr.inLine_layout hline column e
  | .binary lhs _ rhs =>
    have h := Expr.inLine_layout hline column lhs
    h.append hline (Expr.inLine_layout (Nat.le_trans hline h.last_le) _ rhs)
  | .matching scrutinee arms =>
    have h := Expr.inLine_layout hline column scrutinee
    (h.append_below hline (Arm.below_listLayout _ arms)).mono (Nat.le_succ _)
  | .statusBranch subject _ yes none =>
    have h := Expr.inLine_layout hline column subject
    (h.append_below hline (Stmt.below_layout _ yes)).mono (Nat.le_succ _)
  | .statusBranch subject _ yes (some no) =>
    have h := Expr.inLine_layout hline column subject
    ((h.append_below hline (Stmt.below_layout _ yes)).append_below hline
      ((Stmt.below_layout _ no).mono_left (Nat.le_succ _))).mono (Nat.le_succ _)

theorem Expr.inLine_listLayout {line last : Nat} (hline : line ≤ last) (column : Nat) :
    (es : List Expr) →
    InLine line last (Expr.listLayout line last column es).2.1 column
      (Expr.listLayout line last column es).2.2
      (Expr.walkAll (Expr.listLayout line last column es).1)
        (Expr.listPositions line last column es)
  | [] => .nil
  | e :: es =>
    have h := Expr.inLine_layout hline column e
    h.append hline (Expr.inLine_listLayout (Nat.le_trans hline h.last_le) _ es)

theorem Arm.below_listLayout (last : Nat) : (arms : List Arm) →
    Below last (Arm.listLayout last arms).2 (Arm.walkAll (Arm.listLayout last arms).1)
      (Arm.listPositions last arms)
  | [] => .nil
  | .node _ _ (.expr value) :: arms =>
    (Expr.inLine_layout (Nat.le_refl _) _ value).below.append (Arm.below_listLayout _ arms)
  | .node _ _ (.block body) :: arms =>
    ((Stmt.below_layout _ body).mono_left (Nat.le_succ _)).append (Arm.below_listLayout _ arms)

theorem StmtForm.below_layout (last : Nat) : (form : StmtForm) →
    Below last (form.layout (last + 1)).2 (form.layout (last + 1)).1.walk
      (form.positions (last + 1))
  | .bind _ _ e | .assign _ e | .expr e | .ret (some e) =>
      (Expr.inLine_layout (Nat.le_refl _) _ e).below
  | .ret none => Below.nil.mono_left (Nat.le_succ _)
  | .branch condition yes none =>
    have h := Expr.inLine_layout (Nat.le_refl _) _ condition
    ((h.append_below (Nat.le_refl _) (Stmt.below_layout _ yes)).mono (Nat.le_succ _)).below
  | .branch condition yes (some no) =>
    have h := Expr.inLine_layout (Nat.le_refl _) _ condition
    (((h.append_below (Nat.le_refl _) (Stmt.below_layout _ yes)).append_below (Nat.le_refl _)
      ((Stmt.below_layout _ no).mono_left (Nat.le_succ _))).mono (Nat.le_succ _)).below
  | .loop condition body =>
    have h := Expr.inLine_layout (Nat.le_refl _) _ condition
    ((h.append_below (Nat.le_refl _) (Stmt.below_layout _ body)).mono (Nat.le_succ _)).below

theorem Stmt.below_layout (last : Nat) : (body : List Stmt) →
    Below last (Stmt.blockLayout last body).2 (Stmt.walk (Stmt.blockLayout last body).1)
      (Stmt.positions last body)
  | [] => .nil
  | .node _ form :: rest => (StmtForm.below_layout last form).append (Stmt.below_layout _ rest)

end

/-! ## Files -/

/-- The expressions of the functions of a file, in the order of a walk. -/
def SourceUnit.walk (u : SourceUnit) : List Expr :=
  u.functions.flatMap fun f => Stmt.walk f.node.body

/-- The positions of the expressions of a construct that is added behind the given line. -/
def UnitItem.positions (last : Nat) : UnitItem → List (Nat × Nat)
  | .function draft => Stmt.positions (last + 1) draft.body
  | _ => []

namespace UnitBuilder

/-- The positions of the expressions of constructs that are added to a file one by one. -/
def positions (b : UnitBuilder) : List UnitItem → List (Nat × Nat)
  | [] => []
  | item :: items => item.positions b.last ++ (b.add item).positions items

/-- A construct takes lines of its own. -/
theorem below_add (b : UnitBuilder) (item : UnitItem) :
    ∃ es, (b.add item).unit.walk = b.unit.walk ++ es ∧
      Below b.last (b.add item).last es (item.positions b.last) := by
  have hline : Below b.last (b.last + 1) [] [] := Below.nil.mono_left (Nat.le_succ _)
  have hsame : b.unit.walk = b.unit.walk ++ [] := (List.append_nil _).symm
  cases item with
  | function draft =>
    have h := Stmt.below_layout (b.last + 1) draft.body
    refine ⟨Stmt.walk (Stmt.blockLayout (b.last + 1) draft.body).1, ?_,
      (h.mono_left (Nat.le_succ _)).mono_right (Nat.le_succ _)⟩
    simp [add, addFunction, declare, SourceUnit.walk, SourceUnit.functions]
  | type name sources =>
    exact ⟨[], by simp [add, declare, SourceUnit.walk, SourceUnit.functions], hline⟩
  | module name => exact ⟨[], hsame, hline⟩
  | importModule name rename => exact ⟨[], hsame, hline⟩
  | importFile path => exact ⟨[], hsame, hline⟩
  | importNames name names => exact ⟨[], hsame, hline⟩
  | importAll name => exact ⟨[], hsame, hline⟩
  | exports names => exact ⟨[], hsame, hline⟩
  | source text => exact ⟨[], hsame, .nil⟩

theorem below_foldl_add (b : UnitBuilder) (items : List UnitItem) :
    ∃ es, (items.foldl add b).unit.walk = b.unit.walk ++ es ∧
      Below b.last (items.foldl add b).last es (b.positions items) := by
  induction items generalizing b with
  | nil => exact ⟨[], (List.append_nil _).symm, .nil⟩
  | cons item items ih =>
    obtain ⟨es, hwalk, h⟩ := b.below_add item
    obtain ⟨es', hwalk', h'⟩ := ih (b.add item)
    exact ⟨es ++ es', by rw [List.foldl_cons, hwalk', hwalk, List.append_assoc], h.append h'⟩

/-- The expressions of a file that is built have the positions that were counted, each its own. -/
theorem below_build (path : Path) (items : List UnitItem) :
    ∃ last, Below 0 last (build path items).walk
      (({ unit := { path } } : UnitBuilder).positions items) := by
  obtain ⟨es, hwalk, h⟩ := below_foldl_add { unit := { path } } items
  have hes : (build path items).walk = es := hwalk
  exact ⟨_, hes ▸ h⟩

end UnitBuilder

namespace Below

variable {last last' : Nat} {es : List Expr} {ps : List (Nat × Nat)} (h : Below last last' es ps)
  (hfits : ∀ p ∈ ps, p.1 < UInt32.size ∧ p.2 < UInt32.size)

include h hfits

/-- Where the counts fit into words, expressions stand at the positions that were counted. -/
theorem counts_eq : (es.map fun e => (e.span.line.toNat, e.span.column.toNat)) = ps := by
  have hback : ∀ p ∈ ps, Prod.map UInt32.toNat UInt32.toNat (inWords p) = p := fun p hp =>
    Prod.ext (UInt32.toNat_ofNat_of_lt' (hfits p hp).1) (UInt32.toNat_ofNat_of_lt' (hfits p hp).2)
  calc es.map (fun e => (e.span.line.toNat, e.span.column.toNat))
    _ = (es.map Expr.start).map (Prod.map UInt32.toNat UInt32.toNat) := by rw [List.map_map]; rfl
    _ = ps.map fun p => Prod.map UInt32.toNat UInt32.toNat (inWords p) := by
      rw [h.starts, List.map_map]
      rfl
    _ = ps := (List.map_congr_left hback).trans (List.map_id ps)

/-- Where the counts fit into words, expressions have different positions. -/
theorem nodup_starts : (es.map Expr.start).Nodup := by
  refine List.Nodup.of_map (Prod.map UInt32.toNat UInt32.toNat) ?_
  have hcounts : (es.map Expr.start).map (Prod.map UInt32.toNat UInt32.toNat) = ps := by
    rw [List.map_map]
    exact h.counts_eq hfits
  exact hcounts ▸ h.nodup

end Below

end EffectAudit
