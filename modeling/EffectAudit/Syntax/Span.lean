/-!
# Places in a source text

Lines and columns count from one; a length counts characters. All three are words of 32 bits.

## Main definitions

* `Span`: a place in a source text
* `Spanned`: a piece of syntax at its place
-/

namespace EffectAudit

/-- A place in a source text. -/
structure Span where
  line : UInt32
  column : UInt32
  length : UInt32
  deriving DecidableEq

/-- The place of syntax that has not been laid out. -/
def Span.unset : Span := ⟨0, 0, 0⟩

instance : Inhabited Span := ⟨Span.unset⟩

/-- The place at a line and a column, both given as numbers. -/
def Span.ofNat (line column length : Nat) : Span :=
  ⟨UInt32.ofNat line, UInt32.ofNat column, UInt32.ofNat length⟩

/-- A piece of syntax at its place. -/
structure Spanned (α : Type) where
  node : α
  span : Span
  deriving DecidableEq

end EffectAudit
