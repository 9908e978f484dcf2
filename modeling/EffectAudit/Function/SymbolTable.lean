import EffectAudit.Data.Sorting
import EffectAudit.Function.SymbolMaps

/-!
# The symbol table

The table holds what every file declares: its functions and the conversions between error types.
Each file owns its part, so that a file is collected again without touching the others. A number
stays with its function for good, also while the function is gone from the table.

A table is made of maps that belong together, and every change keeps them together; so there are no
other tables.

## Main definitions

* `SymbolTable`: what files declare
* `SymbolTable.collect`, `SymbolTable.remove`, `SymbolTable.clear`: changes to a table
* `SymbolTable.lookup?`, `SymbolTable.number?`, `SymbolTable.find?`: look-ups by function
* `SymbolTable.ofNumber?`: the look-up by number
* `SymbolTable.converts`: whether an error type converts to another
-/

namespace EffectAudit

/-- What the files of a program declare. -/
structure SymbolTable where
  maps : SymbolMaps
  valid : maps.Valid

instance : EmptyCollection SymbolTable := ⟨⟨{}, SymbolMaps.valid_empty⟩⟩

instance : Inhabited SymbolTable := ⟨∅⟩

/-- The first declaration of each function name. -/
def firstDeclarations : List (Spanned FunctionDecl) → List (Spanned FunctionDecl)
  | [] => []
  | d :: ds => d :: (firstDeclarations ds).filter fun e => e.node.name ≠ d.node.name

namespace SymbolTable

/-! ## Look-ups -/

/-- The signatures of a file, in the order of their declarations. -/
def signaturesIn (t : SymbolTable) (key : FileKey) : List Signature :=
  t.maps.signaturesAt (t.maps.numbersIn key)

/-- The functions of a file, in the order of their declarations. -/
def functionsIn (t : SymbolTable) (key : FileKey) : List FunctionRef :=
  (t.signaturesIn key).map (·.ref)

/-- All signatures, by number. -/
def signatures (t : SymbolTable) : List Signature := t.maps.functions.values

/-- All functions, by number. -/
def functions (t : SymbolTable) : List FunctionRef := t.signatures.map (·.ref)

/-- The number of functions in the table. -/
def size (t : SymbolTable) : Nat := t.signatures.length

/-- The signature of a function. -/
def lookup? (t : SymbolTable) (f : FunctionRef) : Option Signature :=
  (t.maps.lookupIn? f).bind t.maps.functions.get?

/-- The functions of one name in the given files, in the order of the files. -/
def lookupIn (t : SymbolTable) (files : List FileKey) (name : String) : List Signature :=
  files.filterMap fun key => t.lookup? ⟨key, name⟩

/-! ## Numbers -/

/-- The number of a function, if the function has ever been in the table. -/
def number? (t : SymbolTable) (f : FunctionRef) : Option Nat := t.maps.interner.get? f

/-- The signature of the function with a number. -/
def ofNumber? (t : SymbolTable) (n : Nat) : Option Signature := t.maps.functions.get? n

/-- The number of a function that is in the table. -/
def find? (t : SymbolTable) (f : FunctionRef) : Option Nat := t.maps.find? f

/-- All signatures by ascending number, each with its number. -/
def numbered (t : SymbolTable) : List (Nat × Signature) := t.maps.functions.entries

/-! ## Changes -/

/-- The table without a file. The numbers of its functions stay taken. -/
def remove (t : SymbolTable) (key : FileKey) : SymbolTable :=
  ⟨(t.maps.remove key).2, t.valid.remove key⟩

/-- The table with what a file declares, in place of what it declared before. -/
def collect (t : SymbolTable) (registry : Registry) (moduleName : String) (u : SourceUnit) :
    SymbolTable :=
  ⟨(t.maps.collect registry moduleName u).2, t.valid.collect registry moduleName u⟩

/-- The table without files. All numbers stay taken. -/
def clear (t : SymbolTable) : SymbolTable := ⟨t.maps.clear, t.valid.clear⟩

/-! ## Error types -/

/-- The conversions that a file declares. -/
def conversionsIn (t : SymbolTable) (key : FileKey) : List TypeDecl :=
  (t.maps.conversions.get? key).getD []

/-- The conversions that a file declares, each once and in order. -/
def conversionSet (t : SymbolTable) (key : FileKey) : List TypeDecl :=
  let order (a b : TypeDecl) : Ordering :=
    (compare a.name b.name).then (compare a.convertsFrom b.convertsFrom)
  dropRepeats (sortBy (fun a b => (order a b).isLE) (t.conversionsIn key))

/-- Whether errors of a type may be propagated where another type is expected: both are equal, or
some file declares the conversion. -/
def converts (t : SymbolTable) (source target : Ty) : Bool :=
  source == target ||
    match target with
    | .named name =>
      t.maps.conversions.values.any fun conversions =>
        conversions.any fun c => c.name == name && c.convertsFrom.contains source
    | _ => false

end SymbolTable

end EffectAudit
