import EffectAudit.Data.OrderedMap
import EffectAudit.Syntax.Tree

/-!
# Programs

A program is a set of source files, one per file identity and in path order.

## Main definitions

* `SourceFile`, `Program`: the files of a program
* `Program.ofUnits`, `Program.update`: programs from lists of files and from earlier programs
* `FileSet`: sets of files
-/

namespace EffectAudit

/-- A file of a program. -/
structure SourceFile where
  /-- The path under which the file is listed. -/
  path : Path
  unit : SourceUnit

/-- The files of a program, by identity. -/
abbrev Program := OrderedMap FileKey SourceFile

namespace Program

/-- The program of a list of files; of files with one identity the last counts. -/
def ofUnits (units : List SourceUnit) : Program :=
  OrderedMap.ofList (units.map fun u => (u.path.key, ⟨u.path, u⟩))

/-- The program with one file added or replaced. A replaced file stays listed as it was spelled
before. -/
def update (p : Program) (path : Path) (unit : SourceUnit) : Program :=
  let listed := ((p.get? path.key).map (·.path)).getD path
  p.insert path.key ⟨listed, { unit with path }⟩

/-- The source of a file. -/
def unit? (p : Program) (key : FileKey) : Option SourceUnit := (p.get? key).map (·.unit)

end Program

/-- A set of files in path order, each with the path that it was first given by. -/
abbrev FileSet := OrderedMap FileKey Path

namespace FileSet

/-- The set with a file. A file that is in the set already stays as it was spelled. -/
def add (s : FileSet) (path : Path) : FileSet :=
  if s.contains path.key then s else s.insert path.key path

/-- The set with files. -/
def addAll (s : FileSet) (paths : List Path) : FileSet := paths.foldl add s

end FileSet

/-- The files of a program, as they are listed. -/
def Program.files (p : Program) : FileSet := p.map fun _ f => f.path

/-- The module of a file: the one it declares, else the one its path implies. -/
def SourceFile.moduleName (f : SourceFile) : String :=
  f.unit.declaredModule?.getD f.path.impliedModule

end EffectAudit
