/-!
# Paths

A path is the text that spells it. Two spellings name the same file when they have the same
components: empty components and inner `.` components do not count, a leading `.` does. Files are
therefore identified, compared and ordered by component lists, and spelled paths are kept for
printing only.

## Main definitions

* `Component`, with its order: root, then `.`, then `..`, then names
* `Path`, `Path.key`: a spelled path, and the identity of the file it names
* `FileKey.normalize`: the path without `.` and without a name before `..`
* `FileKey.join`, `FileKey.parent?`: paths relative to one another
* `FileKey.stem?`, `FileKey.extension?`: the parts of the last name
* `Path.impliedModule`: the module name of a file that declares none

## Main results

* `Component.lawfulEqOrd`, `Component.transOrd`: components are linearly ordered
-/

namespace EffectAudit

/-- One component of a path. -/
inductive Component where
  /-- The root directory, at the front of an absolute path. -/
  | root
  /-- The directory `.`, at the front of a relative path. -/
  | here
  /-- The directory `..`. -/
  | up
  | name (text : String)
  deriving DecidableEq

namespace Component

/-- The text of a component. -/
def text : Component → String
  | root => "/"
  | here => "."
  | up => ".."
  | name text => text

/-- The place of a kind of component in ascending order. -/
def rank : Component → Nat
  | root => 0
  | here => 1
  | up => 2
  | name _ => 3

/-- Components are ordered by kind; names by their characters. -/
instance ord : Ord Component where
  compare := compareLex (compareOn rank) (compareOn text)

theorem eq_of_rank_of_text {a b : Component} (hr : a.rank = b.rank) (ht : a.text = b.text) :
    a = b := by
  cases a <;> cases b <;> simp_all [rank, text]

instance lawfulEqOrd : Std.LawfulEqOrd Component where
  compare_self := by
    intro a
    have h : compare a a = (compare a.rank a.rank).then (compare a.text a.text) := rfl
    rw [h, Ordering.then_eq_eq]
    exact ⟨Std.ReflOrd.compare_self, Std.ReflOrd.compare_self⟩
  eq_of_compare := by
    intro a b h
    have h : (compare a.rank b.rank).then (compare a.text b.text) = .eq := h
    rw [Ordering.then_eq_eq] at h
    exact eq_of_rank_of_text (Std.LawfulEqOrd.eq_of_compare h.1)
      (Std.LawfulEqOrd.eq_of_compare h.2)

instance transOrd : Std.TransOrd Component :=
  inferInstanceAs (Std.TransCmp (compareLex (compareOn rank) (compareOn text)))

end Component

/-- The identity of a file: the components of the paths that name it. -/
abbrev FileKey := List Component

instance : LawfulBEq FileKey := inferInstanceAs (LawfulBEq (List Component))

/-- A path as it is spelled. -/
structure Path where
  text : String
  deriving DecidableEq

/-- Splits characters at each slash; there is one piece more than there are slashes. -/
def splitSlashes : List Char → List (List Char)
  | [] => [[]]
  | c :: cs =>
    if c = '/' then [] :: splitSlashes cs
    else
      match splitSlashes cs with
      | piece :: rest => (c :: piece) :: rest
      | [] => [[c]]

/-- The component that a piece between slashes stands for, if it counts. -/
def Component.ofPiece? (piece : List Char) : Option Component :=
  match piece with
  | [] => none
  | ['.'] => none
  | ['.', '.'] => some .up
  | piece => some (.name (String.ofList piece))

/-- The component that the front of a path stands for: the root before a slash, `.` for a leading
dot, else that of a piece. -/
def Component.ofFront? (piece : List Char) (isWhole : Bool) : Option Component :=
  match piece with
  | [] => if isWhole then none else some .root
  | ['.'] => some .here
  | piece => ofPiece? piece

/-- The identity of the file that a path names. -/
def Path.key (p : Path) : FileKey :=
  match splitSlashes p.text.toList with
  | [] => []
  | front :: rest =>
    (Component.ofFront? front rest.isEmpty).toList ++ rest.filterMap Component.ofPiece?

namespace FileKey

/-- One step of normalization, on the components so far with the last one first. -/
def normalizeStep (done : FileKey) (c : Component) : FileKey :=
  match c, done with
  | .here, _ => done
  | .up, .name _ :: rest => rest
  | c, _ => c :: done

/-- The path without `.`, and with `..` taken back against the name before it. -/
def normalize (key : FileKey) : FileKey := (key.foldl normalizeStep []).reverse

/-- Whether a path starts at the root. -/
def isAbsolute (key : FileKey) : Bool := key.head? == some .root

/-- The path `other` as seen from `base`: an absolute path stands for itself. -/
def join (base other : FileKey) : FileKey :=
  if isAbsolute other || base.isEmpty then other else base ++ other.filter (· ≠ .here)

/-- The directory of a file; the root and the empty path have none. -/
def parent? (key : FileKey) : Option FileKey :=
  match key.getLast? with
  | none => none
  | some .root => none
  | some _ => some key.dropLast

/-- Splits a file name at its last dot, unless that is its first character: the stem, and the
extension if there is one. -/
def splitName (name : List Char) : List Char × Option (List Char) :=
  let ending := (name.reverse.takeWhile (· ≠ '.')).reverse
  let front := (name.reverse.dropWhile (· ≠ '.')).reverse.dropLast
  if ending.length = name.length ∨ front.isEmpty then (name, none) else (front, some ending)

/-- The last component, if it is a name. -/
def fileName? (key : FileKey) : Option (List Char) :=
  match key.getLast? with
  | some (.name text) => some text.toList
  | _ => none

/-- The file name without its extension. -/
def stem? (key : FileKey) : Option String :=
  (fileName? key).map fun name => String.ofList (splitName name).1

/-- The part of the file name after its last dot. -/
def extension? (key : FileKey) : Option String :=
  (fileName? key).bind fun name => (splitName name).2.map String.ofList

/-- The path with an extension added to its file name, if it has one. -/
def addExtension (key : FileKey) (ext : String) : FileKey :=
  match fileName? key with
  | none => key
  | some name => key.dropLast ++ [.name (String.ofList name ++ "." ++ ext)]

end FileKey

namespace Path

/-- Whether a path is spelled to its last name and no further, without a slash or a `.` behind. -/
def endsInName (p : Path) : Bool :=
  match (splitSlashes p.text.toList).getLast? with
  | none => false
  | some piece => piece ≠ [] ∧ piece ≠ ['.']

/-- The components that are left when the extension is cut off the file name. From a name such as
`..cdz` only dots are left: both of them, which stand for the parent directory, when the path ends
in the name, else a single dot, which stands for nothing. -/
def withoutExtension (p : Path) : FileKey :=
  match FileKey.stem? p.key with
  | none => p.key
  | some stem =>
    if stem = "." ∧ p.endsInName then p.key.dropLast ++ [.up]
    else p.key.dropLast ++ (Component.ofPiece? stem.toList).toList

/-- The module name of a file that declares none: its path without extension, `.` and root. -/
def impliedModule (p : Path) : String :=
  "/".intercalate ((p.withoutExtension.filter fun c => c ≠ .root ∧ c ≠ .here).map Component.text)

end Path

end EffectAudit
