/-!
# Effects

The closed vocabulary of effects that a function may list in its `uses [...]` clause. Every
vocabulary in this library is a finite type with one description per member; lists of members
follow the order of `all`.

## Main definitions

* `Item`: the printed description of one member of a vocabulary
* `Item.spelledBy`: the spellings that an item answers to
* `Effect`, `Effect.all`: the effects, in vocabulary order
* `Effect.ofSpelling?`: the effect a spelling names

## Main results

* `Effect.lawfulEqOrd`, `Effect.transOrd`: effects are linearly ordered, as `Effect.all` lists them
-/

namespace EffectAudit

/-- The printed description of one member of a vocabulary. -/
structure Item where
  /-- The spelling that is printed. -/
  name : String
  /-- Other spellings that are accepted. -/
  aliases : List String := []
  description : String
  /-- The language version that introduced the item. -/
  since : String := "0.1.0"
  stability : String := "stable"
  deriving DecidableEq

/-- Whether an item answers to a spelling; letter case counts. -/
def Item.spelledBy (item : Item) (spelling : String) : Bool :=
  item.name == spelling || item.aliases.contains spelling

/-- An effect that running a function may have. -/
inductive Effect where
  | database
  | network
  | fileSystem
  | logging
  | console
  | memory
  deriving DecidableEq

namespace Effect

/-- Every effect, in vocabulary order. -/
def all : List Effect := [database, network, fileSystem, logging, console, memory]

/-- The description of an effect. -/
def item : Effect → Item
  | database =>
    { name := "Database", aliases := ["DB"], description := "Reads or writes a database." }
  | network => { name := "Network", description := "Performs network requests." }
  | fileSystem =>
    { name := "FileSystem", aliases := ["FS"], description := "Reads or writes the file system." }
  | logging => { name := "Logging", description := "Emits log records." }
  | console => { name := "IO", description := "Reads from stdin or writes to stdout/stderr." }
  | memory => { name := "Memory", description := "Allocates or releases raw memory." }

/-- The printed name of an effect. -/
def name (e : Effect) : String := e.item.name

/-- The effect named by a spelling, canonical or alias. -/
def ofSpelling? (spelling : String) : Option Effect :=
  all.find? (·.item.spelledBy spelling)

/-- The position of an effect in vocabulary order. -/
def index : Effect → Nat
  | database => 0
  | network => 1
  | fileSystem => 2
  | logging => 3
  | console => 4
  | memory => 5

theorem index_lt (e : Effect) : e.index < 6 := by cases e <;> decide

theorem index_inj {e f : Effect} : e.index = f.index ↔ e = f := by
  cases e <;> cases f <;> decide

theorem mem_all (e : Effect) : e ∈ all := by cases e <;> decide

/-- Effects are ordered as in the vocabulary. -/
instance ord : Ord Effect where
  compare := compareOn index

instance lawfulEqOrd : Std.LawfulEqOrd Effect where
  compare_self := by
    intro e
    show compare e.index e.index = .eq
    exact Std.ReflOrd.compare_self
  eq_of_compare := by
    intro e f h
    exact index_inj.mp (Std.LawfulEqOrd.eq_of_compare h)

instance transOrd : Std.TransOrd Effect :=
  inferInstanceAs (Std.TransCmp (compareOn index))

theorem sorted_all : all.Pairwise fun e f => compare e f = .lt := by decide

end Effect

end EffectAudit
