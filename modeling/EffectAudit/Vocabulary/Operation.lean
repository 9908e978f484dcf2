import EffectAudit.Vocabulary.Effect

/-!
# Builtin operations

Builtin operations are the only place where effects come from: a function requires an effect
because it calls one of these operations, or calls a function that does.

## Main definitions

* `Operation`, `Operation.all`: the operations, in vocabulary order
* `Operation.effect`: the effect an operation performs
* `Operation.ofSpelling?`: the operation a spelling names
-/

namespace EffectAudit

/-- A builtin operation. -/
inductive Operation where
  | dbQuery
  | dbExecute
  | httpGet
  | httpPost
  | fsRead
  | fsWrite
  | logInfo
  | logError
  | print
  | readLine
  | memAlloc
  | memFree
  deriving DecidableEq

namespace Operation

/-- Every operation, in vocabulary order. -/
def all : List Operation :=
  [dbQuery, dbExecute, httpGet, httpPost, fsRead, fsWrite, logInfo, logError, print, readLine,
    memAlloc, memFree]

/-- The description of an operation. -/
def item : Operation → Item
  | dbQuery => { name := "db.query", description := "Run a read query against the database." }
  | dbExecute =>
    { name := "db.execute", description := "Run a write statement against the database." }
  | httpGet => { name := "http.get", description := "Issue an HTTP GET request." }
  | httpPost => { name := "http.post", description := "Issue an HTTP POST request." }
  | fsRead => { name := "fs.read", description := "Read a file into a string." }
  | fsWrite => { name := "fs.write", description := "Write a string to a file." }
  | logInfo => { name := "log.info", description := "Emit an informational log record." }
  | logError =>
    { name := "log.error", aliases := ["log.err"], description := "Emit an error log record." }
  | print => { name := "print", aliases := ["println"], description := "Print a value to stdout." }
  | readLine => { name := "read_line", description := "Read one line from stdin." }
  | memAlloc => { name := "mem.alloc", description := "Allocate a raw buffer." }
  | memFree => { name := "mem.free", description := "Release a raw buffer." }

/-- The printed name of an operation. -/
def name (o : Operation) : String := o.item.name

/-- The effect that an operation performs. -/
def effect : Operation → Effect
  | dbQuery | dbExecute => .database
  | httpGet | httpPost => .network
  | fsRead | fsWrite => .fileSystem
  | logInfo | logError => .logging
  | print | readLine => .console
  | memAlloc | memFree => .memory

/-- The operation named by a spelling, canonical or alias. -/
def ofSpelling? (spelling : String) : Option Operation :=
  all.find? (·.item.spelledBy spelling)

end Operation

end EffectAudit
