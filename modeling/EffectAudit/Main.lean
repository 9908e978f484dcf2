import EffectAudit.CommandLine.Execution

/-!
# The program

The only module that reads files and writes. It fetches the contents of the files that the command
line names and hands them over.
-/

namespace EffectAudit

/-- What an error of the system says about a file. -/
def ReadFault.ofError : IO.Error → ReadFault
  | .noFileOrDirectory _ _ _ => missing
  | .inappropriateType _ 20 _ => underFile
  | .inappropriateType _ 21 _ => isDirectory
  | error => other (toString error)

/-- The contents of a file. -/
def fetch (path : String) : IO (String × Except ReadFault String) := do
  try
    return (path, .ok (← IO.FS.readFile path))
  catch error =>
    return (path, .error (.ofError error))

/-- The contents of the files that the arguments name. -/
def fetchAll (args : List String) : IO Directory := do
  let paths := match Invocation.parse args with
    | .ok invocation => invocation.files
    | .error _ => []
  let contents ← paths.mapM fetch
  return fun path => (contents.lookup path).getD (.error .missing)

end EffectAudit

open EffectAudit in
/-- Runs the command line. -/
def main (args : List String) : IO UInt32 := do
  match respond (← fetchAll args) args with
  | .ok response =>
    response.remarks.forM fun line => IO.eprintln line
    IO.print response.output
    return response.exitCode.toUInt32
  | .error failure =>
    IO.eprintln failure.message
    return Failure.exitCode.toUInt32
