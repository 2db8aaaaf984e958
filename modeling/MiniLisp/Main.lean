import MiniLisp.CommandLine

/-!
# The program

It reads the files that its command line names, and prints what comes of it. Errors go to the error output.
-/

namespace MiniLisp

open CommandLine

/-- The contents of a file, or why it cannot be read. -/
def contents (path : String) : IO (Except String String) := do
  try
    return .ok (← IO.FS.readFile path)
  catch e =>
    return .error (toString e)

/-- The error output for an error. -/
def report (e : Error) : String :=
  let place := match e.location with
    | some l => l.source.name ++ ":" ++ toString l.position.line ++ ":" ++ toString l.position.column ++ ": "
    | none => ""
  let help := match e.help with
    | some text => "\nhelp: " ++ text
    | none => ""
  e.code ++ "\n" ++ place ++ e.message ++ help

end MiniLisp

open MiniLisp CommandLine

def main (args : List String) : IO UInt32 := do
  let paths := ((parse? args).map Invocation.files).getD []
  let texts ← paths.mapM fun path => return (path, ← contents path)
  let files : Files := fun path => (texts.lookup path).getD (.error "not read")
  let outcome := perform files args
  IO.print outcome.output
  match outcome with
  | .failed _ e => IO.eprintln (report e)
  | .misused => IO.eprint (helpText none)
  | .done _ => pure ()
  return outcome.status.toUInt32
