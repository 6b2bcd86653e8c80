import NodeScript.CommandLine

/-!
# The program

Reads two files, prints the scripts of the graph that the second describes against the library that
the first describes.
-/

namespace NodeScript.CommandLine

/-- The contents of a file. -/
def contentsOf (path : String) : IO (Except FileError String) := do
  try
    return .ok (← IO.FS.readFile path)
  catch
    | .noFileOrDirectory .. => return .error .missing
    | e => return .error (.other (toString e))

end NodeScript.CommandLine

open NodeScript CommandLine

/-- Runs the program. A request that makes no sense ends it with 2, a failure with 1. -/
def main (args : List String) : IO UInt32 := do
  match Request.ofArguments? args with
  | none =>
    IO.eprintln "Usage: nodescript [-e NAME] [-s N] [-v] LIBRARY GRAPH"
    return 2
  | some request =>
    let library ← contentsOf request.libraryPath
    let graph ← contentsOf request.graphPath
    match request.run library graph with
    | .ok text =>
      IO.print text
      return 0
    | .error failure =>
      IO.eprintln s!"\nError: {failure.message}"
      return 1
