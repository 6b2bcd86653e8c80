import NodeScript.Blueprint.Build
import NodeScript.Blueprint.Json
import NodeScript.Catalogue.Json
import NodeScript.Compilation

/-!
# The command line

What the program does with its arguments and the contents of its two files. The arguments are two
paths and options in any order. An option that takes a value has it in the same argument or as the
next one; a short option may share its argument with short flags before it. Every option may be
given once, and after `--` there are no more options.
-/

namespace NodeScript.CommandLine

/-! ### Arguments -/

/-- What the arguments say so far. -/
structure Arguments where
  /-- The arguments that are not options. -/
  paths : List String := []
  event : Option String := none
  spaces : Option Nat := none
  verbose : Bool := false
  deriving DecidableEq, Repr

namespace Arguments

/-- A count: digits after an optional plus sign, below `2 ^ 64`. -/
def count? (cs : List Char) : Option Nat :=
  let ds := match cs with
    | '+' :: ds => ds
    | ds => ds
  let n := Decimal.digitsValue ds
  if ds ≠ [] ∧ ds.all Char.isDigit ∧ n < UInt64.size then some n else none

/-- Adds a path. There are two at most. -/
def addPath? (a : Arguments) (path : String) : Option Arguments :=
  if a.paths.length < 2 then some { a with paths := a.paths ++ [path] } else none

/-- Sets the event to compile. -/
def setEvent? (a : Arguments) (value : List Char) : Option Arguments :=
  if a.event.isNone then some { a with event := some (String.ofList value) } else none

/-- Sets the width of the indentation. -/
def setSpaces? (a : Arguments) (value : List Char) : Option Arguments := do
  let n ← count? value
  if a.spaces.isNone then some { a with spaces := some n } else none

/-- Asks for messages about the progress. -/
def setVerbose? (a : Arguments) : Option Arguments :=
  if a.verbose then none else some { a with verbose := true }

/-- The option that takes a value and has the given long name. -/
def valueOption? (name : List Char) : Option (Arguments → List Char → Option Arguments) :=
  if name = ['e', 'v', 'e', 'n', 't'] then some setEvent?
  else if name = ['s', 'p', 'a', 'c', 'e', 's'] then some setSpaces?
  else none

/-- The option that takes a value and has the given letter. -/
def valueLetter? (c : Char) : Option (Arguments → List Char → Option Arguments) :=
  if c = 'e' then some setEvent? else if c = 's' then some setSpaces? else none

/-- Does an argument look like an option? A single dash does not. -/
def looksLikeOption (cs : List Char) : Bool :=
  cs.head? == some '-' && cs != ['-']

/-- What one argument comes to: new arguments, or an option that waits for its value. -/
inductive Step where
  | next (a : Arguments)
  | wait (a : Arguments) (set : Arguments → List Char → Option Arguments)

/-- Reads a long option, without its dashes. -/
def long? (a : Arguments) (cs : List Char) : Option Step :=
  let name := cs.takeWhile (· ≠ '=')
  match valueOption? name, cs.dropWhile (· ≠ '=') with
  | some set, _ :: value => (set a value).map .next
  | some set, [] => some (.wait a set)
  | none, [] =>
    if name = ['v', 'e', 'r', 'b', 'o', 's', 'e'] then a.setVerbose?.map .next else none
  | none, _ => none

/-- Reads short options, without their dash. -/
def short? (a : Arguments) : List Char → Option Step
  | [] => some (.next a)
  | c :: rest =>
    if c = 'v' then a.setVerbose?.bind fun a => short? a rest
    else
      match valueLetter? c, rest with
      | some set, [] => some (.wait a set)
      | some set, '=' :: value => (set a value).map .next
      | some set, value => (set a value).map .next
      | none, _ => none

/-- Reads the arguments that remain. -/
def read? (a : Arguments) : List String → Option Arguments
  | [] => some a
  | "--" :: rest => rest.foldlM addPath? a
  | arg :: rest =>
    let step := match arg.toList with
      | '-' :: '-' :: cs => a.long? cs
      | '-' :: c :: cs => a.short? (c :: cs)
      | _ => (a.addPath? arg).map .next
    match step, rest with
    | some (.next a), rest => read? a rest
    | some (.wait a set), value :: rest =>
      if looksLikeOption value.toList then none
      else (set a value.toList).bind fun a => read? a rest
    | _, _ => none

end Arguments

/-- A request to the program. -/
structure Request where
  libraryPath : String
  graphPath : String
  event : Option String
  style : Style
  verbose : Bool
  deriving DecidableEq, Repr

/-- Reads the arguments of the program. -/
def Request.ofArguments? (args : List String) : Option Request :=
  match ({} : Arguments).read? args with
  | some ⟨[libraryPath, graphPath], event, spaces, verbose⟩ =>
    some ⟨libraryPath, graphPath, event, { indent := spaces.elim .tabs .spaces }, verbose⟩
  | _ => none

/-! ### Running -/

/-- Why a file has no contents. -/
inductive FileError where
  | missing
  | other (reason : String)
  deriving DecidableEq, Repr

/-- The wording of the error. -/
def FileError.message : FileError → String
  | missing => "No such file or directory (os error 2)"
  | other reason => reason

/-- Why the program prints no scripts. -/
inductive Failure where
  | libraryFile (path : String) (error : FileError)
  | graphFile (path : String) (error : FileError)
  | libraryText
  | graphText
  | build (error : BuildError)
  | compile (error : CompileError)
  deriving DecidableEq, Repr

/-- The wording of the failure. -/
def Failure.message : Failure → String
  | libraryFile path error => s!"Failed to read library file '{path}': {error.message}"
  | graphFile path error => s!"Failed to read graph file '{path}': {error.message}"
  | libraryText => "Failed to load library: Failed to parse JSON: not a library"
  | graphText => "Failed to parse graph: Failed to parse JSON: not a graph"
  | build error => s!"Failed to build graph: {error.message}"
  | compile error => s!"Compilation failed: {error.message}"

/-- The scripts that are asked for, given the contents of the two files. -/
def Request.run (r : Request) (libraryFile graphFile : Except FileError String) :
    Except Failure String := do
  let libraryText ← libraryFile.mapError (.libraryFile r.libraryPath)
  let graphText ← graphFile.mapError (.graphFile r.graphPath)
  let some catalogue := Catalogue.parse? libraryText | throw .libraryText
  let some blueprint := Blueprint.parse? graphText | throw .graphText
  let graph ← (blueprint.build catalogue.lookup).mapError .build
  let text := match r.event with
    | some name => graph.compileNamed r.style name
    | none => graph.compileAll r.style
  text.mapError .compile

end NodeScript.CommandLine
