import NodeScript.Lowering.Event

/-!
# Compilation

The text of the scripts of a graph: of one event, or of all events in the order of the graph.
-/

namespace NodeScript

/-- How the text of scripts looks. -/
structure Style where
  indent : Indent := .tabs
  /-- What stands between the scripts of two events. -/
  separator : String := "\n"
  deriving DecidableEq, Repr

namespace Graph

variable (g : Graph) (style : Style)

/-- The text of the script of an event. -/
def compileEvent (id : NodeId) : Except CompileError String :=
  (g.scriptOf id).map fun script => script.lines.render style.indent

/-- Does a node go by the name, as a node or as an event? -/
def isEventNamed (name : String) (node : Node) : Bool :=
  node.name == name ||
    match node.kind with
    | .event eventName _ => eventName == name
    | _ => false

/-- The first event that goes by a name. -/
def eventNamed? (name : String) : Option Node :=
  g.events.find? (isEventNamed name)

/-- The text of the script of the first event that goes by a name. -/
def compileNamed (name : String) : Except CompileError String :=
  match g.eventNamed? name with
  | some node => g.compileEvent style node.id
  | none => .error (.eventNotFound name)

/-- The texts of the scripts of all events, one after the other. -/
def compileAll : Except CompileError String := do
  let sources ← g.events.mapM fun node => g.compileEvent style node.id
  return style.separator.intercalate sources

end Graph

end NodeScript
