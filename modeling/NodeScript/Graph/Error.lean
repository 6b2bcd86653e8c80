import NodeScript.Graph.Basic

/-!
# Errors of edits

Why a change to a graph is refused.
-/

namespace NodeScript

/-- Why a change to a graph is refused. -/
inductive EditError where
  | typeMismatch (source target : Signal)
  | nodeNotFound (id : NodeId)
  | inputNotFound (id : InputId)
  | outputNotFound (id : OutputId)
  | duplicateConnector (node : String) (direction : Direction) (name : String)
  | unsupportedType (name : String)
  | literal (error : LiteralError)
  deriving DecidableEq, Repr

/-- The wording of the error. -/
def EditError.message : EditError → String
  | typeMismatch source target =>
    s!"Cannot connect a {source.keyword} output to a {target.keyword} input"
  | nodeNotFound id => s!"Node {id.label} not found"
  | inputNotFound id => s!"Input {id.label} not found"
  | outputNotFound id => s!"Output {id.label} not found"
  | duplicateConnector node direction name =>
    s!"Node '{node}' already has an {direction.word} named '{name}'"
  | unsupportedType name => s!"Connector '{name}' has an unsupported type"
  | literal error => error.message

namespace Graph

/-- The live node of an identifier, or the refusal of an edit of it. -/
def requireNode (g : Graph) (id : NodeId) : Except EditError Node :=
  (g.node? id).elim (.error (.nodeNotFound id)) .ok

/-- The live input of an identifier, or the refusal of an edit of it. -/
def requireInput (g : Graph) (id : InputId) : Except EditError Input :=
  (g.input? id).elim (.error (.inputNotFound id)) .ok

/-- The live output of an identifier, or the refusal of an edit of it. -/
def requireOutput (g : Graph) (id : OutputId) : Except EditError Output :=
  (g.output? id).elim (.error (.outputNotFound id)) .ok

end Graph

end NodeScript
