import NodeScript.Graph.Placement
import NodeScript.Lowering.Scope
import NodeScript.Script.Block

/-!
# Operands

What stands for the value of an input in a script: its own value if it has no edge, the variable
itself if the edge comes from a member variable, and otherwise the variable that holds the output
the edge comes from. That variable has to be set by then.
-/

namespace NodeScript.Graph

variable (g : Graph)

/-- The output that the edge of an input comes from. -/
def sourceOf (input : Input) : Option Output :=
  input.source.bind g.output?

/-- What stands for the value of an input of `consumer`. -/
def operand (s : Scope) (consumer : Node) (input : Input) : Except CompileError Operand :=
  match g.sourceOf input with
  | none => .ok (.literal input.fallback)
  | some o => do
    let source ← g.nodeOrFail o.owner
    match source.kind.member? with
    | some v => return .member source.id v.name
    | none =>
      match s.nameOf? o.id with
      | some name => return .held o.id name
      | none => throw (.unresolvedValue o.name source.name consumer.name)

/-- What stands for the value of a named input, if the node has it. -/
def operandNamed (s : Scope) (node : Node) (name : String) : Except CompileError (Option Operand) :=
  match g.inputNamed? node.id name with
  | some input => some <$> g.operand s node input
  | none => return none

/-- What stands for the value of a named input, if the node has it and it has an edge. -/
def connectedOperand (s : Scope) (node : Node) (name : String) :
    Except CompileError (Option Operand) :=
  match g.inputNamed? node.id name with
  | some input => if input.source.isSome then some <$> g.operand s node input else return none
  | none => return none

/-- The assignment that an edge from `output` calls for: one, if the edge goes to a member variable
to set it. -/
def assignmentTo (s : Scope) (node : Node) (output : Output) (input : Input) :
    Except CompileError (Option Assignment) := do
  let target ← g.nodeOrFail input.owner
  match target.kind.member? with
  | none => return none
  | some v =>
    if input.name ≠ Pin.set then return none
    else match s.nameOf? output.id with
      | some name => return some ⟨target.id, v.name, output.id, name⟩
      | none => throw (.unresolvedValue output.name node.name target.name)

/-- The edges that leave the data outputs of a node, in order. -/
def dataEdges (node : Node) : List (Output × Input) :=
  ((g.outputsOf node).filter (!·.signal.isExecution)).flatMap fun o =>
    (o.targets.filterMap g.input?).map (o, ·)

/-- The assignments that the data outputs of a node call for. -/
def assignments (s : Scope) (node : Node) : Except CompileError (List Assignment) := do
  let found ← (g.dataEdges node).mapM fun (o, i) => g.assignmentTo s node o i
  return found.filterMap id

end NodeScript.Graph
