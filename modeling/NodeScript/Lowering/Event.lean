import NodeScript.Lowering.Flow

/-!
# Events

How an event becomes a script. The data outputs of the event are its parameters. Every other output
that got a variable on the way is declared as a local variable, in the order in which the outputs
got theirs. Each event has a scope of its own.
-/

namespace NodeScript.Graph

open Lowering

variable (g : Graph)

/-- The name of an event that has a function. -/
def eventName (node : Node) : Except CompileError String :=
  match node.kind with
  | .event name (some _) => .ok name
  | .event _ none => .error (.missingFunction node.name)
  | _ => .error (.notAnEvent node.name)

/-- The declaration of the variable of an output, unless it is a parameter. -/
def localOf (binding : OutputId × String) : Except CompileError (Option VariableDecl) :=
  match g.output? binding.1 with
  | none => return none
  | some output => do
    let owner ← g.nodeOrFail output.owner
    if owner.kind.isEvent then return none
    else return some ⟨output.typeCode, binding.2⟩

/-- The declarations of all variables but the parameters. -/
def locals (s : Scope) : Except CompileError (List VariableDecl) := do
  let found ← s.bindings.mapM g.localOf
  return found.filterMap id

/-- Lowers an event, with `lower` for the node behind it. -/
def lowerEventBy (lower : NodeId → Lowering Block) (id : NodeId) : Lowering EventScript := do
  let node ← MonadExcept.ofExcept (g.nodeOrFail id)
  let name ← MonadExcept.ofExcept (eventName node)
  visit id
  let outputs := (g.outputsOf node).filter (!·.signal.isExecution)
  outputs.forM fun output => modify (·.bind output.id output.name)
  let parameters := outputs.map fun output => ⟨output.typeCode, output.name⟩
  if (g.successor? id Pin.done).isNone then
    return ⟨id, name, parameters, [], none⟩
  let body ← g.lowerBehind lower id Pin.done .source
  let locals ← reading g.locals
  return ⟨id, name, parameters, locals, some body⟩

/-- Lowers an event. -/
def lowerEvent : NodeId → Lowering EventScript :=
  g.lowerEventBy g.lower

/-- The script of an event, lowered in a scope of its own. -/
def scriptOf (id : NodeId) : Except CompileError EventScript := do
  let node ← g.nodeOrFail id
  if !node.kind.isEvent then
    throw (.notAnEvent node.name)
  ((g.lowerEvent id).run.run {}).1

end NodeScript.Graph
