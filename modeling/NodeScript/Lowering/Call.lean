import NodeScript.Lowering.Operand

/-!
# Calls

How a call node becomes one statement. The return value is held in a variable only if something
reads it. Each parameter has its place among the arguments, whether it has a connector or not.
-/

namespace NodeScript.Graph

open Lowering

variable (g : Graph)

/-- The parameter of a call that takes the archetype of a new component. -/
def archetypeParameter : String :=
  "Template"

/-- The function that a call node calls, and the archetype that it passes. -/
def calleeOf (node : Node) : Except CompileError (FunctionDecl × Option Archetype) :=
  match node.kind.callee? with
  | some ⟨some f, archetype⟩ => .ok (f, archetype)
  | _ => .error (.missingFunction node.name)

/-- The class that a returned object has to be taken for, if it is not the declared one. -/
def castOf (f : FunctionDecl) (output : Output) : Option String :=
  let declared := f.returnParameter?.bind (·.type.className?)
  if output.signal = .object ∧ output.className ≠ declared then output.className else none

/-- The variable for the return value and the class it is taken for, if something reads it. -/
def callResult (node : Node) (f : FunctionDecl) :
    Lowering (Option (OutputId × String) × Option String) := do
  match g.outputNamed? node.id Pin.result with
  | none => return (none, none)
  | some output =>
    if output.targets = [] then return (none, none)
    let name ← bindFresh output.id (f.name ++ "Ret")
    return (some (output.id, name), castOf f output)

/-- The argument for a parameter. -/
def argument (node : Node) (archetype : Option Archetype) (p : Parameter) : Lowering Argument := do
  if let some a := archetype then
    if p.name = archetypeParameter then
      return .archetype a
  if !p.type.signal.isSupported then
    return .absent
  if p.out then
    match g.outputNamed? node.id p.name with
    | some output => return .result output.id (← bindFresh output.id p.name)
    | none => return .absent
  match g.inputNamed? node.id p.name with
  | some input => return .value (← reading fun s => g.operand s node input)
  | none => return .absent

/-- What a call with the given arguments evaluates. -/
def callForm (node : Node) (f : FunctionDecl) (arguments : List Argument) : Lowering CallForm := do
  if f.flags.operator then
    match arguments with
    | [left, right] => return .operation (operatorSymbol f.name) left right
    | _ => throw (.arityMismatch node.name arguments.length)
  else
    return .invocation (← reading fun s => g.connectedOperand s node Pin.target) f.name arguments

/-- The statement of a call node. -/
def callStatement (id : NodeId) : Lowering CallStatement := do
  let node ← MonadExcept.ofExcept (g.nodeOrFail id)
  let (f, archetype) ← MonadExcept.ofExcept (calleeOf node)
  let (result, cast) ← g.callResult node f
  let arguments ← f.arguments.mapM (g.argument node archetype)
  let form ← g.callForm node f arguments
  return ⟨id, result, cast, form⟩

end NodeScript.Graph
