import NodeScript.Lowering.PureCalls

/-!
# The flow of control

Lowering follows the execution outputs from node to node, only ever the first edge of an output.
What lies behind the outputs of a branch or loop becomes its inner blocks, what lies behind a call
or after a loop follows it. No node is lowered twice: an output that leads back to a lowered node
is refused.
-/

namespace NodeScript

/-- The node that the refusal of a loop names. -/
inductive Blame where
  /-- The node whose output leads back. -/
  | source
  /-- The node that it leads back to. -/
  | target
  deriving DecidableEq, Repr

namespace Graph

open Lowering

variable (g : Graph)

section Steps

/-! The steps take the lowering of the nodes behind them as a parameter. -/

variable (lower : NodeId → Lowering Block)

/-- Lowers what lies behind an output. -/
def lowerBehind (id : NodeId) (outputName : String) (blame : Blame) : Lowering Block := do
  match g.successor? id outputName with
  | none => return .done
  | some next =>
    if ← isVisited next then
      let culprit ← MonadExcept.ofExcept (g.nodeOrFail (if blame = .source then id else next))
      throw (.loopDetected culprit.name)
    lower next

/-- Lowers a call and what comes after it. -/
def lowerCall (id : NodeId) : Lowering Block := do
  let needed ← g.pureCalls id
  let statement ← g.callStatement id
  let node ← MonadExcept.ofExcept (g.nodeOrFail id)
  let assigned ← reading fun s => g.assignments s node
  let after ← g.lowerBehind lower id Pin.done .source
  return needed ++ .call statement (.assigns assigned ++ after)

/-- Lowers a branch. -/
def lowerBranch (id : NodeId) : Lowering Block := do
  let needed ← g.pureCalls id
  let node ← MonadExcept.ofExcept (g.nodeOrFail id)
  let condition ← reading fun s => g.operandNamed s node Pin.condition
  let whenTrue ← g.lowerBehind lower id Pin.whenTrue .target
  let whenFalse ← g.lowerBehind lower id Pin.whenFalse .target
  return needed ++ .branch id condition whenTrue whenFalse .done

/-- Lowers a loop and what comes after it. -/
def lowerLoop (id : NodeId) : Lowering Block := do
  let needed ← g.pureCalls id
  let node ← MonadExcept.ofExcept (g.nodeOrFail id)
  let bound ← reading fun s => g.operandNamed s node Pin.count
  let counter ← fresh "ForCount"
  if let some output := g.outputNamed? id Pin.counter then
    modify (·.bind output.id counter)
  let assigned ← reading fun s => g.assignments s node
  let body ← g.lowerBehind lower id Pin.body .target
  let after ← g.lowerBehind lower id Pin.afterLoop .target
  return needed ++ .loop ⟨id, counter, bound⟩ (.assigns assigned ++ body) after

/-- Lowers a node that an execution output leads to. -/
def lowerKind (node : Node) : Lowering Block :=
  match node.kind with
  | .call _ => g.lowerCall lower node.id
  | .branch => g.lowerBranch lower node.id
  | .loop => g.lowerLoop lower node.id
  | .event _ _ | .pureCall _ | .member _ => throw (.notExecutable node.name)

end Steps

/-- Lowers a node that an execution output leads to, and all that lies behind it.

Every level of the recursion marks another live node, so `fuel` need not exceed their number by more
than one. -/
def lowerUpTo : (fuel : Nat) → NodeId → Lowering Block
  | 0, id => do
    let node ← MonadExcept.ofExcept (g.nodeOrFail id)
    throw (.loopDetected node.name)
  | fuel + 1, id => do
    visit id
    let node ← MonadExcept.ofExcept (g.nodeOrFail id)
    g.lowerKind (lowerUpTo fuel) node

/-- Lowers a node that an execution output leads to, and all that lies behind it. -/
def lower : NodeId → Lowering Block :=
  g.lowerUpTo (g.nodeCount + 1)

end Graph

end NodeScript
