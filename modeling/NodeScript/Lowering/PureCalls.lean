import NodeScript.Lowering.Call

/-!
# Calls without effects

A call without effects has no place of its own in the order of statements. It is made just before
the first statement that needs its result, after the calls that it needs itself, and its result is
kept for later statements.
-/

namespace NodeScript.Graph

open Lowering

variable (g : Graph)

/-- The nodes that the values of a node come from, in the order of its inputs. -/
def dataSources (node : Node) : List NodeId :=
  ((g.inputsOf node).filter (!·.signal.isExecution)).filterMap fun input =>
    (g.sourceOf input).map (·.owner)

/-- The calls without effects that a node needs and that were not made yet, each after those that it
needs itself. They count as made from then on. `expanding` are the calls on the way from the first
node to this one; a call that needs itself is refused.

Every level of the recursion takes another live node into `expanding`, so `fuel` need not exceed
their number by more than one. -/
def neededCalls : (fuel : Nat) → (expanding : List NodeId) → NodeId → Lowering (List NodeId)
  | 0, _, id => do
    let node ← MonadExcept.ofExcept (g.nodeOrFail id)
    throw (.loopDetected node.name)
  | fuel + 1, expanding, id => do
    let node ← MonadExcept.ofExcept (g.nodeOrFail id)
    let step (order : List NodeId) (source : NodeId) : Lowering (List NodeId) := do
      let sourceNode ← MonadExcept.ofExcept (g.nodeOrFail source)
      if !sourceNode.kind.isPureCall then
        return order
      if expanding.contains source then
        throw (.loopDetected sourceNode.name)
      if ← isVisited source then
        return order
      let before ← neededCalls fuel (source :: expanding) source
      visit source
      return order ++ before ++ [source]
    (g.dataSources node).foldlM step []

/-- Makes the calls without effects that a node needs. -/
def pureCalls (id : NodeId) : Lowering Block := do
  let order ← g.neededCalls (g.nodeCount + 1) [] id
  return .calls (← order.mapM g.callStatement)

end NodeScript.Graph
