import NodeScript.Graph.Error

/-!
# Wiring

Making and breaking edges. An edge goes from an output to an input of the same signal. Making one
breaks the edge that its input had; a policy may allow the output only one edge, and then breaks
the edges that its output had. The new edge is the last of its output.

An edit that is refused gives no graph, so the graph it was tried on stays as it was.
-/

namespace NodeScript

/-- Says of which signals an output may have several edges. -/
abbrev FanOut :=
  Signal → Bool

namespace FanOut

/-- Every output may have several edges. -/
def any : FanOut :=
  fun _ => true

/-- All but execution outputs may have several edges. -/
def singleExecution : FanOut :=
  fun s => !s.isExecution

end FanOut

namespace Graph

/-- Changes a live input. -/
def modifyInput (g : Graph) (id : InputId) (change : Input → Input) : Graph :=
  { g with inputs := g.inputs.modify id.index change }

/-- Changes a live output. -/
def modifyOutput (g : Graph) (id : OutputId) (change : Output → Output) : Graph :=
  { g with outputs := g.outputs.modify id.index change }

/-- Takes the edge away from an input. -/
def unplug (g : Graph) (id : InputId) : Graph :=
  g.modifyInput id ({ · with source := none })

/-- Breaks the edge of an input, if it has one. -/
def breakInput (g : Graph) (id : InputId) : Except EditError Graph := do
  let input ← g.requireInput id
  let g := g.unplug id
  match input.source with
  | some o => return g.modifyOutput o fun out => { out with targets := out.targets.filter (· ≠ id) }
  | none => return g

/-- Breaks all edges of an output. -/
def breakOutput (g : Graph) (id : OutputId) : Except EditError Graph := do
  let output ← g.requireOutput id
  let g := g.modifyOutput id ({ · with targets := [] })
  return output.targets.foldl unplug g

/-- Breaks the edge between an output and an input, if there is one. -/
def breakEdge (g : Graph) (source : OutputId) (target : InputId) : Except EditError Graph := do
  let _ ← g.requireOutput source
  let input ← g.requireInput target
  if input.source = some source then g.breakInput target else return g

/-- Breaks all edges of the connectors of a node. -/
def breakNode (g : Graph) (id : NodeId) : Except EditError Graph := do
  let node ← g.requireNode id
  let g ← node.inputs.foldlM breakInput g
  node.outputs.foldlM breakOutput g

/-- Makes an edge. -/
def connect (g : Graph) (source : OutputId) (target : InputId) (fanOut : FanOut) :
    Except EditError Graph := do
  let output ← g.requireOutput source
  let input ← g.requireInput target
  if output.signal ≠ input.signal then
    throw (.typeMismatch output.signal input.signal)
  let g ← if fanOut output.signal then pure g else g.breakOutput source
  let g ← g.breakInput target
  let g := g.modifyOutput source fun out => { out with targets := out.targets ++ [target] }
  return g.modifyInput target ({ · with source := some source })

end Graph

end NodeScript
