import NodeScript.Graph.Edit

/-!
# Editing in place

The edits once more, as changes that are made one by one to the one graph there is. Each asks for
what it needs where it needs it, and whatever it has changed before it is refused stays changed:
`InPlace` keeps the graph on failure too. In a graph that edits have led to, no edit is refused
halfway, so that `InPlace.perform` and `Graph.apply` are the same.
-/

namespace NodeScript

/-- A change of a graph in place. What was done before a refusal stays done. -/
abbrev InPlace :=
  ExceptT EditError (StateM Graph)

namespace InPlace

variable {α : Type}

/-- What the change gives when it is made to `g`, and the graph that it leaves. -/
def outcome (m : InPlace α) (g : Graph) : Except EditError α × Graph :=
  m.run.run g

/-- Looks something up in the graph as it is now. -/
def require (look : Graph → Except EditError α) : InPlace α := do
  MonadExcept.ofExcept (look (← get))

/-! ### Edges -/

/-- Breaks the edge of an input, if it has one. -/
def breakInput (id : InputId) : InPlace Unit := do
  let input ← require (·.requireInput id)
  modify (·.unplug id)
  match input.source with
  | some o =>
    modify (·.modifyOutput o fun out => { out with targets := out.targets.filter (· ≠ id) })
  | none => pure ()

/-- Breaks all edges of an output. -/
def breakOutput (id : OutputId) : InPlace Unit := do
  let output ← require (·.requireOutput id)
  modify (·.modifyOutput id ({ · with targets := [] }))
  output.targets.forM fun i => modify (·.unplug i)

/-- Breaks the edge between an output and an input, if there is one. -/
def breakEdge (source : OutputId) (target : InputId) : InPlace Unit := do
  let _ ← require (·.requireOutput source)
  let input ← require (·.requireInput target)
  if input.source = some source then breakInput target else pure ()

/-- Breaks every input, then every output of a node. -/
def breakNode (id : NodeId) : InPlace Unit := do
  let node ← require (·.requireNode id)
  node.inputs.forM breakInput
  node.outputs.forM breakOutput

/-- Makes an edge. The output may have lost its edges before the input turns out not to be there. -/
def connect (source : OutputId) (target : InputId) (fanOut : FanOut) : InPlace Unit := do
  let output ← require (·.requireOutput source)
  let input ← require (·.requireInput target)
  if output.signal ≠ input.signal then
    throw (.typeMismatch output.signal input.signal)
  if fanOut output.signal then pure () else breakOutput source
  breakInput target
  modify (·.modifyOutput source fun out => { out with targets := out.targets ++ [target] })
  modify (·.modifyInput target ({ · with source := some source }))

/-! ### Nodes and connectors -/

/-- Removes a node with its edges and connectors. -/
def removeNode (id : NodeId) : InPlace Node := do
  breakNode id
  let node ← require (·.requireNode id)
  modify fun g => { g with nodes := g.nodes.erase id.index }
  node.inputs.forM fun i => modify fun g => { g with inputs := g.inputs.erase i.index }
  node.outputs.forM fun o => modify fun g => { g with outputs := g.outputs.erase o.index }
  return node

/-- Adds a connector to a node. -/
def addConnector (id : NodeId) (spec : ConnectorSpec) : InPlace ConnectorId := do
  let node ← require (·.requireNode id)
  if !spec.signal.isSupported then
    throw (.unsupportedType spec.name)
  if (← get).isTaken id spec.direction spec.name then
    throw (.duplicateConnector node.name spec.direction spec.name)
  let connector : Connector := ⟨id, spec.name, spec.signal, spec.className⟩
  match spec.direction with
  | .input => .input <$> modifyGet (·.addInput connector)
  | .output => .output <$> modifyGet (·.addOutput connector)

/-- Sets the value that an input has without an edge. -/
def setFallback (id : InputId) (text : String) : InPlace Unit := do
  let input ← require (·.requireInput id)
  match Literal.ofText input.signal text with
  | .ok fallback => modify (·.modifyInput id ({ · with fallback }))
  | .error e => throw (.literal e)

/-- Places a node: adds it, and then its connectors one by one. If one of them is refused, the node
is removed again with the connectors that it has got so far. -/
def place (p : Placement) : InPlace NodeId := do
  require fun _ => p.check
  let id ← modifyGet (·.addNode p.kind)
  tryCatch (p.connectors.forM fun spec => do let _ ← addConnector id spec) fun e => do
    let _ ← removeNode id
    throw e
  return id

/-! ### All edits -/

/-- Makes an edit. -/
def perform : Edit → InPlace Outcome
  | .add kind => .added <$> modifyGet (·.addNode kind)
  | .place p => .added <$> place p
  | .connect o i fanOut => (fun _ => .done) <$> connect o i fanOut
  | .breakInput i => (fun _ => .done) <$> breakInput i
  | .breakOutput o => (fun _ => .done) <$> breakOutput o
  | .breakEdge o i => (fun _ => .done) <$> breakEdge o i
  | .breakNode n => (fun _ => .done) <$> breakNode n
  | .removeNode n => .removed <$> removeNode n
  | .addConnector n spec => .connected <$> addConnector n spec
  | .setFallback i text => (fun _ => .done) <$> setFallback i text
  | .rename n name => modifyGet fun g =>
    (if (g.node? n).isSome then .done else .absent, g.rename n name)
  | .setCallee n callee => modifyGet fun g =>
    (if ((g.node? n).bind (·.kind.callee?)).isSome then .done else .absent, g.setCallee n callee)

/-- Makes edits one after the other, going on after those that fail. -/
def performAll (g : Graph) (edits : List Edit) : Graph :=
  edits.foldl (fun g e => ((perform e).outcome g).2) g

end InPlace

end NodeScript
