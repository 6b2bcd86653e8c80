import NodeScript.Blueprint.Basic
import NodeScript.Catalogue.Basic
import NodeScript.Graph.Placement

/-!
# Building blueprints

A blueprint becomes a graph by edits alone: its nodes are placed in their order, each named by its
identifier and given its values, and then its links are made in their order. The first thing that
cannot be done ends the building.
-/

namespace NodeScript

/-- Why a blueprint cannot be built. -/
inductive BuildError where
  | duplicateNode (id : String)
  | unknownNode (id : String)
  | unknownFunction (className function : String)
  | unknownProperty (className property : String)
  | unknownConnector (node : String) (direction : Direction) (name : String)
  | edit (error : EditError)
  deriving DecidableEq, Repr

/-- The wording of the error. -/
def BuildError.message : BuildError → String
  | duplicateNode id => s!"Node id '{id}' is defined more than once"
  | unknownNode id => s!"Node '{id}' is referenced by a link but never defined"
  | unknownFunction className function =>
    s!"Function '{className}.{function}' not found in the library"
  | unknownProperty className property =>
    s!"Property '{className}.{property}' not found in the library"
  | unknownConnector node direction name => s!"Node '{node}' has no {direction.word} named '{name}'"
  | edit error => error.message

namespace Blueprint

variable (source : Lookup)

/-- A function of the source. -/
def function (className name : String) : Except BuildError FunctionDecl :=
  (source.function? className name).elim (.error (.unknownFunction className name)) .ok

/-- What a node refers to, looked up. -/
def Kind.placement : Kind → Except BuildError Placement
  | event c f => .event <$> function source c f
  | call c f resultClass => (.call · resultClass) <$> function source c f
  | component c f archetype => (.component · archetype) <$> function source c f
  | branch => .ok .branch
  | loop => .ok .loop
  | member c p => (source.property? c p).elim (.error (.unknownProperty c p)) (.ok ∘ .member)

/-- An edit as a step of building. -/
def lift {α : Type} (r : Except EditError α) : Except BuildError α :=
  r.mapError .edit

/-- Gives an input of a node its value. -/
def setDefault (node : String) (id : NodeId) (g : Graph) (entry : String × String) :
    Except BuildError Graph :=
  match g.inputNamed? id entry.1 with
  | some input => lift (g.setFallback input.id entry.2)
  | none => throw (.unknownConnector node .input entry.1)

/-- The graph so far, and the nodes by their identifiers in the blueprint, the latest first. -/
structure Progress where
  graph : Graph
  ids : List (String × NodeId) := []

/-- Builds a node. -/
def addNode (p : Progress) (n : Node) : Except BuildError Progress := do
  if (p.ids.lookup n.id).isSome then
    throw (.duplicateNode n.id)
  let placement ← n.kind.placement source
  let (placed, g) := p.graph.place placement
  let id ← lift placed
  let g ← n.defaults.entries.foldlM (setDefault n.id id) (g.rename id n.id)
  return ⟨g, (n.id, id) :: p.ids⟩

/-- A node that a link refers to. -/
def linkEnd (p : Progress) (id : String) : Except BuildError NodeId :=
  (p.ids.lookup id).elim (.error (.unknownNode id)) .ok

/-- Builds a link. -/
def addLink (p : Progress) (l : Link) : Except BuildError Progress := do
  let source ← linkEnd p l.source
  let target ← linkEnd p l.target
  let some output := p.graph.outputNamed? source l.output
    | throw (.unknownConnector l.source .output l.output)
  let some input := p.graph.inputNamed? target l.input
    | throw (.unknownConnector l.target .input l.input)
  let g ← lift (p.graph.connect output.id input.id .any)
  return { p with graph := g }

/-- Builds the graph of a blueprint. -/
def build (b : Blueprint) : Except BuildError Graph := do
  let p ← b.nodes.foldlM (addNode source) ⟨.empty b.name, []⟩
  let p ← b.links.foldlM addLink p
  return p.graph

end Blueprint

end NodeScript
