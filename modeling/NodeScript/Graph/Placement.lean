import NodeScript.Graph.Wiring
import NodeScript.Literal.Reader

/-!
# Placement

Adding nodes to a graph and removing them. What is placed decides which connectors the node gets
(`Placement.connectors`); parameters of a type without a signal get none. Placing fails if two of
the connectors on one side would have the same name, and the node is then removed again. Its
identifiers and its name stay used up.
-/

namespace NodeScript

/-! ### The names of the connectors -/

namespace Pin

/-- The input that a node is run by. -/
def run : String := "Run"
/-- The object that a function is called on. -/
def target : String := "Target"
/-- The output that goes on after an event or call. -/
def done : String := "Done"
/-- The return value of a call. -/
def result : String := "Return"
/-- The condition of a branch. -/
def condition : String := "Bool"
/-- The output that goes on if the condition holds. -/
def whenTrue : String := "True"
/-- The output that goes on if the condition does not hold. -/
def whenFalse : String := "False"
/-- How often a loop runs its body. -/
def count : String := "Count"
/-- The output that goes on with the body of a loop. -/
def body : String := "Loop"
/-- How often a loop has run its body. -/
def counter : String := "LoopCount"
/-- The output that goes on after a loop. -/
def afterLoop : String := "Then"
/-- The value to give to a variable. -/
def set : String := "Set"
/-- The value of a variable. -/
def get : String := "Get"

end Pin

/-- A connector to be made. -/
structure ConnectorSpec where
  direction : Direction
  signal : Signal
  name : String
  className : Option String := none
  deriving DecidableEq, Repr

namespace Parameter

/-- The connector on a given side for a parameter, if its type has a signal. -/
def connector? (p : Parameter) (direction : Direction) : Option ConnectorSpec :=
  if p.type.signal.isSupported then some ⟨direction, p.type.signal, p.name, p.type.className?⟩
  else none

/-- The connector for the return value. An object may be given another class than declared. -/
def resultConnector? (p : Parameter) (resultClass : Option String) : Option ConnectorSpec :=
  (p.connector? .output).map fun c =>
    { c with
      name := Pin.result
      className := if c.signal = .object then resultClass <|> c.className else c.className }

/-- The connector of a call for a parameter. -/
def callConnector? (p : Parameter) (resultClass : Option String) : Option ConnectorSpec :=
  if p.isReturn then p.resultConnector? resultClass
  else p.connector? (if p.out then .output else .input)

end Parameter

/-- Something that can be placed in a graph. -/
inductive Placement where
  | event (function : FunctionDecl)
  /-- A call, with the class to expect of an object that it returns. -/
  | call (function : FunctionDecl) (resultClass : Option String)
  /-- A call that makes a component, and returns it. -/
  | component (function : FunctionDecl) (archetype : Archetype)
  | branch
  | loop
  | member (property : PropertyDecl)
  deriving DecidableEq, Repr

namespace Placement

/-- The kind of a call of a function. -/
def callKind (f : FunctionDecl) (archetype : Option Archetype) : NodeKind :=
  if f.flags.pure then .pureCall ⟨some f, archetype⟩ else .call ⟨some f, archetype⟩

/-- The connectors of a call of a function. -/
def callConnectors (f : FunctionDecl) (resultClass : Option String) : List ConnectorSpec :=
  let control : List ConnectorSpec :=
    if f.flags.pure then []
    else [⟨.input, .execution, Pin.run, none⟩, ⟨.input, .object, Pin.target, some f.owner⟩,
      ⟨.output, .execution, Pin.done, none⟩]
  control ++ f.params.filterMap (·.callConnector? resultClass)

/-- The kind of the node. -/
def kind : Placement → NodeKind
  | event f => .event f.name (some f)
  | call f _ => callKind f none
  | component f a => callKind f (some a)
  | branch => .branch
  | loop => .loop
  | member p => .member ⟨p.name, p.type.signal, p.type.className?, p.readOnly⟩

/-- The connectors of the node, in the order in which they are made. -/
def connectors : Placement → List ConnectorSpec
  | event f =>
    ⟨.output, .execution, Pin.done, none⟩ :: f.arguments.filterMap (·.connector? .output)
  | call f resultClass => callConnectors f resultClass
  | component f a => callConnectors f (some a.className)
  | branch =>
    [⟨.input, .execution, Pin.run, none⟩, ⟨.input, .bool, Pin.condition, none⟩,
      ⟨.output, .execution, Pin.whenTrue, none⟩, ⟨.output, .execution, Pin.whenFalse, none⟩]
  | loop =>
    [⟨.input, .execution, Pin.run, none⟩, ⟨.input, .int, Pin.count, none⟩,
      ⟨.output, .execution, Pin.body, none⟩, ⟨.output, .int, Pin.counter, none⟩,
      ⟨.output, .execution, Pin.afterLoop, none⟩]
  | member p =>
    let get : ConnectorSpec := ⟨.output, p.type.signal, Pin.get, p.type.className?⟩
    if p.readOnly then [get]
    else [⟨.input, p.type.signal, Pin.set, p.type.className?⟩, get]

/-- Only variables of a type with a signal can be placed. -/
def check : Placement → Except EditError Unit
  | member p =>
    if p.type.signal.isSupported then .ok () else .error (.unsupportedType p.name)
  | _ => .ok ()

end Placement

namespace Graph

/-! ### Nodes and connectors -/

/-- Adds a node without connectors, under a fresh name. -/
def addNode (g : Graph) (kind : NodeKind) : NodeId × Graph :=
  let id : NodeId := ⟨g.nodes.size⟩
  let (name, names) := g.names.next kind.label
  (id, { g with nodes := g.nodes.push { id, name, kind }, names })

/-- Changes a live node. -/
def modifyNode (g : Graph) (id : NodeId) (change : Node → Node) : Graph :=
  { g with nodes := g.nodes.modify id.index change }

/-- Gives a node another name. -/
def rename (g : Graph) (id : NodeId) (name : String) : Graph :=
  g.modifyNode id ({ · with name })

/-- Lets a call node call something else. Its connectors stay as they are. -/
def setCallee (g : Graph) (id : NodeId) (callee : Callee) : Graph :=
  g.modifyNode id fun n => { n with kind := n.kind.withCallee callee }

/-- Adds an input to a node. -/
def addInput (g : Graph) (connector : Connector) : InputId × Graph :=
  let id : InputId := ⟨g.inputs.size⟩
  let fallback := (Literal.zero? connector.signal).getD .execution
  (id, { g with inputs := g.inputs.push { connector with id, fallback } }.modifyNode
    connector.owner fun n => { n with inputs := n.inputs ++ [id] })

/-- Adds an output to a node. An object of no known class is an `Object`. -/
def addOutput (g : Graph) (connector : Connector) : OutputId × Graph :=
  let id : OutputId := ⟨g.outputs.size⟩
  let className :=
    if connector.signal = .object then connector.className <|> some "Object"
    else connector.className
  (id, { g with outputs := g.outputs.push { connector with id, className } }.modifyNode
    connector.owner fun n => { n with outputs := n.outputs ++ [id] })

/-- Is the name taken on that side of a node? -/
def isTaken (g : Graph) (id : NodeId) (direction : Direction) (name : String) : Bool :=
  match direction with
  | .input => (g.inputNamed? id name).isSome
  | .output => (g.outputNamed? id name).isSome

/-- Adds a connector to a node. -/
def addConnector (g : Graph) (id : NodeId) (spec : ConnectorSpec) :
    Except EditError (ConnectorId × Graph) := do
  let node ← g.requireNode id
  if !spec.signal.isSupported then
    throw (.unsupportedType spec.name)
  if g.isTaken id spec.direction spec.name then
    throw (.duplicateConnector node.name spec.direction spec.name)
  let connector : Connector := ⟨id, spec.name, spec.signal, spec.className⟩
  match spec.direction with
  | .input => let (i, g) := g.addInput connector; return (.input i, g)
  | .output => let (o, g) := g.addOutput connector; return (.output o, g)

/-- Adds connectors to a node until one is refused. -/
def addConnectors (g : Graph) (id : NodeId) : List ConnectorSpec → Except EditError Unit × Graph
  | [] => (.ok (), g)
  | spec :: specs =>
    match g.addConnector id spec with
    | .ok (_, g) => g.addConnectors id specs
    | .error e => (.error e, g)

/-- Sets the value that an input has without an edge. -/
def setFallback (g : Graph) (id : InputId) (text : String) : Except EditError Graph := do
  let input ← g.requireInput id
  match Literal.ofText input.signal text with
  | .ok fallback => return g.modifyInput id ({ · with fallback })
  | .error e => throw (.literal e)

/-! ### Placing and removing -/

/-- Removes a node with its edges and connectors. -/
def removeNode (g : Graph) (id : NodeId) : Except EditError (Node × Graph) := do
  let node ← g.requireNode id
  let g ← g.breakNode id
  return (node,
    { g with
      nodes := g.nodes.erase id.index
      inputs := node.inputs.foldl (fun t i => t.erase i.index) g.inputs
      outputs := node.outputs.foldl (fun t o => t.erase o.index) g.outputs })

/-- Places a node. If one of its connectors is refused, the node is removed again. -/
def place (g : Graph) (p : Placement) : Except EditError NodeId × Graph :=
  match p.check with
  | .error e => (.error e, g)
  | .ok () =>
    let (id, g) := g.addNode p.kind
    match g.addConnectors id p.connectors with
    | (.ok (), g) => (.ok id, g)
    | (.error e, g) =>
      match g.removeNode id with
      | .ok (_, g) => (.error e, g)
      | .error e => (.error e, g)

end Graph

end NodeScript
