import NodeScript.Declaration.Basic
import NodeScript.Declaration.Operator
import NodeScript.FreshNames
import NodeScript.Graph.Table
import NodeScript.Literal.Basic

/-!
# Graphs

A graph consists of nodes with inputs and outputs, and of edges from outputs to inputs. An input
has at most one edge; an output has its edges in an order. Both ends know an edge: the input its
source, the output its targets.

Nodes, inputs and outputs are found by their identifiers, which are never used again once what
they stand for is gone.
-/

namespace NodeScript

/-! ### Identifiers -/

/-- Identifies a node. -/
structure NodeId where
  index : Nat
  deriving DecidableEq, Repr

/-- Identifies an input. -/
structure InputId where
  index : Nat
  deriving DecidableEq, Repr

/-- Identifies an output. -/
structure OutputId where
  index : Nat
  deriving DecidableEq, Repr

/-- The identifier in messages. -/
def NodeId.label (id : NodeId) : String :=
  s!"node#{id.index}"

/-- The identifier in messages. -/
def InputId.label (id : InputId) : String :=
  s!"input#{id.index}"

/-- The identifier in messages. -/
def OutputId.label (id : OutputId) : String :=
  s!"output#{id.index}"

/-! ### Connectors -/

/-- The side of a node that a connector is on. -/
inductive Direction where
  | input
  | output
  deriving DecidableEq, Repr

/-- The direction in messages. -/
def Direction.word : Direction → String
  | input => "input"
  | output => "output"

/-- Identifies an input or output. -/
inductive ConnectorId where
  | input (id : InputId)
  | output (id : OutputId)
  deriving DecidableEq, Repr

/-- What inputs and outputs have in common. -/
structure Connector where
  /-- The node that the connector is on. -/
  owner : NodeId
  name : String
  signal : Signal
  /-- The class of the objects that pass, where it is known. -/
  className : Option String
  deriving DecidableEq, Repr

/-- The type in a declaration: the class of an object connector, otherwise the keyword. -/
def Connector.typeCode (c : Connector) : String :=
  match c.signal, c.className with
  | .object, some className => className
  | signal, _ => signal.keyword

/-- A connector that takes at most one edge. -/
structure Input extends Connector where
  id : InputId
  /-- Where the edge comes from. -/
  source : Option OutputId := none
  /-- The value without an edge. -/
  fallback : Literal
  deriving DecidableEq, Repr

/-- A connector that any number of edges leave. -/
structure Output extends Connector where
  id : OutputId
  /-- Where the edges go, in the order in which they were made. -/
  targets : List InputId := []
  deriving DecidableEq, Repr

/-! ### Nodes -/

/-- What a new component is made from: an object of a class, found by its path. -/
structure Archetype where
  className : String
  path : String
  deriving DecidableEq, Repr

/-- The reference to an archetype in a script. -/
def Archetype.code (a : Archetype) : String :=
  a.className ++ "'" ++ a.path ++ "'"

/-- What a call node calls. -/
structure Callee where
  function : Option FunctionDecl := none
  /-- Only for calls that make a component. -/
  archetype : Option Archetype := none
  deriving DecidableEq, Repr

/-- The variable that a member variable node stands for. -/
structure MemberVariable where
  name : String
  signal : Signal
  className : Option String := none
  readOnly : Bool := false
  deriving DecidableEq, Repr

/-- What a node does. -/
inductive NodeKind where
  /-- Starts a script. -/
  | event (name : String) (function : Option FunctionDecl)
  /-- Calls a function in its place in the order of statements. -/
  | call (callee : Callee)
  /-- Calls a function without effects, just before its result is needed. -/
  | pureCall (callee : Callee)
  /-- Goes on in one of two ways. -/
  | branch
  /-- Repeats a body a number of times. -/
  | loop
  /-- Reads and writes a variable. -/
  | member (var : MemberVariable)
  deriving DecidableEq, Repr

namespace NodeKind

/-- The first part of the names given to nodes of the kind. -/
def label : NodeKind → String
  | event _ _ => "Event"
  | call _ => "Func"
  | pureCall _ => "FuncPure"
  | branch => "IfElse"
  | loop => "ForLoop"
  | member _ => "MemberVar"

/-- What is called, for both kinds of call nodes. -/
def callee? : NodeKind → Option Callee
  | call c | pureCall c => some c
  | _ => none

/-- The kind with another callee, for both kinds of call nodes. -/
def withCallee (callee : Callee) : NodeKind → NodeKind
  | call _ => call callee
  | pureCall _ => pureCall callee
  | kind => kind

/-- Is this a call without a place in the order of statements? -/
def isPureCall : NodeKind → Bool
  | pureCall _ => true
  | _ => false

/-- Does this start a script? -/
def isEvent : NodeKind → Bool
  | event _ _ => true
  | _ => false

/-- The variable of a member variable node. -/
def member? : NodeKind → Option MemberVariable
  | member v => some v
  | _ => none

/-- What an editor writes on a node of the kind. -/
def title : NodeKind → String
  | event name _ => name
  | call c | pureCall c =>
    match c.function with
    | some f => if f.flags.operator then operatorSymbol f.name else f.owner ++ "::" ++ f.name
    | none => "None"
  | branch => "IfElse"
  | loop => "ForLoop"
  | member v =>
    match v.signal, v.className with
    | .object, some className => v.name ++ " (" ++ className ++ ")"
    | _, _ => v.name

/-- May the inputs of such a node be given values? -/
def takesValues : NodeKind → Bool
  | member _ => false
  | _ => true

end NodeKind

/-- A node with its connectors in the order in which they were made. -/
structure Node where
  id : NodeId
  name : String
  kind : NodeKind
  inputs : List InputId := []
  outputs : List OutputId := []
  deriving DecidableEq, Repr

/-! ### Graphs -/

/-- Nodes, their connectors, and the edges between these. -/
structure Graph where
  name : String := ""
  nodes : Table Node := {}
  inputs : Table Input := {}
  outputs : Table Output := {}
  /-- The names given to nodes. -/
  names : FreshNames := {}
  deriving DecidableEq, Repr

namespace Graph

/-- The graph of a name without nodes. -/
def empty (name : String) : Graph :=
  { name }

/-- The live node of an identifier. -/
def node? (g : Graph) (id : NodeId) : Option Node :=
  g.nodes.get? id.index

/-- The live input of an identifier. -/
def input? (g : Graph) (id : InputId) : Option Input :=
  g.inputs.get? id.index

/-- The live output of an identifier. -/
def output? (g : Graph) (id : OutputId) : Option Output :=
  g.outputs.get? id.index

/-- The number of live nodes. -/
def nodeCount (g : Graph) : Nat :=
  g.nodes.live.length

/-- The live nodes that start scripts. -/
def events (g : Graph) : List Node :=
  g.nodes.live.filter (·.kind.isEvent)

/-- The first live node of a name. -/
def findNode? (g : Graph) (name : String) : Option Node :=
  g.nodes.live.find? (·.name == name)

/-- The live inputs of a node. -/
def inputsOf (g : Graph) (n : Node) : List Input :=
  n.inputs.filterMap g.input?

/-- The live outputs of a node. -/
def outputsOf (g : Graph) (n : Node) : List Output :=
  n.outputs.filterMap g.output?

/-- The first input of a node that has a given name. -/
def inputNamed? (g : Graph) (id : NodeId) (name : String) : Option Input :=
  (g.node? id).bind fun n => (g.inputsOf n).find? (·.name == name)

/-- The first output of a node that has a given name. -/
def outputNamed? (g : Graph) (id : NodeId) (name : String) : Option Output :=
  (g.node? id).bind fun n => (g.outputsOf n).find? (·.name == name)

/-- The node that the first edge of a named output goes to. -/
def successor? (g : Graph) (id : NodeId) (outputName : String) : Option NodeId :=
  (g.outputNamed? id outputName).bind fun o =>
    o.targets.head?.bind fun i => (g.input? i).map (·.owner)

/-- The edges, in the order of their outputs and then of their making. -/
def edges (g : Graph) : List (OutputId × InputId) :=
  g.outputs.live.flatMap fun o => o.targets.map (o.id, ·)

end Graph

end NodeScript
