import NodeScript.FreshNames
import NodeScript.Graph.Basic

/-!
# Scopes

What is known while one event is being turned into a script: which names were given out, which
variable holds the value of which output, and which nodes were lowered. A step of lowering may fail,
and then keeps what it has done to the scope.
-/

namespace NodeScript

/-- Why a graph has no script. -/
inductive CompileError where
  | missingFunction (node : String)
  | arityMismatch (node : String) (found : Nat)
  | unresolvedValue (output source consumer : String)
  | loopDetected (node : String)
  | nodeNotFound (id : NodeId)
  | notExecutable (node : String)
  | notAnEvent (node : String)
  | eventNotFound (name : String)
  deriving DecidableEq, Repr

/-- The wording of the error. -/
def CompileError.message : CompileError → String
  | missingFunction node => s!"Missing function '{node}'"
  | arityMismatch node found => s!"Operator needs 2 params '{node}', but it has {found}"
  | unresolvedValue output source consumer =>
    s!"Output '{output}' on node '{source}' used by '{consumer}' before it is executed."
  | loopDetected node => s!"Loop detected at '{node}'"
  | nodeNotFound id => s!"Node {id.label} not found in the graph"
  | notExecutable node => s!"Node '{node}' cannot be run through an execution connector"
  | notAnEvent node =>
    s!"Node '{node}' is not an event and cannot be compiled as an entry point"
  | eventNotFound name => s!"No event named '{name}' exists in the graph"

/-- The state of lowering one event. -/
structure Scope where
  names : FreshNames := {}
  /-- The variables of outputs, in the order in which the outputs first got one. -/
  bindings : List (OutputId × String) := []
  /-- The nodes lowered so far, the latest first. -/
  visited : List NodeId := []
  deriving DecidableEq, Repr

namespace Scope

/-- Gives an output a variable. An output that had one keeps its place. -/
def bindIn (output : OutputId) (name : String) :
    List (OutputId × String) → List (OutputId × String)
  | [] => [(output, name)]
  | (o, n) :: rest => if o = output then (o, name) :: rest else (o, n) :: bindIn output name rest

/-- Gives an output a variable. -/
def bind (s : Scope) (output : OutputId) (name : String) : Scope :=
  { s with bindings := bindIn output name s.bindings }

/-- The variable of an output. -/
def nameOf? (s : Scope) (output : OutputId) : Option String :=
  s.bindings.lookup output

/-- Marks a node as lowered. -/
def visit (s : Scope) (id : NodeId) : Scope :=
  { s with visited := id :: s.visited }

/-! ### The view by outputs -/

theorem lookup_bindIn (output other : OutputId) (name : String) (l : List (OutputId × String)) :
    (bindIn output name l).lookup other = if output = other then some name else l.lookup other := by
  induction l with
  | nil => simp only [bindIn, List.lookup_cons, List.lookup_nil]; grind
  | cons d l ih =>
    obtain ⟨o, n⟩ := d
    simp only [bindIn]
    split <;> simp only [List.lookup_cons] <;> grind

/-- After binding, an output has its new variable, and the others have what they had. -/
theorem nameOf?_bind (s : Scope) (output other : OutputId) (name : String) :
    (s.bind output name).nameOf? other = if output = other then some name else s.nameOf? other :=
  lookup_bindIn output other name s.bindings

end Scope

/-- A step of lowering. -/
abbrev Lowering :=
  ExceptT CompileError (StateM Scope)

namespace Lowering

/-- A fresh variable name. -/
def fresh (base : String) : Lowering String :=
  modifyGet fun s => let (name, names) := s.names.next base; (name, { s with names })

/-- Gives an output a fresh variable. -/
def bindFresh (output : OutputId) (base : String) : Lowering String := do
  let name ← fresh base
  modify (·.bind output name)
  return name

/-- Marks a node as lowered. -/
def visit (id : NodeId) : Lowering Unit :=
  modify (·.visit id)

/-- Was a node lowered? -/
def isVisited (id : NodeId) : Lowering Bool := do
  return (← get).visited.contains id

/-- Runs a step that reads the scope only. -/
def reading {α : Type} (step : Scope → Except CompileError α) : Lowering α := do
  MonadExcept.ofExcept (step (← get))

end Lowering

namespace Graph

/-- The live node of an identifier, or the failure to lower it. -/
def nodeOrFail (g : Graph) (id : NodeId) : Except CompileError Node :=
  (g.node? id).elim (.error (.nodeNotFound id)) .ok

end Graph

end NodeScript
