import NodeScript.Graph.Placement

/-!
# Edits

Every change that can be made to a graph, as data. A graph that edits have led to from an empty
graph is `Reachable`; an edit may fail on the way, and may name anything, live or not.
-/

namespace NodeScript

/-- A change to a graph. -/
inductive Edit where
  /-- Adds a node without connectors. -/
  | add (kind : NodeKind)
  | place (placement : Placement)
  | connect (source : OutputId) (target : InputId) (fanOut : FanOut)
  | breakInput (id : InputId)
  | breakOutput (id : OutputId)
  | breakEdge (source : OutputId) (target : InputId)
  | breakNode (id : NodeId)
  | removeNode (id : NodeId)
  | addConnector (id : NodeId) (spec : ConnectorSpec)
  | setFallback (id : InputId) (text : String)
  | rename (id : NodeId) (name : String)
  | setCallee (id : NodeId) (callee : Callee)

/-- What an edit gives back. -/
inductive Outcome where
  | done
  /-- A node was added. -/
  | added (id : NodeId)
  /-- A connector was added. -/
  | connected (id : ConnectorId)
  /-- A node was removed; this is what it last was. -/
  | removed (node : Node)
  /-- There was nothing to change. -/
  | absent
  deriving DecidableEq, Repr

namespace Graph

/-- The result of an edit that gives a graph, or is refused and leaves the graph as it was. -/
def settle (g : Graph) : Except EditError (Outcome × Graph) → Except EditError Outcome × Graph
  | .ok (outcome, g) => (.ok outcome, g)
  | .error e => (.error e, g)

/-- Makes an edit. -/
def apply (g : Graph) : Edit → Except EditError Outcome × Graph
  | .add kind => let (id, g) := g.addNode kind; (.ok (.added id), g)
  | .place p => let (r, g) := g.place p; (r.map .added, g)
  | .connect o i fanOut => g.settle ((g.connect o i fanOut).map (.done, ·))
  | .breakInput i => g.settle ((g.breakInput i).map (.done, ·))
  | .breakOutput o => g.settle ((g.breakOutput o).map (.done, ·))
  | .breakEdge o i => g.settle ((g.breakEdge o i).map (.done, ·))
  | .breakNode n => g.settle ((g.breakNode n).map (.done, ·))
  | .removeNode n => g.settle ((g.removeNode n).map fun (node, g) => (.removed node, g))
  | .addConnector n spec => g.settle ((g.addConnector n spec).map fun (id, g) => (.connected id, g))
  | .setFallback i text => g.settle ((g.setFallback i text).map (.done, ·))
  | .rename n name =>
    (.ok (if (g.node? n).isSome then .done else .absent), g.rename n name)
  | .setCallee n callee =>
    (.ok (if ((g.node? n).bind (·.kind.callee?)).isSome then .done else .absent),
      g.setCallee n callee)

/-- Makes edits one after the other, going on after those that fail. -/
def run (g : Graph) (edits : List Edit) : Graph :=
  edits.foldl (fun g e => (g.apply e).2) g

/-- Edits lead to this graph from an empty one. -/
def Reachable (g : Graph) : Prop :=
  ∃ name edits, g = (empty name).run edits

@[simp] theorem run_nil (g : Graph) : g.run [] = g := rfl

@[simp] theorem run_cons (g : Graph) (e : Edit) (es : List Edit) :
    g.run (e :: es) = (g.apply e).2.run es := rfl

/-- Edits made in two parts are made in one. -/
theorem run_append (g : Graph) (es fs : List Edit) : g.run (es ++ fs) = (g.run es).run fs := by
  simp [run]

/-- An edit leads from a reachable graph to a reachable graph. -/
theorem Reachable.apply {g : Graph} (h : g.Reachable) (e : Edit) : (g.apply e).2.Reachable := by
  obtain ⟨name, edits, rfl⟩ := h
  exact ⟨name, edits ++ [e], by rw [run_append]; rfl⟩

end Graph

end NodeScript
