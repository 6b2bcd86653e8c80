import NodeScript.Directory
import NodeScript.Graph.Basic

/-!
# Blueprints

The description of a graph by names: nodes with names of their own, and links between their named
connectors. What a node refers to is looked up only when the graph is built.
-/

namespace NodeScript.Blueprint

/-- What a node refers to. -/
inductive Kind where
  | event (className function : String)
  | call (className function : String) (resultClass : Option String)
  | component (className function : String) (archetype : Archetype)
  | branch
  | loop
  | member (className property : String)
  deriving DecidableEq, Repr

/-- A node, with the texts of the values of its inputs. -/
structure Node where
  id : String
  kind : Kind
  defaults : Directory String := .empty
  deriving DecidableEq, Repr

/-- An edge, from an output of one node to an input of another. -/
structure Link where
  source : String
  output : String
  target : String
  input : String
  deriving DecidableEq, Repr

end Blueprint

/-- The description of a graph. -/
structure Blueprint where
  name : String := ""
  nodes : List Blueprint.Node := []
  links : List Blueprint.Link := []
  deriving DecidableEq, Repr

end NodeScript
