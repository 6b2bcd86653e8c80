import NodeScript.Main
import NodeScript.Graph.InPlace
import NodeScript.Literal.Json
import NodeScript.Proofs.Graph.Consistent
import NodeScript.Proofs.Lowering.Assigned
import NodeScript.Proofs.Lowering.Walk
import NodeScript.Proofs.Graph.Assembled
import NodeScript.Proofs.FreshNames
import NodeScript.Proofs.NameCounters
import NodeScript.Proofs.Graph.Placed
import NodeScript.Proofs.Lowering.Given
import NodeScript.Proofs.Lowering.Declared
import NodeScript.Proofs.Graph.Component
import NodeScript.Proofs.Lowering.Elsewhere
import NodeScript.Proofs.Lowering.Connectors
import NodeScript.Proofs.Lowering.Shown
import NodeScript.Proofs.Lowering.Unresolved
import NodeScript.Proofs.Lowering.Halting
import NodeScript.Proofs.Lowering.Justified
import NodeScript.Proofs.Graph.EdgeLists
import NodeScript.Proofs.Lowering.Termination
import NodeScript.Proofs.Lowering.Naming
import NodeScript.Proofs.Blueprint.Order
import NodeScript.Proofs.Graph.InPlace
import NodeScript.Proofs.Graph.Refused
import NodeScript.Proofs.Graph.Skipped
import NodeScript.Proofs.Graph.WellFormed
import NodeScript.Proofs.Blueprint.Realised
import NodeScript.Proofs.Lowering.Agreement
import NodeScript.Proofs.Lowering.Circular
import NodeScript.Proofs.Blueprint.WellPosed
import NodeScript.Proofs.Json.RoundTrip
import NodeScript.Proofs.Script.Braces
import NodeScript.Proofs.Script.Printed
import NodeScript.Proofs.Lowering.CallLine
import NodeScript.Proofs.Lowering.Resolved
import NodeScript.Proofs.Blueprint.Events
import NodeScript.Proofs.Graph.LastEdge
import NodeScript.Proofs.Lowering.Followed
import NodeScript.Proofs.Graph.Identifiers
import NodeScript.Proofs.Lowering.Seen
import NodeScript.Proofs.Lowering.Sites
import NodeScript.Proofs.Lowering.Stored
import NodeScript.Proofs.Lowering.Target
import NodeScript.Proofs.Blueprint.ErrorNames
import NodeScript.Proofs.Lowering.Misplaced
import NodeScript.Proofs.Lowering.Quoted
import NodeScript.Proofs.Literal.Reentered
import NodeScript.Proofs.Literal.Numeric
import NodeScript.Proofs.Catalogue.History
