import NodeScript.Proofs.Graph.Skipped

/-!
# What edits make

Everything that edits make, whether it is still there or not: the nodes with the names that they are
given, and the connectors. A placement that is refused has made its node, and the connectors before
the one that was refused.

The tables only grow, and each thing that is made takes the next slot of its table. So what edits
make one after the other takes the new slots in their order, and none of them is left out
(`Fills.run`). Identifiers of one kind therefore never repeat, and neither do names
(`Fills.distinct`).
-/

namespace NodeScript

namespace Table

variable {α ι : Type}

@[simp] theorem size_map (t : Table α) (f : α → α) : (t.map f).size = t.size := by
  simp [map, size]

@[simp] theorem size_foldl_erase (index : ι → Nat) (l : List ι) (t : Table α) :
    (l.foldl (fun t i => t.erase (index i)) t).size = t.size := by
  induction l generalizing t with
  | nil => rfl
  | cons i l ih => rw [List.foldl_cons, ih, size_erase]

end Table

/-- Something that an edit makes. -/
inductive Creation where
  /-- A node, with the name that it is given. -/
  | node (id : NodeId) (name : String)
  | connector (id : ConnectorId)
  deriving DecidableEq, Repr

namespace Creation

/-- The identifier of a node that is made. -/
def node? : Creation → Option NodeId
  | node id _ => some id
  | connector _ => none

/-- The name that a node is given. -/
def name? : Creation → Option String
  | node _ name => some name
  | connector _ => none

/-- The identifier of an input that is made. -/
def input? : Creation → Option InputId
  | connector (.input id) => some id
  | _ => none

/-- The identifier of an output that is made. -/
def output? : Creation → Option OutputId
  | connector (.output id) => some id
  | _ => none

end Creation

namespace Graph

/-- The node that is made when one of a kind is added. -/
def nodeMade (g : Graph) (kind : NodeKind) : Creation :=
  .node (g.addNode kind).1 (g.names.next kind.label).1

/-- The connectors that are made when some are added to a node until one is refused. -/
def connectorsMade (g : Graph) (n : NodeId) : List ConnectorSpec → List Creation
  | [] => []
  | spec :: specs =>
    match g.addConnector n spec with
    | .ok (id, g) => .connector id :: g.connectorsMade n specs
    | .error _ => []

/-- What an edit makes, also if it is refused in the end and takes it away again. -/
def creations (g : Graph) : Edit → List Creation
  | .add kind => [g.nodeMade kind]
  | .place p =>
    match p.check with
    | .ok () => g.nodeMade p.kind ::
        (g.addNode p.kind).2.connectorsMade (g.addNode p.kind).1 p.connectors
    | .error _ => []
  | .addConnector n spec => g.connectorsMade n [spec]
  | _ => []

/-- What edits make one after the other. -/
def creationsOf (g : Graph) : List Edit → List Creation
  | [] => []
  | e :: es => g.creations e ++ (g.apply e).2.creationsOf es

variable {g g' k : Graph} {n : NodeId} {node : Node} {p : Placement} {made made' : List Creation}

/-! ### Slots and names -/

/-- From one graph to another exactly these things are made: in each table they take the new slots,
in this order, and their names are given out. -/
structure Fills (g : Graph) (made : List Creation) (g' : Graph) : Prop where
  nodes : List.range g'.nodes.size =
    List.range g.nodes.size ++ (made.filterMap (·.node?)).map (·.index)
  inputs : List.range g'.inputs.size =
    List.range g.inputs.size ++ (made.filterMap (·.input?)).map (·.index)
  outputs : List.range g'.outputs.size =
    List.range g.outputs.size ++ (made.filterMap (·.output?)).map (·.index)
  names : g'.names.given = g.names.given ++ made.filterMap (·.name?)

namespace Fills

theorem append (h : Fills g made k) (h' : Fills k made' g') : Fills g (made ++ made') g' where
  nodes := by rw [h'.nodes, h.nodes, List.filterMap_append, List.map_append, List.append_assoc]
  inputs := by rw [h'.inputs, h.inputs, List.filterMap_append, List.map_append, List.append_assoc]
  outputs := by
    rw [h'.outputs, h.outputs, List.filterMap_append, List.map_append, List.append_assoc]
  names := by rw [h'.names, h.names, List.filterMap_append, List.append_assoc]

/-- Nothing is made if the tables keep their sizes, and no name is given out. -/
theorem nothing (nodes : g'.nodes.size = g.nodes.size) (inputs : g'.inputs.size = g.inputs.size)
    (outputs : g'.outputs.size = g.outputs.size) (names : g'.names = g.names) :
    Fills g [] g' where
  nodes := by simp [nodes]
  inputs := by simp [inputs]
  outputs := by simp [outputs]
  names := by simp [names]

theorem refl (g : Graph) : Fills g [] g :=
  nothing rfl rfl rfl rfl

/-! ### Edits that make nothing -/

theorem of_unwired (same : g'.unwired = g.unwired) : Fills g [] g' := by
  refine nothing (congrArg (·.nodes.size) same :) ?_ ?_ (congrArg Graph.names same :)
  · simpa [unwired] using congrArg (·.inputs.size) same
  · simpa [unwired] using congrArg (·.outputs.size) same

theorem discard (g : Graph) (n : NodeId) (node : Node) : Fills g [] (g.discard n node) :=
  nothing (Table.size_erase ..) (Table.size_foldl_erase ..) (Table.size_foldl_erase ..) rfl

theorem removeNode (h : g.Consistent) (hr : g.removeNode n = .ok (node, g')) : Fills g [] g' := by
  obtain ⟨live, k, broken, rfl⟩ := removeNode_eq_ok.mp hr
  exact (of_unwired (rewires_breakNode h live broken).rest).append (discard k n node)

theorem modifyNode (g : Graph) (n : NodeId) (change : Node → Node) :
    Fills g [] (g.modifyNode n change) :=
  nothing (Table.size_modify ..) rfl rfl rfl

theorem setFallback {i : InputId} {text : String} (h : g.setFallback i text = .ok g') :
    Fills g [] g' := by
  obtain ⟨input, value, -, -, rfl⟩ := setFallback_eq_ok.mp h
  exact nothing rfl (Table.size_modify ..) rfl rfl

/-! ### Edits that make something -/

theorem addNode (g : Graph) (kind : NodeKind) : Fills g [g.nodeMade kind] (g.addNode kind).2 where
  nodes := by simp [Graph.addNode, nodeMade, Creation.node?, List.range_succ]
  inputs := by simp [Graph.addNode, nodeMade, Creation.input?]
  outputs := by simp [Graph.addNode, nodeMade, Creation.output?]
  names := rfl

theorem addConnector {spec : ConnectorSpec} {r : ConnectorId × Graph}
    (h : g.addConnector n spec = .ok r) : Fills g [.connector r.1] r.2 := by
  obtain ⟨-, -, -, rfl⟩ := addConnector_eq_ok.mp h
  obtain ⟨direction, signal, name, className⟩ := spec
  cases direction with
  | input =>
    refine ⟨?_, ?_, ?_, (List.append_nil _).symm⟩ <;>
      simp [withConnector, addInput, Graph.modifyNode, Creation.node?, Creation.input?,
        Creation.output?, List.range_succ]
  | output =>
    refine ⟨?_, ?_, ?_, (List.append_nil _).symm⟩ <;>
      simp [withConnector, addOutput, Graph.modifyNode, Creation.node?, Creation.input?,
        Creation.output?, List.range_succ]

theorem addConnectors (g : Graph) (n : NodeId) (specs : List ConnectorSpec) :
    Fills g (g.connectorsMade n specs) (g.addConnectors n specs).2 := by
  induction specs generalizing g with
  | nil => exact refl g
  | cons spec specs ih =>
    simp only [Graph.addConnectors, connectorsMade]
    cases h : g.addConnector n spec with
    | ok r => exact (addConnector h).append (ih r.2)
    | error e => exact refl g

/-- A placement makes its node and connectors, whether it takes them away again or not. -/
theorem place (h : g.Reachable) (p : Placement) :
    Fills g (g.creations (.place p)) (g.place p).2 := by
  have added := (addNode g p.kind).append
    (addConnectors (g.addNode p.kind).2 (g.addNode p.kind).1 p.connectors)
  rcases h.housed.place_cases p with ⟨⟨e, check⟩, unbegun⟩ | ⟨check, accepted | ⟨node, removed⟩⟩
  · simpa [creations, check, unbegun] using refl g
  · simpa [creations, check, accepted] using added
  · have consistent := (h.consistent.step (.addNode p.kind)).steps
      (addConnectors_steps _ (g.addNode p.kind).1 p.connectors)
    simpa [creations, check] using added.append (removeNode consistent removed)

private theorem settle_map {α : Type} {r : Except EditError α} {f : α → Outcome × Graph}
    (ok : ∀ a, r = .ok a → Fills g [] (f a).2) : Fills g [] (g.settle (r.map f)).2 :=
  settle_induction (motive := Fills g []) (refl g) ok

/-- **What an edit makes takes the new slots**, whether the edit is accepted or refused. -/
theorem apply (h : g.Reachable) (e : Edit) : Fills g (g.creations e) (g.apply e).2 := by
  have consistent := h.consistent
  cases e with
  | add kind => exact addNode g kind
  | place p => exact place h p
  | addConnector n spec =>
    simp only [creations, connectorsMade, Graph.apply]
    cases ok : g.addConnector n spec with
    | ok r => exact addConnector ok
    | error e => exact refl g
  | connect o i fanOut =>
    refine settle_map fun g' hc => ?_
    obtain ⟨output, ho, -⟩ := connect_eq_ok.mp hc
    exact of_unwired (rewires_connect consistent ho hc).rest
  | breakInput i => exact settle_map fun _ hb => of_unwired (rewires_breakInput consistent hb).rest
  | breakOutput o => exact settle_map fun _ hb => of_unwired (rewires_breakOutput hb).rest
  | breakEdge o i =>
    exact settle_map fun _ hb => of_unwired (rewires_breakEdge consistent hb).rest
  | breakNode n =>
    refine settle_map fun g' hb => ?_
    obtain ⟨node, live, -⟩ := breakNode_eq_ok.mp hb
    exact of_unwired (rewires_breakNode consistent live hb).rest
  | removeNode n => exact settle_map fun _ hr => removeNode consistent hr
  | setFallback i text => exact settle_map fun _ hs => setFallback hs
  | rename n name => exact modifyNode ..
  | setCallee n callee => exact modifyNode ..

/-- What edits make one after the other takes the new slots. -/
theorem run (h : g.Reachable) (edits : List Edit) :
    Fills g (g.creationsOf edits) (g.run edits) := by
  induction edits generalizing g with
  | nil => exact refl g
  | cons e edits ih => exact (apply h e).append (ih (h.apply e))

end Fills

/-! ### Distinct identifiers and names -/

/-- The numbers are distinct. If there are no more than 32 bits can tell apart, they still are when
only the last 32 bits of each are kept. -/
def Distinguished (indices : List Nat) : Prop :=
  indices.Nodup ∧ (indices.length ≤ UInt32.size → (indices.map UInt32.ofNat).Nodup)

theorem distinguished_range (size : Nat) : Distinguished (List.range size) := by
  refine ⟨List.nodup_range, fun few => ?_⟩
  refine List.Nodup.map_on (fun a ha b hb same => ?_) List.nodup_range
  simp only [UInt32.size, List.length_range, List.mem_range] at few ha hb
  have numbers := congrArg UInt32.toNat same
  simp only [UInt32.toNat_ofNat'] at numbers
  omega

/-- No identifier of a kind is given to two of the things made, and no name to two of the nodes, of
whichever kinds these are. -/
structure AllDistinct (made : List Creation) : Prop where
  nodes : Distinguished ((made.filterMap (·.node?)).map (·.index))
  inputs : Distinguished ((made.filterMap (·.input?)).map (·.index))
  outputs : Distinguished ((made.filterMap (·.output?)).map (·.index))
  names : (made.filterMap (·.name?)).Nodup

/-- **What edits make has distinct identifiers and names.** -/
theorem Fills.distinct {name : String} (h : Fills (empty name) made g) : AllDistinct made := by
  have nodes : _ = [] ++ _ := h.nodes
  have inputs : _ = [] ++ _ := h.inputs
  have outputs : _ = [] ++ _ := h.outputs
  have names : _ = [] ++ _ := h.names
  rw [List.nil_append] at nodes inputs outputs names
  exact ⟨nodes ▸ distinguished_range _, inputs ▸ distinguished_range _,
    outputs ▸ distinguished_range _, names ▸ g.names.nodup_given⟩

end Graph

end NodeScript
