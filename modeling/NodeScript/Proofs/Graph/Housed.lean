import Mathlib.Data.List.Nodup
import Mathlib.Data.List.Perm.Subperm
import NodeScript.Proofs.Graph.Steps

/-!
# Connectors and the nodes they are on

What is live is found under its own identifier, every live connector is on a live node, and a node
lists exactly the live connectors on it, each once (`Housed`). So no identifier that is met on the
way through a graph leads nowhere.

Inputs and outputs are treated alike, as the two sides of a node (`Side`).
-/

namespace NodeScript.Graph

/-- A side of the nodes: what a node lists on it, and how its connectors are found. -/
structure Side (ι γ : Type) where
  listed : Node → List ι
  find : Graph → ι → Option γ
  ident : γ → ι
  owner : γ → NodeId

/-- The side of the inputs. -/
abbrev inputSide : Side InputId Input :=
  ⟨Node.inputs, input?, Input.id, (·.owner)⟩

/-- The side of the outputs. -/
abbrev outputSide : Side OutputId Output :=
  ⟨Node.outputs, output?, Output.id, (·.owner)⟩

/-- The connectors of a side are found under their identifiers and listed by their nodes. -/
structure Housing {ι γ : Type} (side : Side ι γ) (g : Graph) : Prop where
  ident_eq : ∀ {i c}, side.find g i = some c → side.ident c = i
  mem_listed : ∀ {n node i}, g.node? n = some node →
    (i ∈ side.listed node ↔ ∃ c, side.find g i = some c ∧ side.owner c = n)
  owner_live : ∀ {i c}, side.find g i = some c → ∃ node, g.node? (side.owner c) = some node
  nodup : ∀ {n node}, g.node? n = some node → (side.listed node).Nodup

/-- Identifiers lead to what they identify, and nodes and connectors know each other. -/
structure Housed (g : Graph) : Prop where
  node_id : ∀ {n node}, g.node? n = some node → node.id = n
  inputs : Housing inputSide g
  outputs : Housing outputSide g

variable {g g' : Graph} {n : NodeId} {node : Node}

/-! ### One side after a step -/

namespace Housing

variable {ι γ : Type} {side : Side ι γ}

/-- What a connector contributes to how it is housed. -/
def key (side : Side ι γ) (c : γ) : ι × NodeId :=
  (side.ident c, side.owner c)

/-- Equal parts of two look-ups: what the one finds, the other finds with the same part. -/
private theorem exists_of_map_eq {α β : Type} {f : α → β} {x y : Option α}
    (h : x.map f = y.map f) {a : α} (ha : x = some a) : ∃ b, y = some b ∧ f b = f a := by
  subst ha
  exact Option.map_eq_some_iff.mp h.symm

/-- Changes of other fields do not matter to how connectors are housed. -/
theorem congr (h : Housing side g)
    (hn : ∀ n, (g'.node? n).map side.listed = (g.node? n).map side.listed)
    (hc : ∀ i, (side.find g' i).map (key side) = (side.find g i).map (key side)) :
    Housing side g' := by
  have on_iff : ∀ i n, (∃ c, side.find g' i = some c ∧ side.owner c = n) ↔
      ∃ c, side.find g i = some c ∧ side.owner c = n := fun i n => by
    constructor
    · rintro ⟨c, hfind, rfl⟩
      exact (exists_of_map_eq (hc i) hfind).imp fun _ => And.imp_right (congrArg Prod.snd)
    · rintro ⟨c, hfind, rfl⟩
      exact (exists_of_map_eq (hc i).symm hfind).imp fun _ => And.imp_right (congrArg Prod.snd)
  refine ⟨fun {i c} hfind => ?_, fun {n node i} hnode => ?_, fun {i c} hfind => ?_,
    fun {n node} hnode => ?_⟩
  · obtain ⟨old, hold, heq⟩ := exists_of_map_eq (hc i) hfind
    exact (congrArg Prod.fst heq).symm.trans (h.ident_eq hold)
  · obtain ⟨old, hold, heq⟩ := exists_of_map_eq (hn n) hnode
    rw [← heq, on_iff, h.mem_listed hold]
  · obtain ⟨old, hold, heq⟩ := exists_of_map_eq (hc i) hfind
    obtain ⟨node, hnode⟩ := h.owner_live hold
    have howner : side.owner old = side.owner c := congrArg Prod.snd heq
    exact (exists_of_map_eq (hn _).symm (howner ▸ hnode)).imp fun _ => And.left
  · obtain ⟨old, hold, heq⟩ := exists_of_map_eq (hn n) hnode
    exact heq ▸ h.nodup hold

/-- A new node that lists nothing. -/
theorem addNode (h : Housing side g) (new : g.node? n = none)
    (bare : ∀ {node}, g'.node? n = some node → side.listed node = [])
    (hn : ∀ {m}, m ≠ n → g'.node? m = g.node? m)
    (hc : side.find g' = side.find g) : Housing side g' := by
  -- no connector names the new node as the node it is on
  have off : ∀ {i c}, side.find g i = some c → side.owner c ≠ n := by
    rintro i c hfind rfl
    obtain ⟨owner, howner⟩ := h.owner_live hfind
    simp [new] at howner
  refine ⟨fun hfind => ?_, fun {m node' i} hm => ?_, fun {i c} hfind => ?_, fun {m node'} hm => ?_⟩
  · exact h.ident_eq (hc ▸ hfind)
  · rw [hc]
    by_cases hmn : m = n
    · subst hmn
      simpa [bare hm] using fun c hfind => off hfind
    · exact h.mem_listed (hn hmn ▸ hm)
  · rw [hc] at hfind
    rw [hn (off hfind)]
    exact h.owner_live hfind
  · by_cases hmn : m = n
    · subst hmn
      exact bare hm ▸ List.nodup_nil
    · exact h.nodup (hn hmn ▸ hm)

/-- A new connector, which its node lists last. -/
theorem addConnector (h : Housing side g) {i : ι} {c : γ} (new : side.find g i = none)
    (here : side.find g' i = some c) (hc : ∀ {j}, j ≠ i → side.find g' j = side.find g j)
    (ident : side.ident c = i) (live : g.node? (side.owner c) = some node)
    (hn : ∀ n, (g'.node? n).map side.listed = (g.node? n).map fun node =>
      if side.owner c = n then side.listed node ++ [i] else side.listed node) :
    Housing side g' := by
  have before : ∀ {n node'}, g'.node? n = some node' → ∃ old, g.node? n = some old ∧
      side.listed node' = if side.owner c = n then side.listed old ++ [i] else side.listed old := by
    intro n node' hnode
    obtain ⟨old, hold, heq⟩ := Option.map_eq_some_iff.mp ((hn n).symm.trans (by rw [hnode]; rfl))
    exact ⟨old, hold, heq.symm⟩
  have kept : ∀ {n old}, g.node? n = some old → ∃ node', g'.node? n = some node' := by
    intro n old hold
    have hmap := hn n
    rw [hold] at hmap
    exact (Option.map_eq_some_iff.mp hmap).imp fun _ => And.left
  have on_iff : ∀ j n, (∃ d, side.find g' j = some d ∧ side.owner d = n) ↔
      (j = i ∧ side.owner c = n) ∨ ∃ d, side.find g j = some d ∧ side.owner d = n := by
    intro j n
    by_cases hj : j = i
    · subst hj
      simp [here, new]
    · simp [hc hj, hj]
  refine ⟨fun {j d} hfind => ?_, fun {n node' j} hnode => ?_, fun {j d} hfind => ?_,
    fun {n node'} hnode => ?_⟩
  · by_cases hj : j = i
    · subst hj
      obtain rfl : c = d := Option.some.inj (here.symm.trans hfind)
      exact ident
    · exact h.ident_eq (hc hj ▸ hfind)
  · obtain ⟨old, hold, hlist⟩ := before hnode
    rw [on_iff, hlist, ← h.mem_listed hold]
    split <;> simp_all [or_comm]
  · rcases (on_iff j (side.owner d)).mp ⟨d, hfind, rfl⟩ with ⟨-, howner⟩ | ⟨old, hold, howner⟩
    · exact kept (howner ▸ live)
    · obtain ⟨owner, hlive⟩ := h.owner_live hold
      exact kept (howner ▸ hlive)
  · obtain ⟨old, hold, hlist⟩ := before hnode
    rw [hlist]
    split
    · have unlisted : i ∉ side.listed old := fun hmem => by
        obtain ⟨d, hd, -⟩ := (h.mem_listed hold).mp hmem
        simp [new] at hd
      exact List.concat_eq_append ▸ List.Nodup.concat unlisted (h.nodup hold)
    · exact h.nodup hold

/-- A node goes with the connectors that it lists. -/
theorem discard [DecidableEq ι] (h : Housing side g) (live : g.node? n = some node)
    (hn : ∀ m, g'.node? m = if n = m then none else g.node? m)
    (hc : ∀ i, side.find g' i = if i ∈ side.listed node then none else side.find g i) :
    Housing side g' := by
  have kept : ∀ {m node'}, g'.node? m = some node' → n ≠ m ∧ g.node? m = some node' := by
    intro m node' hm
    rw [hn] at hm
    split at hm
    · cases hm
    · exact ⟨‹_›, hm⟩
  -- the connectors that go are exactly those on the node that goes
  have find_iff : ∀ {i c}, side.find g' i = some c ↔ side.find g i = some c ∧ side.owner c ≠ n := by
    intro i c
    rw [hc]
    split <;> rename_i hmem
    · obtain ⟨d, hd, howner⟩ := (h.mem_listed live).mp hmem
      simp only [reduceCtorEq, false_iff, not_and]
      exact fun hfind hne => hne (Option.some.inj (hfind.symm.trans hd) ▸ howner)
    · exact ⟨fun hfind => ⟨hfind, fun howner => hmem ((h.mem_listed live).mpr ⟨c, hfind, howner⟩)⟩,
        And.left⟩
  refine ⟨fun hfind => h.ident_eq (find_iff.mp hfind).1, fun {m node' i} hm => ?_,
    fun {i c} hfind => ?_, fun hm => h.nodup (kept hm).2⟩
  · obtain ⟨hne, hm⟩ := kept hm
    rw [h.mem_listed hm]
    refine exists_congr fun c => ?_
    rw [find_iff, and_assoc]
    exact and_congr_right fun _ => ⟨fun howner => ⟨howner ▸ hne.symm, howner⟩, And.right⟩
  · obtain ⟨hfind, hne⟩ := find_iff.mp hfind
    rw [hn, if_neg hne.symm]
    exact h.owner_live hfind

end Housing

/-! ### Every step keeps connectors housed -/

theorem housed_empty (name : String) : (empty name).Housed := by
  refine ⟨by simp, ?_, ?_⟩ <;> constructor <;> simp

namespace Housed

theorem output_id (h : g.Housed) {o : OutputId} {output : Output}
    (ho : g.output? o = some output) : output.id = o :=
  h.outputs.ident_eq ho

/-- A node lists exactly the outputs that are on it. -/
theorem mem_outputs (h : g.Housed) (hn : g.node? n = some node) {o : OutputId} :
    o ∈ node.outputs ↔ ∃ output, g.output? o = some output ∧ output.owner = n :=
  h.outputs.mem_listed hn

/-- Every live output is on a live node. -/
theorem output_owner (h : g.Housed) {o : OutputId} {output : Output}
    (ho : g.output? o = some output) : ∃ node, g.node? output.owner = some node :=
  h.outputs.owner_live ho

/-- Nodes keep their identifiers in a change of other fields. -/
theorem node_id_congr (h : g.Housed)
    (hid : ∀ n, (g'.node? n).map (·.id) = (g.node? n).map (·.id)) (hn : g'.node? n = some node) :
    node.id = n := by
  have hmap := hid n
  rw [hn] at hmap
  obtain ⟨old, hold, heq⟩ := Option.map_eq_some_iff.mp hmap.symm
  exact heq.symm.trans (h.node_id hold)

/-- Changes of other fields do not matter. -/
theorem congr (h : g.Housed)
    (hn : ∀ n, (g'.node? n).map (fun node => (node.id, node.inputs, node.outputs)) =
      (g.node? n).map fun node => (node.id, node.inputs, node.outputs))
    (hi : ∀ i, (g'.input? i).map (Housing.key inputSide) =
      (g.input? i).map (Housing.key inputSide))
    (ho : ∀ o, (g'.output? o).map (Housing.key outputSide) =
      (g.output? o).map (Housing.key outputSide)) : g'.Housed := by
  have part : ∀ {β : Type} (f : NodeId × List InputId × List OutputId → β) n,
      (g'.node? n).map (fun node => f (node.id, node.inputs, node.outputs)) =
        (g.node? n).map fun node => f (node.id, node.inputs, node.outputs) := fun f n => by
    simpa only [Option.map_map, Function.comp_def] using congrArg (Option.map f) (hn n)
  exact ⟨h.node_id_congr (part (·.1)), h.inputs.congr (part (·.2.1)) hi,
    h.outputs.congr (part (·.2.2)) ho⟩

theorem addNode (h : g.Housed) (kind : NodeKind) : (g.addNode kind).2.Housed := by
  have here : ∀ {node}, (g.addNode kind).2.node? (g.addNode kind).1 = some node →
      node.id = (g.addNode kind).1 ∧ node.inputs = [] ∧ node.outputs = [] := by
    intro node hn
    rw [node?_addNode, if_pos rfl] at hn
    cases hn
    exact ⟨rfl, rfl, rfl⟩
  have elsewhere : ∀ {m}, m ≠ (g.addNode kind).1 → (g.addNode kind).2.node? m = g.node? m :=
    fun hm => by rw [node?_addNode, if_neg hm]
  refine ⟨fun {n node} hn => ?_, ?_, ?_⟩
  · by_cases hnew : n = (g.addNode kind).1
    · subst hnew
      exact (here hn).1
    · exact h.node_id (elsewhere hnew ▸ hn)
  · exact h.inputs.addNode (g.node?_next kind) (fun hn => (here hn).2.1) elsewhere rfl
  · exact h.outputs.addNode (g.node?_next kind) (fun hn => (here hn).2.2) elsewhere rfl

theorem addInput (h : g.Housed) {c : Connector} (live : g.node? c.owner = some node) :
    (g.addInput c).2.Housed := by
  have here := g.input?_addInput c (g.addInput c).1
  rw [if_pos rfl] at here
  have elsewhere : ∀ {j}, j ≠ (g.addInput c).1 → (g.addInput c).2.input? j = g.input? j :=
    fun hj => by rw [input?_addInput, if_neg hj]
  refine ⟨h.node_id_congr fun n => ?_, h.inputs.addConnector (g.input?_next c) here elsewhere rfl
    live fun n => ?_, h.outputs.congr (fun n => ?_) fun o => rfl⟩
  · rw [node?_addInput]
    exact map_ite_map fun _ => rfl
  · rw [node?_addInput]
    cases g.node? n <;> split <;> simp_all
  · rw [node?_addInput]
    exact map_ite_map fun _ => rfl

theorem addOutput (h : g.Housed) {c : Connector} (live : g.node? c.owner = some node) :
    (g.addOutput c).2.Housed := by
  have here := g.output?_addOutput c (g.addOutput c).1
  rw [if_pos rfl] at here
  have elsewhere : ∀ {j}, j ≠ (g.addOutput c).1 → (g.addOutput c).2.output? j = g.output? j :=
    fun hj => by rw [output?_addOutput, if_neg hj]
  refine ⟨h.node_id_congr fun n => ?_, h.inputs.congr (fun n => ?_) fun i => rfl,
    h.outputs.addConnector (g.output?_next c) here elsewhere rfl live fun n => ?_⟩
  · rw [node?_addOutput]
    exact map_ite_map fun _ => rfl
  · rw [node?_addOutput]
    exact map_ite_map fun _ => rfl
  · rw [node?_addOutput]
    cases g.node? n <;> split <;> simp_all

theorem discard (h : g.Housed) (live : g.node? n = some node) : (g.discard n node).Housed := by
  refine ⟨fun {m node'} hm => ?_, ?_, ?_⟩
  · rw [node?_discard] at hm
    split at hm
    · cases hm
    · exact h.node_id hm
  · exact h.inputs.discard live (g.node?_discard n · node) (g.input?_discard n node)
  · exact h.outputs.discard live (g.node?_discard n · node) (g.output?_discard n node)

/-- An elementary step keeps connectors housed. -/
theorem step (h : g.Housed) (hs : Step g g') : g'.Housed := by
  cases hs with
  | @sever i input hi =>
    refine h.congr (fun n => by simp) (fun j => ?_) fun o => ?_
    · rw [input?_severed]
      exact map_ite_map fun _ => rfl
    · rw [output?_severed]
      exact map_ite_map fun _ => rfl
  | clear ho =>
    refine h.congr (fun n => by simp) (fun j => ?_) fun o => ?_
    · rw [input?_cleared]
      exact map_ite_map fun _ => rfl
    · rw [output?_cleared]
      exact map_ite_map fun _ => rfl
  | link ho hi signal unfed =>
    refine h.congr (fun n => by simp) (fun j => ?_) fun o => ?_
    · rw [input?_link]
      exact map_ite_map fun _ => rfl
    · rw [output?_link]
      exact map_ite_map fun _ => rfl
  | addNode kind => exact h.addNode kind
  | addInput live => exact h.addInput live
  | addOutput live => exact h.addOutput live
  | discard live => exact h.discard live
  | setFallback hi parsed =>
    refine h.congr (fun n => by simp) (fun j => ?_) fun o => by simp
    rw [input?_modifyInput]
    exact map_ite_map fun _ => rfl
  | rename n name =>
    refine h.congr (fun m => ?_) (fun j => rfl) fun o => rfl
    rw [rename, node?_modifyNode]
    exact map_ite_map fun _ => rfl
  | setCallee n callee =>
    refine h.congr (fun m => ?_) (fun j => rfl) fun o => rfl
    rw [setCallee, node?_modifyNode]
    exact map_ite_map fun _ => rfl

theorem steps (h : g.Housed) (hs : Steps g g') : g'.Housed := by
  induction hs with
  | refl => exact h
  | tail _ hstep ih => exact ih.step hstep

/-- A node in the list of live ones is found under its identifier. -/
theorem node?_of_mem_live (h : g.Housed) {node : Node} (hn : node ∈ g.nodes.live) :
    g.node? node.id = some node := by
  obtain ⟨k, hk⟩ := Table.mem_live.mp hn
  have found : g.node? ⟨k⟩ = some node := hk
  exact h.node_id found ▸ found

/-- There are no more live nodes than the graph counts. -/
theorem length_le_nodeCount (h : g.Housed) {nodes : List NodeId} (distinct : nodes.Nodup)
    (live : ∀ n ∈ nodes, ∃ node, g.node? n = some node) : nodes.length ≤ g.nodeCount := by
  have listed : nodes ⊆ g.nodes.live.map (·.id) := by
    intro n hn
    obtain ⟨node, hnode⟩ := live n hn
    exact List.mem_map.mpr ⟨node, Table.mem_live.mpr ⟨n.index, hnode⟩, h.node_id hnode⟩
  simpa [nodeCount] using (distinct.subperm listed).length_le

/-! ### Looking up connectors -/

/-- The live outputs of a node are those that it owns. -/
theorem mem_outputsOf (h : g.Housed) (hn : g.node? n = some node) {output : Output} :
    output ∈ g.outputsOf node ↔ g.output? output.id = some output ∧ output.owner = n := by
  refine List.mem_filterMap.trans ⟨?_, fun ⟨live, owner⟩ => ?_⟩
  · rintro ⟨o, listed, live⟩
    obtain rfl := h.output_id live
    obtain ⟨found, hfound, owner⟩ := (h.mem_outputs hn).mp listed
    obtain rfl : output = found := Option.some.inj (live.symm.trans hfound)
    exact ⟨live, owner⟩
  · exact ⟨output.id, (h.mem_outputs hn).mpr ⟨output, live, owner⟩, live⟩

/-- The live inputs of a node are those that it owns. -/
theorem mem_inputsOf (h : g.Housed) (hn : g.node? n = some node) {input : Input} :
    input ∈ g.inputsOf node ↔ g.input? input.id = some input ∧ input.owner = n := by
  refine List.mem_filterMap.trans ⟨?_, fun ⟨live, owner⟩ => ?_⟩
  · rintro ⟨i, listed, live⟩
    obtain rfl := h.inputs.ident_eq live
    obtain ⟨found, hfound, owner⟩ := (h.inputs.mem_listed hn).mp listed
    obtain rfl : input = found := Option.some.inj (live.symm.trans hfound)
    exact ⟨live, owner⟩
  · exact ⟨input.id, (h.inputs.mem_listed hn).mpr ⟨input, live, owner⟩, live⟩

/-- The output that is found under a name is live, on the node, and has the name. -/
theorem of_outputNamed? (h : g.Housed) {name : String} {output : Output}
    (ho : g.outputNamed? n name = some output) :
    g.output? output.id = some output ∧ output.owner = n ∧ output.name = name := by
  obtain ⟨node, hn, hfind⟩ := Option.bind_eq_some_iff.mp ho
  obtain ⟨live, owner⟩ := (h.mem_outputsOf hn).mp (List.mem_of_find?_eq_some hfind)
  exact ⟨live, owner, by simpa using List.find?_some hfind⟩

/-- The input that is found under a name is live, on the node, and has the name. -/
theorem of_inputNamed? (h : g.Housed) {name : String} {input : Input}
    (hi : g.inputNamed? n name = some input) :
    g.input? input.id = some input ∧ input.owner = n ∧ input.name = name := by
  obtain ⟨node, hn, hfind⟩ := Option.bind_eq_some_iff.mp hi
  obtain ⟨live, owner⟩ := (h.mem_inputsOf hn).mp (List.mem_of_find?_eq_some hfind)
  exact ⟨live, owner, by simpa using List.find?_some hfind⟩

end Housed

/-- Connectors are housed in every reachable graph. -/
theorem Reachable.housed (h : g.Reachable) : g.Housed :=
  h.induction housed_empty fun _ _ hh hs => hh.step hs

end NodeScript.Graph
