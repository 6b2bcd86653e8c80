import NodeScript.Lowering.Event
import NodeScript.Proofs.Graph.Creations

/-!
# Identifiers are used once

No two things that edits make have the same identifier, and no two nodes are given the same name. An
identifier whose node or connector is gone leads to nothing for ever (`Reachable.gone`), and an edit
that is given such an identifier leaves the graph as it is and says so (`Declines`).
-/

namespace NodeScript

namespace Edit

/-- The nodes that an edit is given. -/
def nodes : Edit → List NodeId
  | .breakNode n | .removeNode n | .addConnector n _ | .rename n _ | .setCallee n _ => [n]
  | _ => []

/-- The inputs that an edit is given. -/
def inputs : Edit → List InputId
  | .connect _ i _ | .breakInput i | .breakEdge _ i | .setFallback i _ => [i]
  | _ => []

/-- The outputs that an edit is given. -/
def outputs : Edit → List OutputId
  | .connect o _ _ | .breakOutput o | .breakEdge o _ => [o]
  | _ => []

end Edit

namespace Graph

variable {g g' : Graph} {n : NodeId} {node : Node} {i : InputId} {o : OutputId} {e : Edit}

/-! ### What the log has -/

/-- An edit that does not itself say whether it is accepted is so if it gives a graph. -/
theorem settle_map_eq_ok {α : Type} {r : Except EditError α} {f : α → Outcome × Graph}
    {outcome : Outcome} :
    (g.settle (r.map f)).1 = .ok outcome ↔ ∃ a, r = .ok a ∧ (f a).1 = outcome := by
  cases r <;> simp [Except.map, settle]

/-- The node that an edit gives back is made by it, with the name that it has then. -/
theorem made_of_added (ok : (g.apply e).1 = .ok (.added n)) :
    ∃ node, (g.apply e).2.node? n = some node ∧ .node n node.name ∈ g.creations e := by
  cases e with
  | add kind =>
    obtain rfl : (g.addNode kind).1 = n := by
      cases ok
      rfl
    exact ⟨_, (g.node?_addNode kind _).trans (if_pos rfl), .head _⟩
  | place p =>
    have placed : (g.place p).1 = .ok n := by
      change (g.place p).1.map Outcome.added = _ at ok
      cases hp : (g.place p).1 with
      | error e =>
        rw [hp] at ok
        cases ok
      | ok m =>
        rw [hp] at ok
        cases ok
        rfl
    obtain ⟨node, live, hname⟩ := name_of_place placed
    obtain ⟨check, rfl, -⟩ := place_eq_ok.mp placed
    exact ⟨node, live, by simp [creations, check, nodeMade, hname]⟩
  | rename m name | setCallee m callee =>
    simp only [apply] at ok
    split at ok <;> cases ok
  | _ =>
    obtain ⟨a, -, h⟩ := settle_map_eq_ok.mp ok
    cases h

/-- The connector that an edit gives back is made by it. -/
theorem made_of_connected {id : ConnectorId} (ok : (g.apply e).1 = .ok (.connected id)) :
    .connector id ∈ g.creations e := by
  cases e with
  | addConnector m spec =>
    obtain ⟨r, hr, h⟩ := settle_map_eq_ok.mp ok
    cases h
    simp [creations, connectorsMade, hr]
  | add kind => cases ok
  | place p =>
    change (g.place p).1.map Outcome.added = _ at ok
    cases hp : (g.place p).1 <;> simp [hp, Except.map] at ok
  | rename m name | setCallee m callee =>
    simp only [apply] at ok
    split at ok <;> cases ok
  | _ =>
    obtain ⟨a, -, h⟩ := settle_map_eq_ok.mp ok
    cases h

/-! ### Edits that find nothing -/

/-- The edit leaves the graph as it is: it is refused, or reports that nothing is to change. -/
def Declines (g : Graph) (e : Edit) : Prop :=
  (∃ error, g.apply e = (.error error, g)) ∨ g.apply e = (.ok .absent, g)

private theorem declined {α : Type} {r : Except EditError α} {f : α → Outcome × Graph}
    (fails : ∀ a, r ≠ .ok a) : ∃ error, g.settle (r.map f) = (.error error, g) := by
  cases r with
  | ok a => exact absurd rfl (fails a)
  | error e => exact ⟨e, rfl⟩

/-- A change of a node that is not there is none. -/
theorem modifyNode_of_none (gone : g.node? n = none) (change : Node → Node) :
    g.modifyNode n change = g := by
  have same : g.nodes.modify n.index change = g.nodes := Table.modify_eq_self fun a ha => by
    rw [show g.nodes.get? n.index = none from gone] at ha
    cases ha
  rw [modifyNode, same]

theorem declines_of_node (gone : g.node? n = none) (given : n ∈ e.nodes) : g.Declines e := by
  have missing : ∀ {node}, g.node? n = some node → False := by simp [gone]
  cases e with
  | breakNode m =>
    obtain rfl := List.mem_singleton.mp given
    exact .inl (declined fun _ ok => (breakNode_eq_ok.mp ok).elim fun _ live => missing live.1)
  | removeNode m =>
    obtain rfl := List.mem_singleton.mp given
    exact .inl (declined fun _ ok => missing (removeNode_eq_ok.mp ok).1)
  | addConnector m spec =>
    obtain rfl := List.mem_singleton.mp given
    exact .inl (declined fun _ ok => (addConnector_eq_ok.mp ok).1.elim fun _ => missing)
  | rename m name =>
    obtain rfl := List.mem_singleton.mp given
    exact .inr (by simp [apply, rename, gone, modifyNode_of_none gone])
  | setCallee m callee =>
    obtain rfl := List.mem_singleton.mp given
    exact .inr (by simp [apply, setCallee, gone, modifyNode_of_none gone])
  | _ => cases given

theorem declines_of_input (gone : g.input? i = none) (given : i ∈ e.inputs) : g.Declines e := by
  have missing : ∀ {input}, g.input? i = some input → False := by simp [gone]
  cases e with
  | connect o j fanOut =>
    obtain rfl := List.mem_singleton.mp given
    refine .inl (declined fun _ ok => ?_)
    obtain ⟨-, -, input, live, -⟩ := connect_eq_ok.mp ok
    exact missing live
  | breakInput j =>
    obtain rfl := List.mem_singleton.mp given
    exact .inl (declined fun _ ok => (breakInput_eq_ok.mp ok).elim fun _ live => missing live.1)
  | breakEdge o j =>
    obtain rfl := List.mem_singleton.mp given
    exact .inl (declined fun _ ok => (breakEdge_eq_ok.mp ok).2.elim fun _ live => missing live.1)
  | setFallback j text =>
    obtain rfl := List.mem_singleton.mp given
    refine .inl (declined fun _ ok => ?_)
    obtain ⟨input, -, live, -⟩ := setFallback_eq_ok.mp ok
    exact missing live
  | _ => cases given

theorem declines_of_output (gone : g.output? o = none) (given : o ∈ e.outputs) :
    g.Declines e := by
  have missing : ∀ {output}, g.output? o = some output → False := by simp [gone]
  cases e with
  | connect p j fanOut =>
    obtain rfl := List.mem_singleton.mp given
    exact .inl (declined fun _ ok => (connect_eq_ok.mp ok).elim fun _ live => missing live.1)
  | breakOutput p =>
    obtain rfl := List.mem_singleton.mp given
    exact .inl (declined fun _ ok => (breakOutput_eq_ok.mp ok).elim fun _ live => missing live.1)
  | breakEdge p j =>
    obtain rfl := List.mem_singleton.mp given
    exact .inl (declined fun _ ok => (breakEdge_eq_ok.mp ok).1.elim fun _ => missing)
  | _ => cases given

/-! ### Removed nodes -/

/-- **What is removed is gone for good.** After a node was removed, whatever edits follow, nothing
is found under its identifier and those of its connectors. -/
theorem Reachable.gone (h : g.Reachable) (removed : g.removeNode n = .ok (node, g'))
    (later : List Edit) :
    (g'.run later).node? n = none ∧ (∀ i ∈ node.inputs, (g'.run later).input? i = none) ∧
      ∀ o ∈ node.outputs, (g'.run later).output? o = none := by
  have older : Ages g g' := by
    have apart : (g.apply (.removeNode n)).2 = g' := by
      simp [Graph.apply, removed, Except.map, settle]
    exact apart ▸ Ages.run g [.removeNode n]
  have ages := Ages.run g' later
  obtain ⟨live, k, -, rfl⟩ := removeNode_eq_ok.mp removed
  refine ⟨?_, fun i hi => ?_, fun o ho => ?_⟩
  · have slot := Nat.lt_of_lt_of_le (Table.lt_size_of_get? live) older.nodes.size_le
    exact ages.nodes.empty slot ((k.node?_discard n n node).trans (if_pos rfl))
  · obtain ⟨input, here, -⟩ := (h.housed.inputs.mem_listed live).mp hi
    have slot := Nat.lt_of_lt_of_le (Table.lt_size_of_get? here) older.inputs.size_le
    exact ages.inputs.empty slot ((k.input?_discard n node i).trans (if_pos hi))
  · obtain ⟨output, here, -⟩ := (h.housed.mem_outputs live).mp ho
    have slot := Nat.lt_of_lt_of_le (Table.lt_size_of_get? here) older.outputs.size_le
    exact ages.outputs.empty slot ((k.output?_discard n node o).trans (if_pos ho))

/-- **Identifiers and names are used once.** Let edits, each accepted or refused, lead from an empty
graph to a graph. What they have made, also what a refused placement has taken away again, accounts
for every slot of the tables and every name given out. No two of the nodes, inputs or outputs among
it have the same identifier, and no two nodes were given the same name, of whichever kinds they are;
as long as 32 bits can number the things made of a kind, they keep their identifiers apart. What an
edit gives back is among what it makes.

If then a node is removed, its list of connectors being those that are on it, nothing is found under
its identifier and those of its connectors after whatever edits follow. The event that it may have
been has no script. An edit that is given one of these identifiers is refused, or reports that there
is nothing to change, and the graph stays as it is. -/
theorem identifiers_used_once (name : String) (edits : List Edit) :
    let g := (empty name).run edits
    let made := (empty name).creationsOf edits
    Fills (empty name) made g ∧ AllDistinct made ∧
    (∀ e n, (g.apply e).1 = .ok (.added n) →
      ∃ node, (g.apply e).2.node? n = some node ∧ .node n node.name ∈ g.creations e) ∧
    (∀ e id, (g.apply e).1 = .ok (.connected id) → .connector id ∈ g.creations e) ∧
    ∀ n node g', g.apply (.removeNode n) = (.ok (.removed node), g') →
      (∀ i input, g.input? i = some input → (i ∈ node.inputs ↔ input.owner = n)) ∧
      (∀ o output, g.output? o = some output → (o ∈ node.outputs ↔ output.owner = n)) ∧
      ∀ later, let k := g'.run later
        (k.node? n = none ∧ (∀ i ∈ node.inputs, k.input? i = none) ∧
          ∀ o ∈ node.outputs, k.output? o = none) ∧
        k.scriptOf n = .error (.nodeNotFound n) ∧
        ∀ e : Edit, (n ∈ e.nodes ∨ (∃ i ∈ node.inputs, i ∈ e.inputs) ∨
          ∃ o ∈ node.outputs, o ∈ e.outputs) → k.Declines e := by
  intro g made
  have reachable : g.Reachable := ⟨name, edits, rfl⟩
  have fills : Fills (empty name) made g := .run ⟨name, [], rfl⟩ edits
  refine ⟨fills, fills.distinct, fun e n => made_of_added, fun e id => made_of_connected,
    fun n node g' removal => ?_⟩
  have removed : g.removeNode n = .ok (node, g') := by
    revert removal
    simp only [apply]
    cases g.removeNode n with
    | ok r => simp [Except.map, settle, Prod.ext_iff]
    | error e => simp [Except.map, settle]
  obtain ⟨live, -⟩ := removeNode_eq_ok.mp removed
  refine ⟨fun i input => reachable.housed.mem_inputs_iff live,
    fun o output => reachable.housed.mem_outputs_iff live, fun later => ?_⟩
  obtain ⟨node, inputs, outputs⟩ := reachable.gone removed later
  refine ⟨⟨node, inputs, outputs⟩, by simp [scriptOf, nodeOrFail, node], fun e given => ?_⟩
  rcases given with given | ⟨i, hi, given⟩ | ⟨o, ho, given⟩
  · exact declines_of_node node given
  · exact declines_of_input (inputs i hi) given
  · exact declines_of_output (outputs o ho) given

/-- A call whose placement is refused, and then one that is accepted and removed: the next call has
an identifier and a name of its own, and breaking the edges of the removed one is refused. -/
theorem identifiers_used_once_ambiguous :
    let edits : List Edit := [.place ambiguous, .place logging]
    let g := (empty "Once").run edits
    ((empty "Once").creationsOf edits).filterMap (·.name?) = ["Func_1", "Func_2"] ∧
      ["Func_1", "Func_2"].Nodup ∧
      ∃ node g', g.apply (.removeNode ⟨1⟩) = (.ok (.removed node), g') ∧
        let k := g'.run [.place logging]
        k.node? ⟨1⟩ = none ∧ (k.node? ⟨2⟩).map (·.name) = some "Func_3" ∧
          k.Declines (.breakOutput ⟨1⟩) := by
  have names : ((empty "Once").creationsOf [.place ambiguous, .place logging]).filterMap
      (·.name?) = ["Func_1", "Func_2"] := by decide +kernel
  obtain ⟨node, g', removed, listed, next⟩ : ∃ node g',
      ((empty "Once").run [.place ambiguous, .place logging]).apply (.removeNode ⟨1⟩) =
          (.ok (.removed node), g') ∧ ⟨1⟩ ∈ node.outputs ∧
        ((g'.run [.place logging]).node? ⟨2⟩).map (·.name) = some "Func_3" :=
    ⟨_, _, rfl, by decide +kernel, by decide +kernel⟩
  obtain ⟨-, distinct, -, -, gone⟩ :=
    identifiers_used_once "Once" [.place ambiguous, .place logging]
  obtain ⟨-, -, later⟩ := gone _ _ _ removed
  obtain ⟨⟨missing, -⟩, -, declines⟩ := later [.place logging]
  exact ⟨names, names ▸ distinct.names, node, g', removed, missing, next,
    declines (.breakOutput ⟨1⟩) (.inr (.inr ⟨⟨1⟩, listed, .head _⟩))⟩

end Graph

end NodeScript
