import NodeScript.Proofs.Graph.Component
import NodeScript.Proofs.Graph.InPlace
import NodeScript.Proofs.Graph.Placing
import NodeScript.Proofs.Graph.Slots

/-!
# What a refused edit leaves

An edit that is refused leaves the graph as it was (`refused_unchanged`). For most edits nothing was
changed before the refusal, although they are made in place. A placement is different: it may be
refused at any of its connectors, when the node and the connectors before that one are there
already, and takes them away again. What is live is then the same as before, node by node and edge by
edge (`sameLive_of_refused`); the identifiers that it has used up lead to nothing for ever.
-/

namespace NodeScript

namespace Graph

variable {g : Graph} {p : Placement} {e : EditError}

/-! ### Refused placements -/

/-- The live nodes of a graph are enclosed: no edge leads out of the graph. -/
theorem Reachable.encloses_live (h : g.Reachable) :
    g.Encloses fun n => ∃ node, g.node? n = some node where
  housed := h.housed
  consistent := h.consistent
  live := id
  closed ho hi _ := iff_of_true (h.housed.output_owner ho) (h.housed.inputs.owner_live hi)

/-- A placement that is refused has not begun, or has removed its node again. -/
theorem removeNode_of_refused (h : g.Housed) (refused : (g.place p).1 = .error e) :
    (g.place p).2 = g ∨
      ∃ node, ((g.addNode p.kind).2.addConnectors (g.addNode p.kind).1 p.connectors).2.removeNode
        (g.addNode p.kind).1 = .ok (node, (g.place p).2) := by
  rcases h.place_cases p with ⟨-, same⟩ | ⟨check, ⟨all, -⟩ | removed⟩
  · exact .inl same
  · rw [place_eq_ok.mpr ⟨check, rfl, all⟩] at refused
    cases refused
  · exact .inr removed

theorem node?_of_refused (h : g.Housed) (refused : (g.place p).1 = .error e) :
    (g.place p).2.node? = g.node? := by
  rcases removeNode_of_refused h refused with same | ⟨node, removed⟩
  · rw [same]
  · obtain ⟨-, k, broken, hk⟩ := removeNode_eq_ok.mp removed
    have adds := (Adds.addNode g p.kind).trans (.addConnectors (h.addNode p.kind) _ p.connectors)
    funext m
    rw [hk, node?_discard, node?_breakNode broken]
    split
    · rename_i hm
      rw [← hm, node?_next]
    · exact adds.node (Ne.symm ‹_›)

/-- The same nodes and connectors are live, and all fields of them are the same. -/
structure SameLive (g g' : Graph) : Prop where
  node : g'.node? = g.node?
  input : g'.input? = g.input?
  output : g'.output? = g.output?

namespace SameLive

variable {g' : Graph}

theorem nodes (h : SameLive g g') : g'.nodes.live = g.nodes.live :=
  Table.live_congr (funext fun i => congrFun h.node ⟨i⟩)

theorem inputs (h : SameLive g g') : g'.inputs.live = g.inputs.live :=
  Table.live_congr (funext fun i => congrFun h.input ⟨i⟩)

theorem outputs (h : SameLive g g') : g'.outputs.live = g.outputs.live :=
  Table.live_congr (funext fun i => congrFun h.output ⟨i⟩)

theorem edges (h : SameLive g g') : g'.edges = g.edges := by
  rw [Graph.edges, h.outputs, Graph.edges]

end SameLive

/-- **A refused placement leaves what is live as it was.** -/
theorem sameLive_of_refused (h : g.Reachable) (refused : (g.place p).1 = .error e) :
    SameLive g (g.place p).2 := by
  have nodes := node?_of_refused h.housed refused
  have spares := h.encloses_live.place p
  have housed := spares.encloses.housed
  -- a connector is live before and after if its node is, and every live connector is on a live node
  refine ⟨nodes, funext fun i => Option.ext fun input => ?_,
    funext fun o => Option.ext fun output => ?_⟩
  · constructor
    · intro live
      obtain ⟨node, owner⟩ := housed.inputs.owner_live live
      exact (spares.agree.input ⟨node, nodes ▸ owner⟩).mp live
    · intro live
      exact (spares.agree.input (h.housed.inputs.owner_live live)).mpr live
  · constructor
    · intro live
      obtain ⟨node, owner⟩ := housed.output_owner live
      exact (spares.agree.output ⟨node, nodes ▸ owner⟩).mp live
    · intro live
      exact (spares.agree.output (h.housed.output_owner live)).mpr live

/-! ### Refused edits -/

/-- The edit is refused as the placement is. -/
theorem placed_of_apply (refused : (g.apply (.place p)).1 = .error e) :
    (g.place p).1 = .error e := by
  revert refused
  change (g.place p).1.map Outcome.added = .error e → _
  cases (g.place p).1 with
  | ok n => exact nofun
  | error e' => exact fun h => congrArg _ (Except.error.inj h)

/-- An edit other than a placement that is refused gives no graph. -/
theorem apply_of_refused {edit : Edit} (whole : ∀ p, edit ≠ .place p)
    (refused : (g.apply edit).1 = .error e) : (g.apply edit).2 = g := by
  have settled : ∀ {r : Except EditError (Outcome × Graph)}, (g.settle r).1 = .error e →
      (g.settle r).2 = g := by
    intro r hr
    cases r with
    | ok a => cases hr
    | error e => rfl
  cases edit with
  | place p => exact absurd rfl (whole p)
  | add _ | rename _ _ | setCallee _ _ => cases refused
  | _ => exact settled refused

/-- The identifiers that a refused placement has used up lead to nothing. -/
theorem none_of_used {α : Type} {t u v : Table α} (same : u.get? = t.get?) (ages : u.Ages v)
    {i : Nat} (new : t.size ≤ i) (used : i < u.size) : v.get? i = none := by
  refine ages.empty used ?_
  rw [same]
  cases hi : t.get? i with
  | none => rfl
  | some a => exact absurd (Table.lt_size_of_get? hi) (Nat.not_lt.mpr new)

open InPlace (perform performAll performAll_eq_run perform_outcome)

/-- **A refused edit leaves the graph as it was.** In a graph that edits have led to, where each was
made in place and accepted or refused: an edit made in place has the outcome of the edit made to the
graph as a whole. An edit other than a placement that is refused leaves the same graph, in all its
parts. A placement that is refused, at whichever of its connectors, leaves the same live nodes,
inputs and outputs with all their fields, in the same order and under the same identifiers, and so
the same edges in the same orders; and the identifiers that it has used up lead to nothing, whatever
edits follow. -/
theorem refused_unchanged (name : String) (edits : List Edit) :
    let g := performAll (empty name) edits
    (∀ edit, (perform edit).outcome g = g.apply edit) ∧
    (∀ edit e, (∀ p, edit ≠ .place p) → ((perform edit).outcome g).1 = .error e →
      ((perform edit).outcome g).2 = g) ∧
    ∀ p e, ((perform (.place p)).outcome g).1 = .error e →
      let g' := ((perform (.place p)).outcome g).2
      (g'.nodes.live = g.nodes.live ∧ g'.inputs.live = g.inputs.live ∧
        g'.outputs.live = g.outputs.live ∧ g'.edges = g.edges) ∧
      (g'.node? = g.node? ∧ g'.input? = g.input? ∧ g'.output? = g.output?) ∧
      ∀ later, let k := performAll g' later
        (∀ n, g.nodes.size ≤ n.index → n.index < g'.nodes.size → k.node? n = none) ∧
        (∀ i, g.inputs.size ≤ i.index → i.index < g'.inputs.size → k.input? i = none) ∧
        ∀ o, g.outputs.size ≤ o.index → o.index < g'.outputs.size → k.output? o = none := by
  intro g
  have reachable : g.Reachable := ⟨name, edits, performAll_eq_run ⟨name, [], rfl⟩ edits⟩
  refine ⟨perform_outcome reachable.housed, fun edit e whole refused => ?_, fun p e refused => ?_⟩
  · rw [perform_outcome reachable.housed] at refused ⊢
    exact apply_of_refused whole refused
  · rw [perform_outcome reachable.housed] at refused ⊢
    have same : SameLive g (g.place p).2 := sameLive_of_refused reachable (placed_of_apply refused)
    refine ⟨⟨same.nodes, same.inputs, same.outputs, same.edges⟩,
      ⟨same.node, same.input, same.output⟩, fun later => ?_⟩
    have left : (g.place p).2.Reachable := reachable.apply (.place p)
    have ages : Ages (g.place p).2 (performAll (g.place p).2 later) := by
      rw [performAll_eq_run left]
      exact Ages.run _ later
    exact ⟨fun n => none_of_used (funext fun i => congrFun same.node ⟨i⟩) ages.nodes,
      fun i => none_of_used (funext fun i => congrFun same.input ⟨i⟩) ages.inputs,
      fun o => none_of_used (funext fun i => congrFun same.output ⟨i⟩) ages.outputs⟩

/-- A call of a function with one parameter. -/
def logging : Placement :=
  .call { FunctionDecl.callable "Actor" "Log" with params := [.input "Message" .string] } none

/-- A call of a function whose two parameters have one name, so that the second is refused. -/
def ambiguous : Placement :=
  .call { FunctionDecl.callable "Actor" "Swap" with
    params := [.input "Value" .int, .input "Value" .int] } none

/-- Next to a call, the ambiguous call is begun and taken away again. It has used up an identifier,
which the call that is placed next does not get. -/
theorem refused_unchanged_ambiguous :
    let g := performAll (empty "Half") [.place logging]
    let g' := ((perform (.place ambiguous)).outcome g).2
    let k := performAll g' [.place logging]
    ((perform (.place ambiguous)).outcome g).1 =
        .error (.duplicateConnector "Func_2" .input "Value") ∧
      g.nodes.size = 1 ∧ g'.nodes.size = 2 ∧ g'.nodes.live = g.nodes.live ∧
      g'.inputs.live = g.inputs.live ∧ k.node? ⟨1⟩ = none ∧ (k.node? ⟨2⟩).isSome = true := by
  have run : let g := performAll (empty "Half") [.place logging]
      let g' := ((perform (.place ambiguous)).outcome g).2
      ((perform (.place ambiguous)).outcome g).1 =
          .error (.duplicateConnector "Func_2" .input "Value") ∧
        g.nodes.size = 1 ∧ g'.nodes.size = 2 ∧
        ((performAll g' [.place logging]).node? ⟨2⟩).isSome = true := by decide +kernel
  have atomic := (refused_unchanged "Half" [.place logging]).2.2
  -- what the graphs are is of no account any more
  revert run atomic
  generalize performAll (empty "Half") [.place logging] = g
  rintro ⟨refused, before, after, next⟩ atomic
  obtain ⟨⟨nodes, inputs, -, -⟩, -, later⟩ := atomic _ _ refused
  have unused := (later [.place logging]).1 ⟨1⟩ (Nat.le_of_eq before)
    (Nat.lt_of_lt_of_eq (Nat.lt_succ_self 1) after.symm)
  exact ⟨refused, before, after, nodes, inputs, unused, next⟩

end Graph

end NodeScript
