import NodeScript.Proofs.FreshNames
import NodeScript.Proofs.Graph.EdgeLists
import NodeScript.Proofs.Graph.Refused

/-!
# Names that refused placements use up

A placement that is refused leaves what is live as it was, but not the count of the names: the name
of its node stays used up. So the nodes that are placed later get other names than without the
refused placement exactly if one of them has the label of the refused one (`same_names_iff`).

The names of the nodes placed one after the other are the next names of their labels
(`placeAll_eq_ok`), so all comes down to how often each label was asked for.
-/

namespace NodeScript

namespace Graph

/-- Places nodes one after the other, as long as they are accepted, and gives their names. -/
def placeAll (g : Graph) : List Placement → Except EditError (List String × Graph)
  | [] => .ok ([], g)
  | p :: ps => do
    let (placed, g) := g.place p
    let node ← g.requireNode (← placed)
    let (names, g) ← g.placeAll ps
    return (node.name :: names, g)

variable {g g' : Graph} {n : NodeId} {node : Node} {p : Placement} {ps : List Placement}

/-! ### The names after a placement -/

theorem names_addConnector {spec : ConnectorSpec} {r : ConnectorId × Graph}
    (ok : g.addConnector n spec = .ok r) :
    r.2.names = g.names ∧ ∀ m, (r.2.node? m).map (·.name) = (g.node? m).map (·.name) := by
  obtain ⟨-, -, -, rfl⟩ := addConnector_eq_ok.mp ok
  obtain ⟨direction, signal, name, className⟩ := spec
  cases direction with
  | input =>
    refine ⟨rfl, fun m => ?_⟩
    have look := g.node?_addInput ⟨n, name, signal, className⟩ m
    exact (congrArg _ look).trans (map_ite_map fun _ => rfl)
  | output =>
    refine ⟨rfl, fun m => ?_⟩
    have look := g.node?_addOutput ⟨n, name, signal, className⟩ m
    exact (congrArg _ look).trans (map_ite_map fun _ => rfl)

/-- Connectors are added without asking for a name, and without changing one. -/
theorem names_addConnectors (g : Graph) (n : NodeId) (specs : List ConnectorSpec) :
    (g.addConnectors n specs).2.names = g.names ∧
      ∀ m, ((g.addConnectors n specs).2.node? m).map (·.name) = (g.node? m).map (·.name) := by
  induction specs generalizing g with
  | nil => exact ⟨rfl, fun _ => rfl⟩
  | cons spec specs ih =>
    cases hr : g.addConnector n spec with
    | error e => simp [addConnectors, hr]
    | ok r =>
      obtain ⟨names, nodes⟩ := names_addConnector hr
      obtain ⟨names', nodes'⟩ := ih r.2
      simp only [addConnectors, hr]
      exact ⟨names'.trans names, fun m => (nodes' m).trans (nodes m)⟩

/-- The name of a node that is removed is not given back. -/
theorem names_removeNode (h : g.Consistent) (hr : g.removeNode n = .ok (node, g')) :
    g'.names = g.names := by
  obtain ⟨hn, k, broken, rfl⟩ := removeNode_eq_ok.mp hr
  exact (rewires_breakNode h hn broken).names

/-- **A placement that has begun has asked for a name**, whether it is accepted or refused. -/
theorem names_place (h : g.Reachable) (begun : p.check = .ok ()) :
    (g.place p).2.names = (g.names.next p.kind.label).2 := by
  have added := (names_addConnectors (g.addNode p.kind).2 (g.addNode p.kind).1 p.connectors).1
  rcases h.housed.place_cases p with ⟨⟨e, unbegun⟩, -⟩ | ⟨-, ⟨-, accepted⟩ | ⟨node, removed⟩⟩
  · rw [unbegun] at begun
    cases begun
  · rw [accepted]
    exact added
  · have consistent := (h.consistent.step (.addNode p.kind)).steps
      (addConnectors_steps _ (g.addNode p.kind).1 p.connectors)
    exact (names_removeNode consistent removed).trans added

/-- A placement that has not begun leaves the same graph. -/
theorem place_of_unbegun (unbegun : p.check ≠ .ok ()) : (g.place p).2 = g := by
  unfold place
  cases hp : p.check with
  | error e => rfl
  | ok u => exact absurd hp unbegun

/-- The node of an accepted placement has the next name of its label. -/
theorem name_of_place (ok : (g.place p).1 = .ok n) :
    ∃ node, (g.place p).2.node? n = some node ∧ node.name = (g.names.next p.kind.label).1 := by
  rw [place_of_ok ok]
  obtain ⟨-, rfl, -⟩ := place_eq_ok.mp ok
  have same := (names_addConnectors (g.addNode p.kind).2 (g.addNode p.kind).1 p.connectors).2
    (g.addNode p.kind).1
  rw [node?_addNode, if_pos rfl] at same
  exact Option.map_eq_some_iff.mp same

/-! ### Placements one after the other -/

/-- **Nodes placed one after the other get the next names of their labels.** -/
theorem exists_placeAll (h : g.Reachable) (fits : ∀ q ∈ ps, q.Fits) :
    ∃ k, g.placeAll ps = .ok (g.names.nexts (ps.map (·.kind.label)), k) := by
  induction ps generalizing g with
  | nil => exact ⟨g, rfl⟩
  | cons p ps ih =>
    obtain ⟨first, rest⟩ := List.forall_mem_cons.mp fits
    obtain ⟨n, hn⟩ := (place_ok_iff h.housed).mpr first
    obtain ⟨node, live, hname⟩ := name_of_place hn
    have placed : (g.place p).2.Reachable := h.apply (.place p)
    obtain ⟨k, hk⟩ := ih placed rest
    rw [names_place h first.check] at hk
    refine ⟨k, ?_⟩
    simp only [placeAll, hn, requireNode_eq_ok.mpr live, hk, hname, Except.ok_bind]
    rfl

/-- What can be placed in a graph at all fits. -/
theorem fits_of_placeAll (h : g.Reachable) {r : List String × Graph}
    (ok : g.placeAll ps = .ok r) : ∀ q ∈ ps, q.Fits := by
  induction ps generalizing g r with
  | nil => exact fun _ hq => absurd hq List.not_mem_nil
  | cons p ps ih =>
    have placed : (g.place p).2.Reachable := h.apply (.place p)
    obtain ⟨n, hn, ok⟩ := Except.bind_eq_ok.mp ok
    obtain ⟨node, -, ok⟩ := Except.bind_eq_ok.mp ok
    obtain ⟨r', rest, -⟩ := Except.bind_eq_ok.mp ok
    exact List.forall_mem_cons.mpr ⟨(place_ok_iff h.housed).mp ⟨n, hn⟩, ih placed rest⟩

/-! ### Refused placements -/

/-- **A refused placement uses up a name.** In a graph that edits have led to, let a placement be
refused, and then others be accepted one after the other. What is live is as before the refusal, and
the others would have been accepted without it too; their nodes would have got the next names of
their labels. If the refused placement had begun, they get the next names after the one that it has
asked for. So they get the same names exactly if the refused placement had not begun or none of them
has its label. -/
theorem same_names_iff (h : g.Reachable) {e : EditError} (refused : (g.place p).1 = .error e)
    {names' : List String} (accepted : (g.place p).2.placeAll ps = .ok (names', g')) :
    SameLive g (g.place p).2 ∧ ∃ names k, g.placeAll ps = .ok (names, k) ∧
      names = g.names.nexts (ps.map (·.kind.label)) ∧
      (p.check = .ok () →
        names' = (g.names.next p.kind.label).2.nexts (ps.map (·.kind.label))) ∧
      (names' = names ↔ p.check ≠ .ok () ∨ ∀ q ∈ ps, q.kind.label ≠ p.kind.label) := by
  have placed : (g.place p).2.Reachable := h.apply (.place p)
  have fits := fits_of_placeAll placed accepted
  obtain ⟨k, hk⟩ := exists_placeAll h fits
  obtain ⟨k', hk'⟩ := exists_placeAll placed fits
  obtain ⟨rfl, rfl⟩ := Prod.mk.inj (Except.ok.inj (accepted.symm.trans hk'))
  refine ⟨sameLive_of_refused h refused, _, k, hk, rfl, fun begun => by rw [names_place h begun],
    ?_⟩
  by_cases begun : p.check = .ok ()
  · rw [names_place h begun, FreshNames.nexts_next_eq_iff]
    simp [begun]
  · simp [place_of_unbegun begun, begun]

/-- An event. -/
def ticks : Placement :=
  .event (FunctionDecl.callable "Actor" "Tick").asEvent

/-- After the ambiguous call was refused in an empty graph, an event gets the name that it would have
got without. -/
theorem same_names_iff_ticks :
    ((empty "Skip").place ambiguous).1 =
        .error (.duplicateConnector "Func_1" .input "Value") ∧
      ∃ k' k, ((empty "Skip").place ambiguous).2.placeAll [ticks] = .ok (["Event_1"], k') ∧
        (empty "Skip").placeAll [ticks] = .ok (["Event_1"], k) := by
  have refused : ((empty "Skip").place ambiguous).1 =
      .error (.duplicateConnector "Func_1" .input "Value") := by decide +kernel
  obtain ⟨k', accepted⟩ : ∃ k', ((empty "Skip").place ambiguous).2.placeAll [ticks] =
      .ok (["Event_1"], k') := ⟨_, rfl⟩
  obtain ⟨-, names, k, hk, -, -, same⟩ := same_names_iff ⟨"Skip", [], rfl⟩ refused accepted
  obtain rfl := same.mpr (.inr (by decide))
  exact ⟨refused, k', k, accepted, hk⟩

/-- A call does not: it gets the second name of the label, although the graph is empty. -/
theorem ambiguous_skips_name :
    (empty "Skip").Reachable ∧
      ((empty "Skip").place ambiguous).1 =
        .error (.duplicateConnector "Func_1" .input "Value") ∧
      ((empty "Skip").place ambiguous).2.nodes.live = [] ∧
      ((empty "Skip").placeAll [logging]).toOption.map (·.1) = some ["Func_1"] ∧
      (((empty "Skip").place ambiguous).2.placeAll [logging]).toOption.map (·.1) =
        some ["Func_2"] :=
  ⟨⟨"Skip", [], rfl⟩, by decide +kernel⟩

end Graph

end NodeScript
