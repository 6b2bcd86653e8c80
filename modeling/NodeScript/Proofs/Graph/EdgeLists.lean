import NodeScript.Proofs.Graph.Consistent
import NodeScript.Proofs.Graph.Housed

/-!
# Edges as lists that the outputs own

Although both ends of an edge know it, the edges behave as if only the outputs did: each live output
owns a list of inputs (`EdgeLists`), and every edit of edges is one of a few changes of these lists.
An input is deleted from whichever list holds it, the list of an output is emptied, or an input is
appended to one list (`wiring_refines`). What is not deleted keeps its place in its list.

Nothing else of a graph changes: without its edges (`Graph.unwired`) it is the same graph as before.
-/

namespace NodeScript

open NodeScript.Except (bind_eq_ok)

/-! ### Changes that leave a part of the rows alone -/

namespace Table

variable {α : Type} {t : Table α} {f change : α → α}

/-- Changes every live row. -/
def map (t : Table α) (f : α → α) : Table α :=
  ⟨t.slots.map (Option.map f)⟩

theorem get?_map (t : Table α) (f : α → α) (i : Nat) : (t.map f).get? i = (t.get? i).map f := by
  simp only [get?, map, Array.getElem?_map]
  cases t.slots[i]? <;> rfl

theorem map_modify (h : ∀ a, f (change a) = f a) (i : Nat) :
    (t.modify i change).map f = t.map f := by
  refine congrArg Table.mk (Array.ext (by simp [modify]) fun j hj hj' => ?_)
  simp only [modify, Array.getElem_map, Array.getElem_modify]
  split
  · simp [Function.comp_def, h]
  · rfl

theorem map_erase (f : α → α) (i : Nat) : (t.erase i).map f = (t.map f).erase i := by
  simp [map, erase, Array.map_setIfInBounds]

/-- A change that does nothing to the row in the slot does nothing. -/
theorem modify_eq_self {i : Nat} (h : ∀ a, t.get? i = some a → change a = a) :
    t.modify i change = t := by
  refine congrArg Table.mk (Array.ext (by simp) fun j hj hj' => ?_)
  rw [Array.getElem_modify]
  split
  · subst_vars
    cases hrow : t.slots[j] with
    | none => rfl
    | some a => exact congrArg some (h a (by simp [get?, hj', hrow]))
  · rfl

end Table

/-- The input without its edge. -/
def Input.bare (i : Input) : Input :=
  { i with source := none }

/-- The output without its edges. -/
def Output.bare (o : Output) : Output :=
  { o with targets := [] }

/-! ### The lists -/

/-- The edges as the outputs own them: the inputs of each live output, in order. -/
abbrev EdgeLists :=
  OutputId → Option (List InputId)

namespace EdgeLists

variable (w : EdgeLists)

/-- Empties the lists of outputs. -/
def clear (outputs : List OutputId) : EdgeLists :=
  fun o => if o ∈ outputs then (w o).map fun _ => [] else w o

/-- Deletes inputs from whichever lists hold them. -/
def detach (inputs : List InputId) : EdgeLists :=
  fun o => (w o).map (·.filter (· ∉ inputs))

/-- Deletes an input from the list of one output. -/
def cut (output : OutputId) (input : InputId) : EdgeLists :=
  fun o => if o = output then (w o).map (·.filter (· ≠ input)) else w o

/-- Appends an input at the end of the list of an output. -/
def attach (output : OutputId) (input : InputId) : EdgeLists :=
  fun o => if o = output then (w o).map (· ++ [input]) else w o

/-- Deletes every edge with an end on a node. -/
def isolate (node : Node) : EdgeLists :=
  (w.detach node.inputs).clear node.outputs

/-- Takes outputs away, with their lists. -/
def without (outputs : List OutputId) : EdgeLists :=
  fun o => if o ∈ outputs then none else w o

@[simp] theorem detach_nil : w.detach [] = w := by
  funext o
  simp [detach]

@[simp] theorem clear_nil : w.clear [] = w := by
  funext o
  simp [clear]

theorem detach_cons (i : InputId) (l : List InputId) :
    (w.detach [i]).detach l = w.detach (i :: l) := by
  funext o
  simp only [detach, Option.map_map]
  refine congrArg (Option.map · (w o)) (funext fun targets => ?_)
  simp [List.filter_filter, Bool.and_comm]

theorem clear_cons (o : OutputId) (l : List OutputId) :
    (w.clear [o]).clear l = w.clear (o :: l) := by
  funext p
  simp only [clear, List.mem_cons, List.not_mem_nil, or_false]
  by_cases hp : p = o <;> by_cases hl : p ∈ l <;> simp [hp, hl, Function.comp_def]

end EdgeLists

namespace Graph

variable {g g' : Graph} {n : NodeId} {node : Node} {o : OutputId} {output : Output} {i : InputId}
  {input : Input}

/-- The lists of the outputs of a graph. -/
def edgeLists (g : Graph) : EdgeLists :=
  fun o => (g.output? o).map (·.targets)

/-- The graph with all its nodes and connectors, and without its edges. -/
def unwired (g : Graph) : Graph :=
  { g with inputs := g.inputs.map Input.bare, outputs := g.outputs.map Output.bare }

@[simp] theorem node?_unwired (g : Graph) : g.unwired.node? = g.node? := rfl

theorem input?_unwired (g : Graph) (i : InputId) :
    g.unwired.input? i = (g.input? i).map Input.bare :=
  Table.get?_map ..

theorem output?_unwired (g : Graph) (o : OutputId) :
    g.unwired.output? o = (g.output? o).map Output.bare :=
  Table.get?_map ..

/-- What is found without the edges is found with them, and with those of another graph. -/
theorem exists_input_of_unwired (same : g'.unwired = g.unwired) (hi : g'.input? i = some input) :
    ∃ old, g.input? i = some old ∧ old.toConnector = input.toConnector ∧ old.id = input.id ∧
      old.fallback = input.fallback := by
  have bare : (g.input? i).map Input.bare = some input.bare := by
    rw [← input?_unwired, ← same, input?_unwired, hi, Option.map_some]
  obtain ⟨old, hold, heq⟩ := Option.map_eq_some_iff.mp bare
  obtain ⟨connector, ident, -, fallback⟩ := Input.mk.inj heq
  exact ⟨old, hold, connector, ident, fallback⟩

theorem exists_output_of_unwired (same : g'.unwired = g.unwired)
    (ho : g'.output? o = some output) :
    ∃ old, g.output? o = some old ∧ old.toConnector = output.toConnector ∧ old.id = output.id := by
  have bare : (g.output? o).map Output.bare = some output.bare := by
    rw [← output?_unwired, ← same, output?_unwired, ho, Option.map_some]
  obtain ⟨old, hold, heq⟩ := Option.map_eq_some_iff.mp bare
  obtain ⟨connector, ident, -⟩ := Output.mk.inj heq
  exact ⟨old, hold, connector, ident⟩

/-- The edges are those of the lists, in the order of the outputs. -/
theorem edges_eq_edgeLists (h : g.Housed) :
    g.edges = g.outputs.live.flatMap fun output =>
      ((g.edgeLists output.id).getD []).map (output.id, ·) := by
  refine List.flatMap_congr fun output hlive => ?_
  obtain ⟨k, hk⟩ := Table.mem_live.mp hlive
  have found : g.output? ⟨k⟩ = some output := hk
  have here : g.output? output.id = some output := h.output_id found ▸ found
  simp [edgeLists, here]

theorem mem_edges_iff (h : g.Housed) : (o, i) ∈ g.edges ↔ g.Feeds o i := by
  simp only [edges, List.mem_flatMap, List.mem_map, Prod.mk.injEq]
  constructor
  · rintro ⟨output, hlive, j, hj, rfl, rfl⟩
    obtain ⟨k, hk⟩ := Table.mem_live.mp hlive
    have found : g.output? ⟨k⟩ = some output := hk
    exact ⟨output, h.output_id found ▸ found, hj⟩
  · rintro ⟨output, ho, hi⟩
    exact ⟨output, Table.mem_live.mpr ⟨o.index, ho⟩, i, hi, h.output_id ho, rfl⟩

/-- An input is in the list of an output exactly if its edge comes from it. -/
theorem Consistent.mem_iff_source (h : g.Consistent) (ho : g.output? o = some output)
    (hi : g.input? i = some input) : i ∈ output.targets ↔ input.source = some o := by
  constructor
  · intro hmem
    obtain ⟨input', hi', hs⟩ := (h.feeds_iff o i).mp ⟨output, ho, hmem⟩
    rwa [Option.some.inj (hi.symm.trans hi')]
  · intro hs
    obtain ⟨output', ho', hmem⟩ := (h.feeds_iff o i).mpr ⟨input, hi, hs⟩
    rwa [Option.some.inj (ho.symm.trans ho')]

/-! ### The elementary changes -/

theorem edgeLists_severed (h : g.Consistent) (hi : g.input? i = some input) :
    (g.severed input.source i).edgeLists = g.edgeLists.detach [i] := by
  funext p
  rw [edgeLists, output?_severed]
  cases hp : g.output? p with
  | none => simp [EdgeLists.detach, edgeLists, hp]
  | some output =>
    by_cases hs : input.source = some p
    · simp [EdgeLists.detach, edgeLists, hp, hs]
    · -- only the output that the edge comes from has the input in its list
      have absent : i ∉ output.targets := fun hmem => hs ((h.mem_iff_source hp hi).mp hmem)
      have keep : ∀ j ∈ output.targets, j ≠ i := fun j hj hji => absent (hji ▸ hj)
      simpa [EdgeLists.detach, edgeLists, hp, hs, eq_comm (a := output.targets)] using keep

theorem edgeLists_cleared (o : OutputId) (l : List InputId) :
    (g.cleared o l).edgeLists = g.edgeLists.clear [o] := by
  funext p
  rw [edgeLists, output?_cleared]
  by_cases hp : o = p
  · simp [EdgeLists.clear, edgeLists, hp, Function.comp_def]
  · simp [EdgeLists.clear, edgeLists, hp, Ne.symm hp]

theorem edgeLists_link (o : OutputId) (i : InputId) :
    (g.link o i).edgeLists = g.edgeLists.attach o i := by
  funext p
  rw [edgeLists, output?_link]
  by_cases hp : o = p
  · simp [EdgeLists.attach, edgeLists, hp, Function.comp_def]
  · simp [EdgeLists.attach, edgeLists, hp, Ne.symm hp]

theorem edgeLists_discard (n : NodeId) (node : Node) :
    (g.discard n node).edgeLists = g.edgeLists.without node.outputs := by
  funext p
  rw [edgeLists, output?_discard]
  by_cases hp : p ∈ node.outputs <;> simp [EdgeLists.without, edgeLists, hp]

theorem unwired_modifyInput {f : Input → Input} (g : Graph) (i : InputId)
    (keep : ∀ input, (f input).bare = input.bare) : (g.modifyInput i f).unwired = g.unwired := by
  rw [unwired, modifyInput, Table.map_modify keep, unwired]

theorem unwired_modifyOutput {f : Output → Output} (g : Graph) (o : OutputId)
    (keep : ∀ output, (f output).bare = output.bare) :
    (g.modifyOutput o f).unwired = g.unwired := by
  rw [unwired, modifyOutput, Table.map_modify keep, unwired]

theorem unwired_unplug (g : Graph) (i : InputId) : (g.unplug i).unwired = g.unwired :=
  g.unwired_modifyInput i fun _ => rfl

theorem unwired_severed (source : Option OutputId) (i : InputId) :
    (g.severed source i).unwired = g.unwired := by
  cases source with
  | none => exact g.unwired_unplug i
  | some o =>
    have output : (g.severed (some o) i).unwired = (g.unplug i).unwired :=
      unwired_modifyOutput _ o fun _ => rfl
    exact output.trans (g.unwired_unplug i)

theorem unwired_cleared (o : OutputId) (l : List InputId) :
    (g.cleared o l).unwired = g.unwired := by
  have unplugged : ∀ k : Graph, (l.foldl unplug k).unwired = k.unwired := by
    induction l with
    | nil => exact fun _ => rfl
    | cons i l ih => exact fun k => (ih (k.unplug i)).trans (k.unwired_unplug i)
  have output : (g.modifyOutput o ({ · with targets := [] })).unwired = g.unwired :=
    unwired_modifyOutput g o fun _ => rfl
  exact (unplugged _).trans output

theorem unwired_link (o : OutputId) (i : InputId) : (g.link o i).unwired = g.unwired := by
  have output : (g.modifyOutput o fun out => { out with targets := out.targets ++ [i] }).unwired =
      g.unwired := unwired_modifyOutput g o fun _ => rfl
  have input : (g.link o i).unwired =
      (g.modifyOutput o fun out => { out with targets := out.targets ++ [i] }).unwired :=
    unwired_modifyInput _ i fun _ => rfl
  exact input.trans output

private theorem map_foldl_erase {α ι : Type} (index : ι → Nat) (f : α → α) (l : List ι)
    (t : Table α) : (l.foldl (fun t i => t.erase (index i)) t).map f =
      l.foldl (fun t i => t.erase (index i)) (t.map f) := by
  induction l generalizing t with
  | nil => rfl
  | cons i l ih => rw [List.foldl_cons, ih, Table.map_erase, List.foldl_cons]

theorem unwired_discard (n : NodeId) (node : Node) :
    (g.discard n node).unwired = g.unwired.discard n node := by
  simp only [unwired, discard, map_foldl_erase InputId.index, map_foldl_erase OutputId.index]

/-! ### The edits -/

/-- The second graph has the edges of the lists, and is the first in everything but its edges. -/
structure Rewires (g g' : Graph) (w : EdgeLists) : Prop where
  edges : g'.edgeLists = w
  rest : g'.unwired = g.unwired

namespace Rewires

variable {k : Graph} {w : EdgeLists}

theorem refl (g : Graph) : Rewires g g g.edgeLists :=
  ⟨rfl, rfl⟩

theorem trans {v : EdgeLists} (h : Rewires g k v) (h' : Rewires k g' w) : Rewires g g' w :=
  ⟨h'.edges, h'.rest.trans h.rest⟩

theorem nodes (h : Rewires g g' w) : g'.nodes = g.nodes :=
  (congrArg Graph.nodes h.rest :)

theorem names (h : Rewires g g' w) : g'.names = g.names :=
  (congrArg Graph.names h.rest :)

theorem node? (h : Rewires g g' w) : g'.node? = g.node? :=
  (congrArg Graph.node? h.rest :)

end Rewires

theorem rewires_breakInput (h : g.Consistent) (hb : g.breakInput i = .ok g') :
    Rewires g g' (g.edgeLists.detach [i]) := by
  obtain ⟨input, hi, rfl⟩ := breakInput_eq_ok.mp hb
  exact ⟨edgeLists_severed h hi, unwired_severed ..⟩

theorem rewires_breakOutput (hb : g.breakOutput o = .ok g') :
    Rewires g g' (g.edgeLists.clear [o]) := by
  obtain ⟨output, ho, rfl⟩ := breakOutput_eq_ok.mp hb
  exact ⟨edgeLists_cleared .., unwired_cleared ..⟩

/-- Only the list of the one output is touched, because no other list can hold the input of an edge
from it. -/
theorem rewires_breakEdge (h : g.Consistent) (hb : g.breakEdge o i = .ok g') :
    Rewires g g' (g.edgeLists.cut o i) := by
  obtain ⟨⟨output, ho⟩, input, hi, hb⟩ := breakEdge_eq_ok.mp hb
  split at hb
  · rename_i hs
    have same : g.edgeLists.detach [i] = g.edgeLists.cut o i := by
      funext p
      by_cases hp : p = o
      · simp [EdgeLists.detach, EdgeLists.cut, hp]
      · cases hlive : g.output? p with
        | none => simp [EdgeLists.detach, EdgeLists.cut, edgeLists, hp, hlive]
        | some other =>
          have absent : i ∉ other.targets := fun hmem =>
            hp (Option.some.inj (((h.mem_iff_source hlive hi).mp hmem).symm.trans hs))
          have keep : ∀ j ∈ other.targets, j ≠ i := fun j hj hji => absent (hji ▸ hj)
          simpa [EdgeLists.detach, EdgeLists.cut, edgeLists, hp, hlive] using keep
    exact same ▸ rewires_breakInput h hb
  · rename_i hs
    have absent : i ∉ output.targets := fun hmem => hs ((h.mem_iff_source ho hi).mp hmem)
    have keep : ∀ j ∈ output.targets, j ≠ i := fun j hj hji => absent (hji ▸ hj)
    have same : g.edgeLists.cut o i = g.edgeLists := by
      funext p
      by_cases hp : p = o
      · subst hp
        simpa [EdgeLists.cut, edgeLists, ho] using keep
      · simp [EdgeLists.cut, hp]
    rw [hb, same]
    exact .refl g

theorem rewires_breakInputs (h : g.Consistent) {l : List InputId}
    (hb : l.foldlM breakInput g = .ok g') : Rewires g g' (g.edgeLists.detach l) := by
  induction l generalizing g with
  | nil =>
    obtain rfl : g = g' := by simpa using hb
    simpa using Rewires.refl g
  | cons i l ih =>
    rw [List.foldlM_cons] at hb
    obtain ⟨k, hk, hb⟩ := bind_eq_ok.mp hb
    have first := rewires_breakInput h hk
    have later := ih (h.steps (breakInput_steps hk)) hb
    rw [first.edges, EdgeLists.detach_cons] at later
    exact first.trans later

theorem rewires_breakOutputs {l : List OutputId} (hb : l.foldlM breakOutput g = .ok g') :
    Rewires g g' (g.edgeLists.clear l) := by
  induction l generalizing g with
  | nil =>
    obtain rfl : g = g' := by simpa using hb
    simpa using Rewires.refl g
  | cons o l ih =>
    rw [List.foldlM_cons] at hb
    obtain ⟨k, hk, hb⟩ := bind_eq_ok.mp hb
    have first := rewires_breakOutput hk
    have later := ih hb
    rw [first.edges, EdgeLists.clear_cons] at later
    exact first.trans later

theorem rewires_breakNode (h : g.Consistent) (hn : g.node? n = some node)
    (hb : g.breakNode n = .ok g') : Rewires g g' (g.edgeLists.isolate node) := by
  obtain ⟨node', hn', k, h₁, h₂⟩ := breakNode_eq_ok.mp hb
  obtain rfl : node = node' := Option.some.inj (hn.symm.trans hn')
  have first := rewires_breakInputs h h₁
  have later := rewires_breakOutputs h₂
  rw [first.edges] at later
  exact first.trans later

theorem rewires_connect (h : g.Consistent) (ho : g.output? o = some output) {fanOut : FanOut}
    (hc : g.connect o i fanOut = .ok g') :
    Rewires g g' (((if fanOut output.signal then g.edgeLists else g.edgeLists.clear [o]).detach
      [i]).attach o i) := by
  obtain ⟨output', ho', input, -, -, g₁, h₁, g₂, h₂, rfl⟩ := connect_eq_ok.mp hc
  obtain rfl : output = output' := Option.some.inj (ho.symm.trans ho')
  have first : g₁.Consistent ∧
      Rewires g g₁ (if fanOut output.signal then g.edgeLists else g.edgeLists.clear [o]) := by
    split at h₁
    · rename_i allowed
      rw [h₁, if_pos allowed]
      exact ⟨h, .refl g⟩
    · rename_i forbidden
      rw [if_neg forbidden]
      exact ⟨h.steps (breakOutput_steps h₁), rewires_breakOutput h₁⟩
  obtain ⟨consistent, cleared⟩ := first
  have freed := rewires_breakInput consistent h₂
  rw [cleared.edges] at freed
  refine (cleared.trans freed).trans ⟨?_, unwired_link o i⟩
  rw [edgeLists_link, freed.edges]

/-! ### Breaking again -/

theorem breakInput_of_unfed (hi : g.input? i = some input) (unfed : g.Unfed i) :
    g.breakInput i = .ok g := by
  refine breakInput_eq_ok.mpr ⟨input, hi, ?_⟩
  have same : g.inputs.modify i.index ({ · with source := none }) = g.inputs :=
    Table.modify_eq_self fun a ha => by rw [← unfed a ha]
  simp only [unfed input hi, severed, unplug, modifyInput, same]

theorem breakOutput_of_unread (ho : g.output? o = some output) (unread : g.Unread o) :
    g.breakOutput o = .ok g := by
  refine breakOutput_eq_ok.mpr ⟨output, ho, ?_⟩
  have same : g.outputs.modify o.index ({ · with targets := [] }) = g.outputs :=
    Table.modify_eq_self fun a ha => by rw [← unread a ha]
  simp only [unread output ho, cleared, modifyOutput, same, List.foldl_nil]

/-- A live input is live after its edge was broken. -/
theorem exists_input?_severed (hi : g.input? i = some input) (source : Option OutputId) :
    ∃ input', (g.severed source i).input? i = some input' :=
  ⟨_, by rw [input?_severed, if_pos rfl, hi]; rfl⟩

theorem breakInput_again (hb : g.breakInput i = .ok g') : g'.breakInput i = .ok g' := by
  obtain ⟨input, hi, rfl⟩ := breakInput_eq_ok.mp hb
  obtain ⟨input', hi'⟩ := exists_input?_severed hi input.source
  exact breakInput_of_unfed hi' (unfed_severed _ _)

theorem breakOutput_again (hb : g.breakOutput o = .ok g') : g'.breakOutput o = .ok g' := by
  obtain ⟨output, ho, rfl⟩ := breakOutput_eq_ok.mp hb
  have live : (g.cleared o output.targets).output? o = some { output with targets := [] } := by
    simp [output?_cleared, ho]
  exact breakOutput_of_unread live (unread_cleared _ _)

theorem breakEdge_again (hb : g.breakEdge o i = .ok g') : g'.breakEdge o i = .ok g' := by
  have before := breakEdge_eq_ok.mp hb
  obtain ⟨⟨output, ho⟩, input, hi, broken⟩ := before
  split at broken
  · obtain ⟨found, hfound, rfl⟩ := breakInput_eq_ok.mp broken
    obtain ⟨input', hi'⟩ := exists_input?_severed hi found.source
    have live : ∃ output', (g.severed found.source i).output? o = some output' := by
      rw [output?_severed, ho]
      split <;> exact ⟨_, rfl⟩
    have free : input'.source ≠ some o := by
      rw [unfed_severed _ _ input' hi']
      exact nofun
    exact breakEdge_eq_ok.mpr ⟨live, input', hi', by rw [if_neg free]⟩
  · subst broken
    exact hb

/-- A fold whose steps leave the start as it is leads back to the start. -/
theorem foldlM_of_idle {ε α β : Type} {f : β → α → Except ε β} {l : List α} {b : β}
    (idle : ∀ a ∈ l, f b a = .ok b) : l.foldlM f b = .ok b := by
  induction l with
  | nil => rfl
  | cons a l ih =>
    rw [List.foldlM_cons, idle a (.head _)]
    exact ih fun x hx => idle x (.tail _ hx)

theorem breakNode_again (h : g.Housed) (hb : g.breakNode n = .ok g') :
    g'.breakNode n = .ok g' := by
  obtain ⟨node, hn, -⟩ := breakNode_eq_ok.mp hb
  obtain ⟨unfed, unread⟩ := breakNode_unconnected hb hn
  have hn' : g'.node? n = some node := by rw [node?_breakNode hb, hn]
  have housed := h.steps (breakNode_steps hb)
  refine breakNode_eq_ok.mpr ⟨node, hn', g', foldlM_of_idle fun i hi => ?_,
    foldlM_of_idle fun o ho => ?_⟩
  · obtain ⟨input, hlive, -⟩ := (housed.inputs.mem_listed hn').mp hi
    exact breakInput_of_unfed hlive (unfed i hi)
  · obtain ⟨output, hlive, -⟩ := (housed.mem_outputs hn').mp ho
    exact breakOutput_of_unread hlive (unread o ho)

/-! ### All edits of edges -/

/-- The inputs that a node lists are the live inputs that are on it. -/
theorem Housed.mem_inputs_iff (h : g.Housed) (hn : g.node? n = some node)
    (hi : g.input? i = some input) : i ∈ node.inputs ↔ input.owner = n := by
  refine (h.inputs.mem_listed hn).trans ⟨?_, fun howner => ⟨input, hi, howner⟩⟩
  rintro ⟨found, hfound, howner⟩
  rwa [Option.some.inj (hi.symm.trans hfound)]

/-- The outputs that a node lists are the live outputs that are on it. -/
theorem Housed.mem_outputs_iff (h : g.Housed) (hn : g.node? n = some node)
    (ho : g.output? o = some output) : o ∈ node.outputs ↔ output.owner = n := by
  refine (h.mem_outputs hn).trans ⟨?_, fun howner => ⟨output, ho, howner⟩⟩
  rintro ⟨found, hfound, howner⟩
  rwa [Option.some.inj (ho.symm.trans hfound)]

/-- **Edits of edges are changes of lists that the outputs own.** In a graph that edits have led to,
the edges are those of the lists, and each accepted edit of edges changes the lists in one way:
connecting empties the list of the output if the policy forbids it several edges, deletes the input
from whichever list holds it, and appends it to the list of the output; breaking the edge of an
input deletes the input; breaking one edge deletes the input from the list of that output; breaking
the edges of an output empties its list; breaking the edges of a node deletes every edge with an end
on the node. Nothing but edges changes, and a break that is repeated does nothing. Removing a node
breaks its edges, and takes away the node with the connectors on it and nothing else. -/
theorem wiring_refines (h : g.Reachable) :
    (g.edges = g.outputs.live.flatMap fun output =>
      ((g.edgeLists output.id).getD []).map (output.id, ·)) ∧
    (∀ o output i fanOut g', g.output? o = some output → g.connect o i fanOut = .ok g' →
      Rewires g g' (((if fanOut output.signal then g.edgeLists else g.edgeLists.clear [o]).detach
        [i]).attach o i)) ∧
    (∀ i g', g.breakInput i = .ok g' →
      Rewires g g' (g.edgeLists.detach [i]) ∧ g'.breakInput i = .ok g') ∧
    (∀ o i g', g.breakEdge o i = .ok g' →
      Rewires g g' (g.edgeLists.cut o i) ∧ g'.breakEdge o i = .ok g') ∧
    (∀ o g', g.breakOutput o = .ok g' →
      Rewires g g' (g.edgeLists.clear [o]) ∧ g'.breakOutput o = .ok g') ∧
    ∀ n node, g.node? n = some node →
      (∀ i input, g.input? i = some input → (i ∈ node.inputs ↔ input.owner = n)) ∧
      (∀ o output, g.output? o = some output → (o ∈ node.outputs ↔ output.owner = n)) ∧
      (∀ g', g.breakNode n = .ok g' →
        Rewires g g' (g.edgeLists.isolate node) ∧ g'.breakNode n = .ok g') ∧
      ∀ removed g', g.removeNode n = .ok (removed, g') → removed = node ∧
        g'.edgeLists = (g.edgeLists.isolate node).without node.outputs ∧
        g'.unwired = g.unwired.discard n node := by
  have consistent := h.consistent
  refine ⟨edges_eq_edgeLists h.housed, fun o output i fanOut g' ho => rewires_connect consistent ho,
    fun i g' hb => ⟨rewires_breakInput consistent hb, breakInput_again hb⟩,
    fun o i g' hb => ⟨rewires_breakEdge consistent hb, breakEdge_again hb⟩,
    fun o g' hb => ⟨rewires_breakOutput hb, breakOutput_again hb⟩, fun n node hn => ?_⟩
  refine ⟨fun i input => h.housed.mem_inputs_iff hn, fun o output => h.housed.mem_outputs_iff hn,
    fun g' hb => ⟨rewires_breakNode consistent hn hb, breakNode_again h.housed hb⟩,
    fun removed g' hr => ?_⟩
  obtain ⟨hn', g₁, hb, rfl⟩ := removeNode_eq_ok.mp hr
  obtain rfl : removed = node := Option.some.inj (hn'.symm.trans hn)
  have broken := rewires_breakNode consistent hn hb
  exact ⟨rfl, by rw [edgeLists_discard, broken.edges], by rw [unwired_discard, broken.rest]⟩

/-- An event whose one execution output goes to two calls. -/
def forking : Graph :=
  let log := { FunctionDecl.callable "Actor" "Log" with params := [.input "Message" .string] }
  (empty "Fork").run [.place (.event (FunctionDecl.callable "Actor" "Tick").asEvent),
    .place (.call log none), .place (.call log none), .connect ⟨0⟩ ⟨0⟩ .any,
    .connect ⟨0⟩ ⟨3⟩ .any]

/-- If the event of `forking` is connected to the first call again, under a policy that allows
execution outputs one edge, then the edge to the second call is gone and the other is there once. -/
theorem wiring_refines_forking :
    forking.Reachable ∧ forking.edgeLists ⟨0⟩ = some [⟨0⟩, ⟨3⟩] ∧
      ∃ g', forking.connect ⟨0⟩ ⟨0⟩ .singleExecution = .ok g' ∧
        g'.edgeLists ⟨0⟩ = some [⟨0⟩] ∧ g'.unwired = forking.unwired := by
  have reachable : forking.Reachable := ⟨_, _, rfl⟩
  obtain ⟨output, ho, hs⟩ : ∃ output, forking.output? ⟨0⟩ = some output ∧
      output.signal = .execution := ⟨_, rfl, rfl⟩
  obtain ⟨g', hc⟩ : ∃ g', forking.connect ⟨0⟩ ⟨0⟩ .singleExecution = .ok g' := ⟨_, rfl⟩
  have rewires := (wiring_refines reachable).2.1 _ _ _ _ _ ho hc
  rw [hs] at rewires
  refine ⟨reachable, rfl, g', hc, ?_, rewires.rest⟩
  rw [rewires.edges]
  rfl

end Graph

end NodeScript
