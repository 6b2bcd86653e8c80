import Mathlib.Data.List.Forall2
import NodeScript.Proofs.Graph.EdgeLists
import NodeScript.Proofs.Lowering.Connectors

/-!
# Graphs that differ in their numbering

Two graphs are twins if they are made of nodes of the same names, shapes and values, with edges
between the same connectors (`Twins`). A connector is known by its name and that of its node
(`Terminal`), so twins may number their nodes and connectors differently, and list the edges of an
output in different orders.

What lowering looks up in one of two twins has its counterpart in the other: the connectors of a
node in their order, a connector by its name, where a value comes from. The one thing that depends
on the order of edges is the node that an output leads to; it has its counterpart if the outputs
that lowering follows have one edge at most (`Narrow`).
-/

namespace NodeScript

/-! ### Related lists and options -/

section Related

open List (Forall₂)

variable {α β γ : Type} {R : α → β → Prop}

/-- Members of two lists that have the same part at the same places. -/
theorem forall₂_of_map_eq {f : α → γ} {f' : β → γ} {l : List α} {l' : List β}
    (h : l'.map f' = l.map f) : Forall₂ (fun a b => a ∈ l ∧ b ∈ l' ∧ f' b = f a) l l' := by
  induction l generalizing l' with
  | nil =>
    obtain rfl : l' = [] := by simpa using h
    exact .nil
  | cons a l ih =>
    obtain ⟨b, rest, rfl, hb, hrest⟩ := List.map_eq_cons_iff.mp h
    exact .cons ⟨.head _, .head _, hb⟩
      ((ih hrest).imp fun _ _ ⟨ha, hb, hab⟩ => ⟨.tail _ ha, .tail _ hb, hab⟩)

/-- The first members with a property are related, if related members agree on the property. -/
theorem rel_find? {p : α → Bool} {p' : β → Bool} {l : List α} {l' : List β}
    (h : Forall₂ R l l') (hp : ∀ a b, R a b → p a = p' b) :
    Option.Rel R (l.find? p) (l'.find? p') := by
  induction h with
  | nil => exact .none
  | @cons a b l l' hab _ ih =>
    have hsame := hp a b hab
    cases hb : p' b with
    | true => simpa [hsame, hb] using Option.Rel.some hab
    | false => simpa [hsame, hb] using ih

/-- Options are related if a value of either has its counterpart in the other. -/
theorem optionRel_of_forall {x : Option α} {y : Option β}
    (left : ∀ a, x = some a → ∃ b, y = some b ∧ R a b)
    (right : ∀ b, y = some b → ∃ a, x = some a) : Option.Rel R x y := by
  cases x with
  | some a =>
    obtain ⟨b, rfl, hab⟩ := left a rfl
    exact .some hab
  | none =>
    cases y with
    | none => exact .none
    | some b =>
      obtain ⟨a, ha⟩ := right b rfl
      cases ha

end Related

/-! ### Connectors by their names -/

/-- A connector by its name and the name of its node. -/
structure Terminal where
  node : String
  pin : String
  deriving DecidableEq, Repr

namespace Graph

open List (Forall₂)

variable {g g' : Graph} {n n' m m' : NodeId} {t u v : Terminal}

/-- The name of a live node. -/
def nodeName? (g : Graph) (n : NodeId) : Option String :=
  (g.node? n).map (·.name)

/-- The connector has the names of the terminal. -/
def At (g : Graph) (c : Connector) (t : Terminal) : Prop :=
  g.nodeName? c.owner = some t.node ∧ c.name = t.pin

/-- An edge goes from the one terminal to the other. -/
def Wired (g : Graph) (t u : Terminal) : Prop :=
  ∃ output input, g.output? output.id = some output ∧ g.input? input.id = some input ∧
    input.source = some output.id ∧ g.At output.toConnector t ∧ g.At input.toConnector u

/-- The graph is assembled, and no two live nodes have one name. -/
structure Named (g : Graph) : Prop where
  assembled : g.Assembled
  injective : ∀ {n m name}, g.nodeName? n = some name → g.nodeName? m = some name → n = m

theorem nodeName?_eq_some {name : String} :
    g.nodeName? n = some name ↔ ∃ node, g.node? n = some node ∧ node.name = name :=
  Option.map_eq_some_iff

theorem Housed.exists_at_output (h : g.Housed) {output : Output}
    (ho : g.output? output.id = some output) : ∃ t, g.At output.toConnector t := by
  obtain ⟨node, hn⟩ := h.output_owner ho
  exact ⟨⟨node.name, output.name⟩, nodeName?_eq_some.mpr ⟨node, hn, rfl⟩, rfl⟩

theorem Housed.exists_at_input (h : g.Housed) {input : Input}
    (hi : g.input? input.id = some input) : ∃ t, g.At input.toConnector t := by
  obtain ⟨node, hn⟩ := h.inputs.owner_live hi
  exact ⟨⟨node.name, input.name⟩, nodeName?_eq_some.mpr ⟨node, hn, rfl⟩, rfl⟩

/-- The edge of a live input comes from a live output. -/
theorem Reachable.isSome_sourceOf (h : g.Reachable) {i : Input} (hi : g.input? i.id = some i) :
    (g.sourceOf i).isSome = i.source.isSome := by
  cases hs : i.source with
  | none => simp [sourceOf, hs]
  | some o =>
    obtain ⟨output, ho, -⟩ := (h.consistent.feeds_iff o i.id).mpr ⟨i, hi, hs⟩
    simp [sourceOf, hs, ho]

namespace Named

/-- No two live outputs are at one terminal. -/
theorem output_unique (h : g.Named) {o p : Output} (ho : g.output? o.id = some o)
    (hp : g.output? p.id = some p) (hot : g.At o.toConnector t) (hpt : g.At p.toConnector t) :
    o = p := by
  have howner : o.owner = p.owner := h.injective hot.1 hpt.1
  have hfound := h.assembled.reachable.outputNamed?_name ho
  rw [howner, hot.2, ← hpt.2, h.assembled.reachable.outputNamed?_name hp] at hfound
  exact (Option.some.inj hfound).symm

/-- No two live inputs are at one terminal. -/
theorem input_unique (h : g.Named) {i j : Input} (hi : g.input? i.id = some i)
    (hj : g.input? j.id = some j) (hit : g.At i.toConnector t) (hjt : g.At j.toConnector t) :
    i = j := by
  have howner : i.owner = j.owner := h.injective hit.1 hjt.1
  have hfound := h.assembled.reachable.inputNamed?_name hi
  rw [howner, hit.2, ← hjt.2, h.assembled.reachable.inputNamed?_name hj] at hfound
  exact (Option.some.inj hfound).symm

end Named

/-! ### Twins -/

/-- Two live nodes have one name. -/
def TwinNodes (g g' : Graph) (n n' : NodeId) : Prop :=
  ∃ name, g.nodeName? n = some name ∧ g'.nodeName? n' = some name

/-- Two live nodes are of one name and kind. -/
structure TwinRows (g g' : Graph) (node node' : Node) : Prop where
  live : g.node? node.id = some node
  live' : g'.node? node'.id = some node'
  name : node'.name = node.name
  kind : node'.kind = node.kind

/-- Two live outputs have one specification, on nodes of one name. -/
structure TwinOutputs (g g' : Graph) (o o' : Output) : Prop where
  live : g.output? o.id = some o
  live' : g'.output? o'.id = some o'
  owners : TwinNodes g g' o.owner o'.owner
  spec : o'.spec .output = o.spec .output

/-- Two live inputs have one specification, on nodes of one name. -/
structure TwinInputs (g g' : Graph) (i i' : Input) : Prop where
  live : g.input? i.id = some i
  live' : g'.input? i'.id = some i'
  owners : TwinNodes g g' i.owner i'.owner
  spec : i'.spec .input = i.spec .input

theorem TwinNodes.symm (h : TwinNodes g g' n n') : TwinNodes g' g n' n := by
  obtain ⟨name, hn, hn'⟩ := h
  exact ⟨name, hn', hn⟩

theorem TwinRows.nodes {node node' : Node} (h : TwinRows g g' node node') :
    TwinNodes g g' node.id node'.id :=
  ⟨node.name, nodeName?_eq_some.mpr ⟨node, h.live, rfl⟩,
    nodeName?_eq_some.mpr ⟨node', h.live', h.name⟩⟩

namespace TwinOutputs

variable {o o' : Output}

theorem symm (h : TwinOutputs g g' o o') : TwinOutputs g' g o' o :=
  ⟨h.live', h.live, h.owners.symm, h.spec.symm⟩

theorem name (h : TwinOutputs g g' o o') : o'.name = o.name :=
  congrArg ConnectorSpec.name h.spec

theorem signal (h : TwinOutputs g g' o o') : o'.signal = o.signal :=
  congrArg ConnectorSpec.signal h.spec

theorem className (h : TwinOutputs g g' o o') : o'.className = o.className :=
  congrArg ConnectorSpec.className h.spec

theorem at' (h : TwinOutputs g g' o o') (ho : g.At o.toConnector t) : g'.At o'.toConnector t := by
  obtain ⟨name, hn, hn'⟩ := h.owners
  obtain rfl : name = t.node := Option.some.inj (hn.symm.trans ho.1)
  exact ⟨hn', h.name.trans ho.2⟩

end TwinOutputs

namespace TwinInputs

variable {i i' : Input}

theorem symm (h : TwinInputs g g' i i') : TwinInputs g' g i' i :=
  ⟨h.live', h.live, h.owners.symm, h.spec.symm⟩

theorem name (h : TwinInputs g g' i i') : i'.name = i.name :=
  congrArg ConnectorSpec.name h.spec

theorem signal (h : TwinInputs g g' i i') : i'.signal = i.signal :=
  congrArg ConnectorSpec.signal h.spec

theorem at' (h : TwinInputs g g' i i') (hi : g.At i.toConnector t) : g'.At i'.toConnector t := by
  obtain ⟨name, hn, hn'⟩ := h.owners
  obtain rfl : name = t.node := Option.some.inj (hn.symm.trans hi.1)
  exact ⟨hn', h.name.trans hi.2⟩

end TwinInputs

/-- The graphs are made of nodes of the same names, shapes and values, with edges between the same
terminals. -/
structure Twins (g g' : Graph) : Prop where
  left : g.Named
  right : g'.Named
  shape : ∀ {n n' name}, g.nodeName? n = some name → g'.nodeName? n' = some name →
    g'.shape? n' = g.shape? n
  fallback : ∀ {i i'}, TwinInputs g g' i i' → i'.fallback = i.fallback
  wired : ∀ {t u}, g.Wired t u ↔ g'.Wired t u

namespace Twins

theorem symm (h : Twins g g') : Twins g' g where
  left := h.right
  right := h.left
  shape hn hn' := (h.shape hn' hn).symm
  fallback hi := (h.fallback hi.symm).symm
  wired := h.wired.symm

/-! ### Nodes -/

/-- A node has one counterpart at most. -/
theorem biUnique_nodes (h : Twins g g') : Relator.BiUnique (TwinNodes g g') := by
  refine ⟨fun n m n' ⟨name, hn, hn'⟩ ⟨other, hm, hm'⟩ => ?_,
    fun n n' m' ⟨name, hn, hn'⟩ ⟨other, hm, hm'⟩ => ?_⟩
  · obtain rfl : name = other := Option.some.inj (hn'.symm.trans hm')
    exact h.left.injective hn hm
  · obtain rfl : name = other := Option.some.inj (hn.symm.trans hm)
    exact h.right.injective hn' hm'

/-- What is found under the identifiers of two nodes of one name. -/
theorem exists_rows (h : Twins g g') (hn : TwinNodes g g' n n') :
    ∃ node node', g.node? n = some node ∧ g'.node? n' = some node' ∧ node.id = n ∧
      node'.id = n' ∧ TwinRows g g' node node' := by
  obtain ⟨name, hname, hname'⟩ := hn
  obtain ⟨node, hnode, rfl⟩ := nodeName?_eq_some.mp hname
  obtain ⟨node', hnode', hsame⟩ := nodeName?_eq_some.mp hname'
  obtain rfl := h.left.assembled.reachable.housed.node_id hnode
  obtain rfl := h.right.assembled.reachable.housed.node_id hnode'
  have hshape := h.shape hname hname'
  rw [shape?, shape?, hnode, hnode'] at hshape
  have hkind := congrArg Shape.kind (Option.some.inj hshape)
  exact ⟨node, node', hnode, hnode', rfl, rfl, hnode, hnode', hsame, hkind⟩

variable {node node' : Node}

/-! ### Connectors -/

theorem inputsOf (h : Twins g g') (hr : TwinRows g g' node node') :
    Forall₂ (TwinInputs g g') (g.inputsOf node) (g'.inputsOf node') := by
  obtain ⟨name, hname, hname'⟩ := hr.nodes
  have hshape := h.shape hname hname'
  rw [shape?, shape?, hr.live, hr.live'] at hshape
  have hinputs := congrArg Shape.inputs (Option.some.inj hshape)
  refine (forall₂_of_map_eq hinputs).imp fun i i' same => ?_
  obtain ⟨hi, hi', hspec⟩ := same
  obtain ⟨live, howner⟩ := (h.left.assembled.reachable.housed.mem_inputsOf hr.live).mp hi
  obtain ⟨live', howner'⟩ := (h.right.assembled.reachable.housed.mem_inputsOf hr.live').mp hi'
  exact ⟨live, live', howner ▸ howner' ▸ hr.nodes, hspec⟩

theorem outputsOf (h : Twins g g') (hr : TwinRows g g' node node') :
    Forall₂ (TwinOutputs g g') (g.outputsOf node) (g'.outputsOf node') := by
  obtain ⟨name, hname, hname'⟩ := hr.nodes
  have hshape := h.shape hname hname'
  rw [shape?, shape?, hr.live, hr.live'] at hshape
  have houtputs := congrArg Shape.outputs (Option.some.inj hshape)
  refine (forall₂_of_map_eq houtputs).imp fun o o' same => ?_
  obtain ⟨ho, ho', hspec⟩ := same
  obtain ⟨live, howner⟩ := (h.left.assembled.reachable.housed.mem_outputsOf hr.live).mp ho
  obtain ⟨live', howner'⟩ := (h.right.assembled.reachable.housed.mem_outputsOf hr.live').mp ho'
  exact ⟨live, live', howner ▸ howner' ▸ hr.nodes, hspec⟩

theorem inputNamed? (h : Twins g g') (hn : TwinNodes g g' n n') (name : String) :
    Option.Rel (TwinInputs g g') (g.inputNamed? n name) (g'.inputNamed? n' name) := by
  obtain ⟨node, node', hnode, hnode', -, -, hr⟩ := h.exists_rows hn
  rw [Graph.inputNamed?, Graph.inputNamed?, hnode, hnode']
  exact rel_find? (h.inputsOf hr) fun i i' hi => by rw [hi.name]

theorem outputNamed? (h : Twins g g') (hn : TwinNodes g g' n n') (name : String) :
    Option.Rel (TwinOutputs g g') (g.outputNamed? n name) (g'.outputNamed? n' name) := by
  obtain ⟨node, node', hnode, hnode', -, -, hr⟩ := h.exists_rows hn
  rw [Graph.outputNamed?, Graph.outputNamed?, hnode, hnode']
  exact rel_find? (h.outputsOf hr) fun o o' ho => by rw [ho.name]

/-- Live outputs at one terminal are twins. -/
theorem outputs_of_at (h : Twins g g') {o o' : Output} (ho : g.output? o.id = some o)
    (ho' : g'.output? o'.id = some o') (hot : g.At o.toConnector t)
    (hot' : g'.At o'.toConnector t) : TwinOutputs g g' o o' := by
  have found := h.outputNamed? ⟨t.node, hot.1, hot'.1⟩ o.name
  rw [h.left.assembled.reachable.outputNamed?_name ho, hot.2, ← hot'.2,
    h.right.assembled.reachable.outputNamed?_name ho'] at found
  cases found
  assumption

/-- Live inputs at one terminal are twins. -/
theorem inputs_of_at (h : Twins g g') {i i' : Input} (hi : g.input? i.id = some i)
    (hi' : g'.input? i'.id = some i') (hit : g.At i.toConnector t) (hit' : g'.At i'.toConnector t) :
    TwinInputs g g' i i' := by
  have found := h.inputNamed? ⟨t.node, hit.1, hit'.1⟩ i.name
  rw [h.left.assembled.reachable.inputNamed?_name hi, hit.2, ← hit'.2,
    h.right.assembled.reachable.inputNamed?_name hi'] at found
  cases found
  assumption

/-! ### Edges -/

/-- The edge of an input has its counterpart. -/
theorem exists_sourceOf (h : Twins g g') {i i' : Input} {o : Output} (hi : TwinInputs g g' i i')
    (hs : g.sourceOf i = some o) : ∃ o', g'.sourceOf i' = some o' ∧ TwinOutputs g g' o o' := by
  have housed := h.left.assembled.reachable.housed
  obtain ⟨_, hsource, ho⟩ := Option.bind_eq_some_iff.mp hs
  obtain rfl := housed.output_id ho
  obtain ⟨t, ht⟩ := housed.exists_at_output ho
  obtain ⟨u, hu⟩ := housed.exists_at_input hi.live
  obtain ⟨o', j', ho', hj', hsource', ht', hu'⟩ :=
    h.wired.mp ⟨o, i, ho, hi.live, hsource, ht, hu⟩
  -- the edge that the other graph has between the terminals is that of the twin
  obtain rfl : i' = j' := h.right.input_unique hi.live' hj' (hi.at' hu) hu'
  exact ⟨o', by simp [sourceOf, hsource', ho'], h.outputs_of_at ho ho' ht ht'⟩

theorem sourceOf (h : Twins g g') {i i' : Input} (hi : TwinInputs g g' i i') :
    Option.Rel (TwinOutputs g g') (g.sourceOf i) (g'.sourceOf i') := by
  refine optionRel_of_forall (fun o ho => h.exists_sourceOf hi ho) fun o' ho' => ?_
  obtain ⟨o, ho, -⟩ := h.symm.exists_sourceOf hi.symm ho'
  exact ⟨o, ho⟩

/-- Twin inputs both have an edge, or neither has. -/
theorem isSome_source (h : Twins g g') {i i' : Input} (hi : TwinInputs g g' i i') :
    i'.source.isSome = i.source.isSome := by
  rw [← h.left.assembled.reachable.isSome_sourceOf hi.live,
    ← h.right.assembled.reachable.isSome_sourceOf hi.live']
  have sources := h.sourceOf hi
  revert sources
  generalize g.sourceOf i = x, g'.sourceOf i' = y
  rintro (_ | -) <;> rfl

/-- The nodes that the values of two nodes of one name come from, in the order of their inputs. -/
theorem dataSources (h : Twins g g') (hr : TwinRows g g' node node') :
    Forall₂ (TwinNodes g g') (g.dataSources node) (g'.dataSources node') := by
  refine List.rel_filterMap (fun i i' hi => ?_)
    (List.rel_filter (fun i i' hi => ?_) (h.inputsOf hr))
  · have sources := h.sourceOf hi
    revert sources
    generalize g.sourceOf i = x, g'.sourceOf i' = y
    rintro (ho | -)
    exacts [.some ho.owners, .none]
  · simp [hi.signal]

end Twins

/-! ### Following outputs -/

/-- No output that lowering follows has two edges, and no output has two edges to inputs that set a
member variable. -/
structure Narrow (g : Graph) : Prop where
  control : ∀ {m pin name u v}, g.Exit (m, pin) → g.nodeName? m = some name →
    g.Wired ⟨name, pin⟩ u → g.Wired ⟨name, pin⟩ v → u = v
  setting : ∀ {t n m node other}, g.node? n = some node → g.node? m = some other →
    node.kind.member?.isSome → other.kind.member?.isSome →
    g.Wired t ⟨node.name, Pin.set⟩ → g.Wired t ⟨other.name, Pin.set⟩ → node.name = other.name

/-- What an output lists is an edge of its terminal. -/
theorem Reachable.wired_of_mem (h : g.Reachable) {o : Output} {i : InputId}
    (ho : g.output? o.id = some o) (hi : i ∈ o.targets) :
    ∃ input, g.input? i = some input ∧ input.id = i ∧ ∀ {t u}, g.At o.toConnector t →
      g.At input.toConnector u → g.Wired t u := by
  obtain ⟨input, hlive, hs⟩ := (h.consistent.feeds_iff o.id i).mp ⟨o, ho, hi⟩
  obtain rfl : input.id = i := h.housed.inputs.ident_eq hlive
  exact ⟨input, hlive, rfl, fun ht hu => ⟨o, input, ho, hlive, hs, ht, hu⟩⟩

/-- An output that lowering follows lists one input at most. -/
theorem Narrow.head?_targets (h : g.Narrow) (named : g.Named) {pin : String}
    (exit : g.Exit (n, pin)) {o : Output} (ho : g.outputNamed? n pin = some o) {i : InputId}
    (hi : i ∈ o.targets) : o.targets.head? = some i := by
  have reach := named.assembled.reachable
  obtain ⟨live, rfl, rfl⟩ := reach.housed.of_outputNamed? ho
  obtain ⟨t, ht⟩ := reach.housed.exists_at_output live
  have edge : ∀ {j}, j ∈ o.targets → ∃ input u, g.input? input.id = some input ∧ input.id = j ∧
      g.At input.toConnector u ∧ g.Wired t u := by
    intro j hj
    obtain ⟨input, hlive, rfl, wired⟩ := reach.wired_of_mem live hj
    obtain ⟨u, hu⟩ := reach.housed.exists_at_input hlive
    exact ⟨input, u, hlive, rfl, hu, wired ht hu⟩
  obtain ⟨first, rest, htargets⟩ := List.exists_cons_of_ne_nil (List.ne_nil_of_mem hi)
  obtain ⟨other, v, hother, rfl, hv, wired'⟩ := edge (htargets ▸ List.mem_cons_self)
  obtain ⟨input, u, hlive, rfl, hu, wired⟩ := edge hi
  obtain ⟨name, pin⟩ := t
  obtain ⟨hname, rfl⟩ := ht
  obtain rfl : u = v := h.control exit hname wired wired'
  rw [named.input_unique hlive hother hu hv, htargets, List.head?_cons]

namespace Twins

/-- The counterpart of an output has an edge between the same terminals. -/
theorem exists_target (h : Twins g g') {o o' : Output} {i : InputId} (ho : TwinOutputs g g' o o')
    (hi : i ∈ o.targets) : ∃ input input', g.input? i = some input ∧ input.id = i ∧
      input'.id ∈ o'.targets ∧ TwinInputs g g' input input' := by
  have reach := h.left.assembled.reachable
  have reach' := h.right.assembled.reachable
  obtain ⟨input, hinput, rfl, wired⟩ := reach.wired_of_mem ho.live hi
  obtain ⟨t, ht⟩ := reach.housed.exists_at_output ho.live
  obtain ⟨u, hu⟩ := reach.housed.exists_at_input hinput
  obtain ⟨p', input', hp', hinput', hsource', ht', hu'⟩ := h.wired.mp (wired ht hu)
  obtain rfl : o' = p' := h.right.output_unique ho.live' hp' (ho.at' ht) ht'
  exact ⟨input, input', hinput, rfl,
    (reach'.consistent.mem_iff_source ho.live' hinput').mpr hsource',
    h.inputs_of_at hinput hinput' hu hu'⟩

/-- An output without edges has a counterpart without edges. -/
theorem targets_eq_nil_iff (h : Twins g g') {o o' : Output} (ho : TwinOutputs g g' o o') :
    o'.targets = [] ↔ o.targets = [] := by
  simp only [List.eq_nil_iff_forall_not_mem]
  refine ⟨fun hnone i hi => ?_, fun hnone i hi => ?_⟩
  · obtain ⟨-, input', -, -, hi', -⟩ := h.exists_target ho hi
    exact hnone input'.id hi'
  · obtain ⟨-, input', -, -, hi', -⟩ := h.symm.exists_target ho.symm hi
    exact hnone input'.id hi'

/-- The counterpart of a graph without forks is one. -/
theorem narrow (h : Twins g g') (narrow : g.Narrow) : g'.Narrow where
  control {m' pin name u v} exit hname hu hv := by
    have hu₀ := h.wired.mpr hu
    obtain ⟨output, -, -, -, -, hat, -⟩ := id hu₀
    obtain ⟨node, node', hnode, hnode', -, -, hr⟩ := h.exists_rows ⟨name, hat.1, hname⟩
    obtain ⟨found, hfound, hpin⟩ := exit
    obtain rfl : node' = found := Option.some.inj (hnode'.symm.trans hfound)
    exact narrow.control ⟨node, hnode, hr.kind ▸ hpin⟩ hat.1 hu₀ (h.wired.mpr hv)
  setting {t n' m' node' other'} hn' hm' hkind' hkind'' hu hv := by
    have member : ∀ {n' node'}, g'.node? n' = some node' → node'.kind.member?.isSome →
        g.Wired t ⟨node'.name, Pin.set⟩ → ∃ n node, g.node? n = some node ∧
          node.kind.member?.isSome ∧ node.name = node'.name := by
      intro n' node' hn' hkind' wired
      obtain ⟨-, input, -, -, -, -, hat⟩ := wired
      obtain ⟨node, found, hnode, hfound, -, -, hr⟩ :=
        h.exists_rows ⟨node'.name, hat.1, nodeName?_eq_some.mpr ⟨node', hn', rfl⟩⟩
      obtain rfl : found = node' := Option.some.inj (hfound.symm.trans hn')
      exact ⟨_, node, hnode, hr.kind ▸ hkind', hr.name.symm⟩
    obtain ⟨n, node, hn, hkind, hname⟩ := member hn' hkind' (h.wired.mpr hu)
    obtain ⟨m, other, hm, hother, hname'⟩ := member hm' hkind'' (h.wired.mpr hv)
    rw [← hname] at hu
    rw [← hname'] at hv
    rw [← hname, ← hname']
    exact narrow.setting hn hm hkind hother (h.wired.mpr hu) (h.wired.mpr hv)

/-- The node that a followed output leads to has its counterpart. -/
theorem exists_successor? (h : Twins g g') (narrow' : g'.Narrow) (hn : TwinNodes g g' n n')
    {pin : String} (exit' : g'.Exit (n', pin)) (hm : g.successor? n pin = some m) :
    ∃ m', g'.successor? n' pin = some m' ∧ TwinNodes g g' m m' := by
  obtain ⟨o, ho, hm⟩ := Option.bind_eq_some_iff.mp hm
  obtain ⟨i, hi, hm⟩ := Option.bind_eq_some_iff.mp hm
  obtain ⟨input, hinput, rfl⟩ := Option.map_eq_some_iff.mp hm
  have found := h.outputNamed? hn pin
  rw [ho] at found
  generalize hfound : g'.outputNamed? n' pin = x at found
  obtain @⟨_, o', ho'⟩ := found
  obtain ⟨_, input', hsame, -, listed, twins⟩ := h.exists_target ho' (List.mem_of_mem_head? hi)
  obtain rfl := Option.some.inj (hinput.symm.trans hsame)
  have first := narrow'.head?_targets h.right exit' hfound listed
  exact ⟨input'.owner, by simp [Graph.successor?, hfound, first, twins.live'], twins.owners⟩

/-- Following an output leads to nodes of one name. -/
theorem successor? (h : Twins g g') (narrow : g.Narrow) (hn : TwinNodes g g' n n') {pin : String}
    (exit : g.Exit (n, pin)) :
    Option.Rel (TwinNodes g g') (g.successor? n pin) (g'.successor? n' pin) := by
  have exit' : g'.Exit (n', pin) := by
    obtain ⟨found, hfound, hpin⟩ := exit
    obtain ⟨node, node', hnode, hnode', -, -, hr⟩ := h.exists_rows hn
    obtain rfl : node = found := Option.some.inj (hnode.symm.trans hfound)
    exact ⟨node', hnode', hr.kind ▸ hpin⟩
  refine optionRel_of_forall (fun m hm => ?_) fun m' hm' => ?_
  · exact h.exists_successor? (h.narrow narrow) hn exit' hm
  · obtain ⟨m, hm, -⟩ := h.symm.exists_successor? narrow hn.symm exit hm'
    exact ⟨m, hm⟩

end Twins

end Graph

end NodeScript
