import NodeScript.Graph.Placement

/-!
# What is found after a change

Each change of a graph, seen through the three look-ups `node?`, `input?` and `output?`. A change
of one connector shows under its own identifier only, a new connector under the next identifier
only, and a removed node takes exactly its own connectors with it. Proofs about graphs use these
equations and never open the slot tables.
-/

namespace NodeScript

@[simp] theorem NodeId.index_inj {m n : NodeId} : m.index = n.index ↔ m = n := by
  cases m; cases n; simp

@[simp] theorem InputId.index_inj {i j : InputId} : i.index = j.index ↔ i = j := by
  cases i; cases j; simp

@[simp] theorem OutputId.index_inj {o p : OutputId} : o.index = p.index ↔ o = p := by
  cases o; cases p; simp

/-- A part that a change keeps is found as before, wherever the change is made. -/
theorem map_ite_map {α β : Type} {p : Prop} [Decidable p] {change : α → α} {part : α → β}
    {x : Option α} (h : ∀ a, part (change a) = part a) :
    (if p then x.map change else x).map part = x.map part := by
  split
  · simp [Function.comp_def, h]
  · rfl

namespace Graph

variable (g : Graph)

/-! ### Changes in place -/

@[simp] theorem node?_modifyInput (i : InputId) (f : Input → Input) :
    (g.modifyInput i f).node? = g.node? := rfl

@[simp] theorem output?_modifyInput (i : InputId) (f : Input → Input) :
    (g.modifyInput i f).output? = g.output? := rfl

theorem input?_modifyInput (i j : InputId) (f : Input → Input) :
    (g.modifyInput i f).input? j = if i = j then (g.input? j).map f else g.input? j := by
  simp [input?, modifyInput, Table.get?_modify]

@[simp] theorem node?_modifyOutput (o : OutputId) (f : Output → Output) :
    (g.modifyOutput o f).node? = g.node? := rfl

@[simp] theorem input?_modifyOutput (o : OutputId) (f : Output → Output) :
    (g.modifyOutput o f).input? = g.input? := rfl

theorem output?_modifyOutput (o p : OutputId) (f : Output → Output) :
    (g.modifyOutput o f).output? p = if o = p then (g.output? p).map f else g.output? p := by
  simp [output?, modifyOutput, Table.get?_modify]

@[simp] theorem input?_modifyNode (n : NodeId) (f : Node → Node) :
    (g.modifyNode n f).input? = g.input? := rfl

@[simp] theorem output?_modifyNode (n : NodeId) (f : Node → Node) :
    (g.modifyNode n f).output? = g.output? := rfl

theorem node?_modifyNode (n m : NodeId) (f : Node → Node) :
    (g.modifyNode n f).node? m = if n = m then (g.node? m).map f else g.node? m := by
  simp [node?, modifyNode, Table.get?_modify]

/-! ### Edges taken away -/

@[simp] theorem node?_foldl_unplug (l : List InputId) : (l.foldl unplug g).node? = g.node? := by
  induction l generalizing g with
  | nil => rfl
  | cons i l ih => simp [ih, unplug]

@[simp] theorem output?_foldl_unplug (l : List InputId) :
    (l.foldl unplug g).output? = g.output? := by
  induction l generalizing g with
  | nil => rfl
  | cons i l ih => simp [ih, unplug]

/-- Unplugging a list of inputs takes away the edges of exactly these. -/
theorem input?_foldl_unplug (l : List InputId) (j : InputId) :
    (l.foldl unplug g).input? j =
      if j ∈ l then (g.input? j).map ({ · with source := none }) else g.input? j := by
  induction l generalizing g with
  | nil => simp
  | cons i l ih =>
    simp only [List.foldl_cons, ih, unplug, input?_modifyInput, List.mem_cons]
    by_cases hij : i = j
    · subst hij
      cases g.input? i <;> simp
    · simp [hij, Ne.symm hij]

/-! ### Additions -/

@[simp] theorem input?_addNode (kind : NodeKind) : (g.addNode kind).2.input? = g.input? := rfl

@[simp] theorem output?_addNode (kind : NodeKind) : (g.addNode kind).2.output? = g.output? := rfl

/-- A node is added under the next identifier. -/
theorem node?_addNode (kind : NodeKind) (n : NodeId) :
    (g.addNode kind).2.node? n =
      if n = (g.addNode kind).1
      then some { id := n, name := (g.names.next kind.label).1, kind } else g.node? n := by
  cases n
  simp only [node?, addNode, Table.get?_push, NodeId.mk.injEq]
  split <;> simp_all

@[simp] theorem output?_addInput (c : Connector) : (g.addInput c).2.output? = g.output? := rfl

/-- An input is added under the next identifier. -/
theorem input?_addInput (c : Connector) (i : InputId) :
    (g.addInput c).2.input? i =
      if i = (g.addInput c).1
      then some { c with id := i, fallback := (Literal.zero? c.signal).getD .execution }
      else g.input? i := by
  cases i
  simp only [input?, addInput, modifyNode, Table.get?_push, InputId.mk.injEq]
  split <;> simp_all

/-- A new input is the last in the list of its node. -/
theorem node?_addInput (c : Connector) (n : NodeId) :
    (g.addInput c).2.node? n =
      if c.owner = n
      then (g.node? n).map fun node => { node with inputs := node.inputs ++ [(g.addInput c).1] }
      else g.node? n :=
  node?_modifyNode { g with inputs := _ } c.owner n _

@[simp] theorem input?_addOutput (c : Connector) : (g.addOutput c).2.input? = g.input? := rfl

/-- An output is added under the next identifier. -/
theorem output?_addOutput (c : Connector) (o : OutputId) :
    (g.addOutput c).2.output? o =
      if o = (g.addOutput c).1
      then some { c with
        id := o
        className := if c.signal = .object then c.className <|> some "Object" else c.className }
      else g.output? o := by
  cases o
  simp only [output?, addOutput, modifyNode, Table.get?_push, OutputId.mk.injEq]
  split <;> simp_all

/-- A new output is the last in the list of its node. -/
theorem node?_addOutput (c : Connector) (n : NodeId) :
    (g.addOutput c).2.node? n =
      if c.owner = n
      then (g.node? n).map fun node => { node with outputs := node.outputs ++ [(g.addOutput c).1] }
      else g.node? n :=
  node?_modifyNode { g with outputs := _ } c.owner n _

/-- Nothing is live under the identifier of the next node. -/
theorem node?_next (kind : NodeKind) : g.node? (g.addNode kind).1 = none := by
  cases h : g.node? (g.addNode kind).1 with
  | none => rfl
  | some node => exact absurd (Table.lt_size_of_get? h) (Nat.lt_irrefl _)

/-- Nothing is live under the identifier of the next input. -/
theorem input?_next (c : Connector) : g.input? (g.addInput c).1 = none := by
  cases h : g.input? (g.addInput c).1 with
  | none => rfl
  | some input => exact absurd (Table.lt_size_of_get? h) (Nat.lt_irrefl _)

/-- Nothing is live under the identifier of the next output. -/
theorem output?_next (c : Connector) : g.output? (g.addOutput c).1 = none := by
  cases h : g.output? (g.addOutput c).1 with
  | none => rfl
  | some output => exact absurd (Table.lt_size_of_get? h) (Nat.lt_irrefl _)

/-! ### Removal -/

/-- The graph without a node and without the connectors that the node lists. -/
def discard (id : NodeId) (node : Node) : Graph :=
  { g with
    nodes := g.nodes.erase id.index
    inputs := node.inputs.foldl (fun t i => t.erase i.index) g.inputs
    outputs := node.outputs.foldl (fun t o => t.erase o.index) g.outputs }

private theorem get?_foldl_erase {α ι : Type} (index : ι → Nat) (l : List ι) (t : Table α)
    (k : Nat) :
    (l.foldl (fun t i => t.erase (index i)) t).get? k =
      if ∃ i ∈ l, index i = k then none else t.get? k := by
  induction l generalizing t with
  | nil => simp
  | cons i l ih =>
    simp only [List.foldl_cons, ih, Table.get?_erase, List.mem_cons, exists_eq_or_imp]
    by_cases hl : ∃ j ∈ l, index j = k
    · simp [hl]
    · simp [hl]

theorem node?_discard (id n : NodeId) (node : Node) :
    (g.discard id node).node? n = if id = n then none else g.node? n := by
  simp [node?, discard, Table.get?_erase]

theorem input?_discard (id : NodeId) (node : Node) (i : InputId) :
    (g.discard id node).input? i = if i ∈ node.inputs then none else g.input? i := by
  simp [input?, discard, get?_foldl_erase InputId.index]

theorem output?_discard (id : NodeId) (node : Node) (o : OutputId) :
    (g.discard id node).output? o = if o ∈ node.outputs then none else g.output? o := by
  simp [output?, discard, get?_foldl_erase OutputId.index]

/-! ### The empty graph -/

@[simp] theorem node?_empty (name : String) (n : NodeId) : (empty name).node? n = none := rfl

@[simp] theorem input?_empty (name : String) (i : InputId) : (empty name).input? i = none := rfl

@[simp] theorem output?_empty (name : String) (o : OutputId) : (empty name).output? o = none := rfl

end Graph

end NodeScript
