import Mathlib.Logic.Relation
import NodeScript.Graph.Edit
import NodeScript.Proofs.Except
import NodeScript.Proofs.Graph.Views

/-!
# Edits as elementary steps

Every edit, whether it is accepted or refused on the way, is a sequence of a few elementary steps:
an edge of an input is severed, the edges of an output are cleared, an edge is linked between two
free ends of one signal, a node or connector is added, an unconnected node is discarded, or a field
that no edge depends on is changed. `Step` says what each of them needs and does, and
`steps_apply` that no edit does anything else. An invariant of graphs is then proved once per
step, and holds of every reachable graph by `Reachable.induction`.
-/

namespace NodeScript.Graph

open Relation
open NodeScript.Except (bind_eq_ok)

/-! ### The graphs after the elementary changes of edges -/

/-- The graph without the edge of an input, which comes from `source`. -/
def severed (g : Graph) (source : Option OutputId) (i : InputId) : Graph :=
  match source with
  | some o =>
    (g.unplug i).modifyOutput o fun out => { out with targets := out.targets.filter (· ≠ i) }
  | none => g.unplug i

/-- The graph without the edges of an output, which go to `targets`. -/
def cleared (g : Graph) (o : OutputId) (targets : List InputId) : Graph :=
  targets.foldl unplug (g.modifyOutput o ({ · with targets := [] }))

/-- The graph with an edge more. -/
def link (g : Graph) (o : OutputId) (i : InputId) : Graph :=
  (g.modifyOutput o fun out => { out with targets := out.targets ++ [i] }).modifyInput i
    ({ · with source := some o })

section Views

variable (g : Graph)

@[simp] theorem node?_severed (source : Option OutputId) (i : InputId) :
    (g.severed source i).node? = g.node? := by
  cases source <;> rfl

theorem input?_severed (source : Option OutputId) (i j : InputId) :
    (g.severed source i).input? j =
      if i = j then (g.input? j).map ({ · with source := none }) else g.input? j := by
  cases source <;> exact input?_modifyInput g i j _

theorem output?_severed (source : Option OutputId) (i : InputId) (p : OutputId) :
    (g.severed source i).output? p =
      if source = some p
      then (g.output? p).map fun out => { out with targets := out.targets.filter (· ≠ i) }
      else g.output? p := by
  cases source with
  | none => rfl
  | some o => simp [severed, output?_modifyOutput, unplug]

@[simp] theorem node?_cleared (o : OutputId) (l : List InputId) :
    (g.cleared o l).node? = g.node? := by
  simp [cleared]

theorem input?_cleared (o : OutputId) (l : List InputId) (j : InputId) :
    (g.cleared o l).input? j =
      if j ∈ l then (g.input? j).map ({ · with source := none }) else g.input? j := by
  simp [cleared, input?_foldl_unplug]

theorem output?_cleared (o : OutputId) (l : List InputId) (p : OutputId) :
    (g.cleared o l).output? p =
      if o = p then (g.output? p).map ({ · with targets := [] }) else g.output? p := by
  simp [cleared, output?_modifyOutput]

@[simp] theorem node?_link (o : OutputId) (i : InputId) : (g.link o i).node? = g.node? := rfl

theorem input?_link (o : OutputId) (i j : InputId) :
    (g.link o i).input? j =
      if i = j then (g.input? j).map ({ · with source := some o }) else g.input? j :=
  input?_modifyInput _ i j _

theorem output?_link (o : OutputId) (i : InputId) (p : OutputId) :
    (g.link o i).output? p =
      if o = p then (g.output? p).map fun out => { out with targets := out.targets ++ [i] }
      else g.output? p :=
  output?_modifyOutput g o p _

end Views

/-! ### What the edits of edges do when they are accepted -/

variable {g g' : Graph}

@[simp] theorem requireNode_eq_ok {n : NodeId} {node : Node} :
    g.requireNode n = .ok node ↔ g.node? n = some node := by
  cases h : g.node? n <;> simp [requireNode, h]

@[simp] theorem requireInput_eq_ok {i : InputId} {input : Input} :
    g.requireInput i = .ok input ↔ g.input? i = some input := by
  cases h : g.input? i <;> simp [requireInput, h]

@[simp] theorem requireOutput_eq_ok {o : OutputId} {output : Output} :
    g.requireOutput o = .ok output ↔ g.output? o = some output := by
  cases h : g.output? o <;> simp [requireOutput, h]

theorem breakInput_eq_ok {i : InputId} :
    g.breakInput i = .ok g' ↔ ∃ input, g.input? i = some input ∧ g' = g.severed input.source i := by
  simp only [breakInput, bind_eq_ok, requireInput_eq_ok]
  refine exists_congr fun input => and_congr_right fun _ => ?_
  cases input.source <;> simp [severed, pure, Except.pure, eq_comm]

theorem breakOutput_eq_ok {o : OutputId} :
    g.breakOutput o = .ok g' ↔
      ∃ output, g.output? o = some output ∧ g' = g.cleared o output.targets := by
  simp only [breakOutput, bind_eq_ok, requireOutput_eq_ok]
  refine exists_congr fun output => and_congr_right fun _ => ?_
  simp [cleared, pure, Except.pure, eq_comm]

theorem breakEdge_eq_ok {o : OutputId} {i : InputId} :
    g.breakEdge o i = .ok g' ↔
      (∃ output, g.output? o = some output) ∧ ∃ input, g.input? i = some input ∧
        if input.source = some o then g.breakInput i = .ok g' else g' = g := by
  simp only [breakEdge, bind_eq_ok, requireOutput_eq_ok, requireInput_eq_ok, exists_and_right]
  refine and_congr_right fun _ => exists_congr fun input => and_congr_right fun _ => ?_
  split <;> simp [pure, Except.pure, eq_comm]

theorem breakNode_eq_ok {n : NodeId} :
    g.breakNode n = .ok g' ↔ ∃ node, g.node? n = some node ∧ ∃ g₁,
      node.inputs.foldlM breakInput g = .ok g₁ ∧ node.outputs.foldlM breakOutput g₁ = .ok g' := by
  simp only [breakNode, bind_eq_ok, requireNode_eq_ok]

/-- An accepted connection clears the output if the policy wants it, frees the input, and links. -/
theorem connect_eq_ok {o : OutputId} {i : InputId} {fanOut : FanOut} :
    g.connect o i fanOut = .ok g' ↔
      ∃ output, g.output? o = some output ∧ ∃ input, g.input? i = some input ∧
        output.signal = input.signal ∧
        ∃ g₁, (if fanOut output.signal then g₁ = g else g.breakOutput o = .ok g₁) ∧
          ∃ g₂, g₁.breakInput i = .ok g₂ ∧ g' = g₂.link o i := by
  simp only [connect, bind_eq_ok, requireOutput_eq_ok, requireInput_eq_ok]
  refine exists_congr fun output => and_congr_right fun _ =>
    exists_congr fun input => and_congr_right fun _ => ?_
  by_cases hs : output.signal = input.signal
  · cases fanOut output.signal <;> simp [hs, bind_eq_ok, link, eq_comm (a := g')]
  · simp [hs]

theorem removeNode_eq_ok {n : NodeId} {node : Node} :
    g.removeNode n = .ok (node, g') ↔
      g.node? n = some node ∧ ∃ g₁, g.breakNode n = .ok g₁ ∧ g' = g₁.discard n node := by
  simp only [removeNode, bind_eq_ok, requireNode_eq_ok]
  constructor
  · rintro ⟨node', hn, g₁, hb, h⟩
    obtain ⟨rfl, rfl⟩ : node' = node ∧ _ = g' := by simpa using h
    exact ⟨hn, g₁, hb, rfl⟩
  · rintro ⟨hn, g₁, hb, rfl⟩
    exact ⟨node, hn, g₁, hb, rfl⟩

/-! ### Unconnected connectors -/

/-- The input has no edge. -/
def Unfed (g : Graph) (i : InputId) : Prop :=
  ∀ input, g.input? i = some input → input.source = none

/-- The output has no edge. -/
def Unread (g : Graph) (o : OutputId) : Prop :=
  ∀ output, g.output? o = some output → output.targets = []

theorem unfed_severed (source : Option OutputId) (i : InputId) : (g.severed source i).Unfed i := by
  intro input hi
  rw [input?_severed, if_pos rfl] at hi
  obtain ⟨before, -, rfl⟩ := Option.map_eq_some_iff.mp hi
  rfl

theorem Unfed.severed {j : InputId} (h : g.Unfed j) (source : Option OutputId) (i : InputId) :
    (g.severed source i).Unfed j := by
  intro input hj
  rw [input?_severed] at hj
  split at hj
  · obtain ⟨before, -, rfl⟩ := Option.map_eq_some_iff.mp hj
    rfl
  · exact h input hj

theorem Unfed.cleared {j : InputId} (h : g.Unfed j) (o : OutputId) (l : List InputId) :
    (g.cleared o l).Unfed j := by
  intro input hj
  rw [input?_cleared] at hj
  split at hj
  · obtain ⟨before, -, rfl⟩ := Option.map_eq_some_iff.mp hj
    rfl
  · exact h input hj

theorem unread_cleared (o : OutputId) (l : List InputId) : (g.cleared o l).Unread o := by
  intro output ho
  rw [output?_cleared, if_pos rfl] at ho
  obtain ⟨before, -, rfl⟩ := Option.map_eq_some_iff.mp ho
  rfl

theorem Unread.cleared {p : OutputId} (h : g.Unread p) (o : OutputId) (l : List InputId) :
    (g.cleared o l).Unread p := by
  intro output hp
  rw [output?_cleared] at hp
  split at hp
  · obtain ⟨before, -, rfl⟩ := Option.map_eq_some_iff.mp hp
    rfl
  · exact h output hp

theorem breakInputs_unfed {l : List InputId} (h : l.foldlM breakInput g = .ok g') :
    ∀ i ∈ l, g'.Unfed i := by
  refine Except.foldlM_establishes (P := fun i g => g.Unfed i) h (fun i b c hc => ?_)
    fun j i b c hb hc => ?_
  · obtain ⟨input, -, rfl⟩ := breakInput_eq_ok.mp hc
    exact unfed_severed _ _
  · obtain ⟨input, -, rfl⟩ := breakInput_eq_ok.mp hc
    exact hb.severed _ _

theorem breakOutputs_unread {l : List OutputId} (h : l.foldlM breakOutput g = .ok g') :
    ∀ o ∈ l, g'.Unread o := by
  refine Except.foldlM_establishes (P := fun o g => g.Unread o) h (fun o b c hc => ?_)
    fun p o b c hb hc => ?_
  · obtain ⟨output, -, rfl⟩ := breakOutput_eq_ok.mp hc
    exact unread_cleared _ _
  · obtain ⟨output, -, rfl⟩ := breakOutput_eq_ok.mp hc
    exact hb.cleared _ _

/-- After the edges of a node are broken, none of its connectors has an edge. -/
theorem breakNode_unconnected {n : NodeId} {node : Node} (h : g.breakNode n = .ok g')
    (hn : g.node? n = some node) :
    (∀ i ∈ node.inputs, g'.Unfed i) ∧ ∀ o ∈ node.outputs, g'.Unread o := by
  obtain ⟨node', hn', g₁, h₁, h₂⟩ := breakNode_eq_ok.mp h
  obtain rfl : node = node' := Option.some.inj (hn.symm.trans hn')
  refine ⟨fun i hi => ?_, breakOutputs_unread h₂⟩
  refine Except.foldlM_induction (motive := fun g => g.Unfed i) h₂ (breakInputs_unfed h₁ i hi)
    fun o _ b c hb hc => ?_
  obtain ⟨output, -, rfl⟩ := breakOutput_eq_ok.mp hc
  exact hb.cleared _ _

/-! ### Elementary steps -/

/-- The elementary changes of a graph, with what each of them needs. -/
inductive Step (g : Graph) : Graph → Prop
  | sever {i : InputId} {input : Input} (hi : g.input? i = some input) :
    Step g (g.severed input.source i)
  | clear {o : OutputId} {output : Output} (ho : g.output? o = some output) :
    Step g (g.cleared o output.targets)
  | link {o : OutputId} {output : Output} {i : InputId} {input : Input}
    (ho : g.output? o = some output) (hi : g.input? i = some input)
    (signal : output.signal = input.signal) (unfed : input.source = none) :
    Step g (g.link o i)
  | addNode (kind : NodeKind) : Step g (g.addNode kind).2
  | addInput {c : Connector} {node : Node} (live : g.node? c.owner = some node)
    (supported : c.signal.isSupported) (untaken : g.inputNamed? c.owner c.name = none) :
    Step g (g.addInput c).2
  | addOutput {c : Connector} {node : Node} (live : g.node? c.owner = some node)
    (supported : c.signal.isSupported) (untaken : g.outputNamed? c.owner c.name = none) :
    Step g (g.addOutput c).2
  | discard {n : NodeId} {node : Node} (live : g.node? n = some node)
    (unfed : ∀ i ∈ node.inputs, g.Unfed i) (unread : ∀ o ∈ node.outputs, g.Unread o) :
    Step g (g.discard n node)
  | setFallback {i : InputId} {input : Input} {text : String} {value : Literal}
    (hi : g.input? i = some input) (parsed : Literal.ofText input.signal text = .ok value) :
    Step g (g.modifyInput i ({ · with fallback := value }))
  | rename (n : NodeId) (name : String) : Step g (g.rename n name)
  | setCallee (n : NodeId) (callee : Callee) : Step g (g.setCallee n callee)

/-- Any number of elementary steps. -/
abbrev Steps : Graph → Graph → Prop :=
  ReflTransGen Step

theorem breakInput_steps {i : InputId} (h : g.breakInput i = .ok g') : Steps g g' := by
  obtain ⟨input, hi, rfl⟩ := breakInput_eq_ok.mp h
  exact .single (.sever hi)

theorem breakOutput_steps {o : OutputId} (h : g.breakOutput o = .ok g') : Steps g g' := by
  obtain ⟨output, ho, rfl⟩ := breakOutput_eq_ok.mp h
  exact .single (.clear ho)

theorem breakEdge_steps {o : OutputId} {i : InputId} (h : g.breakEdge o i = .ok g') :
    Steps g g' := by
  obtain ⟨-, input, -, h⟩ := breakEdge_eq_ok.mp h
  split at h
  · exact breakInput_steps h
  · exact h ▸ .refl

theorem breakNode_steps {n : NodeId} (h : g.breakNode n = .ok g') : Steps g g' := by
  obtain ⟨node, -, g₁, h₁, h₂⟩ := breakNode_eq_ok.mp h
  have hi : Steps g g₁ :=
    Except.foldlM_induction h₁ .refl fun i _ b c hb hc => hb.trans (breakInput_steps hc)
  exact Except.foldlM_induction h₂ hi fun o _ b c hb hc => hb.trans (breakOutput_steps hc)

@[simp] theorem node?_breakNode {n : NodeId} (h : g.breakNode n = .ok g') :
    g'.node? = g.node? := by
  obtain ⟨node, -, g₁, h₁, h₂⟩ := breakNode_eq_ok.mp h
  have hi : g₁.node? = g.node? := by
    refine Except.foldlM_induction (motive := fun k => k.node? = g.node?) h₁ rfl
      fun i _ b c hb hc => ?_
    obtain ⟨input, -, rfl⟩ := breakInput_eq_ok.mp hc
    simpa using hb
  refine Except.foldlM_induction (motive := fun k => k.node? = g.node?) h₂ hi
    fun o _ b c hb hc => ?_
  obtain ⟨output, -, rfl⟩ := breakOutput_eq_ok.mp hc
  simpa using hb

/-- Clearing an output leaves an input live, with its signal. -/
theorem exists_input?_cleared {i : InputId} {input : Input} (hi : g.input? i = some input)
    (o : OutputId) (l : List InputId) :
    ∃ input', (g.cleared o l).input? i = some input' ∧ input'.signal = input.signal := by
  rw [input?_cleared, hi]
  split <;> simp

theorem connect_steps {o : OutputId} {i : InputId} {fanOut : FanOut}
    (h : g.connect o i fanOut = .ok g') : Steps g g' := by
  obtain ⟨output, ho, input, hi, hs, g₁, h₁, g₂, h₂, rfl⟩ := connect_eq_ok.mp h
  have hg₁ : Steps g g₁ ∧
      (∃ output', g₁.output? o = some output' ∧ output'.signal = output.signal) ∧
      ∃ input', g₁.input? i = some input' ∧ input'.signal = input.signal := by
    split at h₁
    · subst h₁
      exact ⟨.refl, ⟨output, ho, rfl⟩, input, hi, rfl⟩
    · obtain ⟨output', ho', rfl⟩ := breakOutput_eq_ok.mp h₁
      refine ⟨.single (.clear ho'), ?_, exists_input?_cleared hi ..⟩
      simp [output?_cleared, ho]
  obtain ⟨hsteps, ⟨output₁, ho₁, hso⟩, input₁, hi₁, hsi⟩ := hg₁
  obtain ⟨input₂, hi₂, rfl⟩ := breakInput_eq_ok.mp h₂
  obtain rfl : input₁ = input₂ := Option.some.inj (hi₁.symm.trans hi₂)
  have hi₃ : (g₁.severed input₁.source i).input? i = some { input₁ with source := none } := by
    simp [input?_severed, hi₁]
  obtain ⟨output₃, ho₃, hso₃⟩ : ∃ output₃, (g₁.severed input₁.source i).output? o = some output₃ ∧
      output₃.signal = output₁.signal := by
    rw [output?_severed, ho₁]
    split <;> simp
  refine (hsteps.tail (.sever hi₁)).tail (.link ho₃ hi₃ ?_ rfl)
  calc output₃.signal = output.signal := hso₃.trans hso
    _ = input.signal := hs
    _ = input₁.signal := hsi.symm

theorem removeNode_steps {n : NodeId} {node : Node} (h : g.removeNode n = .ok (node, g')) :
    Steps g g' := by
  obtain ⟨hn, g₁, h₁, rfl⟩ := removeNode_eq_ok.mp h
  obtain ⟨unfed, unread⟩ := breakNode_unconnected h₁ hn
  have hn₁ : g₁.node? n = some node := by rw [node?_breakNode h₁, hn]
  exact (breakNode_steps h₁).tail (.discard hn₁ unfed unread)

/-- The identifier of a connector added to a node, and the graph with it. -/
def withConnector (g : Graph) (n : NodeId) (spec : ConnectorSpec) : ConnectorId × Graph :=
  let connector : Connector := ⟨n, spec.name, spec.signal, spec.className⟩
  match spec.direction with
  | .input => (.input (g.addInput connector).1, (g.addInput connector).2)
  | .output => (.output (g.addOutput connector).1, (g.addOutput connector).2)

theorem addConnector_eq_ok {n : NodeId} {spec : ConnectorSpec} {r : ConnectorId × Graph} :
    g.addConnector n spec = .ok r ↔
      (∃ node, g.node? n = some node) ∧ spec.signal.isSupported ∧
        g.isTaken n spec.direction spec.name = false ∧ r = g.withConnector n spec := by
  simp only [addConnector, bind_eq_ok, requireNode_eq_ok]
  rw [← exists_and_right]
  refine exists_congr fun node => and_congr_right fun _ => ?_
  by_cases hs : spec.signal.isSupported
  · by_cases ht : g.isTaken n spec.direction spec.name
    · simp [hs, ht]
    · cases hd : spec.direction <;> rw [hd] at ht <;> simp [hs, ht, hd, withConnector, eq_comm]
  · simp [hs]

theorem addConnector_steps {n : NodeId} {spec : ConnectorSpec} {r : ConnectorId × Graph}
    (h : g.addConnector n spec = .ok r) : Steps g r.2 := by
  obtain ⟨⟨node, hn⟩, supported, untaken, rfl⟩ := addConnector_eq_ok.mp h
  cases hd : spec.direction with
  | input =>
    have free : g.inputNamed? n spec.name = none := by simpa [isTaken, hd] using untaken
    simpa [withConnector, hd] using ReflTransGen.single (Step.addInput hn supported free)
  | output =>
    have free : g.outputNamed? n spec.name = none := by simpa [isTaken, hd] using untaken
    simpa [withConnector, hd] using ReflTransGen.single (Step.addOutput hn supported free)

theorem addConnectors_steps (g : Graph) (n : NodeId) (specs : List ConnectorSpec) :
    Steps g (g.addConnectors n specs).2 := by
  induction specs generalizing g with
  | nil => exact .refl
  | cons spec specs ih =>
    simp only [addConnectors]
    cases h : g.addConnector n spec with
    | ok r => exact (addConnector_steps h).trans (ih r.2)
    | error e => exact .refl

theorem setFallback_eq_ok {i : InputId} {text : String} :
    g.setFallback i text = .ok g' ↔
      ∃ input value, g.input? i = some input ∧ Literal.ofText input.signal text = .ok value ∧
        g' = g.modifyInput i ({ · with fallback := value }) := by
  simp only [setFallback, bind_eq_ok, requireInput_eq_ok]
  refine exists_congr fun input => ?_
  cases Literal.ofText input.signal text <;> simp [eq_comm (a := g')]

theorem setFallback_steps {i : InputId} {text : String} (h : g.setFallback i text = .ok g') :
    Steps g g' := by
  obtain ⟨input, value, hi, hv, rfl⟩ := setFallback_eq_ok.mp h
  exact .single (.setFallback hi hv)

/-- A placement does not begin, or it adds a node with its connectors; if one of these is refused, it
removes the node again. -/
theorem place_cases (g : Graph) (p : Placement) :
    (∃ e, p.check = .error e) ∧ (g.place p).2 = g ∨ p.check = .ok () ∧
      let n := (g.addNode p.kind).1
      let added := (g.addNode p.kind).2.addConnectors n p.connectors
      (added.1 = .ok () ∧ (g.place p).2 = added.2) ∨
        (∃ node, added.2.removeNode n = .ok (node, (g.place p).2)) ∨
        (∃ e, added.2.removeNode n = .error e) ∧ (g.place p).2 = added.2 := by
  unfold place
  cases p.check with
  | error e => exact .inl ⟨⟨e, rfl⟩, rfl⟩
  | ok _ =>
    refine .inr ⟨rfl, ?_⟩
    dsimp only
    generalize (g.addNode p.kind).2.addConnectors (g.addNode p.kind).1 p.connectors = added
    obtain ⟨r, g₁⟩ := added
    cases r with
    | ok _ => exact .inl ⟨rfl, rfl⟩
    | error e =>
      dsimp only
      cases g₁.removeNode (g.addNode p.kind).1 with
      | ok removed => exact .inr (.inl ⟨removed.1, rfl⟩)
      | error e' => exact .inr (.inr ⟨⟨e', rfl⟩, rfl⟩)

theorem place_steps (g : Graph) (p : Placement) : Steps g (g.place p).2 := by
  have added : Steps g ((g.addNode p.kind).2.addConnectors (g.addNode p.kind).1 p.connectors).2 :=
    .head (.addNode p.kind) (addConnectors_steps ..)
  rcases g.place_cases p with ⟨-, h⟩ | ⟨-, ⟨-, h⟩ | ⟨node, h⟩ | ⟨-, h⟩⟩
  · rw [h]
  · rwa [h]
  · exact added.trans (removeNode_steps h)
  · rwa [h]

/-- An edit leads to where it says, or leaves the graph as it was if it is refused. -/
theorem settle_induction {motive : Graph → Prop} {α : Type} {r : Except EditError α}
    {f : α → Outcome × Graph} (refused : motive g) (accepted : ∀ a, r = .ok a → motive (f a).2) :
    motive (g.settle (r.map f)).2 := by
  cases r with
  | ok a => exact accepted a rfl
  | error e => exact refused

/-- An edit that is refused takes no step. -/
private theorem settle_map_steps {α : Type} {r : Except EditError α} {f : α → Outcome × Graph}
    (h : ∀ a, r = .ok a → Steps g (f a).2) : Steps g (g.settle (r.map f)).2 :=
  settle_induction (motive := Steps g) .refl h

/-- An edit, accepted or refused, is a number of elementary steps. -/
theorem steps_apply (g : Graph) (e : Edit) : Steps g (g.apply e).2 := by
  cases e with
  | add kind => exact .single (.addNode kind)
  | place p => exact place_steps g p
  | connect o i fanOut => exact settle_map_steps fun _ h => connect_steps h
  | breakInput i => exact settle_map_steps fun _ h => breakInput_steps h
  | breakOutput o => exact settle_map_steps fun _ h => breakOutput_steps h
  | breakEdge o i => exact settle_map_steps fun _ h => breakEdge_steps h
  | breakNode n => exact settle_map_steps fun _ h => breakNode_steps h
  | removeNode n => exact settle_map_steps fun _ h => removeNode_steps h
  | addConnector n spec => exact settle_map_steps fun _ h => addConnector_steps h
  | setFallback i text => exact settle_map_steps fun _ h => setFallback_steps h
  | rename n name => exact .single (.rename n name)
  | setCallee n callee => exact .single (.setCallee n callee)

/-- What holds of the empty graphs and is kept by elementary steps holds of every reachable
graph. -/
theorem Reachable.induction {motive : Graph → Prop} (start : ∀ name, motive (empty name))
    (step : ∀ g g', motive g → Step g g' → motive g') (h : g.Reachable) : motive g := by
  obtain ⟨name, edits, rfl⟩ := h
  have keep : ∀ g g', Steps g g' → motive g → motive g' := fun g g' hs hm => by
    induction hs with
    | refl => exact hm
    | tail _ h ih => exact step _ _ ih h
  suffices ∀ g, motive g → motive (g.run edits) from this _ (start name)
  induction edits with
  | nil => exact fun g hm => hm
  | cons e edits ih => exact fun g hm => ih _ (keep _ _ (steps_apply g e) hm)

end NodeScript.Graph
