import NodeScript.Proofs.Graph.Consistent
import NodeScript.Proofs.Graph.Housed

/-!
# Edits elsewhere in a graph

A set of nodes is enclosed in a graph if no edge leads out of it (`Encloses`); the nodes that chains
of edges join to a node are such a set (`encloses_component`). Two graphs agree on a set of nodes if
they have the same nodes of the set with the same connectors on them (`Agree`). An edit that names
no node of an enclosed set, and no connector of one, leads to a graph that agrees on the set and
encloses it again (`Encloses.apply`), although it may break edges of connectors that it does not
name: these are joined to those that it names.
-/

namespace NodeScript.Graph

open Relation

variable {C : NodeId → Prop} {g g' k : Graph} {n : NodeId} {node : Node} {o : OutputId}
  {i : InputId}

/-! ### Joined nodes -/

/-- An edge goes from one of the nodes to the other. -/
def Joined (g : Graph) (n m : NodeId) : Prop :=
  ∃ o output i input, g.output? o = some output ∧ i ∈ output.targets ∧ g.input? i = some input ∧
    (output.owner = n ∧ input.owner = m ∨ output.owner = m ∧ input.owner = n)

/-- The nodes that a chain of edges, followed in either direction, joins to a node. -/
def Component (g : Graph) (n : NodeId) : NodeId → Prop :=
  ReflTransGen g.Joined n

/-- The nodes are live, and each edge has both ends or none on them. -/
structure Encloses (g : Graph) (C : NodeId → Prop) : Prop where
  housed : g.Housed
  consistent : g.Consistent
  live : ∀ {n}, C n → ∃ node, g.node? n = some node
  closed : ∀ {o output i input}, g.output? o = some output → g.input? i = some input →
    input.source = some o → (C output.owner ↔ C input.owner)

theorem Joined.live (h : g.Housed) {m : NodeId} (hj : g.Joined n m) :
    ∃ node, g.node? m = some node := by
  obtain ⟨o, output, i, input, ho, -, hi, ⟨-, rfl⟩ | ⟨rfl, -⟩⟩ := hj
  · exact h.inputs.owner_live hi
  · exact h.output_owner ho

/-- The component of a live node is enclosed. -/
theorem encloses_component (h : g.Reachable) (live : g.node? n = some node) :
    g.Encloses (g.Component n) where
  housed := h.housed
  consistent := h.consistent
  live hm := by
    cases hm with
    | refl => exact ⟨node, live⟩
    | tail _ hj => exact hj.live h.housed
  closed {o output i input} ho hi hs := by
    obtain ⟨output', ho', hmem⟩ := (h.consistent.feeds_iff o i).mpr ⟨input, hi, hs⟩
    obtain rfl : output = output' := Option.some.inj (ho.symm.trans ho')
    exact ⟨fun hc => hc.tail ⟨o, output, i, input, ho, hmem, hi, .inl ⟨rfl, rfl⟩⟩,
      fun hc => hc.tail ⟨o, output, i, input, ho, hmem, hi, .inr ⟨rfl, rfl⟩⟩⟩

/-! ### Agreement -/

/-- Two graphs have the same nodes of a set, with the same connectors on them. -/
structure Agree (C : NodeId → Prop) (g g' : Graph) : Prop where
  node : ∀ {n}, C n → g'.node? n = g.node? n
  input : ∀ {i input}, C input.owner → (g'.input? i = some input ↔ g.input? i = some input)
  output : ∀ {o output}, C output.owner → (g'.output? o = some output ↔ g.output? o = some output)

theorem Agree.refl (C : NodeId → Prop) (g : Graph) : Agree C g g :=
  ⟨fun _ => rfl, fun _ => .rfl, fun _ => .rfl⟩

theorem Agree.trans (h : Agree C g k) (h' : Agree C k g') : Agree C g g' :=
  ⟨fun hc => (h'.node hc).trans (h.node hc), fun hc => (h'.input hc).trans (h.input hc),
    fun hc => (h'.output hc).trans (h.output hc)⟩

/-- Nothing is live under the identifier, or only an input of another node. -/
def InputOff (g : Graph) (C : NodeId → Prop) (i : InputId) : Prop :=
  ∀ input, g.input? i = some input → ¬ C input.owner

/-- Nothing is live under the identifier, or only an output of another node. -/
def OutputOff (g : Graph) (C : NodeId → Prop) (o : OutputId) : Prop :=
  ∀ output, g.output? o = some output → ¬ C output.owner

/-- Graphs agree if only connectors of other nodes were changed. -/
theorem Agree.of_changes (nodes : ∀ {n}, C n → g'.node? n = g.node? n)
    (inputs : ∀ i, g'.input? i = g.input? i ∨ g.InputOff C i ∧ g'.InputOff C i)
    (outputs : ∀ o, g'.output? o = g.output? o ∨ g.OutputOff C o ∧ g'.OutputOff C o) :
    Agree C g g' where
  node := nodes
  input {i input} hc := by
    rcases inputs i with h | ⟨h, h'⟩
    · rw [h]
    · exact ⟨fun hi => absurd hc (h' input hi), fun hi => absurd hc (h input hi)⟩
  output {o output} hc := by
    rcases outputs o with h | ⟨h, h'⟩
    · rw [h]
    · exact ⟨fun ho => absurd hc (h' output ho), fun ho => absurd hc (h output ho)⟩

/-- The set is still enclosed after steps that change nothing of it. -/
theorem Encloses.of_agree (h : g.Encloses C) (hs : Steps g g') (ha : Agree C g g') :
    g'.Encloses C where
  housed := h.housed.steps hs
  consistent := h.consistent.steps hs
  live hc := by
    rw [ha.node hc]
    exact h.live hc
  closed {o output i input} ho hi hsource := by
    have consistent := h.consistent.steps hs
    constructor
    · intro hc
      have ho₀ := (ha.output hc).mp ho
      obtain ⟨output', ho', hmem⟩ := (consistent.feeds_iff o i).mpr ⟨input, hi, hsource⟩
      obtain rfl : output = output' := Option.some.inj (ho.symm.trans ho')
      obtain ⟨input₀, hi₀, hsource₀⟩ := (h.consistent.feeds_iff o i).mp ⟨output, ho₀, hmem⟩
      have hc₀ := (h.closed ho₀ hi₀ hsource₀).mp hc
      have hi' := (ha.input hc₀).mpr hi₀
      rwa [Option.some.inj (hi.symm.trans hi')]
    · intro hc
      have hi₀ := (ha.input hc).mp hi
      obtain ⟨output₀, ho₀, -⟩ := (h.consistent.feeds_iff o i).mpr ⟨input, hi₀, hsource⟩
      have hc₀ := (h.closed ho₀ hi₀ hsource).mpr hc
      have ho' := (ha.output hc₀).mpr ho₀
      rwa [Option.some.inj (ho.symm.trans ho')]

/-! ### Steps elsewhere -/

/-- Inputs are left alone, or off the set before and after, if only those off the set change. -/
private theorem inputs_of_ite {p : InputId → Prop} [DecidablePred p] {change : Input → Input}
    (hi : ∀ j, g'.input? j = if p j then (g.input? j).map change else g.input? j)
    (keep : ∀ a, (change a).owner = a.owner) (off : ∀ j, p j → g.InputOff C j) (j : InputId) :
    g'.input? j = g.input? j ∨ g.InputOff C j ∧ g'.InputOff C j := by
  by_cases hp : p j
  · refine .inr ⟨off j hp, fun a ha => ?_⟩
    rw [hi, if_pos hp] at ha
    obtain ⟨b, hb, rfl⟩ := Option.map_eq_some_iff.mp ha
    rw [keep]
    exact off j hp b hb
  · exact .inl (by rw [hi, if_neg hp])

/-- Outputs are left alone, or off the set before and after, if only those off the set change. -/
private theorem outputs_of_ite {p : OutputId → Prop} [DecidablePred p] {change : Output → Output}
    (ho : ∀ q, g'.output? q = if p q then (g.output? q).map change else g.output? q)
    (keep : ∀ a, (change a).owner = a.owner) (off : ∀ q, p q → g.OutputOff C q) (q : OutputId) :
    g'.output? q = g.output? q ∨ g.OutputOff C q ∧ g'.OutputOff C q := by
  by_cases hp : p q
  · refine .inr ⟨off q hp, fun a ha => ?_⟩
    rw [ho, if_pos hp] at ha
    obtain ⟨b, hb, rfl⟩ := Option.map_eq_some_iff.mp ha
    rw [keep]
    exact off q hp b hb
  · exact .inl (by rw [ho, if_neg hp])

theorem ne_of_off {m : NodeId} (off : ¬ C n) (hc : C m) : n ≠ m := by
  rintro rfl
  exact off hc

theorem inputOff_of_live {input : Input} (hi : g.input? i = some input) (off : ¬ C input.owner) :
    g.InputOff C i := by
  intro a ha
  rwa [← Option.some.inj (hi.symm.trans ha)]

theorem outputOff_of_live {output : Output} (ho : g.output? o = some output)
    (off : ¬ C output.owner) : g.OutputOff C o := by
  intro a ha
  rwa [← Option.some.inj (ho.symm.trans ha)]

namespace Encloses

/-- The other end of an edge is off the set as well. -/
theorem outputOff_of_source (h : g.Encloses C) {input : Input} (hi : g.input? i = some input)
    (off : ¬ C input.owner) (hs : input.source = some o) : g.OutputOff C o :=
  fun _ ho hc => off ((h.closed ho hi hs).mp hc)

theorem inputOff_of_target (h : g.Encloses C) {output : Output} (ho : g.output? o = some output)
    (off : ¬ C output.owner) (hi : i ∈ output.targets) : g.InputOff C i := by
  intro input hlive hc
  obtain ⟨input', hlive', hs⟩ := (h.consistent.feeds_iff o i).mp ⟨output, ho, hi⟩
  obtain rfl : input = input' := Option.some.inj (hlive.symm.trans hlive')
  exact off ((h.closed ho hlive hs).mpr hc)

/-- A node of the set is not the next one to be added. -/
theorem ne_next (h : g.Encloses C) (hc : C n) (kind : NodeKind) : n ≠ (g.addNode kind).1 := by
  rintro rfl
  obtain ⟨node, hn⟩ := h.live hc
  rw [node?_next] at hn
  cases hn

theorem agree_severed (h : g.Encloses C) {input : Input} (hi : g.input? i = some input)
    (off : ¬ C input.owner) : Agree C g (g.severed input.source i) := by
  refine .of_changes (fun _ => by rw [node?_severed])
    (inputs_of_ite (g.input?_severed _ i) (fun _ => rfl) fun j hj => ?_)
    (outputs_of_ite (g.output?_severed _ i) (fun _ => rfl) fun p hs => ?_)
  · exact hj ▸ inputOff_of_live hi off
  · exact h.outputOff_of_source hi off hs

theorem agree_cleared (h : g.Encloses C) {output : Output} (ho : g.output? o = some output)
    (off : ¬ C output.owner) : Agree C g (g.cleared o output.targets) := by
  refine .of_changes (fun _ => by rw [node?_cleared])
    (inputs_of_ite (g.input?_cleared o _) (fun _ => rfl) fun j hj => ?_)
    (outputs_of_ite (g.output?_cleared o _) (fun _ => rfl) fun p hp => ?_)
  · exact h.inputOff_of_target ho off hj
  · exact hp ▸ outputOff_of_live ho off

theorem agree_addNode (h : g.Encloses C) (kind : NodeKind) : Agree C g (g.addNode kind).2 :=
  .of_changes (fun hc => by rw [node?_addNode, if_neg (h.ne_next hc kind)]) (fun _ => .inl rfl)
    fun _ => .inl rfl

theorem agree_discard (h : g.Encloses C) (hn : g.node? n = some node) (off : ¬ C n) :
    Agree C g (g.discard n node) := by
  refine .of_changes (fun hc => by rw [node?_discard, if_neg (ne_of_off off hc)]) (fun j => ?_)
    fun p => ?_
  · by_cases hj : j ∈ node.inputs
    · obtain ⟨input, hlive, rfl⟩ := (h.housed.inputs.mem_listed hn).mp hj
      refine .inr ⟨inputOff_of_live hlive off, fun a ha => ?_⟩
      rw [input?_discard, if_pos hj] at ha
      cases ha
    · exact .inl (by rw [input?_discard, if_neg hj])
  · by_cases hp : p ∈ node.outputs
    · obtain ⟨output, hlive, rfl⟩ := (h.housed.mem_outputs hn).mp hp
      refine .inr ⟨outputOff_of_live hlive off, fun a ha => ?_⟩
      rw [output?_discard, if_pos hp] at ha
      cases ha
    · exact .inl (by rw [output?_discard, if_neg hp])

end Encloses

theorem agree_link (hi : g.InputOff C i) (ho : g.OutputOff C o) : Agree C g (g.link o i) :=
  .of_changes (fun _ => rfl)
    (inputs_of_ite (g.input?_link o i) (fun _ => rfl) fun _ hj => hj ▸ hi)
    (outputs_of_ite (g.output?_link o i) (fun _ => rfl) fun _ hp => hp ▸ ho)

theorem agree_addInput {c : Connector} (off : ¬ C c.owner) : Agree C g (g.addInput c).2 := by
  refine .of_changes (fun hc => by rw [node?_addInput, if_neg (ne_of_off off hc)]) (fun j => ?_)
    fun _ => .inl rfl
  by_cases hj : j = (g.addInput c).1
  · refine .inr ⟨fun a ha => ?_, fun a ha => ?_⟩
    · rw [hj, input?_next] at ha
      cases ha
    · rw [input?_addInput, if_pos hj] at ha
      exact Option.some.inj ha ▸ off
  · exact .inl (by rw [input?_addInput, if_neg hj])

theorem agree_addOutput {c : Connector} (off : ¬ C c.owner) : Agree C g (g.addOutput c).2 := by
  refine .of_changes (fun hc => by rw [node?_addOutput, if_neg (ne_of_off off hc)])
    (fun _ => .inl rfl) fun p => ?_
  by_cases hp : p = (g.addOutput c).1
  · refine .inr ⟨fun a ha => ?_, fun a ha => ?_⟩
    · rw [hp, output?_next] at ha
      cases ha
    · rw [output?_addOutput, if_pos hp] at ha
      exact Option.some.inj ha ▸ off
  · exact .inl (by rw [output?_addOutput, if_neg hp])

theorem agree_setFallback (off : g.InputOff C i) (value : Literal) :
    Agree C g (g.modifyInput i ({ · with fallback := value })) :=
  .of_changes (fun _ => rfl)
    (inputs_of_ite (fun j => g.input?_modifyInput i j _) (fun _ => rfl) fun _ hj => hj ▸ off)
    fun _ => .inl rfl

theorem agree_modifyNode (off : ¬ C n) (change : Node → Node) :
    Agree C g (g.modifyNode n change) :=
  .of_changes (fun hc => by rw [node?_modifyNode, if_neg (ne_of_off off hc)])
    (fun _ => .inl rfl) fun _ => .inl rfl

/-! ### Edits elsewhere -/

/-- An edit names no node of the set, and no connector of one. -/
def Avoids (g : Graph) (C : NodeId → Prop) : Edit → Prop
  | .add _ | .place _ => True
  | .connect o i _ | .breakEdge o i => g.OutputOff C o ∧ g.InputOff C i
  | .breakInput i | .setFallback i _ => g.InputOff C i
  | .breakOutput o => g.OutputOff C o
  | .breakNode n | .removeNode n | .addConnector n _ | .rename n _ | .setCallee n _ => ¬ C n

/-- The set is enclosed in the second graph, and the two agree on it. -/
structure Spares (C : NodeId → Prop) (g g' : Graph) : Prop where
  encloses : g'.Encloses C
  agree : Agree C g g'

namespace Spares

theorem trans (h : Spares C g k) (h' : Spares C k g') : Spares C g g' :=
  ⟨h'.encloses, h.agree.trans h'.agree⟩

theorem inputOff (h : Spares C g g') (off : g.InputOff C i) : g'.InputOff C i :=
  fun input hi hc => off input ((h.agree.input hc).mp hi) hc

theorem outputOff (h : Spares C g g') (off : g.OutputOff C o) : g'.OutputOff C o :=
  fun output ho hc => off output ((h.agree.output hc).mp ho) hc

end Spares

namespace Encloses

theorem spares_refl (h : g.Encloses C) : Spares C g g :=
  ⟨h, .refl C g⟩

theorem spares (h : g.Encloses C) (hs : Steps g g') (ha : Agree C g g') : Spares C g g' :=
  ⟨h.of_agree hs ha, ha⟩

theorem breakInput (h : g.Encloses C) (off : g.InputOff C i) (hb : g.breakInput i = .ok g') :
    Spares C g g' := by
  refine h.spares (breakInput_steps hb) ?_
  obtain ⟨input, hi, rfl⟩ := breakInput_eq_ok.mp hb
  exact h.agree_severed hi (off input hi)

theorem breakOutput (h : g.Encloses C) (off : g.OutputOff C o) (hb : g.breakOutput o = .ok g') :
    Spares C g g' := by
  refine h.spares (breakOutput_steps hb) ?_
  obtain ⟨output, ho, rfl⟩ := breakOutput_eq_ok.mp hb
  exact h.agree_cleared ho (off output ho)

theorem breakEdge (h : g.Encloses C) (off : g.InputOff C i) (hb : g.breakEdge o i = .ok g') :
    Spares C g g' := by
  obtain ⟨-, input, -, hb⟩ := breakEdge_eq_ok.mp hb
  split at hb
  · exact h.breakInput off hb
  · exact hb ▸ h.spares_refl

/-- Breaking all edges of a node breaks only edges of its own connectors. -/
theorem breakNode (h : g.Encloses C) (off : ¬ C n) (hb : g.breakNode n = .ok g') :
    Spares C g g' := by
  obtain ⟨node, hn, g₁, h₁, h₂⟩ := breakNode_eq_ok.mp hb
  let inv : Graph → Prop := fun k => Spares C g k ∧ k.node? n = some node
  have inputs : inv g₁ := by
    refine Except.foldlM_induction (motive := inv) h₁ ⟨h.spares_refl, hn⟩ ?_
    rintro i hi k k' ⟨spared, hk⟩ hbreak
    obtain ⟨input, hlive, rfl⟩ := (spared.encloses.housed.inputs.mem_listed hk).mp hi
    refine ⟨spared.trans (spared.encloses.breakInput (inputOff_of_live hlive off) hbreak), ?_⟩
    obtain ⟨-, -, rfl⟩ := breakInput_eq_ok.mp hbreak
    rwa [node?_severed]
  refine (Except.foldlM_induction (motive := inv) h₂ inputs ?_).1
  rintro o ho k k' ⟨spared, hk⟩ hbreak
  obtain ⟨output, hlive, rfl⟩ := (spared.encloses.housed.mem_outputs hk).mp ho
  refine ⟨spared.trans (spared.encloses.breakOutput (outputOff_of_live hlive off) hbreak), ?_⟩
  obtain ⟨-, -, rfl⟩ := breakOutput_eq_ok.mp hbreak
  rwa [node?_cleared]

theorem connect (h : g.Encloses C) (offOut : g.OutputOff C o) (offIn : g.InputOff C i)
    {fanOut : FanOut} (hc : g.connect o i fanOut = .ok g') : Spares C g g' := by
  refine h.spares (connect_steps hc) ?_
  obtain ⟨output, -, input, -, -, g₁, h₁, g₂, h₂, rfl⟩ := connect_eq_ok.mp hc
  have first : Spares C g g₁ := by
    split at h₁
    · exact h₁ ▸ h.spares_refl
    · exact h.breakOutput offOut h₁
  have second := first.trans (first.encloses.breakInput (first.inputOff offIn) h₂)
  exact second.agree.trans (agree_link (second.inputOff offIn) (second.outputOff offOut))

theorem removeNode (h : g.Encloses C) (off : ¬ C n) (hr : g.removeNode n = .ok (node, g')) :
    Spares C g g' := by
  refine h.spares (removeNode_steps hr) ?_
  obtain ⟨hn, g₁, h₁, rfl⟩ := removeNode_eq_ok.mp hr
  have broken := h.breakNode off h₁
  refine broken.agree.trans (broken.encloses.agree_discard ?_ off)
  rw [node?_breakNode h₁, hn]

theorem addConnector (h : g.Encloses C) (off : ¬ C n) {spec : ConnectorSpec}
    {r : ConnectorId × Graph} (ha : g.addConnector n spec = .ok r) : Spares C g r.2 := by
  refine h.spares (addConnector_steps ha) ?_
  obtain ⟨-, -, -, rfl⟩ := addConnector_eq_ok.mp ha
  obtain ⟨direction, signal, name, className⟩ := spec
  cases direction with
  | input => exact agree_addInput off
  | output => exact agree_addOutput off

theorem addConnectors (h : g.Encloses C) (off : ¬ C n) (specs : List ConnectorSpec) :
    Spares C g (g.addConnectors n specs).2 := by
  induction specs generalizing g with
  | nil => exact h.spares_refl
  | cons spec specs ih =>
    cases hr : g.addConnector n spec with
    | error e => simpa [Graph.addConnectors, hr] using h.spares_refl
    | ok r =>
      have first := h.addConnector off hr
      simpa [Graph.addConnectors, hr] using first.trans (ih first.encloses)

/-- A placement adds a node that is not of the set. -/
theorem place (h : g.Encloses C) (p : Placement) : Spares C g (g.place p).2 := by
  have off : ¬ C (g.addNode p.kind).1 := fun hc => h.ne_next hc p.kind rfl
  have begun := h.spares (.single (.addNode p.kind)) (h.agree_addNode p.kind)
  have added := begun.trans (begun.encloses.addConnectors off p.connectors)
  rcases g.place_cases p with ⟨-, h₁⟩ | ⟨-, ⟨-, h₁⟩ | ⟨node, h₁⟩ | ⟨-, h₁⟩⟩
  · exact h₁.symm ▸ h.spares_refl
  · exact h₁.symm ▸ added
  · exact added.trans (added.encloses.removeNode off h₁)
  · exact h₁.symm ▸ added

theorem setFallback (h : g.Encloses C) (off : g.InputOff C i) {text : String}
    (hs : g.setFallback i text = .ok g') : Spares C g g' := by
  refine h.spares (setFallback_steps hs) ?_
  obtain ⟨input, value, -, -, rfl⟩ := setFallback_eq_ok.mp hs
  exact agree_setFallback off value

/-- A refused edit changes nothing. -/
private theorem settle_map (h : g.Encloses C) {α : Type} {r : Except EditError α}
    {f : α → Outcome × Graph} (ok : ∀ a, r = .ok a → Spares C g (f a).2) :
    Spares C g (g.settle (r.map f)).2 :=
  settle_induction (motive := Spares C g) h.spares_refl ok

/-- **An edit that names nothing of an enclosed set changes nothing of it.** -/
theorem apply (h : g.Encloses C) {e : Edit} (avoids : g.Avoids C e) : Spares C g (g.apply e).2 := by
  cases e with
  | add kind => exact h.spares (.single (.addNode kind)) (h.agree_addNode kind)
  | place p => exact h.place p
  | connect o i fanOut => exact h.settle_map fun _ ok => h.connect avoids.1 avoids.2 ok
  | breakInput i => exact h.settle_map fun _ ok => h.breakInput avoids ok
  | breakOutput o => exact h.settle_map fun _ ok => h.breakOutput avoids ok
  | breakEdge o i => exact h.settle_map fun _ ok => h.breakEdge avoids.2 ok
  | breakNode n => exact h.settle_map fun _ ok => h.breakNode avoids ok
  | removeNode n => exact h.settle_map fun _ ok => h.removeNode avoids ok
  | addConnector n spec => exact h.settle_map fun _ ok => h.addConnector avoids ok
  | setFallback i text => exact h.settle_map fun _ ok => h.setFallback avoids ok
  | rename n name => exact h.spares (.single (.rename n name)) (agree_modifyNode avoids _)
  | setCallee n callee =>
    exact h.spares (.single (.setCallee n callee)) (agree_modifyNode avoids _)

end Encloses

/-- Each of the edits, made one after the other, names nothing of the set. -/
def AvoidsAll (g : Graph) (C : NodeId → Prop) : List Edit → Prop
  | [] => True
  | e :: es => g.Avoids C e ∧ (g.apply e).2.AvoidsAll C es

/-- Edits that name nothing of an enclosed set change nothing of it. -/
theorem Encloses.run (h : g.Encloses C) {es : List Edit} (avoids : g.AvoidsAll C es) :
    Spares C g (g.run es) := by
  induction es generalizing g with
  | nil => exact h.spares_refl
  | cons e es ih =>
    have first := h.apply avoids.1
    exact first.trans (ih first.encloses avoids.2)

end NodeScript.Graph
