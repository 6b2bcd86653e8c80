import Mathlib.Data.List.Induction
import NodeScript.Proofs.Graph.Shape

/-!
# Graphs put together from placements

A graph is `Assembled` if edits that only place whole nodes, wire them and remove them have led to
it. Each of its nodes has the shape of a placement (`Assembled.shape`): its connectors are those
that the placement calls for, and nothing was added or exchanged since. A placement that is refused
leaves nothing behind, because the node that it has begun can always be removed again
(`Housed.exists_removeNode`).
-/

namespace NodeScript

/-- Does the edit place whole nodes, wire them or remove them? -/
def Edit.assembles : Edit → Bool
  | add _ | addConnector _ _ | setCallee _ _ => false
  | place _ | connect _ _ _ | breakInput _ | breakOutput _ | breakEdge _ _ | breakNode _
  | removeNode _ | setFallback _ _ | rename _ _ => true

/-- The shape of the node that is placed. -/
def Placement.shape (p : Placement) : Shape where
  kind := p.kind
  inputs := p.connectors.filter (·.direction = .input)
  outputs := (p.connectors.filter (·.direction = .output)).map (·.made)

/-- A fold succeeds if each step does where the earlier ones lead. -/
theorem Except.exists_foldlM_ok {ε α β : Type} {inv : β → Prop} {f : β → α → Except ε β}
    {l : List α} {b : β} (start : inv b)
    (step : ∀ a ∈ l, ∀ b, inv b → ∃ c, f b a = .ok c ∧ inv c) :
    ∃ c, l.foldlM f b = .ok c ∧ inv c := by
  induction l generalizing b with
  | nil => exact ⟨b, rfl, start⟩
  | cons a l ih =>
    obtain ⟨c, hc, hinv⟩ := step a (.head _) b start
    obtain ⟨d, hd, hinv⟩ := ih hinv fun x hx => step x (.tail _ hx)
    refine ⟨d, ?_, hinv⟩
    rw [List.foldlM_cons, hc]
    exact hd

namespace Graph

/-- Edits that place whole nodes, wire them and remove them lead to this graph from an empty one. -/
def Assembled (g : Graph) : Prop :=
  ∃ name edits, (∀ e ∈ edits, Edit.assembles e) ∧ g = (empty name).run edits

variable {g g' : Graph} {n m : NodeId} {node : Node} {sh : Shape}

theorem Assembled.reachable (h : g.Assembled) : g.Reachable := by
  obtain ⟨name, edits, -, rfl⟩ := h
  exact ⟨name, edits, rfl⟩

theorem assembled_empty (name : String) : (empty name).Assembled :=
  ⟨name, [], by simp, rfl⟩

theorem Assembled.apply (h : g.Assembled) {e : Edit} (he : e.assembles) :
    (g.apply e).2.Assembled := by
  obtain ⟨name, edits, assembles, rfl⟩ := h
  refine ⟨name, edits ++ [e], fun d hd => ?_, by rw [run_append]; rfl⟩
  rcases List.mem_append.mp hd with hd | hd
  · exact assembles d hd
  · exact List.mem_singleton.mp hd ▸ he

/-! ### Named connectors -/

/-- An input is found under a name exactly if the shape has one of that name. -/
theorem inputNamed?_eq_none_iff (h : g.shape? n = some sh) {name : String} :
    g.inputNamed? n name = none ↔ name ∉ sh.inputs.map (·.name) := by
  obtain ⟨node, hn, rfl⟩ := shape?_eq_some_iff.mp h
  simp [inputNamed?, hn, Connector.spec]

theorem outputNamed?_eq_none_iff (h : g.shape? n = some sh) {name : String} :
    g.outputNamed? n name = none ↔ name ∉ sh.outputs.map (·.name) := by
  obtain ⟨node, hn, rfl⟩ := shape?_eq_some_iff.mp h
  simp [outputNamed?, hn, Connector.spec]

/-! ### Distinct names -/

/-- The names on one side of a node are distinct in every reachable graph. -/
theorem Reachable.distinct (h : g.Reachable) (hs : g.shape? n = some sh) : sh.Distinct := by
  suffices g.Housed ∧ ∀ n sh, g.shape? n = some sh → sh.Distinct from this.2 n sh hs
  refine h.induction (motive := fun g => g.Housed ∧ ∀ n sh, g.shape? n = some sh → sh.Distinct)
    (fun name => ⟨housed_empty name, fun n sh hs => by simp [shape?] at hs⟩) ?_
  rintro g g' ⟨housed, distinct⟩ hstep
  refine ⟨housed.step hstep, fun n sh hs => ?_⟩
  cases hstep with
  | sever => exact distinct n sh (shape?_severed .. ▸ hs)
  | clear => exact distinct n sh (shape?_cleared .. ▸ hs)
  | link => exact distinct n sh (shape?_link .. ▸ hs)
  | setFallback => exact distinct n sh (shape?_setFallback .. ▸ hs)
  | rename => exact distinct n sh (shape?_rename .. ▸ hs)
  | addNode kind =>
    rw [shape?_addNode] at hs
    split at hs
    · obtain rfl := Option.some.inj hs
      exact ⟨.nil, .nil⟩
    · exact distinct n sh hs
  | @addInput c node live supported untaken =>
    rw [shape?_addInput housed] at hs
    split at hs
    · obtain ⟨old, hold, rfl⟩ := Option.map_eq_some_iff.mp hs
      subst n
      have fresh := (inputNamed?_eq_none_iff hold).mp untaken
      have before := distinct _ old hold
      refine ⟨?_, before.outputs⟩
      simpa [Shape.add, Connector.spec] using List.Nodup.concat fresh before.inputs
    · exact distinct n sh hs
  | @addOutput c node live supported untaken =>
    rw [shape?_addOutput housed] at hs
    split at hs
    · obtain ⟨old, hold, rfl⟩ := Option.map_eq_some_iff.mp hs
      subst n
      have fresh := (outputNamed?_eq_none_iff hold).mp untaken
      have before := distinct _ old hold
      refine ⟨before.inputs, ?_⟩
      simpa [Shape.add, ConnectorSpec.made, Connector.spec] using List.Nodup.concat fresh before.outputs
    · exact distinct n sh hs
  | discard live =>
    rw [shape?_discard housed live] at hs
    split at hs
    · cases hs
    · exact distinct n sh hs
  | setCallee k callee =>
    rw [shape?_setCallee] at hs
    split at hs
    · obtain ⟨old, hold, rfl⟩ := Option.map_eq_some_iff.mp hs
      exact ⟨(distinct n old hold).inputs, (distinct n old hold).outputs⟩
    · exact distinct n sh hs

/-! ### Shapes after an edit -/

theorem shape?_breakInput {i : InputId} (h : g.breakInput i = .ok g') : g'.shape? = g.shape? := by
  obtain ⟨input, -, rfl⟩ := breakInput_eq_ok.mp h
  exact shape?_severed ..

theorem shape?_breakOutput {o : OutputId} (h : g.breakOutput o = .ok g') :
    g'.shape? = g.shape? := by
  obtain ⟨output, -, rfl⟩ := breakOutput_eq_ok.mp h
  exact shape?_cleared ..

theorem shape?_breakEdge {o : OutputId} {i : InputId} (h : g.breakEdge o i = .ok g') :
    g'.shape? = g.shape? := by
  obtain ⟨-, input, -, h⟩ := breakEdge_eq_ok.mp h
  split at h
  · exact shape?_breakInput h
  · rw [h]

theorem shape?_breakNode (h : g.breakNode n = .ok g') : g'.shape? = g.shape? := by
  obtain ⟨node, -, g₁, h₁, h₂⟩ := breakNode_eq_ok.mp h
  have inner : g₁.shape? = g.shape? :=
    Except.foldlM_induction (motive := fun k => k.shape? = g.shape?) h₁ rfl
      fun i _ b c hb hc => (shape?_breakInput hc).trans hb
  exact Except.foldlM_induction (motive := fun k => k.shape? = g.shape?) h₂ inner
    fun o _ b c hb hc => (shape?_breakOutput hc).trans hb

theorem shape?_connect {o : OutputId} {i : InputId} {fanOut : FanOut}
    (h : g.connect o i fanOut = .ok g') : g'.shape? = g.shape? := by
  obtain ⟨output, -, input, -, -, g₁, h₁, g₂, h₂, rfl⟩ := connect_eq_ok.mp h
  have cleared : g₁.shape? = g.shape? := by
    split at h₁
    · rw [h₁]
    · exact shape?_breakOutput h₁
  rw [shape?_link, shape?_breakInput h₂, cleared]

theorem shape?_removeNode (h : g.Housed) (hr : g.removeNode n = .ok (node, g')) (m : NodeId) :
    g'.shape? m = if n = m then none else g.shape? m := by
  obtain ⟨hn, g₁, hb, rfl⟩ := removeNode_eq_ok.mp hr
  have housed : g₁.Housed := h.steps (breakNode_steps hb)
  have live : g₁.node? n = some node := by rw [node?_breakNode hb, hn]
  rw [shape?_discard housed live, shape?_breakNode hb]

/-- A live node can be removed. -/
theorem Housed.exists_removeNode (h : g.Housed) (live : g.node? n = some node) :
    ∃ g', g.removeNode n = .ok (node, g') := by
  let inv : Graph → Prop := fun k => k.Housed ∧ k.node? n = some node
  have inputs : ∃ g₁, node.inputs.foldlM breakInput g = .ok g₁ ∧ inv g₁ := by
    refine Except.exists_foldlM_ok ⟨h, live⟩ fun i hi k ⟨housed, hn⟩ => ?_
    obtain ⟨input, hinput, -⟩ := (housed.inputs.mem_listed hn).mp hi
    have hbreak := breakInput_eq_ok.mpr ⟨input, hinput, rfl⟩
    exact ⟨_, hbreak, housed.steps (breakInput_steps hbreak), by rwa [node?_severed]⟩
  obtain ⟨g₁, h₁, hinv⟩ := inputs
  have outputs : ∃ g₂, node.outputs.foldlM breakOutput g₁ = .ok g₂ ∧ inv g₂ := by
    refine Except.exists_foldlM_ok hinv fun o ho k ⟨housed, hn⟩ => ?_
    obtain ⟨output, houtput, -⟩ := (housed.outputs.mem_listed hn).mp ho
    have hbreak := breakOutput_eq_ok.mpr ⟨output, houtput, rfl⟩
    exact ⟨_, hbreak, housed.steps (breakOutput_steps hbreak), by rwa [node?_cleared]⟩
  obtain ⟨g₂, h₂, -⟩ := outputs
  exact ⟨_, removeNode_eq_ok.mpr ⟨live, g₂, breakNode_eq_ok.mpr ⟨node, live, g₁, h₁, h₂⟩, rfl⟩⟩

theorem shape?_addConnector (h : g.Housed) {spec : ConnectorSpec} {r : ConnectorId × Graph}
    (ok : g.addConnector n spec = .ok r) (m : NodeId) :
    r.2.shape? m = if n = m then (g.shape? m).map (·.add spec.made) else g.shape? m := by
  obtain ⟨-, -, -, rfl⟩ := addConnector_eq_ok.mp ok
  obtain ⟨direction, signal, name, className⟩ := spec
  cases direction with
  | input => exact shape?_addInput h ⟨n, name, signal, className⟩ m
  | output => exact shape?_addOutput h ⟨n, name, signal, className⟩ m

/-- Connectors that are added show at their node only. -/
theorem shape?_addConnectors (h : g.Housed) (specs : List ConnectorSpec) :
    (∀ m, n ≠ m → (g.addConnectors n specs).2.shape? m = g.shape? m) ∧
      ((g.addConnectors n specs).1 = .ok () → (g.addConnectors n specs).2.shape? n =
        (g.shape? n).map fun sh => specs.foldl (fun sh spec => sh.add spec.made) sh) := by
  induction specs generalizing g with
  | nil => exact ⟨fun _ _ => rfl, fun _ => by simp [addConnectors]⟩
  | cons spec specs ih =>
    cases hr : g.addConnector n spec with
    | error e => simp [addConnectors, hr]
    | ok r =>
      have first := shape?_addConnector h hr
      obtain ⟨others, here⟩ := ih (h.steps (addConnector_steps hr))
      simp only [addConnectors, hr]
      refine ⟨fun m hm => ?_, fun hok => ?_⟩
      · rw [others m hm, first, if_neg hm]
      · rw [here hok, first, if_pos rfl, Option.map_map]
        rfl

theorem foldl_add (specs : List ConnectorSpec) (sh : Shape) :
    specs.foldl (fun sh spec => sh.add spec.made) sh =
      { sh with
        inputs := sh.inputs ++ specs.filter (·.direction = .input)
        outputs := sh.outputs ++ (specs.filter (·.direction = .output)).map (·.made) } := by
  induction specs generalizing sh with
  | nil => simp
  | cons spec specs ih =>
    rw [List.foldl_cons, ih]
    obtain ⟨direction, signal, name, className⟩ := spec
    cases direction <;> simp [Shape.add, ConnectorSpec.made]

/-- A node that is live still is so after connectors were added. -/
theorem exists_shape_addConnectors (h : g.Housed) (specs : List ConnectorSpec)
    (hs : g.shape? n = some sh) : ∃ sh', (g.addConnectors n specs).2.shape? n = some sh' := by
  induction specs generalizing g sh with
  | nil => exact ⟨sh, hs⟩
  | cons spec specs ih =>
    cases hr : g.addConnector n spec with
    | error e => exact ⟨sh, by simpa [addConnectors, hr] using hs⟩
    | ok r =>
      have first := shape?_addConnector h hr n
      rw [if_pos rfl, hs] at first
      simpa [addConnectors, hr] using ih (h.steps (addConnector_steps hr)) first

/-- The shape of a placement is what its connectors make of the bare node. -/
theorem foldl_add_shape (p : Placement) :
    p.connectors.foldl (fun sh spec => sh.add spec.made) ⟨p.kind, [], []⟩ = p.shape := by
  rw [foldl_add]
  rfl

/-- The node that a placement has begun is live, so it can be removed if it must. -/
theorem Housed.place_cases (h : g.Housed) (p : Placement) :
    (∃ e, p.check = .error e) ∧ (g.place p).2 = g ∨ p.check = .ok () ∧
      let n := (g.addNode p.kind).1
      let added := (g.addNode p.kind).2.addConnectors n p.connectors
      (added.1 = .ok () ∧ (g.place p).2 = added.2) ∨
        ∃ node, added.2.removeNode n = .ok (node, (g.place p).2) := by
  have begun : (g.addNode p.kind).2.shape? (g.addNode p.kind).1 = some ⟨p.kind, [], []⟩ := by
    rw [shape?_addNode, if_pos rfl]
  have housed := h.addNode p.kind
  obtain ⟨sh, still⟩ := exists_shape_addConnectors housed p.connectors begun
  obtain ⟨node, live, -⟩ := shape?_eq_some_iff.mp still
  have added := housed.steps (addConnectors_steps _ (g.addNode p.kind).1 p.connectors)
  obtain ⟨k, removed⟩ := added.exists_removeNode live
  rcases g.place_cases p with unbegun | ⟨check, accepted | taken | ⟨⟨e, stuck⟩, -⟩⟩
  · exact .inl unbegun
  · exact .inr ⟨check, .inl accepted⟩
  · exact .inr ⟨check, .inr taken⟩
  · rw [removed] at stuck
    cases stuck

/-- A placement adds a node of its shape, or nothing. -/
theorem shape?_place (h : g.Housed) (p : Placement) (hs : (g.place p).2.shape? m = some sh) :
    g.shape? m = some sh ∨ p.check = .ok () ∧ sh = p.shape := by
  generalize hn : (g.addNode p.kind).1 = n
  have cases := h.place_cases p
  rw [hn] at cases
  have housed := h.addNode p.kind
  have begun : (g.addNode p.kind).2.shape? n = some ⟨p.kind, [], []⟩ := by
    rw [shape?_addNode, if_pos hn.symm]
  have before : n ≠ m → (g.addNode p.kind).2.shape? m = g.shape? m := by
    intro hm
    rw [shape?_addNode, if_neg (hn ▸ hm.symm)]
  obtain ⟨others, here⟩ := shape?_addConnectors (n := n) housed p.connectors
  have added := housed.steps (addConnectors_steps _ n p.connectors)
  rcases cases with ⟨-, h⟩ | ⟨hcheck, ⟨hall, h⟩ | ⟨node, h⟩⟩
  · exact .inl (h ▸ hs)
  · rw [h] at hs
    by_cases hm : n = m
    · subst hm
      rw [here hall, begun, Option.map_some, foldl_add_shape] at hs
      exact .inr ⟨hcheck, (Option.some.inj hs).symm⟩
    · exact .inl (by rwa [others m hm, before hm] at hs)
  · rw [shape?_removeNode added h] at hs
    by_cases hm : n = m
    · rw [if_pos hm] at hs
      cases hs
    · rw [if_neg hm, others m hm, before hm] at hs
      exact .inl hs

/-! ### The shapes in an assembled graph -/

/-- A refused edit leaves the shapes as they were. -/
private theorem shape?_settle_map {α : Type} {r : Except EditError α} {f : α → Outcome × Graph}
    (hs : (g.settle (r.map f)).2.shape? m = some sh)
    (h : ∀ a, r = .ok a → (f a).2.shape? m = some sh → g.shape? m = some sh) :
    g.shape? m = some sh :=
  settle_induction (motive := fun k => k.shape? m = some sh → g.shape? m = some sh) id h hs

/-- An edit that places, wires or removes leads to shapes that were there or are those of a
placement. -/
theorem shape?_apply (h : g.Housed) {e : Edit} (he : e.assembles)
    (hs : (g.apply e).2.shape? m = some sh) :
    g.shape? m = some sh ∨ ∃ p : Placement, p.check = .ok () ∧ sh = p.shape := by
  cases e with
  | add _ | addConnector _ _ | setCallee _ _ => cases he
  | place p => exact (shape?_place h p hs).imp_right fun placed => ⟨p, placed⟩
  | connect o i fanOut =>
    exact .inl (shape?_settle_map hs fun k hk hs => shape?_connect hk ▸ hs)
  | breakInput i => exact .inl (shape?_settle_map hs fun k hk hs => shape?_breakInput hk ▸ hs)
  | breakOutput o => exact .inl (shape?_settle_map hs fun k hk hs => shape?_breakOutput hk ▸ hs)
  | breakEdge o i => exact .inl (shape?_settle_map hs fun k hk hs => shape?_breakEdge hk ▸ hs)
  | breakNode n => exact .inl (shape?_settle_map hs fun k hk hs => shape?_breakNode hk ▸ hs)
  | setFallback i text =>
    refine .inl (shape?_settle_map hs fun k hk hs => ?_)
    obtain ⟨input, value, -, -, rfl⟩ := setFallback_eq_ok.mp hk
    exact shape?_setFallback i value ▸ hs
  | removeNode n =>
    refine .inl (shape?_settle_map hs fun k hk hs => ?_)
    rw [shape?_removeNode h hk] at hs
    split at hs
    · cases hs
    · exact hs
  | rename n name => exact .inl (shape?_rename n name ▸ hs)

/-- **Every node of an assembled graph has the shape of a placement.** -/
theorem Assembled.shape (h : g.Assembled) (hs : g.shape? n = some sh) :
    ∃ p : Placement, p.check = .ok () ∧ sh = p.shape := by
  obtain ⟨name, edits, assembles, rfl⟩ := h
  induction edits using List.reverseRecOn generalizing sh with
  | nil => simp [shape?] at hs
  | append_singleton edits e ih =>
    rw [run_append] at hs
    have housed := Reachable.housed ⟨name, edits, rfl⟩
    rcases shape?_apply housed (assembles e (by simp)) hs with old | placed
    · exact ih (fun e he => assembles e (by simp [he])) old
    · exact placed

end Graph

end NodeScript
