import NodeScript.Proofs.Graph.Consistent

/-!
# The last edge made from an output

Only connecting makes edges. An edge that is there was made by an accepted connection and has not
been broken since; every other edit leaves edges out, or leaves all as they were (`Thins`). If all
connections are made under one policy, then an output that the policy allows one edge only can have
no other edge than the last one that was made from it (`Latest.run`): making the next one breaks
whatever the output had.
-/

namespace NodeScript.Graph

variable {g g' k : Graph} {o p : OutputId} {i j : InputId} {signal : Signal} {n : NodeId}

/-! ### The edges that edits make -/

/-- The edge that an edit makes, if it is a connection that is accepted. -/
def edgeMade? (g : Graph) : Edit → Option (OutputId × InputId)
  | .connect o i fanOut => (g.connect o i fanOut).toOption.map fun _ => (o, i)
  | _ => none

/-- The edges that edits make one after the other, whether they are broken later or not. -/
def edgesMade (g : Graph) : List Edit → List (OutputId × InputId)
  | [] => []
  | e :: es => (g.edgeMade? e).toList ++ (g.apply e).2.edgesMade es

/-- The input that the last of the edges from an output goes to. -/
def lastTarget? (made : List (OutputId × InputId)) (o : OutputId) : Option InputId :=
  made.reverse.lookup o

theorem lastTarget?_concat (made : List (OutputId × InputId)) (p : OutputId) (i : InputId) :
    lastTarget? (made ++ [(p, i)]) o = if o = p then some i else lastTarget? made o := by
  by_cases ho : o = p
  · simp [lastTarget?, ho]
  · have differ : (o == p) = false := by simpa using ho
    simp [lastTarget?, List.lookup_cons, differ, ho]

/-! ### Edges with their signals -/

/-- An edge leads from an output of the signal to the input. -/
def Carries (g : Graph) (o : OutputId) (i : InputId) (signal : Signal) : Prop :=
  ∃ output, g.output? o = some output ∧ output.signal = signal ∧ i ∈ output.targets

/-- The second graph has no edges but those of the first. -/
structure Thins (g g' : Graph) : Prop where
  carries : ∀ {o i signal}, g'.Carries o i signal → g.Carries o i signal

theorem carries_cleared {l : List InputId} (h : (g.cleared p l).Carries o i signal) :
    g.Carries o i signal ∧ o ≠ p := by
  obtain ⟨output, ho, hs, hi⟩ := h
  rw [output?_cleared] at ho
  split at ho
  · obtain ⟨before, -, rfl⟩ := Option.map_eq_some_iff.mp ho
    cases hi
  · exact ⟨⟨output, ho, hs, hi⟩, Ne.symm ‹_›⟩

theorem carries_link (h : (g.link p j).Carries o i signal) :
    g.Carries o i signal ∨ o = p ∧ i = j := by
  obtain ⟨output, ho, hs, hi⟩ := h
  rw [output?_link] at ho
  split at ho
  · obtain ⟨before, hbefore, rfl⟩ := Option.map_eq_some_iff.mp ho
    rcases List.mem_append.mp hi with hi | hi
    · exact .inl ⟨before, hbefore, hs, hi⟩
    · exact .inr ⟨Eq.symm ‹_›, List.mem_singleton.mp hi⟩
  · exact .inl ⟨output, ho, hs, hi⟩

namespace Thins

theorem refl (g : Graph) : Thins g g :=
  ⟨id⟩

theorem trans (h : Thins g k) (h' : Thins k g') : Thins g g' :=
  ⟨fun carries => h.carries (h'.carries carries)⟩

theorem of_outputs (same : g'.output? = g.output?) : Thins g g' where
  carries := fun ⟨output, ho, rest⟩ => ⟨output, same ▸ ho, rest⟩

theorem severed (g : Graph) (source : Option OutputId) (i : InputId) :
    Thins g (g.severed source i) := by
  constructor
  rintro o j signal ⟨output, ho, hs, hj⟩
  rw [output?_severed] at ho
  split at ho
  · obtain ⟨before, hbefore, rfl⟩ := Option.map_eq_some_iff.mp ho
    exact ⟨before, hbefore, hs, List.mem_of_mem_filter hj⟩
  · exact ⟨output, ho, hs, hj⟩

theorem discard (g : Graph) (n : NodeId) (node : Node) : Thins g (g.discard n node) := by
  constructor
  rintro o i signal ⟨output, ho, rest⟩
  rw [output?_discard] at ho
  split at ho
  · cases ho
  · exact ⟨output, ho, rest⟩

/-- A new output has no edges. -/
theorem addOutput (g : Graph) (c : Connector) : Thins g (g.addOutput c).2 := by
  constructor
  rintro o i signal ⟨output, ho, hs, hi⟩
  rw [output?_addOutput] at ho
  split at ho
  · obtain rfl := Option.some.inj ho
    cases hi
  · exact ⟨output, ho, hs, hi⟩

/-! ### The edits that make no edge -/

theorem breakInput (h : g.breakInput i = .ok g') : Thins g g' := by
  obtain ⟨input, -, rfl⟩ := breakInput_eq_ok.mp h
  exact severed ..

theorem breakOutput (h : g.breakOutput o = .ok g') : Thins g g' := by
  obtain ⟨output, -, rfl⟩ := breakOutput_eq_ok.mp h
  exact ⟨fun carries => (carries_cleared carries).1⟩

theorem breakEdge (h : g.breakEdge o i = .ok g') : Thins g g' := by
  obtain ⟨-, input, -, h⟩ := breakEdge_eq_ok.mp h
  split at h
  · exact breakInput h
  · exact h ▸ refl g

theorem breakNode (h : g.breakNode n = .ok g') : Thins g g' := by
  obtain ⟨node, -, g₁, h₁, h₂⟩ := breakNode_eq_ok.mp h
  have inputs : Thins g g₁ := Except.foldlM_induction (motive := fun k => Thins g k) h₁ (refl g)
    fun _ _ _ _ hb hc => trans hb (breakInput hc)
  exact Except.foldlM_induction (motive := fun k => Thins g k) h₂ inputs
    fun _ _ _ _ hb hc => trans hb (breakOutput hc)

theorem removeNode {node : Node} (h : g.removeNode n = .ok (node, g')) : Thins g g' := by
  obtain ⟨-, g₁, hb, rfl⟩ := removeNode_eq_ok.mp h
  exact trans (breakNode hb) (discard g₁ n node)

theorem addConnector {spec : ConnectorSpec} {r : ConnectorId × Graph}
    (h : g.addConnector n spec = .ok r) : Thins g r.2 := by
  obtain ⟨-, -, -, rfl⟩ := addConnector_eq_ok.mp h
  obtain ⟨direction, signal, name, className⟩ := spec
  cases direction with
  | input => exact of_outputs (output?_addInput ..)
  | output => exact addOutput ..

theorem addConnectors (g : Graph) (n : NodeId) (specs : List ConnectorSpec) :
    Thins g (g.addConnectors n specs).2 := by
  induction specs generalizing g with
  | nil => exact refl g
  | cons spec specs ih =>
    simp only [Graph.addConnectors]
    cases h : g.addConnector n spec with
    | ok r => exact trans (addConnector h) (ih r.2)
    | error e => exact refl g

theorem place (g : Graph) (p : Placement) : Thins g (g.place p).2 := by
  have added := trans (of_outputs (g.output?_addNode p.kind))
    (addConnectors _ (g.addNode p.kind).1 p.connectors)
  rcases g.place_cases p with ⟨-, h⟩ | ⟨-, ⟨-, h⟩ | ⟨node, h⟩ | ⟨-, h⟩⟩
  · rw [h]
    exact refl g
  · rwa [h]
  · exact trans added (removeNode h)
  · rwa [h]

theorem setFallback {text : String} (h : g.setFallback i text = .ok g') : Thins g g' := by
  obtain ⟨input, value, -, -, rfl⟩ := setFallback_eq_ok.mp h
  exact of_outputs (output?_modifyInput ..)

private theorem settle_map {α : Type} {r : Except EditError α} {f : α → Outcome × Graph}
    (ok : ∀ a, r = .ok a → Thins g (f a).2) : Thins g (g.settle (r.map f)).2 :=
  settle_induction (motive := Thins g) (refl g) ok

/-- **Only connecting makes edges.** -/
theorem apply {e : Edit} (other : ∀ o i fanOut, e ≠ .connect o i fanOut) :
    Thins g (g.apply e).2 := by
  cases e with
  | connect o i fanOut => exact absurd rfl (other o i fanOut)
  | add kind => exact of_outputs (output?_addNode ..)
  | place p => exact place g p
  | breakInput i => exact settle_map fun _ h => breakInput h
  | breakOutput o => exact settle_map fun _ h => breakOutput h
  | breakEdge o i => exact settle_map fun _ h => breakEdge h
  | breakNode n => exact settle_map fun _ h => breakNode h
  | removeNode n => exact settle_map fun _ h => removeNode h
  | addConnector n spec => exact settle_map fun _ h => addConnector h
  | setFallback i text => exact settle_map fun _ h => setFallback h
  | rename n name => exact of_outputs (output?_modifyNode ..)
  | setCallee n callee => exact of_outputs (output?_modifyNode ..)

end Thins

/-- An accepted connection makes its edge; the other edges of its output stay only if the policy
allows it several. -/
theorem carries_connect {fanOut : FanOut} (h : g.connect o i fanOut = .ok g')
    (carries : g'.Carries p j signal) :
    p = o ∧ j = i ∨ g.Carries p j signal ∧ (p = o → fanOut signal = true) := by
  obtain ⟨output, ho, input, -, -, g₁, h₁, g₂, h₂, rfl⟩ := connect_eq_ok.mp h
  rcases carries_link carries with old | new
  · have kept : g₁.Carries p j signal := (Thins.breakInput h₂).carries old
    by_cases allowed : fanOut output.signal = true
    · rw [if_pos allowed] at h₁
      obtain ⟨output', ho', rfl, hj⟩ := h₁ ▸ kept
      refine .inr ⟨⟨output', ho', rfl, hj⟩, fun same => ?_⟩
      rwa [Option.some.inj (ho'.symm.trans (same ▸ ho))]
    · rw [if_neg allowed] at h₁
      obtain ⟨found, -, rfl⟩ := breakOutput_eq_ok.mp h₁
      obtain ⟨before, differ⟩ := carries_cleared kept
      exact .inr ⟨before, fun same => absurd same differ⟩
  · exact .inl new

/-! ### Runs under one policy -/

/-- All connections among the edits are made under the policy. -/
def Uniform (policy : FanOut) (edits : List Edit) : Prop :=
  ∀ o i fanOut, Edit.connect o i fanOut ∈ edits → fanOut = policy

/-- An output that the policy allows one edge only has no edge but the last of those made from
it. -/
structure Latest (policy : FanOut) (g : Graph) (made : List (OutputId × InputId)) : Prop where
  last : ∀ {o i signal}, g.Carries o i signal → policy signal = false →
    lastTarget? made o = some i

namespace Latest

variable {policy : FanOut} {made : List (OutputId × InputId)}

theorem of_thins (h : Latest policy g made) (thins : Thins g g') : Latest policy g' made :=
  ⟨fun carries => h.last (thins.carries carries)⟩

theorem connect (h : Latest policy g made) (hc : g.connect o i policy = .ok g') :
    Latest policy g' (made ++ [(o, i)]) := by
  constructor
  intro p j signal carries forbidden
  rw [lastTarget?_concat]
  rcases carries_connect hc carries with ⟨rfl, rfl⟩ | ⟨before, allowed⟩
  · rw [if_pos rfl]
  · have differ : p ≠ o := fun same => by simp [allowed same] at forbidden
    rw [if_neg differ, h.last before forbidden]

/-- An edit under the policy keeps only the last edge of an output that is allowed one. -/
theorem apply (h : Latest policy g made) {e : Edit}
    (uniform : ∀ o i fanOut, e = .connect o i fanOut → fanOut = policy) :
    Latest policy (g.apply e).2 (made ++ (g.edgeMade? e).toList) := by
  by_cases connecting : ∃ o i fanOut, e = .connect o i fanOut
  · obtain ⟨o, i, fanOut, rfl⟩ := connecting
    obtain rfl := uniform o i fanOut rfl
    simp only [Graph.apply, edgeMade?]
    cases hc : g.connect o i fanOut with
    | ok g' => exact h.connect hc
    | error e =>
      change Latest fanOut g (made ++ [])
      rwa [List.append_nil]
  · have other : ∀ o i fanOut, e ≠ .connect o i fanOut := fun o i fanOut he =>
      connecting ⟨o, i, fanOut, he⟩
    have none : g.edgeMade? e = none := by
      cases e with
      | connect o i fanOut => exact absurd rfl (other o i fanOut)
      | _ => rfl
    rw [none, Option.toList_none, List.append_nil]
    exact h.of_thins (.apply other)

/-- **Under one policy, an output that is allowed one edge has no other than the last one made.** -/
theorem run (h : Latest policy g made) {edits : List Edit} (uniform : Uniform policy edits) :
    Latest policy (g.run edits) (made ++ g.edgesMade edits) := by
  induction edits generalizing g made with
  | nil => simpa [edgesMade] using h
  | cons e edits ih =>
    rw [edgesMade, ← List.append_assoc]
    exact ih (h.apply fun o i fanOut he => uniform o i fanOut (he ▸ .head _))
      fun o i fanOut he => uniform o i fanOut (.tail _ he)

theorem empty (policy : FanOut) (name : String) : Latest policy (Graph.empty name) [] where
  last := by
    rintro o i signal ⟨output, ho, -⟩
    cases ho

/-- An output that is allowed one edge has at most one, and this is the last one made from it. -/
theorem targets (h : Latest policy g made) (consistent : g.Consistent) {output : Output}
    (ho : g.output? o = some output) (forbidden : policy output.signal = false) :
    output.targets = [] ∨ ∃ i, output.targets = [i] ∧ lastTarget? made o = some i := by
  have last : ∀ i ∈ output.targets, lastTarget? made o = some i := fun i hi =>
    h.last ⟨output, ho, rfl, hi⟩ forbidden
  have distinct := consistent.nodup ho
  revert last distinct
  rcases output.targets with _ | ⟨i, _ | ⟨j, rest⟩⟩
  · exact fun _ _ => .inl rfl
  · exact fun last _ => .inr ⟨i, rfl, last i (.head _)⟩
  · intro last distinct
    have same : i = j :=
      Option.some.inj ((last i (.head _)).symm.trans (last j (.tail _ (.head _))))
    simp [same] at distinct

end Latest

end NodeScript.Graph
