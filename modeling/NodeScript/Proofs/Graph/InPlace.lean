import NodeScript.Graph.InPlace
import NodeScript.Proofs.Graph.Assembled

/-!
# Editing in place is all or nothing

An edit that is made in place could be refused after it has already changed the graph: connecting
clears the output before it frees the input, and breaking the edges of a node goes through its
connectors one by one. But what such an edit asks for later is there if what it has asked for first
is, because the connectors that a node lists are live and stay so while edges are broken. So it does
what the edit does that gives a graph or none (`perform_outcome`), and a refused edit leaves the
graph as it was.
-/

namespace NodeScript.InPlace

open NodeScript.Graph

variable {α β ι : Type} {g g' : Graph} {n : NodeId}

/-! ### Changes one after the other -/

theorem outcome_bind (m : InPlace α) (f : α → InPlace β) (g : Graph) :
    InPlace.outcome (m >>= f) g =
      match m.outcome g with
      | (.ok a, k) => (f a).outcome k
      | (.error e, k) => (.error e, k) := by
  -- the second change sees the graph that the first one leaves, whether it succeeds or fails
  unfold outcome
  rw [ExceptT.run_bind, StateT.run_bind]
  rcases m.run.run g with ⟨e | a, k⟩ <;> rfl

@[simp] theorem outcome_pure (a : α) (g : Graph) : InPlace.outcome (pure a) g = (.ok a, g) := rfl

@[simp] theorem outcome_get (g : Graph) : InPlace.outcome get g = (.ok g, g) := rfl

@[simp] theorem outcome_modify (change : Graph → Graph) (g : Graph) :
    InPlace.outcome (modify change) g = (.ok (), change g) := rfl

@[simp] theorem outcome_modifyGet (change : Graph → α × Graph) (g : Graph) :
    InPlace.outcome (modifyGet change) g = (.ok (change g).1, (change g).2) := rfl

theorem outcome_map (f : α → β) (m : InPlace α) (g : Graph) :
    InPlace.outcome (f <$> m) g = ((m.outcome g).1.map f, (m.outcome g).2) := by
  rw [map_eq_pure_bind, outcome_bind]
  rcases m.outcome g with ⟨e | a, k⟩ <;> rfl

theorem outcome_tryCatch (m : InPlace α) (handle : EditError → InPlace α) (g : Graph) :
    InPlace.outcome (tryCatch m handle) g =
      match m.outcome g with
      | (.ok a, k) => (.ok a, k)
      | (.error e, k) => (handle e).outcome k := by
  unfold outcome
  rw [ExceptT.run_tryCatch, StateT.run_bind]
  rcases m.run.run g with ⟨e | a, k⟩ <;> rfl

theorem outcome_require (look : Graph → Except EditError α) (g : Graph) :
    (require look).outcome g = (look g, g) := by
  have step : (require look).outcome g = InPlace.outcome (MonadExcept.ofExcept (look g)) g := rfl
  rw [step]
  cases look g <;> rfl

/-- Changes that are never refused, made for each member of a list. -/
theorem outcome_forM_modify (change : ι → Graph → Graph) (l : List ι) (g : Graph) :
    InPlace.outcome (l.forM fun i => modify (change i)) g =
      (.ok (), l.foldl (fun k i => change i k) g) := by
  induction l generalizing g with
  | nil => rfl
  | cons i l ih =>
    rw [List.forM_eq_forM, List.forM_cons, outcome_bind, outcome_modify]
    exact ih _

/-- Changes made for each member of a list succeed where the edits do that give a graph. -/
theorem outcome_forM {change : ι → InPlace Unit} {edit : Graph → ι → Except EditError Graph}
    (agree : ∀ {g g' i}, edit g i = .ok g' → (change i).outcome g = (.ok (), g')) {l : List ι}
    (ok : l.foldlM edit g = .ok g') : InPlace.outcome (l.forM change) g = (.ok (), g') := by
  induction l generalizing g with
  | nil =>
    obtain rfl : g = g' := by simpa using ok
    rfl
  | cons i l ih =>
    rw [List.foldlM_cons] at ok
    obtain ⟨k, hk, ok⟩ := Except.bind_eq_ok.mp ok
    rw [List.forM_eq_forM, List.forM_cons, outcome_bind, agree hk]
    exact ih ok

/-! ### Each edit -/

/-- The outcome of an edit that gives a graph, or is refused and leaves the graph as it was. -/
def settled (g : Graph) : Except EditError (α × Graph) → Except EditError α × Graph
  | .ok (a, k) => (.ok a, k)
  | .error e => (.error e, g)

/-- An edit in place succeeds where the edit does that gives a graph. -/
theorem outcome_of_ok {m : InPlace Unit} {r : Except EditError Graph}
    (same : m.outcome g = settled g (r.map ((), ·))) (ok : r = .ok g') :
    m.outcome g = (.ok (), g') := by
  rw [same, ok]
  rfl

theorem outcome_breakInput (i : InputId) (g : Graph) :
    (breakInput i).outcome g = settled g ((g.breakInput i).map ((), ·)) := by
  rw [breakInput, Graph.breakInput, outcome_bind, outcome_require]
  cases g.requireInput i with
  | error e => rfl
  | ok input =>
    obtain ⟨connector, id, source, fallback⟩ := input
    cases source <;> rfl

theorem outcome_breakOutput (o : OutputId) (g : Graph) :
    (breakOutput o).outcome g = settled g ((g.breakOutput o).map ((), ·)) := by
  rw [breakOutput, Graph.breakOutput, outcome_bind, outcome_require]
  cases g.requireOutput o with
  | error e => rfl
  | ok output =>
    simp only [outcome_bind, outcome_modify, outcome_forM_modify]
    rfl

theorem outcome_breakEdge (o : OutputId) (i : InputId) (g : Graph) :
    (breakEdge o i).outcome g = settled g ((g.breakEdge o i).map ((), ·)) := by
  rw [breakEdge, Graph.breakEdge, outcome_bind, outcome_require]
  cases g.requireOutput o with
  | error e => rfl
  | ok output =>
    simp only [outcome_bind, outcome_require, Except.ok_bind]
    cases g.requireInput i with
    | error e => rfl
    | ok input =>
      simp only [Except.ok_bind]
      split
      · exact outcome_breakInput i g
      · rfl

/-- The input is still there when the output has been cleared, so that a connection is not refused
any more. -/
theorem outcome_connect (o : OutputId) (i : InputId) (fanOut : FanOut) (g : Graph) :
    (connect o i fanOut).outcome g = settled g ((g.connect o i fanOut).map ((), ·)) := by
  rw [connect, Graph.connect, outcome_bind, outcome_require]
  cases ho : g.requireOutput o with
  | error e => rfl
  | ok output =>
    simp only [outcome_bind, outcome_require, Except.ok_bind]
    cases hi : g.requireInput i with
    | error e => rfl
    | ok input =>
      have live := requireInput_eq_ok.mp hi
      simp only [Except.ok_bind]
      split
      · rfl
      · cases fanOut output.signal with
        | true =>
          have freed := breakInput_eq_ok.mpr ⟨input, live, rfl⟩
          have first := outcome_of_ok (outcome_breakInput i g) freed
          simp only [if_true, outcome_bind, first, outcome_modify, pure_bind, freed]
          rfl
        | false =>
          have cleared := breakOutput_eq_ok.mpr ⟨output, requireOutput_eq_ok.mp ho, rfl⟩
          obtain ⟨input', live', -⟩ := exists_input?_cleared live o output.targets
          have freed := breakInput_eq_ok.mpr ⟨input', live', rfl⟩
          have first := outcome_of_ok (outcome_breakOutput o g) cleared
          have second := outcome_of_ok (outcome_breakInput i _) freed
          simp only [Bool.false_eq_true, if_false, outcome_bind, first, second, outcome_modify,
            cleared, freed, Except.ok_bind]
          rfl

/-- What a node lists is live while edges are broken, so that this is not refused once the node is
found. -/
theorem outcome_breakNode (h : g.Housed) (n : NodeId) :
    (breakNode n).outcome g = settled g ((g.breakNode n).map ((), ·)) := by
  cases hn : g.requireNode n with
  | error e =>
    simp only [breakNode, Graph.breakNode, outcome_bind, outcome_require, hn]
    rfl
  | ok node =>
    obtain ⟨g', removed⟩ := h.exists_removeNode (requireNode_eq_ok.mp hn)
    obtain ⟨-, k, broken, -⟩ := removeNode_eq_ok.mp removed
    obtain ⟨node', hn', k₁, inputs, outputs⟩ := breakNode_eq_ok.mp broken
    obtain rfl : node = node' := Option.some.inj ((requireNode_eq_ok.mp hn).symm.trans hn')
    have first : InPlace.outcome (node.inputs.forM breakInput) g = (.ok (), k₁) :=
      outcome_forM (outcome_of_ok (outcome_breakInput _ _)) inputs
    have second : InPlace.outcome (node.outputs.forM breakOutput) k₁ = (.ok (), k) :=
      outcome_forM (outcome_of_ok (outcome_breakOutput _ _)) outputs
    rw [breakNode, outcome_bind, outcome_require, hn, broken]
    simp only [outcome_bind, first, second]
    rfl

/-- Emptying slots one by one is emptying them in the table. -/
theorem foldl_erase_inputs (l : List InputId) (g : Graph) :
    l.foldl (fun k i => { k with inputs := k.inputs.erase i.index }) g =
      { g with inputs := l.foldl (fun t i => t.erase i.index) g.inputs } :=
  List.foldl_hom (fun t => { g with inputs := t }) fun _ _ => rfl

theorem foldl_erase_outputs (l : List OutputId) (g : Graph) :
    l.foldl (fun k o => { k with outputs := k.outputs.erase o.index }) g =
      { g with outputs := l.foldl (fun t o => t.erase o.index) g.outputs } :=
  List.foldl_hom (fun t => { g with outputs := t }) fun _ _ => rfl

theorem outcome_removeNode (h : g.Housed) (n : NodeId) :
    (removeNode n).outcome g = settled g (g.removeNode n) := by
  rw [removeNode, outcome_bind, outcome_breakNode h]
  cases hn : g.requireNode n with
  | error e =>
    simp only [Graph.removeNode, Graph.breakNode, hn]
    rfl
  | ok node =>
    obtain ⟨g', removed⟩ := h.exists_removeNode (requireNode_eq_ok.mp hn)
    obtain ⟨live, k, broken, rfl⟩ := removeNode_eq_ok.mp removed
    have still : k.requireNode n = .ok node := by
      rw [requireNode_eq_ok, node?_breakNode broken, live]
    rw [broken, removed]
    simp only [Except.map, settled, outcome_bind, outcome_require, still, outcome_modify,
      outcome_forM_modify, outcome_pure, foldl_erase_inputs, foldl_erase_outputs]
    rfl

theorem outcome_addConnector (n : NodeId) (spec : ConnectorSpec) (g : Graph) :
    (addConnector n spec).outcome g = settled g (g.addConnector n spec) := by
  rw [addConnector, Graph.addConnector, outcome_bind, outcome_require]
  cases g.requireNode n with
  | error e => rfl
  | ok node =>
    simp only [Except.ok_bind]
    split
    · rfl
    · simp only [outcome_bind, outcome_get]
      split
      · rfl
      · cases spec.direction <;> simp only [outcome_map, outcome_modifyGet] <;> rfl

theorem outcome_setFallback (i : InputId) (text : String) (g : Graph) :
    (setFallback i text).outcome g = settled g ((g.setFallback i text).map ((), ·)) := by
  rw [setFallback, Graph.setFallback, outcome_bind, outcome_require]
  cases g.requireInput i with
  | error e => rfl
  | ok input =>
    simp only [Except.ok_bind]
    cases Literal.ofText input.signal text <;> rfl

/-- Connectors that were added before one is refused stay, in place as in the graph that is given. -/
theorem outcome_addConnectors (n : NodeId) (specs : List ConnectorSpec) (g : Graph) :
    InPlace.outcome (specs.forM fun spec => do let _ ← addConnector n spec) g =
      g.addConnectors n specs := by
  induction specs generalizing g with
  | nil => rfl
  | cons spec specs ih =>
    rw [List.forM_eq_forM, List.forM_cons, outcome_bind, outcome_bind, outcome_addConnector,
      Graph.addConnectors]
    cases g.addConnector n spec with
    | error e => rfl
    | ok r => exact ih r.2

theorem outcome_place (h : g.Housed) (p : Placement) : (place p).outcome g = g.place p := by
  have housed := (h.addNode p.kind).steps (addConnectors_steps _ (g.addNode p.kind).1 p.connectors)
  rw [place, Graph.place, outcome_bind, outcome_require]
  cases p.check with
  | error e => rfl
  | ok u =>
    simp only [outcome_bind, outcome_modifyGet, outcome_tryCatch, outcome_addConnectors]
    generalize (g.addNode p.kind).2.addConnectors (g.addNode p.kind).1 p.connectors = added at housed
    obtain ⟨e | u, k⟩ := added
    · simp only [outcome_removeNode housed]
      cases k.removeNode (g.addNode p.kind).1 <;> rfl
    · rfl

/-! ### All edits -/

theorem outcome_map_settled {m : InPlace α} {r : Except EditError (α × Graph)}
    (same : m.outcome g = settled g r) (f : α → Outcome) :
    InPlace.outcome (f <$> m) g = g.settle (r.map fun (a, k) => (f a, k)) := by
  rw [outcome_map, same]
  cases r <;> rfl

theorem outcome_done {m : InPlace Unit} {r : Except EditError Graph}
    (same : m.outcome g = settled g (r.map ((), ·))) :
    InPlace.outcome ((fun _ => Outcome.done) <$> m) g = g.settle (r.map (.done, ·)) := by
  rw [outcome_map_settled same]
  cases r <;> rfl

/-- **Editing in place is all or nothing.** An edit in place gives what the edit gives that is made
to the graph as a whole, and leaves the same graph. -/
theorem perform_outcome (h : g.Housed) (e : Edit) : (perform e).outcome g = g.apply e := by
  cases e with
  | add kind => rfl
  | place p =>
    rw [perform, outcome_map, outcome_place h]
    rfl
  | connect o i fanOut => exact outcome_done (outcome_connect o i fanOut g)
  | breakInput i => exact outcome_done (outcome_breakInput i g)
  | breakOutput o => exact outcome_done (outcome_breakOutput o g)
  | breakEdge o i => exact outcome_done (outcome_breakEdge o i g)
  | breakNode n => exact outcome_done (outcome_breakNode h n)
  | removeNode n => exact outcome_map_settled (outcome_removeNode h n) .removed
  | addConnector n spec => exact outcome_map_settled (outcome_addConnector n spec g) .connected
  | setFallback i text => exact outcome_done (outcome_setFallback i text g)
  | rename n name => rfl
  | setCallee n callee => rfl

/-- Edits made in place, one after the other, lead to the same graph. -/
theorem performAll_eq_run (h : g.Reachable) (edits : List Edit) :
    performAll g edits = g.run edits := by
  induction edits generalizing g with
  | nil => rfl
  | cons e edits ih =>
    have first : ((perform e).outcome g).2 = (g.apply e).2 := by rw [perform_outcome h.housed]
    rw [performAll, List.foldl_cons, first, run_cons]
    exact ih (h.apply e)

end NodeScript.InPlace
