import NodeScript.Compilation
import NodeScript.Proofs.Graph.Refused
import NodeScript.Proofs.Lowering.Justified

/-!
# The nodes that errors name

Whatever makes lowering an event of an assembled graph come to a halt, the error names live nodes
only (`Halts.namesLive`): the node that is lowered, one that an edge of it leads to or comes from,
or one that it needs. So it is with all errors of compiling a graph (`CompilingFails.namesLive`).
-/

namespace NodeScript

/-- The nodes that an error names. One that is not found is named by its identifier; that no event
goes by a name names no node. -/
def CompileError.nodes : CompileError → List String
  | missingFunction node | arityMismatch node _ | loopDetected node | notExecutable node
  | notAnEvent node => [node]
  | unresolvedValue _ source consumer => [source, consumer]
  | nodeNotFound id => [id.label]
  | eventNotFound _ => []

namespace Graph

open NodeScript.Except (bind_eq_error exists_of_mapM_eq_error ok_bind)

variable {g : Graph} {e n : NodeId} {node : Node} {s : Scope} {out : NodeId × String}
  {made : List NodeId} {err : CompileError} {style : Style}

/-- Each node that the error names is the name of a live node. -/
def NamesLive (g : Graph) (err : CompileError) : Prop :=
  ∀ x ∈ err.nodes, ∃ n node, g.node? n = some node ∧ node.name = x

theorem NamesLive.of_node (live : g.node? n = some node) (one : err.nodes = [node.name]) :
    g.NamesLive err := by
  intro x hx
  rw [one] at hx
  exact ⟨n, node, live, (List.mem_singleton.mp hx).symm⟩

/-- An unresolved value names both ends of an edge. -/
theorem NamesLive.of_edge {m : NodeId} {source consumer : Node} {output : String}
    (source_live : g.node? m = some source) (consumer_live : g.node? n = some consumer) :
    g.NamesLive (.unresolvedValue output source.name consumer.name) := by
  intro x hx
  rcases List.mem_cons.mp hx with rfl | hx
  · exact ⟨m, source, source_live, rfl⟩
  · exact ⟨n, consumer, consumer_live, (List.mem_singleton.mp hx).symm⟩

theorem Unresolved.namesLive (h : g.Unresolved s node err) : g.NamesLive err := by
  obtain ⟨source, output, input, edge, -, -, -, rfl⟩ := h
  exact .of_edge edge.source_live edge.consumer_live

/-! ### Where lowering stops -/

theorem namesLive_callStatement (h : g.Assembled) (live : g.node? n = some node) {callee : Callee}
    (kind : node.kind.callee? = some callee) {t : Scope}
    (fails : (g.callStatement n).Fails s err t) : g.NamesLive err := by
  rcases callStatement_fails h live kind fails with ⟨f, -, -, -, rfl⟩ | unresolved
  · exact .of_node live rfl
  · exact unresolved.namesLive

/-- Assignments that fail name the node and the variable that it would set. -/
theorem namesLive_assignments (h : g.Housed) (live : g.node? n = some node)
    (fails : g.assignments s node = .error err) : g.NamesLive err := by
  rcases bind_eq_error.mp fails with fails | ⟨found, -, fails⟩
  · obtain ⟨⟨output, input⟩, hmem, fails⟩ := exists_of_mapM_eq_error fails
    obtain ⟨output', -, hedge⟩ := List.mem_flatMap.mp hmem
    obtain ⟨input', hinput, heq⟩ := List.mem_map.mp hedge
    obtain ⟨rfl, rfl⟩ := Prod.mk.inj heq
    obtain ⟨i, -, hinput⟩ := List.mem_filterMap.mp hinput
    obtain ⟨target, htarget⟩ := h.inputs.owner_live hinput
    simp only [assignmentTo, nodeOrFail_eq_ok.mpr htarget, ok_bind] at fails
    split at fails
    · cases fails
    · split at fails
      · cases fails
      · split at fails
        · cases fails
        · obtain rfl := Except.error.inj fails
          exact .of_edge live htarget
  · cases fails

theorem Faults.namesLive (h : g.Assembled) (live : g.node? n = some node)
    (faults : g.Faults n node s made err) : g.NamesLive err := by
  have housed := h.reachable.housed
  have here : g.node? node.id = some node := housed.node_id live ▸ live
  cases faults with
  | statement kind fails => exact namesLive_callStatement h live (by rw [kind]; rfl) fails
  | condition _ fails | count _ fails =>
    exact (operandNamed_fails h here (by decide) fails).namesLive
  | callAssigns _ _ fails | loopAssigns _ _ fails => exact namesLive_assignments housed live fails

theorem Stops.namesLive (h : g.Assembled) (stops : g.Stops out s made n err) :
    g.NamesLive err := by
  cases stops with
  | back _ _ _ live | unplaced _ live => exact .of_node live rfl
  | search _ _ refused =>
    obtain ⟨c, culprit, live, rfl, -⟩ := refused
    exact .of_node live rfl
  | needed _ _ gathered _ fails =>
    have wanted := ((gathered.mem_iff n).mp (by simp)).1
    obtain ⟨node, callee, live', kind⟩ := wanted.isPureCall.callee?
    exact namesLive_callStatement h live' kind fails
  | fault _ enters faults => exact faults.namesLive h enters.live

/-- **Where lowering comes to a halt, the error names live nodes.** -/
theorem Halts.namesLive (h : g.Assembled) (halts : g.Halts out s made n err) :
    g.NamesLive err := by
  induction halts with
  | here stops => exact stops.namesLive h
  | through _ _ _ _ ih => exact ih

/-! ### Compilation -/

theorem namesLive_scriptOf (h : g.Assembled) (live : g.node? e = some node)
    (fails : g.scriptOf e = .error err) : g.NamesLive err := by
  by_cases event : node.kind.isEvent = true
  · obtain ⟨made, k, halts⟩ := halts_of_scriptOf h live event fails
    exact halts.namesLive h
  · have refused : g.scriptOf e = .error (.notAnEvent node.name) := by
      unfold scriptOf
      rw [nodeOrFail_eq_ok.mpr live, ok_bind, if_pos (by simpa using event)]
      rfl
    obtain rfl := Except.error.inj (fails.symm.trans refused)
    exact .of_node live rfl

theorem namesLive_compileEvent (h : g.Assembled) (live : g.node? e = some node)
    (fails : g.compileEvent style e = .error err) : g.NamesLive err := by
  unfold compileEvent at fails
  cases hscript : g.scriptOf e with
  | ok script => simp [hscript, Except.map] at fails
  | error other =>
    obtain rfl : other = err := by simpa [hscript, Except.map] using fails
    exact namesLive_scriptOf h live hscript

theorem namesLive_compileNamed (h : g.Assembled) {name : String}
    (fails : g.compileNamed style name = .error err) : g.NamesLive err := by
  unfold compileNamed at fails
  split at fails
  · rename_i node hnode
    have hmem := (List.mem_filter.mp (List.mem_of_find?_eq_some hnode)).1
    exact namesLive_compileEvent h (h.reachable.housed.node?_of_mem_live hmem) fails
  · obtain rfl := Except.error.inj fails
    exact fun x hx => absurd hx List.not_mem_nil

theorem namesLive_compileAll (h : g.Assembled) (fails : g.compileAll style = .error err) :
    g.NamesLive err := by
  rcases bind_eq_error.mp fails with fails | ⟨sources, -, fails⟩
  · obtain ⟨node, hnode, fails⟩ := exists_of_mapM_eq_error fails
    have hmem := (List.mem_filter.mp hnode).1
    exact namesLive_compileEvent h (h.reachable.housed.node?_of_mem_live hmem) fails
  · cases fails

/-- Compiling a graph fails: everything, the event that goes by a name, or a live node. -/
inductive CompilingFails (g : Graph) (style : Style) : CompileError → Prop
  | all {err : CompileError} (fails : g.compileAll style = .error err) : CompilingFails g style err
  | named {name : String} {err : CompileError} (fails : g.compileNamed style name = .error err) :
    CompilingFails g style err
  | node {n : NodeId} {node : Node} {err : CompileError} (live : g.node? n = some node)
    (fails : g.compileEvent style n = .error err) : CompilingFails g style err

/-- **Errors of compiling name live nodes.** -/
theorem CompilingFails.namesLive (h : g.Assembled) (fails : g.CompilingFails style err) :
    g.NamesLive err := by
  cases fails with
  | all fails => exact namesLive_compileAll h fails
  | named fails => exact namesLive_compileNamed h fails
  | node live fails => exact namesLive_compileEvent h live fails

end Graph

end NodeScript
