import NodeScript.Compilation
import NodeScript.Proofs.Graph.Skipped
import NodeScript.Proofs.Lowering.Unresolved

/-!
# The edges that lowering sees

Of the edges of execution connectors, lowering sees the first of each output and nothing else: it
never asks which edge an execution input has, nor whether it has one. So it can be run on the graph
without the rest (`Graph.seen`). In an assembled graph each step is the same on both
(`Assembled.scriptOf_seen`), because there all inputs that lowering reads values from are data
inputs.

Whatever changes an assembled graph, as long as it leaves what is seen, changes no script. One such
change is to make another edge from an execution output that has one already.
-/

namespace NodeScript

/-- The input as lowering sees it: an execution input without its edge. -/
def Input.seen (i : Input) : Input :=
  if i.signal.isExecution then i.bare else i

/-- The output as lowering sees it: an execution output with its first edge only. -/
def Output.seen (o : Output) : Output :=
  if o.signal.isExecution then { o with targets := o.targets.take 1 } else o

namespace Input

variable (i : Input)

@[simp] theorem toConnector_seen : i.seen.toConnector = i.toConnector := by
  unfold seen
  split <;> rfl

theorem seen_of_data {i : Input} (data : i.signal.isExecution = false) : i.seen = i := by
  simp [seen, data]

end Input

namespace Output

variable (o : Output)

@[simp] theorem toConnector_seen : o.seen.toConnector = o.toConnector := by
  unfold seen
  split <;> rfl

@[simp] theorem id_seen : o.seen.id = o.id := by
  unfold seen
  split <;> rfl

@[simp] theorem head?_targets_seen : o.seen.targets.head? = o.targets.head? := by
  unfold seen
  split
  · cases o.targets <;> rfl
  · rfl

@[simp] theorem targets_seen_eq_nil : o.seen.targets = [] ↔ o.targets = [] := by
  rw [← List.head?_eq_none_iff, head?_targets_seen, List.head?_eq_none_iff]

theorem seen_of_data {o : Output} (data : o.signal.isExecution = false) : o.seen = o := by
  simp [seen, data]

end Output

/-- A change of one row does not show if it does not show on the row that is there. -/
theorem Table.map_modify_of_get? {α : Type} {t : Table α} {f change : α → α} {i : Nat}
    (h : ∀ a, t.get? i = some a → f (change a) = f a) : (t.modify i change).map f = t.map f := by
  refine congrArg Table.mk (Array.ext (by simp [modify]) fun j hj hj' => ?_)
  simp only [modify, Array.getElem_map, Array.getElem_modify]
  split
  · subst_vars
    have slot : j < t.slots.size := by simpa using hj'
    cases hrow : t.slots[j] with
    | none => rfl
    | some a => exact congrArg some (h a (by simp [get?, slot, hrow]))
  · rfl

namespace Graph

open Lowering

/-- The graph with the edges that lowering sees. -/
def seen (g : Graph) : Graph :=
  { g with inputs := g.inputs.map Input.seen, outputs := g.outputs.map Output.seen }

variable {g : Graph} {n : NodeId} {node : Node} {i : InputId} {o : OutputId}

/-! ### What is found -/

section Views

variable (g) (n) (node) (i) (o)

@[simp] theorem node?_seen : g.seen.node? = g.node? := rfl

@[simp] theorem nodeOrFail_seen : g.seen.nodeOrFail = g.nodeOrFail := rfl

@[simp] theorem nodeCount_seen : g.seen.nodeCount = g.nodeCount := rfl

@[simp] theorem input?_seen : g.seen.input? i = (g.input? i).map Input.seen :=
  Table.get?_map ..

@[simp] theorem output?_seen : g.seen.output? o = (g.output? o).map Output.seen :=
  Table.get?_map ..

theorem inputsOf_seen : g.seen.inputsOf node = (g.inputsOf node).map Input.seen := by
  simp only [inputsOf, List.map_filterMap, input?_seen]

theorem outputsOf_seen : g.seen.outputsOf node = (g.outputsOf node).map Output.seen := by
  simp only [outputsOf, List.map_filterMap, output?_seen]

theorem inputNamed?_seen (name : String) :
    g.seen.inputNamed? n name = (g.inputNamed? n name).map Input.seen := by
  simp only [inputNamed?, node?_seen, inputsOf_seen, List.find?_map, Option.map_bind,
    Function.comp_def, Input.toConnector_seen]

theorem outputNamed?_seen (name : String) :
    g.seen.outputNamed? n name = (g.outputNamed? n name).map Output.seen := by
  simp only [outputNamed?, node?_seen, outputsOf_seen, List.find?_map, Option.map_bind,
    Function.comp_def, Output.toConnector_seen]

theorem sourceOf_seen (input : Input) :
    g.seen.sourceOf input = (g.sourceOf input).map Output.seen := by
  cases h : input.source <;> simp [sourceOf, h]

end Views

/-! ### Data connectors -/

/-- A selection of members that a change leaves as they are is the same after the change. -/
theorem filter_map_of_fixed {α : Type} {f : α → α} {p : α → Bool} (l : List α)
    (keep : ∀ a, p (f a) = p a) (fixed : ∀ a, p a = true → f a = a) :
    (l.map f).filter p = l.filter p := by
  rw [List.filter_map, show p ∘ f = p from funext keep]
  exact (List.map_congr_left fun a ha => fixed a (List.mem_filter.mp ha).2).trans (List.map_id _)

theorem dataInputs_seen (node : Node) :
    (g.seen.inputsOf node).filter (!·.signal.isExecution) =
      (g.inputsOf node).filter (!·.signal.isExecution) := by
  rw [inputsOf_seen]
  exact filter_map_of_fixed _ (by simp) fun input data => Input.seen_of_data (by simpa using data)

theorem dataOutputs_seen (node : Node) :
    (g.seen.outputsOf node).filter (!·.signal.isExecution) =
      (g.outputsOf node).filter (!·.signal.isExecution) := by
  rw [outputsOf_seen]
  exact filter_map_of_fixed _ (by simp) fun output data => Output.seen_of_data (by simpa using data)

theorem dataSources_seen (node : Node) : g.seen.dataSources node = g.dataSources node := by
  simp only [dataSources, dataInputs_seen, sourceOf_seen, Option.map_map, Function.comp_def,
    Output.toConnector_seen]

theorem dataEdges_seen (node : Node) :
    g.seen.dataEdges node = (g.dataEdges node).map fun edge => (edge.1, edge.2.seen) := by
  simp only [dataEdges, dataOutputs_seen, input?_seen, List.map_flatMap, List.map_filterMap,
    Function.comp_def, Option.map_map]

/-! ### Steps that are the same in every graph -/

/-- What follows a computation that may fail matters for its results only. -/
theorem ofExcept_bind_congr {α β : Type} {r : Except CompileError α} {f f' : α → Lowering β}
    (h : ∀ a, r = .ok a → f a = f' a) :
    (MonadExcept.ofExcept r >>= f : Lowering β) = MonadExcept.ofExcept r >>= f' := by
  cases r with
  | ok a => rw [ofExcept_ok_bind, ofExcept_ok_bind, h a rfl]
  | error e => rfl

theorem successor?_seen (m : NodeId) (pin : String) :
    g.seen.successor? m pin = g.successor? m pin := by
  simp only [successor?, outputNamed?_seen, Option.bind_map, Function.comp_def,
    Output.head?_targets_seen, input?_seen, Option.map_map, Input.toConnector_seen]

theorem operand_seen (s : Scope) (consumer : Node) (input : Input) :
    g.seen.operand s consumer input = g.operand s consumer input := by
  simp only [operand, sourceOf_seen]
  cases g.sourceOf input with
  | none => rfl
  | some o => simp

theorem assignments_seen (s : Scope) (node : Node) :
    g.seen.assignments s node = g.assignments s node := by
  simp only [assignments, dataEdges_seen, List.mapM_map, Function.comp_def, assignmentTo,
    Input.toConnector_seen, nodeOrFail_seen]

theorem callResult_seen (node : Node) (f : FunctionDecl) :
    g.seen.callResult node f = g.callResult node f := by
  simp only [callResult, outputNamed?_seen]
  cases g.outputNamed? node.id Pin.result with
  | none => rfl
  | some output => simp [castOf]

theorem localOf_seen (g : Graph) : g.seen.localOf = g.localOf := by
  funext binding
  simp only [localOf, output?_seen]
  cases g.output? binding.1 with
  | none => rfl
  | some output => simp

theorem locals_seen (g : Graph) : g.seen.locals = g.locals := by
  funext s
  simp only [locals, localOf_seen]

theorem neededCalls_seen (fuel : Nat) (expanding : List NodeId) (id : NodeId) :
    g.seen.neededCalls fuel expanding id = g.neededCalls fuel expanding id := by
  induction fuel generalizing expanding id with
  | zero => rfl
  | succ fuel ih => simp only [neededCalls, nodeOrFail_seen, dataSources_seen, ih]

/-! ### Steps that read values -/

namespace Assembled

/-- What is read under the name of a data input is seen with its edge. -/
theorem inputNamed?_seen (h : g.Assembled) {name : String} (other : name ≠ Pin.run) :
    g.seen.inputNamed? n name = g.inputNamed? n name := by
  rw [Graph.inputNamed?_seen]
  cases hi : g.inputNamed? n name with
  | none => rfl
  | some input => rw [Option.map_some, Input.seen_of_data (h.data_of_inputNamed? hi other)]

theorem operandNamed_seen (h : g.Assembled) {name : String} (other : name ≠ Pin.run) (s : Scope)
    (node : Node) : g.seen.operandNamed s node name = g.operandNamed s node name := by
  simp only [operandNamed, h.inputNamed?_seen other, operand_seen]

theorem callForm_seen (h : g.Assembled) (node : Node) (f : FunctionDecl)
    (arguments : List Argument) :
    g.seen.callForm node f arguments = g.callForm node f arguments := by
  have other : Pin.target ≠ Pin.run := by decide
  simp only [callForm, connectedOperand, h.inputNamed?_seen other, operand_seen]

/-- Whatever the name of a parameter, what is passed in for it is a value. -/
theorem argument_seen (h : g.Assembled) (hn : g.node? node.id = some node) {f : FunctionDecl}
    {archetype : Option Archetype} (hcallee : node.kind.callee? = some ⟨some f, archetype⟩)
    {p : Parameter} (hp : p ∈ f.arguments) :
    g.seen.argument node archetype p = g.argument node archetype p := by
  unfold argument
  cases supported : p.type.signal.isSupported with
  | false => simp
  | true =>
    cases passed : p.out with
    | true =>
      rw [outputNamed?_seen]
      cases g.outputNamed? node.id p.name <;> simp
    | false =>
      have value : g.seen.inputNamed? node.id p.name = g.inputNamed? node.id p.name := by
        rw [Graph.inputNamed?_seen]
        cases hi : g.inputNamed? node.id p.name with
        | none => rfl
        | some input =>
          rw [Option.map_some,
            Input.seen_of_data (h.data_of_argument hn hcallee hp passed supported hi)]
      simp only [value, operand_seen, Bool.false_eq_true, if_false]

theorem callStatement_seen (h : g.Assembled) (n : NodeId) :
    g.seen.callStatement n = g.callStatement n := by
  refine ofExcept_bind_congr fun node hn => ofExcept_bind_congr fun (f, archetype) hcallee => ?_
  have live : g.node? n = some node := nodeOrFail_eq_ok.mp hn
  obtain rfl := h.reachable.housed.node_id live
  have arguments : f.arguments.mapM (g.seen.argument node archetype) =
      f.arguments.mapM (g.argument node archetype) :=
    mapM_congr fun p hp => h.argument_seen live (callee?_of_calleeOf hcallee) hp
  simp only [callResult_seen, arguments, h.callForm_seen]

theorem pureCalls_seen (h : g.Assembled) (n : NodeId) : g.seen.pureCalls n = g.pureCalls n := by
  have statements : g.seen.callStatement = g.callStatement := funext h.callStatement_seen
  simp only [pureCalls, nodeCount_seen, neededCalls_seen, statements]

/-! ### The flow of control -/

theorem lowerBehind_seen (lower : NodeId → Lowering Block) (m : NodeId) (pin : String)
    (blame : Blame) : g.seen.lowerBehind lower m pin blame = g.lowerBehind lower m pin blame := by
  simp only [lowerBehind, successor?_seen, nodeOrFail_seen]

theorem lowerKind_seen (h : g.Assembled) (lower : NodeId → Lowering Block) (node : Node) :
    g.seen.lowerKind lower node = g.lowerKind lower node := by
  have condition : Pin.condition ≠ Pin.run := by decide
  have count : Pin.count ≠ Pin.run := by decide
  unfold lowerKind
  cases node.kind with
  | call callee =>
    simp only [lowerCall, h.pureCalls_seen, h.callStatement_seen, nodeOrFail_seen,
      assignments_seen, lowerBehind_seen]
  | branch =>
    simp only [lowerBranch, h.pureCalls_seen, nodeOrFail_seen, h.operandNamed_seen condition,
      lowerBehind_seen]
  | loop =>
    simp only [lowerLoop, h.pureCalls_seen, nodeOrFail_seen, h.operandNamed_seen count,
      assignments_seen, lowerBehind_seen, outputNamed?_seen]
    cases g.outputNamed? node.id Pin.counter <;> simp only [Option.map, Output.id_seen]
  | event _ _ | pureCall _ | member _ => rfl

theorem lowerUpTo_seen (h : g.Assembled) (fuel : Nat) :
    g.seen.lowerUpTo fuel = g.lowerUpTo fuel := by
  induction fuel with
  | zero => rfl
  | succ fuel ih =>
    funext n
    simp only [lowerUpTo, nodeOrFail_seen, ih, h.lowerKind_seen]

theorem lowerEvent_seen (h : g.Assembled) (e : NodeId) :
    g.seen.lowerEvent e = g.lowerEvent e := by
  simp only [lowerEvent, lowerEventBy, lower, nodeCount_seen, nodeOrFail_seen, dataOutputs_seen,
    successor?_seen, h.lowerUpTo_seen, lowerBehind_seen, locals_seen]

/-- **Lowering sees no more edges than these.** -/
theorem scriptOf_seen (h : g.Assembled) (e : NodeId) : g.seen.scriptOf e = g.scriptOf e := by
  simp only [scriptOf, nodeOrFail_seen, h.lowerEvent_seen]

/-- Assembled graphs with the same edges to see have the same scripts. -/
theorem scriptOf_eq_of_seen {g' : Graph} (h : g.Assembled) (h' : g'.Assembled)
    (same : g'.seen = g.seen) (e : NodeId) : g'.scriptOf e = g.scriptOf e := by
  rw [← h'.scriptOf_seen, same, h.scriptOf_seen]

end Assembled

/-! ### Changes that are not seen -/

theorem seen_modifyInput {change : Input → Input}
    (h : ∀ input, g.input? i = some input → (change input).seen = input.seen) :
    (g.modifyInput i change).seen = g.seen := by
  rw [seen, modifyInput, Table.map_modify_of_get? h, seen]

theorem seen_modifyOutput {change : Output → Output}
    (h : ∀ output, g.output? o = some output → (change output).seen = output.seen) :
    (g.modifyOutput o change).seen = g.seen := by
  rw [seen, modifyOutput, Table.map_modify_of_get? h, seen]

section Unseen

variable {output : Output} {input : Input}

/-- The edge of an execution input is not seen. -/
theorem seen_modifySource (hi : g.input? i = some input)
    (execution : input.signal.isExecution = true) (source : Option OutputId) :
    (g.modifyInput i ({ · with source })).seen = g.seen := by
  refine seen_modifyInput fun found hfound => ?_
  obtain rfl : input = found := Option.some.inj (hi.symm.trans hfound)
  simp [Input.seen, Input.bare, execution]

/-- Another edge of an execution output is not seen. -/
theorem seen_modifyTargets (ho : g.output? o = some output)
    (execution : output.signal.isExecution = true) (connected : output.targets ≠ [])
    (i : InputId) :
    (g.modifyOutput o fun out => { out with targets := out.targets ++ [i] }).seen = g.seen := by
  refine seen_modifyOutput fun found hfound => ?_
  obtain rfl : output = found := Option.some.inj (ho.symm.trans hfound)
  have first : (output.targets ++ [i]).take 1 = output.targets.take 1 :=
    List.take_append_of_le_length (List.length_pos_iff.mpr connected)
  simp [Output.seen, execution, first]

/-- An execution edge more is not seen, if its output has one already. -/
theorem seen_link_unplug (ho : g.output? o = some output)
    (hout : output.signal.isExecution = true) (connected : output.targets ≠ [])
    (hi : g.input? i = some input) (hin : input.signal.isExecution = true) :
    ((g.unplug i).link o i).seen = g.seen := by
  let unplugged := g.unplug i
  let listed := unplugged.modifyOutput o fun out => { out with targets := out.targets ++ [i] }
  have kept : unplugged.output? o = some output := ho
  have still : listed.input? i = some { input with source := none } := by
    simp [listed, unplugged, unplug, input?_modifyInput, hi]
  calc ((g.unplug i).link o i).seen = listed.seen := seen_modifySource still hin (some o)
    _ = unplugged.seen := seen_modifyTargets kept hout connected i
    _ = g.seen := seen_modifySource hi hin none

/-- **Another edge of an execution output does nothing.** In an assembled graph, let an execution
output have an edge already, and let an execution input have none. Connecting the two, under any
policy that allows execution outputs several edges, is accepted and makes one edge more, the last of
the output. Then every event has the script that it had, or fails with the error that it had, and
the texts are the same in every style. -/
theorem scriptOf_fanned_out (h : g.Assembled) (ho : g.output? o = some output)
    (hout : output.signal = .execution) (connected : output.targets ≠ [])
    (hi : g.input? i = some input) (hin : input.signal = .execution) (free : input.source = none)
    {fanOut : FanOut} (allowed : fanOut .execution = true) :
    let g' := (g.apply (.connect o i fanOut)).2
    (g.apply (.connect o i fanOut)).1 = .ok .done ∧ g'.edgeLists o = some (output.targets ++ [i]) ∧
      (∀ e, g'.scriptOf e = g.scriptOf e) ∧
      (∀ style e, g'.compileEvent style e = g.compileEvent style e) ∧
      ∀ style, g'.compileAll style = g.compileAll style := by
  have made : g.connect o i fanOut = .ok ((g.unplug i).link o i) := by
    have alike : output.signal = input.signal := hout.trans hin.symm
    refine connect_eq_ok.mpr ⟨output, ho, input, hi, alike, g, ?_, g.unplug i, ?_, rfl⟩
    · rw [hout, if_pos allowed]
    · exact breakInput_eq_ok.mpr ⟨input, hi, by rw [free, severed]⟩
  have same : ((g.unplug i).link o i).seen = g.seen :=
    seen_link_unplug ho (by rw [hout]; rfl) connected hi (by rw [hin]; rfl)
  have edges : ((g.unplug i).link o i).edgeLists o = some (output.targets ++ [i]) := by
    have kept : (g.unplug i).output? o = some output := ho
    simp [edgeLists, output?_link, kept]
  generalize (g.unplug i).link o i = g' at made same edges
  have applied : g.apply (.connect o i fanOut) = (.ok .done, g') := by
    simp [apply, made, Except.map, settle]
  have assembled : g'.Assembled := by
    have after := h.apply (e := .connect o i fanOut) rfl
    rwa [applied] at after
  have scripts : ∀ e, g'.scriptOf e = g.scriptOf e := h.scriptOf_eq_of_seen assembled same
  have texts : ∀ style e, g'.compileEvent style e = g.compileEvent style e := fun style e => by
    rw [compileEvent, scripts, compileEvent]
  rw [applied]
  refine ⟨rfl, edges, scripts, texts, fun style => ?_⟩
  have nodes : g'.nodes = g.nodes := (congrArg Graph.nodes same :)
  simp only [compileAll, events, nodes, texts]

end Unseen

/-- An event that leads to the first of two calls. -/
def attending : Graph :=
  (empty "Attend").run
    [.place ticks, .place logging, .place logging, .connect ⟨0⟩ ⟨0⟩ .any]

/-- If the event of `attending` is connected to the second call too, it keeps its script. -/
theorem scriptOf_fanned_out_attending :
    let g' := (attending.apply (.connect ⟨0⟩ ⟨3⟩ .any)).2
    attending.Assembled ∧ attending.edgeLists ⟨0⟩ = some [⟨0⟩] ∧
      g'.edgeLists ⟨0⟩ = some [⟨0⟩, ⟨3⟩] ∧
      ∃ script, attending.scriptOf ⟨0⟩ = .ok script ∧ g'.scriptOf ⟨0⟩ = .ok script := by
  have assembled : attending.Assembled := ⟨_, _, by decide, rfl⟩
  obtain ⟨output, ho, hout, targets⟩ : ∃ output, attending.output? ⟨0⟩ = some output ∧
      output.signal = .execution ∧ output.targets = [⟨0⟩] := ⟨_, rfl, rfl, rfl⟩
  obtain ⟨input, hi, hin, free⟩ : ∃ input, attending.input? ⟨3⟩ = some input ∧
      input.signal = .execution ∧ input.source = none := ⟨_, rfl, rfl, rfl⟩
  obtain ⟨script, ok⟩ : ∃ script, attending.scriptOf ⟨0⟩ = .ok script := ⟨_, rfl⟩
  have connected : output.targets ≠ [] := by simp [targets]
  have allowed : FanOut.any .execution = true := rfl
  obtain ⟨-, edges, scripts, -⟩ :=
    scriptOf_fanned_out assembled ho hout connected hi hin free allowed
  rw [targets] at edges
  refine ⟨assembled, ?_, edges, script, ok, (scripts ⟨0⟩).trans ok⟩
  rw [edgeLists, ho, Option.map_some, targets]

end Graph

end NodeScript
