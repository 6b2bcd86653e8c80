import NodeScript.Proofs.Lowering.Shown

/-!
# How making a statement fails

In an assembled graph the statement of a call can be made unless the call is an operator without two
arguments, or one of its values comes over an edge from an output without a variable
(`callStatement_fails`). The latter is also the only way in which a condition or a number of runs
can fail (`Unresolved`). The assignments after a statement never fail, because what was made shows
its outputs.
-/

namespace NodeScript.Graph

open Lowering
open NodeScript.Except (bind_eq_error exists_of_mapM_eq_error ok_bind)

variable {g : Graph} {n : NodeId} {node source consumer : Node} {s s' t : Scope}
  {err : CompileError} {f : FunctionDecl} {archetype : Option Archetype}

/-- An edge from an output of `source` to an input of `consumer`. -/
structure Edge (g : Graph) (source : Node) (output : Output) (input : Input) (consumer : Node) :
    Prop where
  source_live : g.node? output.owner = some source
  output_live : g.output? output.id = some output
  mem_targets : input.id ∈ output.targets
  input_live : g.input? input.id = some input
  consumer_live : g.node? input.owner = some consumer

/-- The error names an edge that brings a value of another node to `consumer`, and that comes from
an output without a variable. -/
def Unresolved (g : Graph) (s : Scope) (consumer : Node) (err : CompileError) : Prop :=
  ∃ source output input, g.Edge source output input consumer ∧
    output.signal.isExecution = false ∧ source.kind.member? = none ∧
      s.nameOf? output.id = none ∧ err = .unresolvedValue output.name source.name consumer.name

/-- What has no variable had none before. -/
theorem Unresolved.of_grows (h : g.Unresolved t consumer err) (grows : s.Grows t) :
    g.Unresolved s consumer err := by
  obtain ⟨source, output, input, edge, data, plain, unset, rfl⟩ := h
  refine ⟨source, output, input, edge, data, plain, ?_, rfl⟩
  rw [← Option.not_isSome_iff_eq_none]
  intro hset
  have later := grows _ hset
  rw [unset] at later
  cases later

/-! ### Values -/

/-- A value fails if it comes over an edge from an output without a variable. -/
theorem operand_fails (h : g.Reachable) {name : String} {input : Input}
    (hi : g.inputNamed? node.id name = some input) (hn : g.node? node.id = some node)
    (data : input.signal.isExecution = false) (hf : g.operand s node input = .error err) :
    g.Unresolved s node err := by
  obtain ⟨live, owner, -⟩ := h.housed.of_inputNamed? hi
  unfold operand at hf
  cases hs : g.sourceOf input with
  | none =>
    rw [hs] at hf
    cases hf
  | some output =>
    rw [hs] at hf
    obtain ⟨o, hsource, ho⟩ := Option.bind_eq_some_iff.mp hs
    obtain rfl : output.id = o := h.housed.output_id ho
    obtain ⟨source, howner⟩ := h.housed.output_owner ho
    obtain ⟨output', ho', hmem⟩ := (h.consistent.feeds_iff _ _).mpr ⟨input, live, hsource⟩
    obtain rfl : output = output' := Option.some.inj (ho.symm.trans ho')
    have hsignal := h.consistent.signal_eq ⟨input, live, hsource⟩
    simp only [signalOut, signalIn, ho, live, Option.map_some, Option.some.injEq] at hsignal
    simp only [nodeOrFail_eq_ok.mpr howner, ok_bind] at hf
    split at hf
    · cases hf
    · rename_i plain
      split at hf
      · cases hf
      · rename_i unset
        obtain rfl := Except.error.inj hf
        exact ⟨source, output, input, ⟨howner, ho, hmem, live, owner ▸ hn⟩, hsignal ▸ data, plain,
          unset, rfl⟩

theorem operandNamed_fails (h : g.Assembled) {name : String} (hn : g.node? node.id = some node)
    (value : name ≠ Pin.run) (hf : g.operandNamed s node name = .error err) :
    g.Unresolved s node err := by
  unfold operandNamed at hf
  split at hf
  · rename_i input hi
    have data := h.data_of_inputNamed? hi value
    cases ho : g.operand s node input with
    | ok value =>
      rw [ho] at hf
      cases hf
    | error e =>
      rw [ho] at hf
      cases hf
      exact operand_fails h.reachable hi hn data ho
  · cases hf

theorem connectedOperand_fails (h : g.Assembled) {name : String} (hn : g.node? node.id = some node)
    (value : name ≠ Pin.run) (hf : g.connectedOperand s node name = .error err) :
    g.Unresolved s node err := by
  unfold connectedOperand at hf
  split at hf
  · rename_i input hi
    have data := h.data_of_inputNamed? hi value
    split at hf
    · cases ho : g.operand s node input with
      | ok value =>
        rw [ho] at hf
        cases hf
      | error e =>
        rw [ho] at hf
        cases hf
        exact operand_fails h.reachable hi hn data ho
    · cases hf
  · cases hf

/-! ### Calls -/

theorem not_fails_callResult : ¬ (g.callResult node f).Fails s err s' := by
  intro hf
  unfold callResult at hf
  split at hf
  · exact fails_pure hf
  · split at hf
    · exact fails_pure hf
    · rcases fails_bind.mp hf with hname | ⟨name, t, -, hf⟩
      · exact fails_bindFresh hname
      · exact fails_pure hf

/-- What is passed in to a call is a value. -/
theorem Assembled.data_of_argument (h : g.Assembled) (hn : g.node? n = some node)
    (hcallee : node.kind.callee? = some ⟨some f, archetype⟩) {p : Parameter} (hp : p ∈ f.arguments)
    (passed : p.out = false) (supported : p.type.signal.isSupported = true) {input : Input}
    (hi : g.inputNamed? n p.name = some input) : input.signal.isExecution = false := by
  obtain ⟨q, -, hkind, hshape⟩ := h.placement hn
  obtain ⟨_, resultClass, hf, hconnectors, -⟩ := Placement.of_callee? (hkind ▸ hcallee)
  obtain rfl := Option.some.inj hf
  obtain ⟨spec, hs, side, hname, data⟩ :
      ∃ spec ∈ Placement.callConnectors f resultClass, spec.direction = .input ∧
        spec.name = p.name ∧ spec.signal.isExecution = false :=
    Placement.input_of_argument hp passed supported
  rw [h.signal_of_inputNamed? hshape (hconnectors ▸ hs) side (hname ▸ hi)]
  exact data

theorem argument_fails (h : g.Assembled) (hn : g.node? node.id = some node)
    (hcallee : node.kind.callee? = some ⟨some f, archetype⟩) {p : Parameter} (hp : p ∈ f.arguments)
    (hf : (g.argument node archetype p).Fails s err s') : g.Unresolved s node err := by
  rcases g.argument_cases node archetype p with ⟨c, hmade⟩ | hpassed
  · rw [hmade] at hf
    exact absurd hf fails_pure
  rw [hpassed] at hf
  unfold passed at hf
  split at hf
  · exact absurd hf fails_pure
  rename_i supported
  split at hf
  · split at hf
    · rcases fails_bind.mp hf with hname | ⟨name, t, -, hf⟩
      · exact absurd hname fails_bindFresh
      · exact absurd hf fails_pure
    · exact absurd hf fails_pure
  · rename_i out
    split at hf
    · rename_i input hi
      rcases fails_bind.mp hf with hread | ⟨value, t, -, hf⟩
      · have data := h.data_of_argument hn hcallee hp (by simpa using out)
          (by simpa using supported) hi
        exact operand_fails h.reachable hi hn data (fails_reading.mp hread).1
      · exact absurd hf fails_pure
    · exact absurd hf fails_pure

/-- Making the arguments fails if a value among them does. -/
theorem arguments_fail (h : g.Assembled) (hn : g.node? node.id = some node)
    (hcallee : node.kind.callee? = some ⟨some f, archetype⟩)
    (hf : Lowering.Fails (f.arguments.mapM (g.argument node archetype)) s err s') :
    g.Unresolved s node err := by
  obtain ⟨pre, p, post, as, t, hps, hpre, hp⟩ := fails_mapM hf
  have unresolved := argument_fails h hn hcallee (by simp [hps]) hp
  exact unresolved.of_grows (gives_arguments hpre).1.grows

/-- Putting a call together fails for an operator without two arguments, or if the object that the
function is called on fails. -/
theorem callForm_fails (h : g.Assembled) (hn : g.node? node.id = some node) {as : List Argument}
    (hf : (g.callForm node f as).Fails s err s') :
    (f.flags.operator = true ∧ as.length ≠ 2 ∧ err = .arityMismatch node.name as.length) ∨
      g.Unresolved s node err := by
  unfold callForm at hf
  split at hf
  · rename_i operator
    split at hf
    · exact absurd hf fails_pure
    · rename_i arity
      obtain ⟨rfl, -⟩ := fails_throw.mp hf
      refine .inl ⟨operator, fun two => ?_, rfl⟩
      obtain ⟨left, right, rfl⟩ := List.length_eq_two.mp two
      exact arity left right rfl
  · rcases fails_bind.mp hf with hread | ⟨target, t, -, hf⟩
    · exact .inr (connectedOperand_fails h hn (by decide) (fails_reading.mp hread).1)
    · exact absurd hf fails_pure

/-- **How the statement of a call fails.** The call is an operator without two arguments, or one of
its values comes over an edge from an output without a variable. -/
theorem callStatement_fails (h : g.Assembled) (hn : g.node? n = some node) {callee : Callee}
    (kind : node.kind.callee? = some callee) (hf : (g.callStatement n).Fails s err s') :
    (∃ f, callee.function = some f ∧ f.flags.operator = true ∧ f.arguments.length ≠ 2 ∧
      err = .arityMismatch node.name f.arguments.length) ∨ g.Unresolved s node err := by
  obtain ⟨f, hfunction, -⟩ := h.nodup_yields hn kind
  obtain rfl := h.reachable.housed.node_id hn
  have hcallee : node.kind.callee? = some ⟨some f, callee.archetype⟩ := by rw [kind, ← hfunction]
  have found : calleeOf node = .ok (f, callee.archetype) := by rw [calleeOf, hcallee]
  unfold callStatement at hf
  rw [nodeOrFail_eq_ok.mpr hn, ofExcept_ok_bind, found, ofExcept_ok_bind] at hf
  rcases fails_bind.mp hf with hresult | ⟨⟨result, cast⟩, t₁, hresult, hf⟩
  · exact absurd hresult not_fails_callResult
  rcases fails_bind.mp hf with harguments | ⟨as, t₂, harguments, hf⟩
  · have unresolved := arguments_fail h hn hcallee harguments
    exact .inr (unresolved.of_grows (asks_callResult hresult).gives.1.grows)
  rcases fails_bind.mp hf with hform | ⟨form, t₃, -, hf⟩
  · have grows := (asks_callResult hresult).gives.1.grows.trans (gives_arguments harguments).1.grows
    refine (callForm_fails h hn hform).imp (fun ⟨operator, arity, herr⟩ => ?_)
      (·.of_grows grows)
    rw [length_of_returns_mapM harguments] at arity herr
    exact ⟨f, hfunction, operator, arity, herr⟩
  · exact absurd hf fails_pure

/-! ### Assignments -/

/-- **Assignments do not fail** for a node that shows its outputs. -/
theorem assignments_ne_error (h : g.Housed) (hn : g.node? n = some node) (shows : g.Shows s n) :
    g.assignments s node ≠ .error err := by
  intro hf
  rcases bind_eq_error.mp hf with hf | ⟨found, -, hf⟩
  · obtain ⟨⟨output, input⟩, hmem, hf⟩ := exists_of_mapM_eq_error hf
    obtain ⟨output', houtput, hedge⟩ := List.mem_flatMap.mp hmem
    obtain ⟨input', hinput, heq⟩ := List.mem_map.mp hedge
    obtain ⟨rfl, rfl⟩ := Prod.mk.inj heq
    obtain ⟨houtput, data⟩ := List.mem_filter.mp houtput
    obtain ⟨live, owner⟩ := (h.mem_outputsOf hn).mp houtput
    obtain ⟨i, hi, hinput⟩ := List.mem_filterMap.mp hinput
    obtain ⟨target, htarget⟩ := h.inputs.owner_live hinput
    have named := shows output' live owner (by simpa using data) (List.ne_nil_of_mem hi)
    obtain ⟨name, hname⟩ := Option.isSome_iff_exists.mp named
    simp only [assignmentTo, nodeOrFail_eq_ok.mpr htarget, ok_bind] at hf
    split at hf
    · cases hf
    · split at hf
      · cases hf
      · rw [hname] at hf
        cases hf
  · cases hf

end NodeScript.Graph
