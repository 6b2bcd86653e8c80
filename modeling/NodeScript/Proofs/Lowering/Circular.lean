import NodeScript.Proofs.Lowering.Agreement
import NodeScript.Proofs.Lowering.Unresolved

/-!
# Which circular values are refused

The line of a node may show a value that comes from another node of the script, and so on, and this
may lead back to the first. Such a circle never gets into a script if it goes through two nodes,
because a producer stands further up than its consumers. It may if it goes through one node: a call
that orders statements is given variables before it looks at its values, so that it may show what it
sets itself. Calls without effects, branches and loops cannot. So a script has a circle exactly if
one of its calls takes the value of an output of its own that it is bound to by then
(`circular_iff`).
-/

namespace NodeScript

/-- The nodes that the lines of a script come from, in the order of the text. -/
def EventScript.nodes (script : EventScript) : List NodeId :=
  script.statements.heads.map Head.node

namespace Graph

open Lowering Relation

variable {g : Graph} {m n e : NodeId} {node : Node} {s' : Scope} {script : EventScript}
  {head : Head} {before after : List Head} {use : Use} {input : Input} {o : OutputId}

/-- An edge goes from an output of `m` to an input whose value the line of `n` shows. -/
def Supplies (g : Graph) (m n : NodeId) : Prop :=
  ∃ use input o, g.Takes n use input ∧ input.source = some o ∧ g.ownerOf? o = some m

/-- Both nodes have lines in the script, and the line of `n` shows a value of `m`. -/
def SuppliesIn (g : Graph) (script : EventScript) (m n : NodeId) : Prop :=
  m ∈ script.nodes ∧ n ∈ script.nodes ∧ g.Supplies m n

/-- A call that orders statements takes the value of an output of its own which has got its variable
when the call looks at the value. -/
def SuppliesItself (g : Graph) (n : NodeId) : Prop :=
  (∃ node callee, g.node? n = some node ∧ node.kind = .call callee) ∧
    ∃ use input o, g.Takes n use input ∧ input.source = some o ∧ o ∈ g.boundBefore n use

/-! ### One node -/

/-- What is bound before a value is looked at are outputs of the node. -/
theorem ownerOf?_boundBefore (h : g.Housed) (ho : o ∈ g.boundBefore n use) :
    g.ownerOf? o = some n := by
  have result : ∀ {o}, g.resultOutput? n = some o → g.ownerOf? o = some n := by
    intro o ho
    obtain ⟨output, hfilter, rfl⟩ := Option.map_eq_some_iff.mp ho
    exact ownerOf?_outputNamed? h (Option.filter_eq_some_iff.mp hfilter).1
  have passed : ∀ {archetype} {ps : List Parameter},
      o ∈ ps.filterMap (g.passedOutput? n archetype) → g.ownerOf? o = some n := by
    intro archetype ps ho
    obtain ⟨p, -, hp⟩ := List.mem_filterMap.mp ho
    obtain ⟨-, output, houtput, rfl⟩ := passedOutput?_eq_some hp
    exact ownerOf?_outputNamed? h houtput
  unfold boundBefore at ho
  split at ho
  · exact (List.mem_append.mp ho).elim (fun ho => result (Option.mem_toList.mp ho)) passed
  · exact (List.mem_append.mp ho).elim (fun ho => result (Option.mem_toList.mp ho)) passed
  · cases ho

theorem SuppliesItself.supplies (h : g.SuppliesItself n) (housed : g.Housed) : g.Supplies n n := by
  obtain ⟨-, use, input, o, takes, edge, bound⟩ := h
  exact ⟨use, input, o, takes, edge, ownerOf?_boundBefore housed bound⟩

/-- What a line takes is a value. -/
theorem Takes.data (h : g.Takes n use input) (assembled : g.Assembled) :
    input.signal.isExecution = false := by
  cases h with
  | argument live calls place _ passed supported found =>
    exact assembled.data_of_argument live (callee?_of_calleeOf calls)
      (List.mem_of_getElem? place) passed supported found
  | target _ _ _ found _ | condition _ _ found | bound _ _ found =>
    exact assembled.data_of_inputNamed? found (by decide)

/-- A node reads from those that supply it. -/
theorem Supplies.reads (h : g.Supplies m n) (assembled : g.Assembled) : g.Reads n m := by
  obtain ⟨use, input, o, takes, edge, howner⟩ := h
  have housed := assembled.reachable.housed
  obtain ⟨live, owner⟩ := takes.live housed
  obtain ⟨node, hn⟩ := housed.inputs.owner_live live
  obtain ⟨output, ho, hm⟩ := Option.map_eq_some_iff.mp howner
  refine ⟨node, owner ▸ hn, input.id, ?_, input, live, takes.data assembled, o, edge, output, ho,
    hm⟩
  exact (housed.inputs.mem_listed hn).mpr ⟨input, live, rfl⟩

/-- Only calls are bound to anything before they look at a value. -/
theorem callee?_of_boundBefore (ho : o ∈ g.boundBefore n use) :
    ∃ node callee, g.node? n = some node ∧ node.kind.callee? = some callee := by
  unfold boundBefore at ho
  split at ho
  case h_3 => cases ho
  case h_1 hmap | h_2 hmap =>
    obtain ⟨node, live, calls⟩ := Option.map_eq_some_iff.mp hmap
    exact ⟨node, _, live, callee?_of_calleeOf calls⟩

/-! ### Two nodes -/

/-- A line comes from a node of its form. -/
theorem Written.form_head (h : g.Written e script node s')
    (hhead : head ∈ script.statements.heads) :
    ∃ node, g.node? head.node = some node ∧ node.kind.form? = some head.form := by
  refine h.lowered.form_emitted ?_
  rw [Block.emitted_eq]
  exact List.mem_map_of_mem hhead

/-- A call without effects does not supply itself in a script. -/
theorem Written.not_supplies_itself (h : g.Written e script node s') (assembled : g.Assembled)
    (hn : n ∈ script.nodes) (pure : g.IsPureCall n) : ¬ g.Supplies n n := by
  intro supplies
  obtain ⟨head, hhead, rfl⟩ := List.mem_map.mp hn
  have visited : head.node ∈ s'.visited := by
    rw [h.lowered.visited_perm.mem_iff, Block.emitted_eq, List.map_map]
    exact List.mem_append_left _ (List.mem_map_of_mem (f := Head.node) hhead)
  exact h.settled.acyclic visited pure (.single ⟨supplies.reads assembled, pure⟩)

/-- **What a line shows of a node with a line is from further up, or from itself.** -/
theorem Written.supplied (h : g.Written e script node s') (assembled : g.Assembled)
    (place : script.statements.heads = before ++ head :: after) (hm : m ∈ script.nodes)
    (supplies : g.Supplies m head.node) :
    m ∈ before.map Head.node ∨ m = head.node ∧ g.SuppliesItself m := by
  obtain ⟨use, input, o, takes, edge, howner⟩ := supplies
  obtain ⟨source, hsource, rfl⟩ := List.mem_map.mp hm
  obtain ⟨sourceNode, live, form⟩ := h.form_head hsource
  obtain ⟨operand, -, explained⟩ := h.explained assembled.reachable place takes
  have owner : ∀ {output : Output}, input.source = some output.id →
      g.output? output.id = some output → output.owner = source.node := by
    intro output hedge ho
    obtain rfl : o = output.id := Option.some.inj (edge.symm.trans hedge)
    exact owner_eq ho howner
  cases explained with
  | literal free => cases free.symm.trans edge
  -- neither a member variable nor the event has a line
  | member hedge ho hlive kind =>
    rw [owner hedge ho, live] at hlive
    cases hlive
    cases hkind : sourceNode.kind <;> simp_all [NodeKind.form?, NodeKind.member?]
  | parameter hedge ho hevent listed =>
    obtain ⟨name, f, kind⟩ := h.event
    rw [← owner hedge ho, hevent, h.live] at live
    cases live
    simp [kind, NodeKind.form?] at form
  | earlier hedge ho above hproducer sets declared =>
    exact .inl ((owner hedge ho).symm.trans hproducer ▸ List.mem_map_of_mem above)
  | own hedge ho hself sets bound =>
    have same : source.node = head.node := (owner hedge ho).symm.trans hself
    refine .inr ⟨same, ?_, use, input, _, same ▸ takes, hedge, same ▸ bound⟩
    obtain ⟨callerNode, callee, hcaller, hcallee⟩ := callee?_of_boundBefore bound
    cases hkind : callerNode.kind with
    | call callee => exact ⟨callerNode, callee, same ▸ hcaller, hkind⟩
    | pureCall callee =>
      have pure : g.IsPureCall source.node := ⟨callerNode, same ▸ hcaller, by rw [hkind]; rfl⟩
      have itself : g.Supplies source.node source.node :=
        ⟨use, input, o, same ▸ takes, edge, howner⟩
      exact absurd itself (h.not_supplies_itself assembled hm pure)
    | event | branch | loop | member =>
      rw [hkind] at hcallee
      cases hcallee

/-- What supplies a line is its own node, or a node with a line further up. -/
theorem Written.idxOf_lt (h : g.Written e script node s') (assembled : g.Assembled)
    (supplies : g.SuppliesIn script m n) :
    m = n ∧ g.SuppliesItself m ∨ script.nodes.idxOf m < script.nodes.idxOf n := by
  obtain ⟨hm, hn, hmn⟩ := supplies
  obtain ⟨head, hhead, rfl⟩ := List.mem_map.mp hn
  obtain ⟨before, after, place⟩ := List.append_of_mem hhead
  have distinct := h.nodup_heads assembled.reachable.housed
  have nodes : script.nodes = before.map Head.node ++ head.node :: after.map Head.node := by
    simp [EventScript.nodes, place]
  rcases h.supplied assembled place hm hmn with above | itself
  · have unlisted : head.node ∉ before.map Head.node := by
      rw [EventScript.nodes] at nodes
      rw [nodes] at distinct
      exact fun hmem => (List.nodup_append.mp distinct).2.2 _ hmem _ (.head _) rfl
    refine .inr ?_
    rw [nodes, List.idxOf_append_of_mem above, List.idxOf_append_of_notMem unlisted,
      List.idxOf_cons_self]
    exact Nat.lt_add_right _ (List.idxOf_lt_length_of_mem above)
  · exact .inl itself

/-- **Which circular values get into a script.** In an assembled graph let an event have a script.
Two different nodes with lines in it never supply each other, in however many steps. And a node
supplies itself, in one or more steps, exactly if it has a line and is a call that orders statements
and takes the value of an output of its own that has got its variable by then: the output for the
result, or that of a parameter which stands before the one that takes the value, or of any
parameter if the value is the object that the function is called on. -/
theorem circular_iff (h : g.Assembled) (ok : g.scriptOf e = .ok script) :
    (∀ m n, TransGen (g.SuppliesIn script) m n → TransGen (g.SuppliesIn script) n m → m = n) ∧
      ∀ n, TransGen (g.SuppliesIn script) n n ↔ n ∈ script.nodes ∧ g.SuppliesItself n := by
  have housed := h.reachable.housed
  obtain ⟨node, s', written⟩ := written_of_scriptOf housed ok
  -- a way leads down the script, unless it stays at one node
  have way : ∀ {m n}, TransGen (g.SuppliesIn script) m n →
      m = n ∧ m ∈ script.nodes ∧ g.SuppliesItself m ∨
        script.nodes.idxOf m < script.nodes.idxOf n := by
    intro m n hway
    induction hway with
    | single first => exact (written.idxOf_lt h first).imp_left fun ⟨same, itself⟩ =>
        ⟨same, first.1, itself⟩
    | tail _ last ih =>
      rcases ih with ⟨rfl, hm, itself⟩ | lower <;>
        rcases written.idxOf_lt h last with ⟨rfl, -⟩ | lower'
      · exact .inl ⟨rfl, hm, itself⟩
      · exact .inr lower'
      · exact .inr lower
      · exact .inr (Nat.lt_trans lower lower')
  refine ⟨fun m n hmn hnm => ?_, fun n => ⟨fun hn => ?_, fun ⟨hn, itself⟩ => ?_⟩⟩
  · rcases way hmn with ⟨same, -⟩ | lower
    · exact same
    · rcases way hnm with ⟨same, -⟩ | lower'
      · exact same.symm
      · exact absurd lower (Nat.lt_asymm lower')
  · rcases way hn with ⟨-, listed, itself⟩ | lower
    · exact ⟨listed, itself⟩
    · exact absurd lower (Nat.lt_irrefl _)
  · exact .single ⟨hn, hn, itself.supplies housed⟩

/-- An event that leads to a call which takes what it returns itself. -/
def selfSupplied : Graph :=
  let next := { FunctionDecl.callable "Actor" "Next" with
    params := [.input "Value" .int, .returns .int] }
  (empty "Next").run [.place (.event (FunctionDecl.callable "Actor" "Tick").asEvent),
    .place (.call next none), .connect ⟨0⟩ ⟨0⟩ .any, .connect ⟨2⟩ ⟨2⟩ .any]

/-- The call has got the variable for its result when it looks at its argument. -/
theorem circular_iff_selfSupplied :
    selfSupplied.Assembled ∧ ∃ script, selfSupplied.scriptOf ⟨0⟩ = .ok script ∧
      selfSupplied.SuppliesItself ⟨1⟩ ∧ TransGen (selfSupplied.SuppliesIn script) ⟨1⟩ ⟨1⟩ := by
  have assembled : selfSupplied.Assembled := ⟨_, _, by decide, rfl⟩
  obtain ⟨script, ok, listed⟩ : ∃ script, selfSupplied.scriptOf ⟨0⟩ = .ok script ∧
      ⟨1⟩ ∈ script.nodes := ⟨_, rfl, .head _⟩
  have itself : selfSupplied.SuppliesItself ⟨1⟩ :=
    ⟨⟨_, _, rfl, rfl⟩, .argument 0, _, ⟨2⟩, .argument rfl rfl rfl (by decide) rfl rfl rfl, rfl,
      .head _⟩
  exact ⟨assembled, script, ok, itself, ((circular_iff assembled ok).2 _).mpr ⟨listed, itself⟩⟩

/-- A script with a circle: its one statement sets the variable that it reads. -/
theorem selfSupplied_circular :
    selfSupplied.Assembled ∧ ∃ script, selfSupplied.scriptOf ⟨0⟩ = .ok script ∧
      script.statements.lines = [.flat "NextRet_1 = Next( NextRet_1 );"] ∧
        selfSupplied.SuppliesIn script ⟨1⟩ ⟨1⟩ := by
  refine ⟨⟨_, _, by decide, rfl⟩, _, rfl, by decide, .head _, .head _, ?_⟩
  exact ⟨.argument 0, _, ⟨2⟩, .argument rfl rfl rfl (by decide) rfl rfl rfl, rfl, rfl⟩

end Graph

end NodeScript
