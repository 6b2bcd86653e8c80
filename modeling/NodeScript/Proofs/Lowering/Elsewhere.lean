import NodeScript.Proofs.Lowering.Declared
import NodeScript.Proofs.Lowering.Inside

/-!
# Edits elsewhere do not change a script

Whatever lowering looks up for a node of an enclosed set is on a node of the set again: the nodes
behind its outputs, the sources of its inputs, the variables that its data goes to. So in two graphs
that agree on the set (`Alike`) every step of lowering is the same, and an event of the set has the
same script in both, or fails in the same way (`Alike.scriptOf_eq`). Only the fuel differs, because
it is the number of all live nodes; but neither graph ever uses its fuel up, since each level of a
recursion takes another node of the set.

The nodes that edges join to an event are such a set, so edits of other nodes leave its script as it
is (`scriptOf_elsewhere`).
-/

namespace NodeScript.Graph

open Relation
open NodeScript.Lowering

variable {C : NodeId → Prop} {g g' : Graph} {n m : NodeId} {node : Node} {s : Scope}

/-- Two graphs that enclose a set of nodes and agree on it. -/
structure Alike (C : NodeId → Prop) (g g' : Graph) : Prop where
  left : g.Encloses C
  right : g'.Encloses C
  agree : Agree C g g'

namespace Alike

/-! ### Look-ups -/

theorem nodeOrFail_eq (h : Alike C g g') (hc : C n) : g'.nodeOrFail n = g.nodeOrFail n := by
  rw [nodeOrFail, h.agree.node hc, nodeOrFail]

theorem inputsOf_eq (h : Alike C g g') (hn : g.node? n = some node) (hc : C n) :
    g'.inputsOf node = g.inputsOf node := by
  refine List.filterMap_congr fun i hi => ?_
  obtain ⟨input, hlive, rfl⟩ := (h.left.housed.inputs.mem_listed hn).mp hi
  exact ((h.agree.input hc).mpr hlive).trans hlive.symm

theorem outputsOf_eq (h : Alike C g g') (hn : g.node? n = some node) (hc : C n) :
    g'.outputsOf node = g.outputsOf node := by
  refine List.filterMap_congr fun o ho => ?_
  obtain ⟨output, hlive, rfl⟩ := (h.left.housed.mem_outputs hn).mp ho
  exact ((h.agree.output hc).mpr hlive).trans hlive.symm

theorem inputNamed?_eq (h : Alike C g g') (hc : C n) (name : String) :
    g'.inputNamed? n name = g.inputNamed? n name := by
  obtain ⟨node, hn⟩ := h.left.live hc
  rw [inputNamed?, inputNamed?, h.agree.node hc, hn, Option.bind_some, Option.bind_some,
    h.inputsOf_eq hn hc]

theorem outputNamed?_eq (h : Alike C g g') (hc : C n) (name : String) :
    g'.outputNamed? n name = g.outputNamed? n name := by
  obtain ⟨node, hn⟩ := h.left.live hc
  rw [outputNamed?, outputNamed?, h.agree.node hc, hn, Option.bind_some, Option.bind_some,
    h.outputsOf_eq hn hc]

theorem sourceOf_eq (h : Alike C g g') {input : Input} (hi : g.input? input.id = some input)
    (hc : C input.owner) : g'.sourceOf input = g.sourceOf input := by
  unfold sourceOf
  cases hs : input.source with
  | none => rfl
  | some o =>
    obtain ⟨output, ho, -⟩ := (h.left.consistent.feeds_iff o _).mpr ⟨input, hi, hs⟩
    have hco := (h.left.closed ho hi hs).mpr hc
    rw [Option.bind_some, Option.bind_some, ho, (h.agree.output hco).mpr ho]

theorem target_eq (h : Alike C g g') {output : Output} (ho : g.output? output.id = some output)
    (hc : C output.owner) {i : InputId} (hi : i ∈ output.targets) : g'.input? i = g.input? i := by
  obtain ⟨input, hlive, hci⟩ := h.left.owner_of_target ho hc hi
  exact ((h.agree.input hci).mpr hlive).trans hlive.symm

theorem successor?_eq (h : Alike C g g') (hc : C m) (pin : String) :
    g'.successor? m pin = g.successor? m pin := by
  unfold successor?
  rw [h.outputNamed?_eq hc]
  cases ho : g.outputNamed? m pin with
  | none => rfl
  | some output =>
    obtain ⟨hlive, rfl, -⟩ := h.left.housed.of_outputNamed? ho
    cases htargets : output.targets with
    | nil => simp [htargets]
    | cons i targets =>
      have heq := h.target_eq hlive hc (i := i) (by simp [htargets])
      simp only [Option.bind_some, htargets, List.head?_cons, heq]

theorem dataSources_eq (h : Alike C g g') (hn : g.node? n = some node) (hc : C n) :
    g'.dataSources node = g.dataSources node := by
  unfold dataSources
  rw [h.inputsOf_eq hn hc]
  refine List.filterMap_congr fun input hmem => ?_
  obtain ⟨hlive, rfl⟩ := (h.left.housed.mem_inputsOf hn).mp (List.mem_filter.mp hmem).1
  rw [h.sourceOf_eq hlive hc]

/-! ### Values -/

theorem operand_eq (h : Alike C g g') {input : Input} (hi : g.input? input.id = some input)
    (hc : C input.owner) (s : Scope) (consumer : Node) :
    g'.operand s consumer input = g.operand s consumer input := by
  unfold operand
  rw [h.sourceOf_eq hi hc]
  cases ho : g.sourceOf input with
  | none => rfl
  | some o => simp only [h.nodeOrFail_eq (h.left.owner_of_sourceOf hi hc ho)]

theorem operandNamed_eq (h : Alike C g g') (hc : C node.id) (s : Scope) (name : String) :
    g'.operandNamed s node name = g.operandNamed s node name := by
  unfold operandNamed
  rw [h.inputNamed?_eq hc]
  cases hi : g.inputNamed? node.id name with
  | none => rfl
  | some input =>
    obtain ⟨hlive, howner, -⟩ := h.left.housed.of_inputNamed? hi
    simp only [h.operand_eq hlive (howner ▸ hc)]

theorem connectedOperand_eq (h : Alike C g g') (hc : C node.id) (s : Scope) (name : String) :
    g'.connectedOperand s node name = g.connectedOperand s node name := by
  unfold connectedOperand
  rw [h.inputNamed?_eq hc]
  cases hi : g.inputNamed? node.id name with
  | none => rfl
  | some input =>
    obtain ⟨hlive, howner, -⟩ := h.left.housed.of_inputNamed? hi
    simp only [h.operand_eq hlive (howner ▸ hc)]

theorem assignments_eq (h : Alike C g g') (hn : g.node? n = some node) (hc : C n) (s : Scope) :
    g'.assignments s node = g.assignments s node := by
  have targets : ∀ output ∈ (g.outputsOf node).filter (!·.signal.isExecution),
      output.targets.filterMap g'.input? = output.targets.filterMap g.input? := by
    intro output hmem
    obtain ⟨hlive, rfl⟩ := (h.left.housed.mem_outputsOf hn).mp (List.mem_filter.mp hmem).1
    exact List.filterMap_congr fun i hi => h.target_eq hlive hc hi
  have edges : g'.dataEdges node = g.dataEdges node := by
    unfold dataEdges
    rw [h.outputsOf_eq hn hc]
    exact List.flatMap_congr fun output hmem => by rw [targets output hmem]
  have each : ∀ edge ∈ g.dataEdges node,
      g'.assignmentTo s node edge.1 edge.2 = g.assignmentTo s node edge.1 edge.2 := by
    intro edge hmem
    obtain ⟨output, houtput, hedge⟩ := List.mem_flatMap.mp hmem
    obtain ⟨input, hinput, rfl⟩ := List.mem_map.mp hedge
    obtain ⟨hlive, rfl⟩ := (h.left.housed.mem_outputsOf hn).mp (List.mem_filter.mp houtput).1
    obtain ⟨i, hi, hfound⟩ := List.mem_filterMap.mp hinput
    obtain ⟨input', hlive', hci⟩ := h.left.owner_of_target hlive hc hi
    obtain rfl : input = input' := Option.some.inj (hfound.symm.trans hlive')
    simp only [assignmentTo, h.nodeOrFail_eq hci]
  unfold assignments
  rw [edges, Except.mapM_congr each]

/-! ### Calls -/

theorem callResult_eq (h : Alike C g g') (hc : C node.id) (f : FunctionDecl) :
    g'.callResult node f = g.callResult node f := by
  unfold callResult
  rw [h.outputNamed?_eq hc]

theorem argument_eq (h : Alike C g g') (hc : C node.id) (archetype : Option Archetype)
    (p : Parameter) : g'.argument node archetype p = g.argument node archetype p := by
  unfold argument
  rw [h.outputNamed?_eq hc, h.inputNamed?_eq hc]
  cases hi : g.inputNamed? node.id p.name with
  | none => rfl
  | some input =>
    obtain ⟨hlive, howner, -⟩ := h.left.housed.of_inputNamed? hi
    simp only [h.operand_eq hlive (howner ▸ hc)]

theorem callForm_eq (h : Alike C g g') (hc : C node.id) (f : FunctionDecl)
    (arguments : List Argument) : g'.callForm node f arguments = g.callForm node f arguments := by
  unfold callForm
  simp only [h.connectedOperand_eq hc]

theorem callStatement_eq (h : Alike C g g') (hc : C n) :
    g'.callStatement n = g.callStatement n := by
  obtain ⟨node, hn⟩ := h.left.live hc
  obtain rfl := h.left.housed.node_id hn
  have arguments : ∀ archetype, g'.argument node archetype = g.argument node archetype :=
    fun archetype => funext (h.argument_eq hc archetype)
  unfold callStatement
  rw [h.nodeOrFail_eq hc, nodeOrFail_eq_ok.mpr hn, ofExcept_ok_bind, ofExcept_ok_bind]
  simp only [h.callResult_eq hc, arguments, h.callForm_eq hc]

/-! ### Calls without effects -/

/-- The search is the same with any fuel for it that is not used up. -/
theorem neededCalls_eq (h : Alike C g g') {fuel fuel' : Nat} {expanding : List NodeId} (hc : C n)
    (distinct : expanding.Nodup) (inside : ∀ p ∈ expanding, C p)
    (enough : g.nodeCount < fuel + expanding.length)
    (enough' : g'.nodeCount < fuel' + expanding.length) :
    g'.neededCalls fuel' expanding n = g.neededCalls fuel expanding n := by
  induction fuel generalizing fuel' expanding n with
  | zero =>
    have few := h.left.housed.length_le_nodeCount distinct fun p hp => h.left.live (inside p hp)
    omega
  | succ fuel ih =>
    cases fuel' with
    | zero =>
      have few := h.right.housed.length_le_nodeCount distinct fun p hp => h.right.live (inside p hp)
      omega
    | succ fuel' =>
      obtain ⟨node, hn⟩ := h.left.live hc
      rw [neededCalls_succ, neededCalls_succ, h.nodeOrFail_eq hc, nodeOrFail_eq_ok.mpr hn,
        ofExcept_ok_bind, ofExcept_ok_bind, h.dataSources_eq hn hc]
      refine foldlM_congr (fun source hsource order => ?_) []
      have hcs := h.left.of_reads hc ((mem_dataSources hn).mp hsource)
      unfold gather
      rw [h.nodeOrFail_eq hcs]
      by_cases hexp : source ∈ expanding
      · simp [hexp]
      · have below : g'.neededCalls fuel' (source :: expanding) source =
            g.neededCalls fuel (source :: expanding) source := by
          refine ih hcs (List.nodup_cons.mpr ⟨hexp, distinct⟩)
            (List.forall_mem_cons.mpr ⟨hcs, inside⟩) ?_ ?_
          · rw [List.length_cons]
            omega
          · rw [List.length_cons]
            omega
        rw [below]

theorem pureCalls_outcome (h : Alike C g g') (hc : C n) (hs : g.Settled s) :
    (g'.pureCalls n).outcome s = (g.pureCalls n).outcome s := by
  obtain ⟨node, hn⟩ := h.left.live hc
  have search : g'.neededCalls (g'.nodeCount + 1) [] n = g.neededCalls (g.nodeCount + 1) [] n :=
    h.neededCalls_eq hc .nil (by simp) (by simp) (by simp)
  refine outcome_bind_congr (by rw [search]) fun order t horder => ?_
  obtain ⟨gathered, -⟩ := gathered_of_returns h.left.housed hs hn horder
  have calls := mapM_congr fun p hp => h.callStatement_eq (h.left.of_gathered hn hc gathered p hp)
  rw [calls]

/-! ### The flow of control -/

section Steps

/-! The nodes behind are lowered alike from scopes in which enough nodes are marked. -/

variable {lower lower' : NodeId → Lowering Block} {k : Nat} {t : Scope}

/-- Nodes of the set are lowered alike if at least `k` nodes are marked. -/
def SameFrom (C : NodeId → Prop) (g : Graph) (k : Nat) (lower lower' : NodeId → Lowering Block) :
    Prop :=
  ∀ {t n}, g.Inside C t → k ≤ t.visited.length → C n → n ∉ t.visited →
    (lower' n).outcome t = (lower n).outcome t

theorem lowerBehind_outcome (h : Alike C g g') (same : SameFrom C g k lower lower') (hc : C m)
    (ht : g.Inside C t) (hk : k ≤ t.visited.length) (pin : String) (blame : Blame) :
    (g'.lowerBehind lower' m pin blame).outcome t =
      (g.lowerBehind lower m pin blame).outcome t := by
  unfold lowerBehind
  rw [h.successor?_eq hc]
  cases hnext : g.successor? m pin with
  | none => rfl
  | some n =>
    have hcn := h.left.of_successor? hc hnext
    have culprit : C (if blame = .source then m else n) := by
      split
      · exact hc
      · exact hcn
    refine outcome_bind_congr rfl fun seen t' hseen => ?_
    obtain ⟨rfl, rfl⟩ := returns_isVisited.mp hseen
    by_cases hv : n ∈ t.visited
    · simp only [List.contains_iff_mem.mpr hv, if_true, h.nodeOrFail_eq culprit]
      refine outcome_bind_congr rfl fun _ _ _ => ?_
      exact outcome_bind_congr rfl fun _ _ hthrow => absurd hthrow returns_throw
    · simp only [List.contains_iff_mem, hv, if_false]
      exact same ht hk hcn hv

/-- What comes first in a call, a branch or a loop is the same in both graphs, so such a node is
lowered alike if what follows its pure calls is. -/
theorem pureCalls_bind_outcome (h : Alike C g g') (hc : C n) (hn : g.node? n = some node)
    (impure : node.kind.isPureCall = false) (hs : g.Inside C s) (fresh : n ∉ s.visited)
    (hk : k ≤ s.visited.length + 1) {rest rest' : Block → Lowering Block}
    (agree : ∀ {b t}, g.Inside C t → k ≤ t.visited.length →
      (rest' b).outcome t = (rest b).outcome t) :
    (g'.pureCalls n >>= rest').outcome (s.visit n) =
      (g.pureCalls n >>= rest).outcome (s.visit n) := by
  have plain := not_isPureCall hn impure
  refine outcome_bind_congr (h.pureCalls_outcome hc (hs.settled.visit plain)) fun b t hb => ?_
  obtain ⟨order, calls, -, enters, settled⟩ :=
    enters_of_returns h.left.housed hs.settled hn impure fresh hb
  obtain ⟨ht, hlt⟩ := hs.enters h.left hc enters settled
  exact agree ht (Nat.le_trans hk hlt)

theorem lowerCall_outcome (h : Alike C g g') (same : SameFrom C g k lower lower') (hc : C n)
    (hn : g.node? n = some node) {callee : Callee} (kind : node.kind = .call callee)
    (hs : g.Inside C s) (fresh : n ∉ s.visited) (hk : k ≤ s.visited.length + 1) :
    (g'.lowerCall lower' n).outcome (s.visit n) = (g.lowerCall lower n).outcome (s.visit n) := by
  unfold lowerCall
  refine h.pureCalls_bind_outcome hc hn (by rw [kind]; rfl) hs fresh hk fun {b t} ht hk => ?_
  refine outcome_bind_congr (by rw [h.callStatement_eq hc]) fun st t₂ hst => ?_
  have makes := makes_callStatement h.left.housed hst
  have ht₂ := ht.congr makes.visited
  rw [h.nodeOrFail_eq hc, nodeOrFail_eq_ok.mpr hn, ofExcept_ok_bind, ofExcept_ok_bind]
  have assigned : (fun s => g'.assignments s node) = fun s => g.assignments s node :=
    funext fun s => h.assignments_eq hn hc s
  rw [assigned]
  refine outcome_bind_congr rfl fun found t₃ hread => ?_
  obtain ⟨-, rfl⟩ := returns_reading.mp hread
  have hk₂ : k ≤ t₂.visited.length := by
    rw [makes.visited]
    omega
  exact outcome_bind_congr (h.lowerBehind_outcome same hc ht₂ hk₂ ..) fun _ _ _ => rfl

theorem lowerBranch_outcome (h : Alike C g g') (same : SameFrom C g k lower lower')
    (derives : g.Derives lower) (hc : C n) (hn : g.node? n = some node)
    (kind : node.kind = .branch) (hs : g.Inside C s) (fresh : n ∉ s.visited)
    (hk : k ≤ s.visited.length + 1) :
    (g'.lowerBranch lower' n).outcome (s.visit n) =
      (g.lowerBranch lower n).outcome (s.visit n) := by
  obtain rfl := h.left.housed.node_id hn
  unfold lowerBranch
  refine h.pureCalls_bind_outcome hc hn (by rw [kind]; rfl) hs fresh hk fun {b t} ht hk => ?_
  rw [h.nodeOrFail_eq hc, nodeOrFail_eq_ok.mpr hn, ofExcept_ok_bind, ofExcept_ok_bind]
  simp only [h.operandNamed_eq hc]
  refine outcome_bind_congr rfl fun condition t₂ hread => ?_
  obtain ⟨-, rfl⟩ := returns_reading.mp hread
  refine outcome_bind_congr (h.lowerBehind_outcome same hc ht hk ..) fun onTrue t₂ htrue => ?_
  obtain ⟨lowered, settled₂⟩ := derives ht.settled htrue
  obtain ⟨ht₂, hle⟩ := ht.lowered h.left hc lowered settled₂
  have hk₂ : k ≤ t₂.visited.length := by omega
  exact outcome_bind_congr (h.lowerBehind_outcome same hc ht₂ hk₂ ..) fun _ _ _ => rfl

theorem lowerLoop_outcome (h : Alike C g g') (same : SameFrom C g k lower lower')
    (derives : g.Derives lower) (hc : C n) (hn : g.node? n = some node)
    (kind : node.kind = .loop) (hs : g.Inside C s) (fresh : n ∉ s.visited)
    (hk : k ≤ s.visited.length + 1) :
    (g'.lowerLoop lower' n).outcome (s.visit n) = (g.lowerLoop lower n).outcome (s.visit n) := by
  obtain rfl := h.left.housed.node_id hn
  unfold lowerLoop
  refine h.pureCalls_bind_outcome hc hn (by rw [kind]; rfl) hs fresh hk fun {b t} ht hk => ?_
  rw [h.nodeOrFail_eq hc, nodeOrFail_eq_ok.mpr hn, ofExcept_ok_bind, ofExcept_ok_bind]
  simp only [h.operandNamed_eq hc, h.outputNamed?_eq hc, h.assignments_eq hn hc]
  refine outcome_bind_congr rfl fun bound t₂ hread => ?_
  obtain ⟨-, rfl⟩ := returns_reading.mp hread
  -- binding the counter marks nothing, so what follows is the same whether it is bound or not
  have rest : ∀ (counter : String) (t₂ : Scope), t₂.visited = t.visited →
      Lowering.outcome (do
        let assigned ← reading fun s => g.assignments s node
        let body ← g'.lowerBehind lower' node.id Pin.body .target
        let after ← g'.lowerBehind lower' node.id Pin.afterLoop .target
        return b ++
          Block.loop ⟨node.id, counter, bound⟩ (Block.assigns assigned ++ body) after)
          t₂ =
      Lowering.outcome (do
        let assigned ← reading fun s => g.assignments s node
        let body ← g.lowerBehind lower node.id Pin.body .target
        let after ← g.lowerBehind lower node.id Pin.afterLoop .target
        return b ++
          Block.loop ⟨node.id, counter, bound⟩ (Block.assigns assigned ++ body) after)
          t₂ := by
    intro counter t₂ hv
    refine outcome_bind_congr rfl fun assigned t₃ hread => ?_
    obtain ⟨-, rfl⟩ := returns_reading.mp hread
    have hk₂ : k ≤ t₂.visited.length := by
      rw [hv]
      omega
    refine outcome_bind_congr (h.lowerBehind_outcome same hc (ht.congr hv) hk₂ ..)
      fun body t₃ hbody => ?_
    obtain ⟨lowered, settled₃⟩ := derives (ht.congr hv).settled hbody
    obtain ⟨ht₃, hle⟩ := (ht.congr hv).lowered h.left hc lowered settled₃
    have hk₃ : k ≤ t₃.visited.length := by omega
    exact outcome_bind_congr (h.lowerBehind_outcome same hc ht₃ hk₃ ..) fun _ _ _ => rfl
  refine outcome_bind_congr rfl fun counter t₂ hcounter => ?_
  obtain ⟨-, rfl⟩ := returns_fresh.mp hcounter
  cases g.outputNamed? node.id Pin.counter with
  | none => exact rest counter _ rfl
  | some output =>
    refine outcome_bind_congr rfl fun _ t₃ hbind => rest counter t₃ ?_
    obtain rfl := returns_modify.mp hbind
    rfl

/-- **No fuel is used up.** Nodes of the set are lowered alike with any fuel that, together with the
nodes marked so far, exceeds the number of live nodes. -/
theorem lowerUpTo_outcome (h : Alike C g g') {fuel fuel' : Nat} (hc : C n) (hs : g.Inside C s)
    (fresh : n ∉ s.visited) (enough : g.nodeCount < fuel + s.visited.length)
    (enough' : g'.nodeCount < fuel' + s.visited.length) :
    (g'.lowerUpTo fuel' n).outcome s = (g.lowerUpTo fuel n).outcome s := by
  induction fuel generalizing fuel' n s with
  | zero =>
    have few := hs.length_le h.left
    omega
  | succ fuel ih =>
    cases fuel' with
    | zero =>
      have few := h.right.housed.length_le_nodeCount hs.nodup fun p hp =>
        h.right.live (hs.visited p hp)
      omega
    | succ fuel' =>
      obtain ⟨node, hn⟩ := h.left.live hc
      obtain rfl := h.left.housed.node_id hn
      have same : SameFrom C g (s.visited.length + 1) (g.lowerUpTo fuel) (g'.lowerUpTo fuel') :=
        fun ht hk hcn hv => ih hcn ht hv (by omega) (by omega)
      have derives : g.Derives (g.lowerUpTo fuel) := derives_lowerUpTo h.left.housed fuel
      refine outcome_bind_congr rfl fun _ t hvisit => ?_
      obtain rfl := returns_visit.mp hvisit
      rw [h.nodeOrFail_eq hc, nodeOrFail_eq_ok.mpr hn, ofExcept_ok_bind, ofExcept_ok_bind]
      unfold lowerKind
      cases kind : node.kind with
      | call callee => exact h.lowerCall_outcome same hc hn kind hs fresh (Nat.le_refl _)
      | branch => exact h.lowerBranch_outcome same derives hc hn kind hs fresh (Nat.le_refl _)
      | loop => exact h.lowerLoop_outcome same derives hc hn kind hs fresh (Nat.le_refl _)
      | event _ _ | pureCall _ | member _ => rfl

end Steps

/-! ### Scripts -/

/-- The variables of nodes of the set are declared in the same way. -/
theorem locals_eq (h : Alike C g g') {t : Scope}
    (owned : ∀ v ∈ t.bindings, ∃ p, C p ∧ g.ownerOf? v.1 = some p) :
    g'.locals t = g.locals t := by
  rw [Graph.locals_eq h.left.housed, Graph.locals_eq h.right.housed]
  refine congrArg Except.ok (List.filterMap_congr fun v hv => ?_)
  obtain ⟨p, hc, howner⟩ := owned v hv
  obtain ⟨output, ho, rfl⟩ := Option.map_eq_some_iff.mp howner
  rw [declarationOf, declarationOf, ho, (h.agree.output hc).mpr ho, Option.bind_some,
    Option.bind_some, h.agree.node hc]

/-- An event of the set is lowered alike. -/
theorem lowerEvent_outcome (h : Alike C g g') (hc : C n) :
    (g'.lowerEvent n).outcome {} = (g.lowerEvent n).outcome {} := by
  obtain ⟨node, hn⟩ := h.left.live hc
  obtain rfl := h.left.housed.node_id hn
  unfold lowerEvent lowerEventBy
  rw [h.nodeOrFail_eq hc, nodeOrFail_eq_ok.mpr hn, ofExcept_ok_bind, ofExcept_ok_bind,
    h.outputsOf_eq hn hc, h.successor?_eq hc]
  refine outcome_bind_congr rfl fun name t hname => ?_
  obtain ⟨hname, rfl⟩ := returns_ofExcept.mp hname
  have kind : node.kind.isPureCall = false := by
    cases hkind : node.kind <;> simp_all [eventName, NodeKind.isPureCall]
  refine outcome_bind_congr rfl fun _ t hvisit => ?_
  obtain rfl := returns_visit.mp hvisit
  refine outcome_bind_congr rfl fun _ t hparameters => ?_
  obtain rfl : g.entryScope node = t := returns_forM_bind.mp hparameters
  have hs := Inside.entryScope h.left hn hc kind
  split
  · rfl
  have same : SameFrom C g 0 g.lower g'.lower :=
    fun ht _ hcn hv => h.lowerUpTo_outcome hcn ht hv (by omega) (by omega)
  refine outcome_bind_congr (h.lowerBehind_outcome same hc hs (Nat.zero_le _) ..)
    fun body t hbody => ?_
  obtain ⟨lowered, settled⟩ := derives_lowerUpTo h.left.housed _ hs.settled hbody
  obtain ⟨ht, -⟩ := hs.lowered h.left hc lowered settled
  have owned : ∀ v ∈ t.bindings, ∃ p, C p ∧ g.ownerOf? v.1 = some p := by
    intro v hv
    obtain ⟨p, hp, howner⟩ := lowered.owner_visited h.left.housed hn hv
    exact ⟨p, ht.visited p hp, howner⟩
  exact outcome_bind_congr (outcome_reading_congr (h.locals_eq owned)) fun _ _ _ => rfl

/-- **An event of the set has the same script in both graphs, or the same error.** -/
theorem scriptOf_eq (h : Alike C g g') (hc : C n) : g'.scriptOf n = g.scriptOf n := by
  have lowered := congrArg Prod.fst (h.lowerEvent_outcome hc)
  rw [outcome, outcome] at lowered
  unfold scriptOf
  rw [h.nodeOrFail_eq hc]
  simp only [lowered]

end Alike

/-- **Edits elsewhere do not change a script.** In a graph that edits have made from an empty one,
consider the nodes that chains of edges join to a live event. Any edits, successful or refused, that
name no such node and no connector of one leave the event with the script that it had, or with the
error that it had. -/
theorem scriptOf_elsewhere (h : g.Reachable) {e : NodeId} (live : g.node? e = some node)
    {edits : List Edit} (avoids : g.AvoidsAll (g.Component e) edits) :
    (g.run edits).scriptOf e = g.scriptOf e := by
  have enclosed := encloses_component h live
  have spared := enclosed.run avoids
  exact Alike.scriptOf_eq ⟨enclosed, spared.encloses, spared.agree⟩ .refl

/-- A second loop for `repeating`, with its output for what comes after it connected to itself. -/
def idling : List Edit :=
  [.place .loop, .rename ⟨5⟩ "Idle", .connect ⟨9⟩ ⟨8⟩ .any]

/-- The event of `repeating` keeps its script although there is a loop that leads to itself. -/
theorem scriptOf_elsewhere_repeating :
    (repeating.run idling).successor? ⟨5⟩ Pin.afterLoop = some ⟨5⟩ ∧
      ∃ script, repeating.scriptOf ⟨0⟩ = .ok script ∧
        (repeating.run idling).scriptOf ⟨0⟩ = .ok script := by
  have reachable : repeating.Reachable := ⟨_, _, rfl⟩
  obtain ⟨node, live⟩ : ∃ node, repeating.node? ⟨0⟩ = some node := ⟨_, rfl⟩
  -- the second loop is not in the graph yet
  have off : ¬ repeating.Component ⟨0⟩ ⟨5⟩ := by
    intro hc
    obtain ⟨node, hnode⟩ := (encloses_component reachable live).live hc
    cases hnode
  have avoids : repeating.AvoidsAll (repeating.Component ⟨0⟩) idling := by
    refine ⟨trivial, off, ⟨fun output ho => ?_, fun input hi => ?_⟩, trivial⟩
    · cases ho
      exact off
    · cases hi
      exact off
  obtain ⟨script, ok⟩ : ∃ script, repeating.scriptOf ⟨0⟩ = .ok script := ⟨_, rfl⟩
  exact ⟨rfl, script, ok, (scriptOf_elsewhere reachable live avoids).trans ok⟩

end NodeScript.Graph
