import NodeScript.Compilation
import NodeScript.Proofs.Graph.Consistent
import NodeScript.Proofs.Graph.Housed
import NodeScript.Proofs.Lowering.Declared
import NodeScript.Proofs.Lowering.Termination

/-!
# What lowering looks up is there

Rows of a graph hold identifiers of other rows. Where a row is gone, looking up its identifier
fails or, in a list, passes it over. In a graph that edits have led to, no live row holds the
identifier of a row that is gone (`Graph.Resolved`). Lowering starts from a live node, goes on to
identifiers that live rows hold, and gives variables to live outputs only. So none of its look-ups
fails and none passes anything over.

A step is `Graph.Safe` if it keeps the variables on live outputs, returns what it should and does
not fail to find anything. Each way of making steps keeps this, and so each part of lowering has
it.
-/

namespace NodeScript

open NodeScript.Except (bind_eq_error exists_of_mapM_eq_error)

/-- The computation does not fail for want of a node or an event. -/
def Finds {α : Type} (r : Except CompileError α) : Prop :=
  (∀ n, r ≠ .error (.nodeNotFound n)) ∧ ∀ name, r ≠ .error (.notAnEvent name)

namespace Finds

variable {α β : Type} {r : Except CompileError α} {a : α}

@[simp] theorem ok : Finds (.ok a : Except CompileError α) := by
  simp [Finds]

theorem error {e : CompileError} (hn : ∀ n, e ≠ .nodeNotFound n)
    (ha : ∀ name, e ≠ .notAnEvent name) : Finds (.error e : Except CompileError α) :=
  ⟨fun n h => hn n (Except.error.inj h), fun name h => ha name (Except.error.inj h)⟩

/-- What fails with an error that a computation does not fail with. -/
theorem of_error {r' : Except CompileError β} (h : Finds r)
    (herror : ∀ e, r' = .error e → r = .error e) : Finds r' :=
  ⟨fun n hr => h.1 n (herror _ hr), fun name hr => h.2 name (herror _ hr)⟩

theorem map {f : α → β} (h : Finds r) : Finds (f <$> r) :=
  h.of_error fun e he => by cases r <;> simp_all

theorem bind {f : α → Except CompileError β} (h : Finds r) (hf : ∀ a, r = .ok a → Finds (f a)) :
    Finds (r >>= f) := by
  cases r with
  | ok a => exact hf a rfl
  | error e => exact h.of_error fun _ he => by cases he; rfl

theorem mapM {f : β → Except CompileError α} {l : List β} (h : ∀ b ∈ l, Finds (f b)) :
    Finds (l.mapM f) := by
  constructor
  · intro n hn
    obtain ⟨b, hb, he⟩ := exists_of_mapM_eq_error hn
    exact (h b hb).1 n he
  · intro name hname
    obtain ⟨b, hb, he⟩ := exists_of_mapM_eq_error hname
    exact (h b hb).2 name he

end Finds

/-- The variables of a scope are those of live outputs. -/
def Scope.Resolved (g : Graph) (s : Scope) : Prop :=
  ∀ o ∈ s.bindings.map (·.1), ∃ output, g.output? o = some output

theorem Scope.Resolved.bind {g : Graph} {s : Scope} {o : OutputId} {output : Output}
    (h : s.Resolved g) (live : g.output? o = some output) (name : String) :
    (s.bind o name).Resolved g := by
  intro p hp
  rw [Scope.bind, keys_bindIn] at hp
  split at hp
  · exact h p hp
  · rcases List.mem_append.mp hp with hp | hp
    · exact h p hp
    · obtain rfl := List.mem_singleton.mp hp
      exact ⟨output, live⟩

namespace Graph

open Lowering

/-! ### Safe steps -/

/-- Started where variables are those of live outputs, the step leaves them so, finds what it looks
up, and returns only values that have a property. -/
def Safe (g : Graph) {α : Type} (P : α → Prop) (m : Lowering α) : Prop :=
  ∀ s, s.Resolved g → (m.outcome s).2.Resolved g ∧ Finds (m.outcome s).1 ∧
    ∀ a, (m.outcome s).1 = .ok a → P a

section Rules

variable {g : Graph} {α β : Type} {P : α → Prop} {R : β → Prop} {m : Lowering α}

theorem safe_pure {a : α} (h : P a) : g.Safe P (pure a) := fun _ hs =>
  ⟨hs, .ok, fun _ ha => Except.ok.inj ha ▸ h⟩

theorem safe_ofExcept {r : Except CompileError α} (h : Finds r) (returns : ∀ a, r = .ok a → P a) :
    g.Safe P (MonadExcept.ofExcept r) := by
  intro s hs
  cases r with
  | ok a => exact safe_pure (returns a rfl) s hs
  | error e => exact ⟨hs, h, fun _ ha => by cases ha⟩

theorem safe_throw {e : CompileError} (h : Finds (.error e : Except CompileError α)) :
    g.Safe P (throw e) :=
  safe_ofExcept h fun _ ha => by cases ha

theorem Safe.bind {f : α → Lowering β} (h : g.Safe P m) (hf : ∀ a, P a → g.Safe R (f a)) :
    g.Safe R (m >>= f) := by
  intro s hs
  obtain ⟨resolved, finds, returns⟩ := h s hs
  rw [outcome_bind]
  rcases hout : m.outcome s with ⟨e | a, t⟩ <;> rw [hout] at resolved finds returns
  · exact ⟨resolved, finds.of_error fun e he => by cases he; rfl, fun _ ha => by cases ha⟩
  · exact hf a (returns a rfl) t resolved

theorem safe_modify {change : Scope → Scope} (h : ∀ s, s.Resolved g → (change s).Resolved g) :
    g.Safe (fun _ => True) (modify change) := fun s hs =>
  ⟨h s hs, .ok, fun _ _ => trivial⟩

theorem safe_reading {step : Scope → Except CompileError α}
    (h : ∀ s, s.Resolved g → Finds (step s)) : g.Safe (fun _ => True) (reading step) := by
  intro s hs
  have same : (reading step).outcome s =
      (MonadExcept.ofExcept (step s) : Lowering α).outcome s := rfl
  rw [same]
  exact safe_ofExcept (h s hs) (fun _ _ => trivial) s hs

theorem safe_visit (n : NodeId) : g.Safe (fun _ => True) (visit n) :=
  safe_modify fun _ hs => hs

theorem safe_isVisited (n : NodeId) : g.Safe (fun _ => True) (isVisited n) := fun _ hs =>
  ⟨hs, .ok, fun _ _ => trivial⟩

theorem safe_fresh (base : String) : g.Safe (fun _ => True) (fresh base) := fun _ hs =>
  ⟨hs, .ok, fun _ _ => trivial⟩

theorem safe_bindFresh {output : Output} {o : OutputId} (live : g.output? o = some output)
    (base : String) : g.Safe (fun _ => True) (bindFresh o base) :=
  (safe_fresh base).bind fun name _ =>
    (safe_modify fun _ hs => hs.bind live name).bind fun _ _ => safe_pure trivial

theorem safe_mapM {f : β → Lowering α} {l : List β} (h : ∀ b ∈ l, g.Safe (fun _ => True) (f b)) :
    g.Safe (fun _ => True) (l.mapM f) := by
  induction l with
  | nil => exact safe_pure trivial
  | cons b l ih =>
    rw [List.mapM_cons]
    exact (h b (.head _)).bind fun _ _ => (ih fun c hc => h c (.tail _ hc)).bind fun _ _ =>
      safe_pure trivial

theorem safe_foldlM {f : α → β → Lowering α} {l : List β} {a : α} (start : P a)
    (h : ∀ a, P a → ∀ b ∈ l, g.Safe P (f a b)) : g.Safe P (l.foldlM f a) := by
  induction l generalizing a with
  | nil => exact safe_pure start
  | cons b l ih =>
    rw [List.foldlM_cons]
    exact (h a start b (.head _)).bind fun a' ha' => ih ha' fun a ha c hc => h a ha c (.tail _ hc)

/-- A step that starts by looking up a live node goes on with it. -/
theorem safe_lookup {n : NodeId} {node : Node} {f : Node → Lowering β}
    (live : g.node? n = some node) (h : g.Safe R (f node)) :
    g.Safe R (MonadExcept.ofExcept (g.nodeOrFail n) >>= f) := by
  rwa [nodeOrFail_eq_ok.mpr live, ofExcept_ok_bind]

end Rules

/-! ### Values -/

section Values

variable {g : Graph} {n : NodeId} {node : Node} {s : Scope}

/-- What an edge comes from is live, and so is the node that it is on. -/
theorem owner_of_sourceOf (h : g.Housed) {input : Input} {o : Output}
    (ho : g.sourceOf input = some o) : ∃ source, g.node? o.owner = some source := by
  obtain ⟨p, -, live⟩ := Option.bind_eq_some_iff.mp ho
  exact h.output_owner live

theorem finds_operand (h : g.Housed) (s : Scope) (consumer : Node) (input : Input) :
    Finds (g.operand s consumer input) := by
  unfold operand
  split
  · exact .ok
  · rename_i o ho
    obtain ⟨source, live⟩ := owner_of_sourceOf h ho
    rw [nodeOrFail_eq_ok.mpr live, NodeScript.Except.ok_bind]
    split
    · exact .ok
    · split
      · exact .ok
      · exact .error (by simp) (by simp)

theorem finds_operandNamed (h : g.Housed) (s : Scope) (node : Node) (name : String) :
    Finds (g.operandNamed s node name) := by
  unfold operandNamed
  split
  · exact (finds_operand h _ _ _).map
  · exact .ok

theorem finds_connectedOperand (h : g.Housed) (s : Scope) (node : Node) (name : String) :
    Finds (g.connectedOperand s node name) := by
  unfold connectedOperand
  split
  · split
    · exact (finds_operand h _ _ _).map
    · exact .ok
  · exact .ok

theorem finds_assignmentTo (h : g.Housed) (s : Scope) (node : Node) (output : Output)
    {input : Input} {i : InputId} (hi : g.input? i = some input) :
    Finds (g.assignmentTo s node output input) := by
  obtain ⟨target, live⟩ := h.inputs.owner_live hi
  unfold assignmentTo
  refine Finds.bind ?_ fun target _ => ?_
  · rw [nodeOrFail_eq_ok.mpr live]
    exact .ok
  split
  · exact .ok
  split
  · exact .ok
  split
  · exact .ok
  · exact .error (by simp) (by simp)

theorem finds_assignments (h : g.Housed) (s : Scope) (node : Node) :
    Finds (g.assignments s node) := by
  refine Finds.bind (Finds.mapM fun edge hedge => ?_) fun _ _ => .ok
  obtain ⟨output, -, hi⟩ := List.mem_flatMap.mp hedge
  obtain ⟨input, hinput, rfl⟩ := List.mem_map.mp hi
  obtain ⟨i, -, live⟩ := List.mem_filterMap.mp hinput
  exact finds_assignmentTo h s node output live

/-! ### Calls -/

theorem finds_calleeOf (node : Node) : Finds (calleeOf node) := by
  unfold calleeOf
  split
  · exact .ok
  · exact .error (by simp) (by simp)

theorem safe_callResult (h : g.Housed) (node : Node) (f : FunctionDecl) :
    g.Safe (fun _ => True) (g.callResult node f) := by
  unfold callResult
  split
  · exact safe_pure trivial
  · rename_i output ho
    split
    · exact safe_pure trivial
    · exact (safe_bindFresh (h.of_outputNamed? ho).1 _).bind fun _ _ => safe_pure trivial

theorem safe_passed (h : g.Housed) (node : Node) (p : Parameter) :
    g.Safe (fun _ => True) (g.passed node p) := by
  unfold passed
  split
  · exact safe_pure trivial
  split
  · split
    · rename_i output ho
      exact (safe_bindFresh (h.of_outputNamed? ho).1 _).bind fun _ _ => safe_pure trivial
    · exact safe_pure trivial
  · split
    · exact (safe_reading fun s _ => finds_operand h s node _).bind fun _ _ => safe_pure trivial
    · exact safe_pure trivial

theorem safe_argument (h : g.Housed) (node : Node) (archetype : Option Archetype) (p : Parameter) :
    g.Safe (fun _ => True) (g.argument node archetype p) := by
  rcases g.argument_cases node archetype p with ⟨c, hc⟩ | hc <;> rw [hc]
  · exact safe_pure trivial
  · exact safe_passed h node p

theorem safe_callForm (h : g.Housed) (node : Node) (f : FunctionDecl) (arguments : List Argument) :
    g.Safe (fun _ => True) (g.callForm node f arguments) := by
  unfold callForm
  split
  · split
    · exact safe_pure trivial
    · exact safe_throw (.error (by simp) (by simp))
  · exact (safe_reading fun s _ => finds_connectedOperand h s node _).bind fun _ _ =>
      safe_pure trivial

theorem safe_callStatement (h : g.Housed) (live : g.node? n = some node) :
    g.Safe (fun _ => True) (g.callStatement n) :=
  safe_lookup live <| (safe_ofExcept (finds_calleeOf node) fun _ _ => trivial).bind
    fun ⟨f, archetype⟩ _ => (safe_callResult h node f).bind fun _ _ =>
      (safe_mapM fun p _ => safe_argument h node archetype p).bind fun arguments _ =>
        (safe_callForm h node f arguments).bind fun _ _ => safe_pure trivial

/-! ### Calls without effects -/

/-- The nodes of a list are live. -/
def AllLive (g : Graph) (nodes : List NodeId) : Prop :=
  ∀ n ∈ nodes, ∃ node, g.node? n = some node

theorem safe_consult {search : List NodeId → NodeId → Lowering (List NodeId)}
    {expanding order : List NodeId} {source : NodeId} {sourceNode : Node}
    (live : g.node? source = some sourceNode) (listed : g.AllLive order)
    (deeper : g.Safe g.AllLive (search (source :: expanding) source)) :
    g.Safe g.AllLive (g.consult search expanding order source) := by
  refine safe_lookup live ?_
  split
  · exact safe_pure listed
  split
  · exact (safe_throw (.error (by simp) (by simp))).bind fun _ => id
  refine (safe_isVisited source).bind fun seen _ => ?_
  split
  · exact safe_pure listed
  refine deeper.bind fun before hbefore => (safe_visit source).bind fun _ _ => safe_pure ?_
  intro n hn
  rcases List.mem_append.mp hn with hn | hn
  · exact (List.mem_append.mp hn).elim (listed n) (hbefore n)
  · obtain rfl := List.mem_singleton.mp hn
    exact ⟨sourceNode, live⟩

theorem safe_neededCalls (h : g.Housed) (fuel : Nat) (expanding : List NodeId)
    (live : g.node? n = some node) : g.Safe g.AllLive (g.neededCalls fuel expanding n) := by
  induction fuel generalizing expanding n node with
  | zero => exact safe_lookup live (safe_throw (.error (by simp) (by simp)))
  | succ fuel ih =>
    refine safe_lookup live (safe_foldlM (by simp [AllLive]) fun order listed source hsource => ?_)
    have reads : g.Reads n source := (mem_dataSources live).mp hsource
    obtain ⟨sourceNode, liveSource⟩ := reads.live h
    exact safe_consult liveSource listed (ih (source :: expanding) liveSource)

theorem safe_pureCalls (h : g.Housed) (live : g.node? n = some node) :
    g.Safe (fun _ => True) (g.pureCalls n) :=
  (safe_neededCalls h _ [] live).bind fun _ listed =>
    (safe_mapM fun m hm => let ⟨_, live⟩ := listed m hm; safe_callStatement h live).bind fun _ _ =>
      safe_pure trivial

/-! ### The flow of control -/

section Behind

variable {lower : NodeId → Lowering Block}

theorem safe_lowerBehind (h : g.Housed)
    (behind : ∀ {m next}, g.node? m = some next → g.Safe (fun _ => True) (lower m))
    (live : g.node? n = some node) (pin : String) (blame : Blame) :
    g.Safe (fun _ => True) (g.lowerBehind lower n pin blame) := by
  unfold lowerBehind
  split
  · exact safe_pure trivial
  rename_i next hnext
  obtain ⟨nextNode, liveNext⟩ := live_of_successor? h hnext
  refine (safe_isVisited next).bind fun seen _ => ?_
  split
  · have liveCulprit : ∃ culprit, g.node? (if blame = .source then n else next) = some culprit := by
      split
      exacts [⟨node, live⟩, ⟨nextNode, liveNext⟩]
    obtain ⟨culprit, liveCulprit⟩ := liveCulprit
    exact safe_lookup liveCulprit (safe_throw (.error (by simp) (by simp)))
  · exact behind liveNext

theorem safe_lowerKind (h : g.Housed)
    (behind : ∀ {m next}, g.node? m = some next → g.Safe (fun _ => True) (lower m))
    (live : g.node? node.id = some node) : g.Safe (fun _ => True) (g.lowerKind lower node) := by
  have behind := safe_lowerBehind h behind live
  have calls := safe_pureCalls h live
  unfold lowerKind
  split
  · refine calls.bind fun _ _ => (safe_callStatement h live).bind fun _ _ => safe_lookup live ?_
    refine (safe_reading fun s _ => finds_assignments h s node).bind fun _ _ => ?_
    exact (behind _ _).bind fun _ _ => safe_pure trivial
  · refine calls.bind fun _ _ => safe_lookup live ?_
    refine (safe_reading fun s _ => finds_operandNamed h s node _).bind fun _ _ => ?_
    exact (behind _ _).bind fun _ _ => (behind _ _).bind fun _ _ => safe_pure trivial
  · refine calls.bind fun _ _ => safe_lookup live ?_
    refine (safe_reading fun s _ => finds_operandNamed h s node _).bind fun _ _ => ?_
    refine (safe_fresh _).bind fun counter _ => ?_
    have rest : ∀ made : List Assignment → Block → Block → Block, g.Safe (fun _ => True) (do
        let assigned ← reading fun s => g.assignments s node
        let body ← g.lowerBehind lower node.id Pin.body .target
        let after ← g.lowerBehind lower node.id Pin.afterLoop .target
        return made assigned body after) := fun made =>
      (safe_reading fun s _ => finds_assignments h s node).bind fun _ _ =>
        (behind _ _).bind fun _ _ => (behind _ _).bind fun _ _ => safe_pure trivial
    split
    · rename_i output houtput
      have live := (h.of_outputNamed? houtput).1
      exact (safe_modify fun _ hs => hs.bind live counter).bind fun _ _ => rest _
    · exact rest _
  all_goals exact safe_throw (.error (by simp) (by simp))

end Behind

theorem safe_lowerUpTo (h : g.Housed) (fuel : Nat) (live : g.node? n = some node) :
    g.Safe (fun _ => True) (g.lowerUpTo fuel n) := by
  induction fuel generalizing n node with
  | zero => exact safe_lookup live (safe_throw (.error (by simp) (by simp)))
  | succ fuel ih =>
    refine (safe_visit n).bind fun _ _ => safe_lookup live ?_
    exact safe_lowerKind h ih (h.node_id live ▸ live)

/-! ### Events -/

theorem finds_eventName (event : node.kind.isEvent) : Finds (eventName node) := by
  unfold eventName
  cases kind : node.kind with
  | event name function =>
    cases function with
    | none => exact .error (by simp) (by simp)
    | some f => exact .ok
  | call _ | pureCall _ | branch | loop | member _ => simp [kind, NodeKind.isEvent] at event

theorem safe_parameters (outputs : List Output)
    (live : ∀ output ∈ outputs, g.output? output.id = some output) :
    g.Safe (fun _ => True) (outputs.forM fun output => modify (·.bind output.id output.name)) := by
  induction outputs with
  | nil => exact safe_pure trivial
  | cons output outputs ih =>
    have first := live output (.head _)
    exact (safe_modify fun _ hs => hs.bind first output.name).bind fun _ _ =>
      ih fun other hother => live other (.tail _ hother)

/-- Lowering an event finds what it looks up, whether it returns or fails. -/
theorem safe_lowerEvent (h : g.Housed) (live : g.node? n = some node) (event : node.kind.isEvent) :
    g.Safe (fun _ => True) (g.lowerEvent n) := by
  refine safe_lookup live ?_
  refine (safe_ofExcept (finds_eventName event) fun _ _ => trivial).bind fun name _ => ?_
  refine (safe_visit n).bind fun _ _ => ?_
  refine (safe_parameters _ fun output houtput => ?_).bind fun _ _ => ?_
  · exact ((h.mem_outputsOf live).mp (List.mem_filter.mp houtput).1).1
  split
  · exact safe_pure trivial
  · have behind : g.Safe (fun _ => True) (g.lowerBehind g.lower n Pin.done .source) :=
      safe_lowerBehind h (safe_lowerUpTo h _) live _ _
    refine behind.bind fun body _ => Safe.bind (safe_reading fun s _ => ?_) fun _ _ =>
      safe_pure trivial
    rw [locals_eq h s]
    exact .ok

/-- The scope that lowering an event leaves has variables of live outputs only. -/
theorem resolved_lowerEvent (h : g.Housed) (live : g.node? n = some node)
    (event : node.kind.isEvent) : ((g.lowerEvent n).outcome {}).2.Resolved g :=
  (safe_lowerEvent h live event {} fun _ ho => by cases ho).1

theorem finds_scriptOf (h : g.Housed) (live : g.node? n = some node) (event : node.kind.isEvent) :
    Finds (g.scriptOf n) := by
  unfold scriptOf
  rw [nodeOrFail_eq_ok.mpr live, NodeScript.Except.ok_bind]
  simp only [event, Bool.not_true, Bool.false_eq_true, if_false]
  exact (safe_lowerEvent h live event {} fun _ ho => by cases ho).2.1

end Values

/-! ### Compilation -/

variable {g : Graph} (style : Style)

theorem finds_compileEvent (h : g.Housed) {e : NodeId} {node : Node} (live : g.node? e = some node)
    (event : node.kind.isEvent) : Finds (g.compileEvent style e) :=
  (finds_scriptOf h live event).map

/-- An event of the graph is live. -/
theorem live_of_mem_events (h : g.Housed) {node : Node} (hn : node ∈ g.events) :
    g.node? node.id = some node ∧ node.kind.isEvent := by
  obtain ⟨hlive, event⟩ := List.mem_filter.mp hn
  exact ⟨h.node?_of_mem_live hlive, event⟩

theorem finds_compileNamed (h : g.Housed) (name : String) : Finds (g.compileNamed style name) := by
  unfold compileNamed
  split
  · rename_i node hnode
    obtain ⟨live, event⟩ := live_of_mem_events h (List.mem_of_find?_eq_some hnode)
    exact finds_compileEvent style h live event
  · exact .error (by simp) (by simp)

theorem finds_compileAll (h : g.Housed) : Finds (g.compileAll style) := by
  refine Finds.bind (Finds.mapM fun node hn => ?_) fun _ _ => .ok
  obtain ⟨live, event⟩ := live_of_mem_events h hn
  exact finds_compileEvent style h live event

/-! ### Rows -/

/-- No live row holds the identifier of a row that is gone: none is passed over in the lists of a
node, among the targets of an output or at the source of an input, and none is missed at the node
of a connector. -/
structure Resolved (g : Graph) : Prop where
  inputs : ∀ n node, g.node? n = some node → (g.inputsOf node).map (·.id) = node.inputs
  outputs : ∀ n node, g.node? n = some node → (g.outputsOf node).map (·.id) = node.outputs
  targets : ∀ o output, g.output? o = some output →
    (output.targets.filterMap g.input?).map (·.id) = output.targets
  source : ∀ i input, g.input? i = some input → (g.sourceOf input).map (·.id) = input.source
  inputOwner : ∀ i input, g.input? i = some input → ∃ node, g.node? input.owner = some node
  outputOwner : ∀ o output, g.output? o = some output → ∃ node, g.node? output.owner = some node

/-- Looking up identifiers that are all those of live rows gives as many rows. -/
theorem map_filterMap_eq {ι ρ : Type} {find : ι → Option ρ} {ident : ρ → ι} {ids : List ι}
    (h : ∀ i ∈ ids, ∃ row, find i = some row ∧ ident row = i) :
    (ids.filterMap find).map ident = ids := by
  induction ids with
  | nil => rfl
  | cons i ids ih =>
    obtain ⟨row, hfind, hident⟩ := h i (.head _)
    rw [List.filterMap_cons_some hfind, List.map_cons, hident, ih fun j hj => h j (.tail _ hj)]

theorem Reachable.resolved (h : g.Reachable) : g.Resolved where
  inputs n node live := map_filterMap_eq fun i hi => by
    obtain ⟨input, hinput, -⟩ := (h.housed.inputs.mem_listed live).mp hi
    exact ⟨input, hinput, h.housed.inputs.ident_eq hinput⟩
  outputs n node live := map_filterMap_eq fun o ho => by
    obtain ⟨output, houtput, -⟩ := (h.housed.mem_outputs live).mp ho
    exact ⟨output, houtput, h.housed.output_id houtput⟩
  targets o output live := map_filterMap_eq fun i hi => by
    obtain ⟨input, hinput, -⟩ := (h.consistent.feeds_iff o i).mp ⟨output, live, hi⟩
    exact ⟨input, hinput, h.housed.inputs.ident_eq hinput⟩
  source i input live := by
    unfold sourceOf
    cases hsource : input.source with
    | none => rfl
    | some o =>
      obtain ⟨output, houtput, -⟩ := (h.consistent.feeds_iff o i).mpr ⟨input, live, hsource⟩
      simp [houtput, h.housed.output_id houtput]
  inputOwner i input live := h.housed.inputs.owner_live live
  outputOwner o output live := h.housed.output_owner live

/-- **What lowering looks up is there.** After any edits, no live row holds the identifier of a row
that is gone. Making the script of a live event finds every node; the variables that it has given
out by the time it returns or fails are all those of live outputs on live nodes, so that only those
of events are left out of the declarations. Compiling by name or compiling everything finds every
node too, and starts from events only. -/
theorem lookups_resolve (name : String) (edits : List Edit) :
    let g := (empty name).run edits
    g.Resolved ∧
      (∀ e node, g.node? e = some node → node.kind.isEvent →
        Finds (g.scriptOf e) ∧ (∀ style, Finds (g.compileEvent style e)) ∧
          ∀ v ∈ ((g.lowerEvent e).outcome {}).2.bindings, ∃ output owner,
            g.output? v.1 = some output ∧ g.node? output.owner = some owner ∧
              g.localOf v =
                .ok (if owner.kind.isEvent then none else some ⟨output.typeCode, v.2⟩)) ∧
      ∀ style, (∀ name, Finds (g.compileNamed style name)) ∧ Finds (g.compileAll style) := by
  intro g
  have h : g.Reachable := ⟨name, edits, rfl⟩
  refine ⟨h.resolved, fun e node live event => ?_, fun style => ?_⟩
  · refine ⟨finds_scriptOf h.housed live event,
      fun style => finds_compileEvent style h.housed live event, fun v hv => ?_⟩
    obtain ⟨output, houtput⟩ := resolved_lowerEvent h.housed live event v.1 (List.mem_map_of_mem hv)
    obtain ⟨owner, howner⟩ := h.housed.output_owner houtput
    refine ⟨output, owner, houtput, howner, ?_⟩
    rw [localOf_eq h.housed, declarationOf, houtput, Option.bind_some, howner, Option.bind_some]
  · exact ⟨finds_compileNamed style h.housed, finds_compileAll style h.housed⟩

/-- An event whose next node was removed again, and a node without connectors. -/
def pruning : List Edit :=
  let log := { FunctionDecl.callable "Actor" "Log" with params := [.input "Message" .string] }
  [.place (.event (FunctionDecl.callable "Actor" "Tick").asEvent), .place (.call log none),
    .connect ⟨0⟩ ⟨0⟩ .any, .removeNode ⟨1⟩, .add .branch]

/-- The event has a script although the node is gone. -/
theorem lookups_resolve_pruning :
    ((empty "Prune").run pruning).node? ⟨1⟩ = none ∧
      Finds (((empty "Prune").run pruning).scriptOf ⟨0⟩) := by
  obtain ⟨node, live, event⟩ : ∃ node, ((empty "Prune").run pruning).node? ⟨0⟩ = some node ∧
      node.kind.isEvent := ⟨_, rfl, rfl⟩
  exact ⟨rfl, ((lookups_resolve "Prune" pruning).2.1 ⟨0⟩ node live event).1⟩

end Graph

end NodeScript
