import NodeScript.Proofs.Graph.LastEdge
import NodeScript.Proofs.Graph.Skipped
import NodeScript.Proofs.Lowering.Connectors

/-!
# Where only one edge can be followed

Lowering follows the first edge of an execution output and no other. If the policy under which edges
are made allows execution outputs one edge each, this leaves nothing out: whatever edge an execution
output has is the one that is followed (`Reachable.successor?_of_targets`), and the node it goes to
turns into a statement if the node that it comes from does (`exists_emitted_of_follows`).
-/

namespace NodeScript.Graph

open Relation

variable {g : Graph} {e m n : NodeId} {pin : String} {script : EventScript}

/-- An output with one edge leads to where this goes. -/
theorem Reachable.successor?_of_targets (h : g.Reachable) {o : OutputId} {output : Output}
    {i : InputId} (ho : g.output? o = some output) (targets : output.targets = [i]) :
    ∃ input, g.input? i = some input ∧
      g.successor? output.owner output.name = some input.owner := by
  obtain rfl := h.housed.output_id ho
  obtain ⟨input, hi, -⟩ := (h.consistent.feeds_iff output.id i).mp ⟨output, ho, by simp [targets]⟩
  exact ⟨input, hi, by simp [successor?, h.outputNamed?_name ho, targets, hi]⟩

/-- Whichever execution output a node of an assembled graph has, lowering would follow it. -/
theorem Assembled.exit_of_execution (h : g.Assembled) {o : OutputId} {output : Output}
    (ho : g.output? o = some output) (execution : output.signal.isExecution = true) :
    g.Exit (output.owner, output.name) := by
  have housed := h.reachable.housed
  obtain rfl := housed.output_id ho
  obtain ⟨node, live⟩ := housed.output_owner ho
  obtain ⟨p, -, hkind, hshape⟩ := h.placement live
  obtain ⟨spec, hs, side, hname, hsignal⟩ := housed.spec_of_output hshape ho rfl
  exact ⟨node, live, hkind ▸ hname ▸
    Placement.followed_of_execution_output hs side (hsignal ▸ execution)⟩

/-- **What a node of a script leads to is in the script.** A followed output of the event, or of a
node that has a statement in its script, leads to a node that has one too. -/
theorem exists_emitted_of_follows (h : g.Housed) (ok : g.scriptOf e = .ok script)
    (source : m = e ∨ ∃ form, (form, m) ∈ script.statements.emitted) (exit : g.Exit (m, pin))
    (next : g.successor? m pin = some n) :
    ∃ form, (form, n) ∈ script.statements.emitted := by
  obtain ⟨node, s', written⟩ := written_of_scriptOf h ok
  obtain ⟨name, f, kind⟩ := written.event
  have live := written.live
  have lowered := written.lowered
  have spread := lowered.spread
  have single := written.visited_nodup h
  have offered : g.Offers [(e, Pin.done)] (m, pin) := by
    rcases source with rfl | ⟨form, emitted⟩
    · exact (offers_event_iff live kind).mpr ⟨.inl rfl, exit⟩
    · obtain ⟨marked, new, -⟩ := (lowered.mem_emitted_iff single).mp emitted
      rcases (spread.visited.mp marked).resolve_left new with behind | ⟨r, -, needs⟩
      · exact .inr ⟨behind, exit⟩
      · -- a call without effects has no output that is followed
        obtain ⟨source, hsource, pure⟩ := isPureCall_of_needs needs
        obtain ⟨found, hfound, hpin⟩ := exit
        obtain rfl : source = found := Option.some.inj (hsource.symm.trans hfound)
        cases hkind : source.kind <;> simp_all [NodeKind.isPureCall, NodeKind.followed]
  have behind := offered.behind next
  obtain ⟨target, htarget, placed⟩ := spread.placed behind
  have form : ∃ form, target.kind.form? = some form := by
    cases hkind : target.kind <;> simp_all [NodeKind.isPlaced, NodeKind.form?]
  obtain ⟨form, hform⟩ := form
  exact ⟨form, (lowered.mem_emitted_iff single).mpr
    ⟨spread.visited.mpr (.inr (.inl behind)), spread.fresh behind, target, htarget, hform⟩⟩

/-- **Under a policy, an output that it allows one edge has at most the last one made.** Let edits,
each accepted or refused, lead from an empty graph to a graph, all connections among them being made
under one policy. Then an output of a signal that the policy allows one edge only has none, or just
the edge that was made by the last accepted connection from it.

If the policy is the one for execution outputs, then a script ignores no execution edge. Let an
event have a script, and take any execution output of the event or of a node that has a statement in
the script, whose name is one of those that lowering follows; in an assembled graph, every execution
output is such. If the output has an edge, it has no other, this edge is followed, and the node that
it goes to has a statement in the script. -/
theorem single_target (name : String) (policy : FanOut) (edits : List Edit)
    (uniform : Uniform policy edits) :
    let g := (empty name).run edits
    (∀ o output, g.output? o = some output → policy output.signal = false →
      output.targets = [] ∨ ∃ i, output.targets = [i] ∧
        lastTarget? ((empty name).edgesMade edits) o = some i) ∧
    (policy = .singleExecution → ∀ e script, g.scriptOf e = .ok script →
      ∀ o output, g.output? o = some output → output.signal = .execution →
        (output.owner = e ∨ ∃ form, (form, output.owner) ∈ script.statements.emitted) →
        (g.Exit (output.owner, output.name) ∨ g.Assembled) →
        ∀ i ∈ output.targets, output.targets = [i] ∧ ∃ input, g.input? i = some input ∧
          g.successor? output.owner output.name = some input.owner ∧
          ∃ form, (form, input.owner) ∈ script.statements.emitted) := by
  intro g
  have reachable : g.Reachable := ⟨name, edits, rfl⟩
  have latest : Latest policy g ((empty name).edgesMade edits) :=
    (Latest.empty policy name).run uniform
  have single : ∀ o output, g.output? o = some output → policy output.signal = false →
      output.targets = [] ∨ ∃ i, output.targets = [i] ∧
        lastTarget? ((empty name).edgesMade edits) o = some i :=
    fun o output => latest.targets reachable.consistent
  refine ⟨single, ?_⟩
  rintro rfl e script ok o output ho execution source followed i hi
  have forbidden : FanOut.singleExecution output.signal = false := by rw [execution]; rfl
  have targets : output.targets = [i] := by
    rcases single o output ho forbidden with none | ⟨j, one, -⟩
    · simp [none] at hi
    · rw [one, List.mem_singleton] at hi
      rw [one, hi]
  have exit : g.Exit (output.owner, output.name) :=
    followed.elim id fun assembled => assembled.exit_of_execution ho (by rw [execution]; rfl)
  obtain ⟨input, hinput, next⟩ := reachable.successor?_of_targets ho targets
  exact ⟨targets, input, hinput, next,
    exists_emitted_of_follows reachable.housed ok source exit next⟩

/-- The edits that connect an event to one call, and then to another, under the policy that allows
execution outputs one edge. -/
def rerouting : List Edit :=
  [.place ticks, .place logging, .place logging, .connect ⟨0⟩ ⟨0⟩ .singleExecution,
    .connect ⟨0⟩ ⟨3⟩ .singleExecution]

/-- Only the second edge is there, and the script has the second call. -/
theorem single_target_rerouting :
    let g := (empty "Reroute").run rerouting
    Uniform .singleExecution rerouting ∧
      lastTarget? ((empty "Reroute").edgesMade rerouting) ⟨0⟩ = some ⟨3⟩ ∧
      ∃ script output, g.scriptOf ⟨0⟩ = .ok script ∧ g.output? ⟨0⟩ = some output ∧
        output.targets = [⟨3⟩] ∧ ∃ form, (form, ⟨2⟩) ∈ script.statements.emitted := by
  have uniform : Uniform .singleExecution rerouting := by
    intro o i fanOut connecting
    simp only [rerouting, List.mem_cons, reduceCtorEq, Edit.connect.injEq, List.not_mem_nil,
      or_false, false_or] at connecting
    exact connecting.elim (·.2.2) (·.2.2)
  obtain ⟨script, ok⟩ : ∃ script,
      ((empty "Reroute").run rerouting).scriptOf ⟨0⟩ = .ok script := ⟨_, rfl⟩
  obtain ⟨output, ho, event, execution, hi⟩ : ∃ output,
      ((empty "Reroute").run rerouting).output? ⟨0⟩ = some output ∧ output.owner = ⟨0⟩ ∧
        output.signal = .execution ∧ ⟨3⟩ ∈ output.targets := ⟨_, rfl, rfl, rfl, .head _⟩
  have assembled : ((empty "Reroute").run rerouting).Assembled := ⟨_, _, by decide, rfl⟩
  obtain ⟨single, all⟩ := single_target "Reroute" .singleExecution rerouting uniform
  obtain ⟨targets, input, hinput, -, emitted⟩ :=
    all rfl _ script ok _ output ho execution (.inl event) (.inr assembled) _ hi
  refine ⟨uniform, ?_, script, output, ok, ho, targets, ?_⟩
  · rcases single _ output ho (by rw [execution]; rfl) with none | ⟨i, one, last⟩
    · simp [none] at hi
    · rw [targets, List.singleton_inj] at one
      exact one ▸ last
  · cases hinput
    exact emitted

end NodeScript.Graph
