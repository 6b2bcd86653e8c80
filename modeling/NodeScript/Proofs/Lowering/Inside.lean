import NodeScript.Proofs.Graph.Component
import NodeScript.Proofs.Lowering.Coverage

/-!
# Lowering stays inside an enclosed set of nodes

What a node of an enclosed set leads to and what it reads from is of the set again. So lowering that
starts on a node of the set marks nodes of the set only (`Inside`), each of them once; in particular
it never marks more nodes than there are.
-/

namespace NodeScript.Graph

open Relation
open NodeScript.Lowering

variable {C : NodeId → Prop} {g : Graph} {n m : NodeId} {node : Node} {s t : Scope}

namespace Encloses

/-! ### Where edges lead -/

theorem owner_of_sourceOf (h : g.Encloses C) {input : Input}
    (hi : g.input? input.id = some input) (hc : C input.owner) {output : Output}
    (hs : g.sourceOf input = some output) : C output.owner := by
  obtain ⟨o, hsource, ho⟩ := Option.bind_eq_some_iff.mp hs
  exact (h.closed ho hi hsource).mpr hc

theorem owner_of_target (h : g.Encloses C) {output : Output}
    (ho : g.output? output.id = some output) (hc : C output.owner) {i : InputId}
    (hi : i ∈ output.targets) : ∃ input, g.input? i = some input ∧ C input.owner := by
  obtain ⟨input, hlive, hs⟩ := (h.consistent.feeds_iff _ i).mp ⟨output, ho, hi⟩
  exact ⟨input, hlive, (h.closed ho hlive hs).mp hc⟩

theorem of_successor? (h : g.Encloses C) (hc : C m) {pin : String}
    (next : g.successor? m pin = some n) : C n := by
  obtain ⟨output, houtput, hnext⟩ := Option.bind_eq_some_iff.mp next
  obtain ⟨i, hi, hnext⟩ := Option.bind_eq_some_iff.mp hnext
  obtain ⟨hlive, rfl, -⟩ := h.housed.of_outputNamed? houtput
  obtain ⟨input, hinput, hci⟩ := h.owner_of_target hlive hc (List.mem_of_mem_head? hi)
  rw [hinput] at hnext
  exact Option.some.inj hnext ▸ hci

theorem of_behind (h : g.Encloses C) (hc : C m) {pin : String} (hn : g.Behind [(m, pin)] n) :
    C n := by
  obtain ⟨out, hout, c, next, hreach⟩ := hn
  obtain rfl := List.mem_singleton.mp hout
  induction hreach with
  | refl => exact h.of_successor? hc next
  | tail _ hfollows ih =>
    obtain ⟨pin, -, next⟩ := hfollows
    exact h.of_successor? ih next

theorem of_reads (h : g.Encloses C) (hc : C n) {p : NodeId} (hp : g.Reads n p) : C p := by
  obtain ⟨node, hn, i, hi, input, hlive, -, o, hs, output, ho, rfl⟩ := hp
  obtain ⟨found, hfound, howner⟩ := (h.housed.inputs.mem_listed hn).mp hi
  obtain rfl : input = found := Option.some.inj (hlive.symm.trans hfound)
  refine (h.closed ho hlive hs).mpr ?_
  rwa [show input.owner = n from howner]

theorem of_needs (h : g.Encloses C) (hc : C n) {p : NodeId} (hp : TransGen g.Needs n p) : C p := by
  induction hp with
  | single hneeds => exact h.of_reads hc hneeds.1
  | tail _ hneeds ih => exact h.of_reads ih hneeds.1

/-- The calls that are made for a node of the set are of the set. -/
theorem of_gathered (h : g.Encloses C) (hn : g.node? n = some node) (hc : C n)
    {order : List NodeId} (gathered : g.Gathered (g.dataSources node) s order) :
    ∀ p ∈ order, C p := fun p hp =>
  h.of_needs hc ((wanted_dataSources hn).mp ((gathered.mem_iff p).mp hp).1)

end Encloses

/-! ### Scopes -/

/-- The scope has marked nodes of the set only, each once. -/
structure Inside (g : Graph) (C : NodeId → Prop) (s : Scope) : Prop where
  settled : g.Settled s
  nodup : s.visited.Nodup
  visited : ∀ p ∈ s.visited, C p

namespace Inside

theorem congr (hs : g.Inside C s) (hv : t.visited = s.visited) : g.Inside C t :=
  ⟨hs.settled.congr hv, hv ▸ hs.nodup, hv ▸ hs.visited⟩

/-- There is a live node for each that is marked. -/
theorem length_le (hs : g.Inside C s) (h : g.Encloses C) : s.visited.length ≤ g.nodeCount :=
  h.housed.length_le_nodeCount hs.nodup fun p hp => h.live (hs.visited p hp)

/-- Entering a node of the set marks it. -/
theorem enters (hs : g.Inside C s) (h : g.Encloses C) (hc : C n) {order : List NodeId}
    {calls : List CallStatement} (enters : g.Enters n node s order calls t)
    (settled : g.Settled t) : g.Inside C t ∧ s.visited.length < t.visited.length := by
  refine ⟨⟨settled, enters.visited_nodup hs.nodup, fun p hp => ?_⟩, ?_⟩
  · rw [enters.visited, List.mem_append, List.mem_cons, List.mem_reverse] at hp
    rcases hp with hp | rfl | hp
    · exact h.of_gathered enters.live hc enters.gathered p hp
    · exact hc
    · exact hs.visited p hp
  · simp only [enters.visited, List.length_append, List.length_cons]
    omega

/-- Lowering what lies behind an output of the set marks nodes of the set. -/
theorem lowered (hs : g.Inside C s) (h : g.Encloses C) (hc : C m) {pin : String} {b : Block}
    (lowered : g.Lowered m pin s b t) (settled : g.Settled t) :
    g.Inside C t ∧ s.visited.length ≤ t.visited.length := by
  refine ⟨⟨settled, lowered.visited_nodup hs.nodup, fun p hp => ?_⟩, ?_⟩
  · rcases lowered.spread.visited.mp hp with hp | hp | ⟨r, hr, hp⟩
    · exact hs.visited p hp
    · exact h.of_behind hc hp
    · exact h.of_needs (h.of_behind hc hr) hp
  · rw [lowered.visited_perm.length_eq, List.length_append]
    omega

theorem entryScope (h : g.Encloses C) (hn : g.node? n = some node) (hc : C n)
    (kind : node.kind.isPureCall = false) : g.Inside C (g.entryScope node) := by
  have start := visited_entryScope h.housed hn
  refine ⟨settled_entryScope h.housed hn kind, ?_, fun p hp => ?_⟩
  · rw [start]
    exact List.nodup_singleton n
  · rw [start] at hp
    exact List.mem_singleton.mp hp ▸ hc

end Inside

end NodeScript.Graph
