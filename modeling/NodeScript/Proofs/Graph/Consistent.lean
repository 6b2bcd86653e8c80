import Mathlib.Data.List.Nodup
import NodeScript.Proofs.Graph.Steps

/-!
# Both ends of an edge agree

An edge is stored twice: the output lists its targets, the input knows its source. The two always
describe the same edges, no output lists an input twice, and the ends of an edge have one signal
(`Consistent`). Each elementary step is described by what it does to the edges as its two ends see
them (`Feeds`, `FedBy`), and keeps the agreement; so every edit does, accepted or refused.
-/

namespace NodeScript.Graph

variable {g : Graph}

/-- A live output lists the input among its targets. -/
def Feeds (g : Graph) (o : OutputId) (i : InputId) : Prop :=
  ∃ output, g.output? o = some output ∧ i ∈ output.targets

/-- A live input has its edge from the output. -/
def FedBy (g : Graph) (i : InputId) (o : OutputId) : Prop :=
  ∃ input, g.input? i = some input ∧ input.source = some o

/-- The signal of a live output. -/
def signalOut (g : Graph) (o : OutputId) : Option Signal :=
  (g.output? o).map (·.signal)

/-- The signal of a live input. -/
def signalIn (g : Graph) (i : InputId) : Option Signal :=
  (g.input? i).map (·.signal)

/-- Both ends know the same edges, each once, and between connectors of one signal. -/
structure Consistent (g : Graph) : Prop where
  feeds_iff : ∀ o i, g.Feeds o i ↔ g.FedBy i o
  nodup : ∀ {o output}, g.output? o = some output → output.targets.Nodup
  signal_eq : ∀ {o i}, g.FedBy i o → g.signalOut o = g.signalIn i

/-! ### The edges after a step -/

theorem feeds_severed {source : Option OutputId} {i j : InputId} {o : OutputId} :
    (g.severed source i).Feeds o j ↔ g.Feeds o j ∧ ¬ (source = some o ∧ j = i) := by
  simp only [Feeds, output?_severed]
  cases g.output? o with
  | none => simp
  | some output => by_cases hs : source = some o <;> simp [hs]

theorem fedBy_severed {source : Option OutputId} {i j : InputId} {o : OutputId} :
    (g.severed source i).FedBy j o ↔ g.FedBy j o ∧ j ≠ i := by
  simp only [FedBy, input?_severed]
  by_cases hij : i = j
  · subst hij
    simp
  · simp [hij, Ne.symm hij]

theorem feeds_cleared {p o : OutputId} {l : List InputId} {j : InputId} :
    (g.cleared p l).Feeds o j ↔ g.Feeds o j ∧ o ≠ p := by
  simp only [Feeds, output?_cleared]
  by_cases hp : p = o
  · subst hp
    simp
  · simp [hp, Ne.symm hp]

theorem fedBy_cleared {p o : OutputId} {l : List InputId} {j : InputId} :
    (g.cleared p l).FedBy j o ↔ g.FedBy j o ∧ j ∉ l := by
  simp only [FedBy, input?_cleared]
  by_cases hj : j ∈ l <;> simp [hj]

theorem feeds_link {p o : OutputId} {output : Output} {i j : InputId}
    (hp : g.output? p = some output) :
    (g.link p i).Feeds o j ↔ g.Feeds o j ∨ (o = p ∧ j = i) := by
  simp only [Feeds, output?_link]
  by_cases ho : p = o
  · subst ho
    simp [hp]
  · simp [ho, Ne.symm ho]

theorem fedBy_link {p o : OutputId} {i j : InputId} {input : Input}
    (hi : g.input? i = some input) :
    (g.link p i).FedBy j o ↔ (g.FedBy j o ∧ j ≠ i) ∨ (o = p ∧ j = i) := by
  simp only [FedBy, input?_link]
  by_cases hj : i = j
  · subst hj
    simp [hi, eq_comm]
  · simp [hj, Ne.symm hj]

theorem feeds_addOutput {c : Connector} {o : OutputId} {j : InputId} :
    (g.addOutput c).2.Feeds o j ↔ g.Feeds o j := by
  simp only [Feeds, output?_addOutput]
  split
  · subst_vars
    simp [output?_next]
  · rfl

theorem fedBy_addInput {c : Connector} {j : InputId} {o : OutputId} :
    (g.addInput c).2.FedBy j o ↔ g.FedBy j o := by
  simp only [FedBy, input?_addInput]
  split
  · subst_vars
    simp [input?_next]
  · rfl

theorem feeds_discard {n : NodeId} {node : Node} {o : OutputId} {j : InputId} :
    (g.discard n node).Feeds o j ↔ g.Feeds o j ∧ o ∉ node.outputs := by
  simp only [Feeds, output?_discard]
  by_cases ho : o ∈ node.outputs <;> simp [ho]

theorem fedBy_discard {n : NodeId} {node : Node} {j : InputId} {o : OutputId} :
    (g.discard n node).FedBy j o ↔ g.FedBy j o ∧ j ∉ node.inputs := by
  simp only [FedBy, input?_discard]
  by_cases hj : j ∈ node.inputs <;> simp [hj]

theorem fedBy_setFallback {i j : InputId} {value : Literal} {o : OutputId} :
    (g.modifyInput i ({ · with fallback := value })).FedBy j o ↔ g.FedBy j o := by
  simp only [FedBy, input?_modifyInput]
  cases g.input? j <;> split <;> simp

/-! ### The signals after a step -/

@[simp] theorem signalOut_severed (source : Option OutputId) (i : InputId) :
    (g.severed source i).signalOut = g.signalOut := by
  funext o
  rw [signalOut, output?_severed]
  exact map_ite_map fun _ => rfl

@[simp] theorem signalIn_severed (source : Option OutputId) (i : InputId) :
    (g.severed source i).signalIn = g.signalIn := by
  funext j
  rw [signalIn, input?_severed]
  exact map_ite_map fun _ => rfl

@[simp] theorem signalOut_cleared (p : OutputId) (l : List InputId) :
    (g.cleared p l).signalOut = g.signalOut := by
  funext o
  rw [signalOut, output?_cleared]
  exact map_ite_map fun _ => rfl

@[simp] theorem signalIn_cleared (p : OutputId) (l : List InputId) :
    (g.cleared p l).signalIn = g.signalIn := by
  funext j
  rw [signalIn, input?_cleared]
  exact map_ite_map fun _ => rfl

@[simp] theorem signalOut_link (p : OutputId) (i : InputId) :
    (g.link p i).signalOut = g.signalOut := by
  funext o
  rw [signalOut, output?_link]
  exact map_ite_map fun _ => rfl

@[simp] theorem signalIn_link (p : OutputId) (i : InputId) :
    (g.link p i).signalIn = g.signalIn := by
  funext j
  rw [signalIn, input?_link]
  exact map_ite_map fun _ => rfl

@[simp] theorem signalIn_setFallback (i : InputId) (value : Literal) :
    (g.modifyInput i ({ · with fallback := value })).signalIn = g.signalIn := by
  funext j
  rw [signalIn, input?_modifyInput]
  exact map_ite_map fun _ => rfl

/-! ### Every step keeps the agreement -/

theorem consistent_empty (name : String) : (empty name).Consistent where
  feeds_iff := by simp [Feeds, FedBy]
  nodup := by simp
  signal_eq := by simp [FedBy]

namespace Consistent

/-- The agreement depends only on what is found under the identifiers of connectors. -/
theorem of_eq {g' : Graph} (h : g.Consistent) (hi : g'.input? = g.input?)
    (ho : g'.output? = g.output?) : g'.Consistent where
  feeds_iff o i := by simpa only [Feeds, FedBy, hi, ho] using h.feeds_iff o i
  nodup := by
    rw [ho]
    exact h.nodup
  signal_eq {o i} := by
    simpa only [FedBy, signalOut, signalIn, hi, ho] using h.signal_eq (o := o) (i := i)

theorem severed (h : g.Consistent) {i : InputId} {input : Input} (hi : g.input? i = some input) :
    (g.severed input.source i).Consistent where
  feeds_iff o j := by
    rw [feeds_severed, fedBy_severed, h.feeds_iff]
    -- an input other than `i` keeps its edge, and that of `i` comes from nowhere else
    refine and_congr_right fun hfed => not_congr ⟨And.right, fun hj => ⟨?_, hj⟩⟩
    obtain ⟨input', hi', hs⟩ := hj ▸ hfed
    obtain rfl : input = input' := Option.some.inj (hi.symm.trans hi')
    exact hs
  nodup := by
    intro o output ho
    rw [output?_severed] at ho
    split at ho
    · obtain ⟨before, hb, rfl⟩ := Option.map_eq_some_iff.mp ho
      exact (h.nodup hb).filter _
    · exact h.nodup ho
  signal_eq hf := by simpa using h.signal_eq (fedBy_severed.mp hf).1

theorem cleared (h : g.Consistent) {p : OutputId} {output : Output}
    (hp : g.output? p = some output) : (g.cleared p output.targets).Consistent where
  feeds_iff o j := by
    rw [feeds_cleared, fedBy_cleared, h.feeds_iff]
    refine and_congr_right fun hfed => not_congr ⟨?_, fun hj => ?_⟩
    · rintro rfl
      obtain ⟨output', hp', hmem⟩ := (h.feeds_iff o j).mpr hfed
      obtain rfl : output = output' := Option.some.inj (hp.symm.trans hp')
      exact hmem
    · -- the targets of `p` have their only edge from `p`
      obtain ⟨input, hj', hs⟩ := hfed
      obtain ⟨input', hj'', hs'⟩ := (h.feeds_iff p j).mp ⟨output, hp, hj⟩
      obtain rfl : input = input' := Option.some.inj (hj'.symm.trans hj'')
      exact Option.some.inj (hs.symm.trans hs')
  nodup := by
    intro o output' ho
    rw [output?_cleared] at ho
    split at ho
    · obtain ⟨before, -, rfl⟩ := Option.map_eq_some_iff.mp ho
      exact List.nodup_nil
    · exact h.nodup ho
  signal_eq hf := by simpa using h.signal_eq (fedBy_cleared.mp hf).1

theorem link (h : g.Consistent) {p : OutputId} {output : Output} {i : InputId} {input : Input}
    (hp : g.output? p = some output) (hi : g.input? i = some input)
    (signal : output.signal = input.signal) (unfed : input.source = none) :
    (g.link p i).Consistent := by
  have free : ∀ o, ¬ g.FedBy i o := by
    rintro o ⟨input', hi', hs⟩
    obtain rfl : input = input' := Option.some.inj (hi.symm.trans hi')
    simp [unfed] at hs
  refine ⟨fun o j => ?_, ?_, fun hf => ?_⟩
  · rw [feeds_link hp, fedBy_link hi, h.feeds_iff]
    refine or_congr_left ⟨fun hfed => ⟨hfed, ?_⟩, And.left⟩
    rintro rfl
    exact free o hfed
  · intro o output' ho
    rw [output?_link] at ho
    split at ho
    · obtain ⟨before, hb, rfl⟩ := Option.map_eq_some_iff.mp ho
      have fresh : i ∉ before.targets := fun hmem =>
        free o ((h.feeds_iff o i).mp ⟨before, hb, hmem⟩)
      exact List.concat_eq_append ▸ List.Nodup.concat fresh (h.nodup hb)
    · exact h.nodup ho
  · rw [signalOut_link, signalIn_link]
    rcases (fedBy_link hi).mp hf with ⟨hf, -⟩ | ⟨rfl, rfl⟩
    · exact h.signal_eq hf
    · simp [signalOut, signalIn, hp, hi, signal]

theorem addInput (h : g.Consistent) (c : Connector) : (g.addInput c).2.Consistent where
  feeds_iff o j := (h.feeds_iff o j).trans fedBy_addInput.symm
  nodup := h.nodup
  signal_eq {o j} hf := by
    have hf := fedBy_addInput.mp hf
    obtain ⟨input, hj, -⟩ := id hf
    have hne : j ≠ (g.addInput c).1 := by
      rintro rfl
      simp [input?_next] at hj
    simpa [signalOut, signalIn, input?_addInput, hne] using h.signal_eq hf

theorem addOutput (h : g.Consistent) (c : Connector) : (g.addOutput c).2.Consistent where
  feeds_iff o j := feeds_addOutput.trans (h.feeds_iff o j)
  nodup := by
    intro o output ho
    rw [output?_addOutput] at ho
    split at ho
    · obtain rfl := Option.some.inj ho
      exact List.nodup_nil
    · exact h.nodup ho
  signal_eq {o j} (hf : g.FedBy j o) := by
    -- nothing has its edge from an output that was not there
    obtain ⟨output, ho, -⟩ := (h.feeds_iff o j).mpr hf
    have hne : o ≠ (g.addOutput c).1 := by
      rintro rfl
      simp [output?_next] at ho
    simpa [signalOut, signalIn, output?_addOutput, hne] using h.signal_eq hf

theorem discard (h : g.Consistent) {n : NodeId} {node : Node}
    (unfed : ∀ i ∈ node.inputs, g.Unfed i) (unread : ∀ o ∈ node.outputs, g.Unread o) :
    (g.discard n node).Consistent := by
  have hin : ∀ {o j}, g.FedBy j o → j ∉ node.inputs := by
    rintro o j ⟨input, hj, hs⟩ hmem
    simp [unfed j hmem input hj] at hs
  have hout : ∀ {o j}, g.FedBy j o → o ∉ node.outputs := by
    intro o j hf hmem
    obtain ⟨output, ho, hj⟩ := (h.feeds_iff o j).mpr hf
    simp [unread o hmem output ho] at hj
  refine ⟨fun o j => ?_, ?_, fun hf => ?_⟩
  · rw [feeds_discard, fedBy_discard, h.feeds_iff]
    exact and_congr_right fun hf => iff_of_true (hout hf) (hin hf)
  · intro o output ho
    rw [output?_discard] at ho
    split at ho
    · simp at ho
    · exact h.nodup ho
  · obtain ⟨hf, hj⟩ := fedBy_discard.mp hf
    simpa [signalOut, signalIn, output?_discard, input?_discard, hout hf, hj] using h.signal_eq hf

theorem setFallback (h : g.Consistent) (i : InputId) (value : Literal) :
    (g.modifyInput i ({ · with fallback := value })).Consistent where
  feeds_iff o j := (h.feeds_iff o j).trans fedBy_setFallback.symm
  nodup := h.nodup
  signal_eq hf := by
    rw [signalIn_setFallback]
    exact h.signal_eq (fedBy_setFallback.mp hf)

/-- An elementary step keeps the agreement of both ends. -/
theorem step {g' : Graph} (h : g.Consistent) (hs : Step g g') : g'.Consistent := by
  cases hs with
  | sever hi => exact h.severed hi
  | clear ho => exact h.cleared ho
  | link ho hi signal unfed => exact h.link ho hi signal unfed
  | addNode kind => exact h.of_eq rfl rfl
  | addInput => exact h.addInput _
  | addOutput => exact h.addOutput _
  | discard _ unfed unread => exact h.discard unfed unread
  | setFallback => exact h.setFallback _ _
  | rename n name => exact h.of_eq rfl rfl
  | setCallee n callee => exact h.of_eq rfl rfl

theorem steps {g' : Graph} (h : g.Consistent) (hs : Steps g g') : g'.Consistent := by
  induction hs with
  | refl => exact h
  | tail _ hstep ih => exact ih.step hstep

end Consistent

/-- Both ends of every edge agree in every reachable graph. -/
theorem Reachable.consistent (h : g.Reachable) : g.Consistent :=
  h.induction consistent_empty fun _ _ hc hs => hc.step hs

/-- **Both ends of every edge agree.** After any edits, accepted or refused, from an empty graph:
an output lists an input among its targets exactly if the input is live and has its edge from the
output, and then the output is live; no output lists an input twice; and the ends of an edge have
one signal. -/
theorem edges_agree (name : String) (edits : List Edit) :
    let g := (empty name).run edits
    (∀ o i, g.Feeds o i ↔ g.FedBy i o ∧ ∃ output, g.output? o = some output) ∧
      (∀ o output, g.output? o = some output → output.targets.Nodup) ∧
      ∀ o output i input, g.output? o = some output → g.input? i = some input →
        i ∈ output.targets → output.signal = input.signal := by
  intro g
  have h : g.Consistent := Reachable.consistent ⟨name, edits, rfl⟩
  refine ⟨fun o i => ?_, fun o output => h.nodup, fun o output i input ho hi hmem => ?_⟩
  · rw [h.feeds_iff]
    refine ⟨fun hf => ⟨hf, ?_⟩, And.left⟩
    exact ((h.feeds_iff o i).mpr hf).imp fun _ => And.left
  · have hs := h.signal_eq ((h.feeds_iff o i).mp ⟨output, ho, hmem⟩)
    simpa [signalOut, signalIn, ho, hi] using hs

end NodeScript.Graph
