import NodeScript.Proofs.Graph.Assembled
import NodeScript.Proofs.Graph.EdgeLists
import NodeScript.Proofs.Graph.InPlace

/-!
# Well-formed graphs

Every graph that edits lead to is `WellFormed`, whether they are accepted or refused on the way:
identifiers are the slots they lead to, each connector is listed once and by its own node, the names
on a side of a node differ, and connectors and values are of their signals.

That connectors are listed by their nodes is known (`Housed`), and that their names differ
(`Reachable.distinct`). What is new is that they are `Typed`. Two of the changes could spoil this
if they were made elsewhere: a new input whose signal has no zero value would get that of another
signal, and a value is put into an input whatever its signal is.
-/

namespace NodeScript

/-- The connector has a signal that can be carried, and the value is of that signal. -/
structure Input.Typed (input : Input) : Prop where
  supported : input.signal.isSupported = true
  fallback : input.fallback.signal = input.signal

/-- The connector has a signal that can be carried, and the class of an object is known. -/
structure Output.Typed (output : Output) : Prop where
  supported : output.signal.isSupported = true
  object : output.signal = .object → output.className.isSome = true

/-- A signal that can be carried has a zero value. -/
theorem Literal.exists_zero {s : Signal} (h : s.isSupported = true) : ∃ l, zero? s = some l := by
  cases s <;> first | exact ⟨_, rfl⟩ | cases h

/-- The value of a new input is of its signal. -/
theorem Literal.signal_zero {s : Signal} (h : s.isSupported = true) :
    ((zero? s).getD .execution).signal = s := by
  obtain ⟨l, hl⟩ := exists_zero h
  rw [hl]
  exact signal_of_zero? hl

namespace Graph

variable {g g' : Graph}

/-! ### Connectors of their signals -/

/-- All live connectors are typed. -/
structure Typed (g : Graph) : Prop where
  input : ∀ {i input}, g.input? i = some input → input.Typed
  output : ∀ {o output}, g.output? o = some output → output.Typed

namespace Typed

theorem empty (name : String) : (empty name).Typed :=
  ⟨nofun, nofun⟩

/-- Edges do not matter. -/
theorem of_unwired (h : g.Typed) (same : g'.unwired = g.unwired) : g'.Typed := by
  refine ⟨fun {i input} hi => ?_, fun {o output} ho => ?_⟩
  · obtain ⟨old, hold, connector, -, fallback⟩ := exists_input_of_unwired same hi
    have typed := h.input hold
    exact ⟨connector ▸ typed.supported, connector ▸ fallback ▸ typed.fallback⟩
  · obtain ⟨old, hold, connector, -⟩ := exists_output_of_unwired same ho
    have typed := h.output hold
    exact ⟨connector ▸ typed.supported, connector ▸ typed.object⟩

/-- A new input has the zero value of its signal. -/
theorem addInput (h : g.Typed) {c : Connector} (supported : c.signal.isSupported = true) :
    (g.addInput c).2.Typed := by
  refine ⟨fun {i input} hi => ?_, h.output⟩
  rw [input?_addInput] at hi
  split at hi
  · cases hi
    exact ⟨supported, Literal.signal_zero supported⟩
  · exact h.input hi

/-- A new output of objects has a class, be it the class of all objects. -/
theorem addOutput (h : g.Typed) {c : Connector} (supported : c.signal.isSupported = true) :
    (g.addOutput c).2.Typed := by
  refine ⟨h.input, fun {o output} ho => ?_⟩
  rw [output?_addOutput] at ho
  split at ho
  · cases ho
    refine ⟨supported, fun object => ?_⟩
    simp only [if_pos object]
    cases c.className <;> rfl
  · exact h.output ho

/-- A value that was read for an input is of its signal. -/
theorem setFallback (h : g.Typed) {i : InputId} {input : Input} {text : String} {value : Literal}
    (hi : g.input? i = some input) (read : Literal.ofText input.signal text = .ok value) :
    (g.modifyInput i ({ · with fallback := value })).Typed := by
  refine ⟨fun {j found} hj => ?_, h.output⟩
  rw [input?_modifyInput] at hj
  split at hj
  · subst j
    rw [hi] at hj
    cases hj
    exact ⟨(h.input hi).supported, Literal.signal_of_ofText read⟩
  · exact h.input hj

/-- An elementary step keeps connectors typed. -/
theorem step (h : g.Typed) (hs : Step g g') : g'.Typed := by
  cases hs with
  | sever => exact h.of_unwired (unwired_severed ..)
  | clear => exact h.of_unwired (unwired_cleared ..)
  | link => exact h.of_unwired (unwired_link ..)
  | addNode | rename | setCallee => exact ⟨h.input, h.output⟩
  | addInput live supported untaken => exact h.addInput supported
  | addOutput live supported untaken => exact h.addOutput supported
  | discard =>
    refine ⟨fun {j input} hj => ?_, fun {p output} hp => ?_⟩
    · rw [input?_discard] at hj
      split at hj
      · cases hj
      · exact h.input hj
    · rw [output?_discard] at hp
      split at hp
      · cases hp
      · exact h.output hp
  | setFallback hi read => exact h.setFallback hi read

end Typed

/-- Connectors are typed in every reachable graph. -/
theorem Reachable.typed (h : g.Reachable) : g.Typed :=
  h.induction Typed.empty fun _ _ ht hs => ht.step hs

/-! ### All of it -/

/-- The connectors of a side are found under their identifiers. Each is listed once, by the node that
it is on, which is live, and by no other; and nothing else is listed. -/
structure Kept {ι γ : Type} [DecidableEq ι] (side : Side ι γ) (g : Graph) : Prop where
  ident : ∀ {i c}, side.find g i = some c → side.ident c = i
  listed : ∀ {i c}, side.find g i = some c → ∃ node, g.node? (side.owner c) = some node ∧
    (side.listed node).count i = 1 ∧
      ∀ {m other}, g.node? m = some other → m ≠ side.owner c → i ∉ side.listed other
  live : ∀ {n node}, g.node? n = some node →
    ∀ i ∈ side.listed node, ∃ c, side.find g i = some c

/-- Nodes and connectors have the identifiers under which they are found, connectors are listed by
the nodes they are on, with different names on each side, and have signals that can be carried.
Outputs of objects have a class, and the values of inputs are of their signals. -/
structure WellFormed (g : Graph) : Prop where
  ident : ∀ {n node}, g.node? n = some node → node.id = n
  inputs : Kept inputSide g
  outputs : Kept outputSide g
  inputNames : ∀ {n node}, g.node? n = some node → ((g.inputsOf node).map (·.name)).Nodup
  outputNames : ∀ {n node}, g.node? n = some node → ((g.outputsOf node).map (·.name)).Nodup
  inputSignal : ∀ {i input}, g.input? i = some input → input.signal ≠ .unsupported
  outputSignal : ∀ {o output}, g.output? o = some output → output.signal ≠ .unsupported
  className : ∀ {o output}, g.output? o = some output → output.signal = .object →
    ∃ className, output.className = some className
  fallback : ∀ {i input}, g.input? i = some input → input.fallback.signal = input.signal

theorem Housing.kept {ι γ : Type} [DecidableEq ι] {side : Side ι γ} (h : Housing side g) :
    Kept side g where
  ident := h.ident_eq
  listed {i c} hfind := by
    obtain ⟨node, live⟩ := h.owner_live hfind
    have here := (h.mem_listed live).mpr ⟨c, hfind, rfl⟩
    refine ⟨node, live, List.count_eq_one_of_mem (h.nodup live) here, fun hm other listed => ?_⟩
    obtain ⟨d, hd, howner⟩ := (h.mem_listed hm).mp listed
    obtain rfl : c = d := Option.some.inj (hfind.symm.trans hd)
    exact other howner.symm
  live live i listed := ((h.mem_listed live).mp listed).imp fun _ => And.left

/-- **Edits lead to well-formed graphs only**, made in place, accepted or refused. -/
theorem performAll_wellFormed (name : String) (edits : List Edit) :
    (InPlace.performAll (empty name) edits).WellFormed := by
  have start : (empty name).Reachable := ⟨name, [], rfl⟩
  rw [InPlace.performAll_eq_run start]
  generalize hg : (empty name).run edits = g
  have reachable : g.Reachable := ⟨name, edits, hg.symm⟩
  have housed := reachable.housed
  have typed := reachable.typed
  have distinct : ∀ {n node}, g.node? n = some node →
      ((g.inputsOf node).map (·.name)).Nodup ∧ ((g.outputsOf node).map (·.name)).Nodup := by
    intro n node hn
    have names := reachable.distinct (shape?_eq_some_iff.mpr ⟨node, hn, rfl⟩)
    have inputs := names.inputs
    have outputs := names.outputs
    simp only [List.map_map] at inputs outputs
    exact ⟨inputs, outputs⟩
  exact {
    ident := housed.node_id
    inputs := housed.inputs.kept
    outputs := housed.outputs.kept
    inputNames := fun hn => (distinct hn).1
    outputNames := fun hn => (distinct hn).2
    inputSignal := fun hi => by simpa [Signal.isSupported] using (typed.input hi).supported
    outputSignal := fun ho => by simpa [Signal.isSupported] using (typed.output ho).supported
    className := fun ho object => Option.isSome_iff_exists.mp ((typed.output ho).object object)
    fallback := fun hi => (typed.input hi).fallback }

end Graph

end NodeScript
