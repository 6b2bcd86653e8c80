import Mathlib.Data.List.Nodup
import NodeScript.Proofs.Graph.Consistent
import NodeScript.Proofs.Graph.Placed

/-!
# What a placement needs and what it adds

Whether a placement is accepted does not depend on the graph: each of its connectors must have a
signal that can be carried, and the names on each side must differ (`Placement.Fits`,
`place_ok_iff`). An accepted placement adds one node of its shape, whose inputs have no edges and
the zero values of their signals (`Adds`, `adds_of_place`); no other node is touched.
-/

namespace NodeScript

/-- The parts of a list still differ if that of the new element is none of them. -/
theorem nodup_map_concat {α β : Type} (f : α → β) (l : List α) (a : α) :
    ((l ++ [a]).map f).Nodup ↔ (l.map f).Nodup ∧ f a ∉ l.map f := by
  rw [List.map_append, List.map_singleton, ← List.concat_eq_append, List.nodup_concat, and_comm]

/-- What a placement needs to be accepted. -/
structure Placement.Fits (p : Placement) : Prop where
  check : p.check = .ok ()
  supported : ∀ spec ∈ p.connectors, spec.signal.isSupported = true
  distinct : p.shape.Distinct

/-- The value of an input that was not given any. -/
def Connector.zero (c : Connector) : Literal :=
  (Literal.zero? c.signal).getD .execution

namespace Shape

variable {sh : Shape} {spec : ConnectorSpec}

/-- The connectors on a side. -/
def side (sh : Shape) : Direction → List ConnectorSpec
  | .input => sh.inputs
  | .output => sh.outputs

/-- The names still differ if that of the new connector is not taken on its side. -/
theorem distinct_add_iff (h : sh.Distinct) :
    (sh.add spec.made).Distinct ↔ spec.name ∉ (sh.side spec.direction).map (·.name) := by
  have concat : ∀ l : List ConnectorSpec, (l.map (·.name)).Nodup →
      (((l ++ [spec.made]).map (·.name)).Nodup ↔ spec.name ∉ l.map (·.name)) := by
    intro l hl
    rw [nodup_map_concat, spec.name_made]
    exact and_iff_right hl
  obtain ⟨direction, signal, name, className⟩ := spec
  cases direction with
  | input =>
    exact ⟨fun hd => (concat _ h.inputs).mp hd.inputs,
      fun free => ⟨(concat _ h.inputs).mpr free, h.outputs⟩⟩
  | output =>
    exact ⟨fun hd => (concat _ h.outputs).mp hd.outputs,
      fun free => ⟨h.inputs, (concat _ h.outputs).mpr free⟩⟩

/-- Connectors were added to names that differ, if the names differ in the end. -/
theorem distinct_of_foldl_add {specs : List ConnectorSpec}
    (h : (specs.foldl (fun sh spec => sh.add spec.made) sh).Distinct) : sh.Distinct := by
  rw [Graph.foldl_add] at h
  have inputs := h.inputs
  have outputs := h.outputs
  simp only [List.map_append] at inputs outputs
  exact ⟨(List.nodup_append'.mp inputs).1, (List.nodup_append'.mp outputs).1⟩

end Shape

namespace Graph

variable {g g' k : Graph} {n m : NodeId} {sh : Shape} {spec : ConnectorSpec} {p : Placement}

/-! ### Acceptance -/

/-- A connector is accepted if its signal can be carried and the names still differ. -/
theorem addConnector_ok_iff (hs : g.shape? n = some sh) (distinct : sh.Distinct) :
    (∃ r, g.addConnector n spec = .ok r) ↔
      spec.signal.isSupported = true ∧ (sh.add spec.made).Distinct := by
  have live : ∃ node, g.node? n = some node := by
    obtain ⟨node, hn, -⟩ := shape?_eq_some_iff.mp hs
    exact ⟨node, hn⟩
  have taken : g.isTaken n spec.direction spec.name = false ↔ (sh.add spec.made).Distinct := by
    rw [Shape.distinct_add_iff distinct]
    cases spec.direction with
    | input => simpa [isTaken, Shape.side] using inputNamed?_eq_none_iff hs
    | output => simpa [isTaken, Shape.side] using outputNamed?_eq_none_iff hs
  rw [← taken]
  constructor
  · rintro ⟨r, hr⟩
    obtain ⟨-, supported, free, -⟩ := addConnector_eq_ok.mp hr
    exact ⟨supported, free⟩
  · rintro ⟨supported, free⟩
    exact ⟨_, addConnector_eq_ok.mpr ⟨live, supported, free, rfl⟩⟩

theorem addConnectors_ok_iff (h : g.Housed) (hs : g.shape? n = some sh) (distinct : sh.Distinct)
    (specs : List ConnectorSpec) : (g.addConnectors n specs).1 = .ok () ↔
      (∀ spec ∈ specs, spec.signal.isSupported = true) ∧
        (specs.foldl (fun sh spec => sh.add spec.made) sh).Distinct := by
  induction specs generalizing g sh with
  | nil => simp [addConnectors, distinct]
  | cons spec specs ih =>
    have first : (∃ r, g.addConnector n spec = .ok r) ↔
        spec.signal.isSupported = true ∧ (sh.add spec.made).Distinct :=
      addConnector_ok_iff hs distinct
    cases hr : g.addConnector n spec with
    | ok r =>
      obtain ⟨supported, distinct'⟩ := first.mp ⟨r, hr⟩
      have shape := shape?_addConnector h hr n
      rw [if_pos rfl, hs] at shape
      have rest := ih (h.steps (addConnector_steps hr)) shape distinct'
      simpa [addConnectors, hr, supported] using rest
    | error e =>
      have refused : ¬ (spec.signal.isSupported = true ∧ (sh.add spec.made).Distinct) := by
        rw [← first]
        rintro ⟨r, hok⟩
        rw [hr] at hok
        cases hok
      simp only [addConnectors, hr, reduceCtorEq, false_iff, not_and, List.foldl_cons]
      exact fun supported distinct' =>
        refused ⟨supported spec (.head _), Shape.distinct_of_foldl_add distinct'⟩

/-- An accepted placement has checked its type and added all its connectors. -/
theorem place_eq_ok : (g.place p).1 = .ok n ↔ p.check = .ok () ∧ n = (g.addNode p.kind).1 ∧
    ((g.addNode p.kind).2.addConnectors n p.connectors).1 = .ok () := by
  unfold place
  cases p.check with
  | error e => simp
  | ok u =>
    simp only [true_and]
    constructor
    · intro h
      split at h
      · rename_i added
        cases h
        exact ⟨rfl, by rw [added]⟩
      · split at h <;> cases h
    · rintro ⟨rfl, added⟩
      split
      · rfl
      · rename_i refused
        rw [refused] at added
        cases added

theorem shape?_begun (g : Graph) (kind : NodeKind) :
    (g.addNode kind).2.shape? (g.addNode kind).1 = some ⟨kind, [], []⟩ := by
  rw [shape?_addNode, if_pos rfl]

/-- **Whether a placement is accepted does not depend on the graph.** -/
theorem place_ok_iff (h : g.Housed) : (∃ n, (g.place p).1 = .ok n) ↔ p.Fits := by
  have added := addConnectors_ok_iff (h.addNode p.kind) (g.shape?_begun p.kind) ⟨.nil, .nil⟩
    p.connectors
  rw [foldl_add_shape] at added
  constructor
  · rintro ⟨n, hn⟩
    obtain ⟨check, rfl, all⟩ := place_eq_ok.mp hn
    obtain ⟨supported, distinct⟩ := added.mp all
    exact ⟨check, supported, distinct⟩
  · intro fits
    exact ⟨_, place_eq_ok.mpr ⟨fits.check, rfl, added.mpr ⟨fits.supported, fits.distinct⟩⟩⟩

/-! ### What is added -/

/-- The second graph is the first with a node and its inputs added; these have no edges and the zero
values of their signals. -/
structure Adds (n : NodeId) (g k : Graph) : Prop where
  node : ∀ {m}, m ≠ n → k.node? m = g.node? m
  shape : ∀ {m}, m ≠ n → k.shape? m = g.shape? m
  input : ∀ i, k.input? i = g.input? i ∨ g.input? i = none ∧ ∃ input, k.input? i = some input ∧
    input.owner = n ∧ input.source = none ∧ input.fallback = input.zero

namespace Adds

theorem refl (n : NodeId) (g : Graph) : Adds n g g :=
  ⟨fun _ => rfl, fun _ => rfl, fun _ => .inl rfl⟩

theorem trans (h : Adds n g k) (h' : Adds n k g') : Adds n g g' where
  node hm := (h'.node hm).trans (h.node hm)
  shape hm := (h'.shape hm).trans (h.shape hm)
  input i := by
    rcases h'.input i with same | ⟨hnone, added⟩
    · rw [same]
      exact h.input i
    · rcases h.input i with same | ⟨-, input, hi, -⟩
      · exact .inr ⟨same ▸ hnone, added⟩
      · rw [hi] at hnone
        cases hnone

theorem addNode (g : Graph) (kind : NodeKind) : Adds (g.addNode kind).1 g (g.addNode kind).2 where
  node hm := by rw [node?_addNode, if_neg hm]
  shape hm := by rw [shape?_addNode, if_neg hm]
  input i := .inl rfl

theorem addConnector (h : g.Housed) {r : ConnectorId × Graph}
    (ok : g.addConnector n spec = .ok r) : Adds n g r.2 := by
  have shape := shape?_addConnector h ok
  obtain ⟨-, -, -, rfl⟩ := addConnector_eq_ok.mp ok
  obtain ⟨direction, signal, name, className⟩ := spec
  refine ⟨fun {m} hm => ?_, fun {m} hm => by rw [shape, if_neg hm.symm], fun i => ?_⟩
  · cases direction with
    | input => exact (g.node?_addInput ⟨n, name, signal, className⟩ m).trans (if_neg hm.symm)
    | output => exact (g.node?_addOutput ⟨n, name, signal, className⟩ m).trans (if_neg hm.symm)
  · cases direction with
    | input =>
      have look := g.input?_addInput ⟨n, name, signal, className⟩ i
      by_cases hi : i = (g.addInput ⟨n, name, signal, className⟩).1
      · rw [if_pos hi] at look
        exact .inr ⟨hi ▸ g.input?_next _, _, look, rfl, rfl, rfl⟩
      · rw [if_neg hi] at look
        exact .inl look
    | output => exact .inl rfl

theorem addConnectors (h : g.Housed) (n : NodeId) (specs : List ConnectorSpec) :
    Adds n g (g.addConnectors n specs).2 := by
  induction specs generalizing g with
  | nil => exact .refl n g
  | cons spec specs ih =>
    cases hr : g.addConnector n spec with
    | error e => simpa [Graph.addConnectors, hr] using refl n g
    | ok r =>
      have first := addConnector h hr
      simpa [Graph.addConnectors, hr] using first.trans (ih (h.steps (addConnector_steps hr)))

/-- No edge is added. -/
theorem fedBy_iff (h : Adds n g k) {i : InputId} {o : OutputId} : k.FedBy i o ↔ g.FedBy i o := by
  unfold FedBy
  rcases h.input i with same | ⟨hnone, input, hi, -, hs, -⟩
  · rw [same]
  · simp [hnone, hi, hs]

end Adds

/-- An accepted placement leaves the node with all its connectors. -/
theorem place_of_ok (ok : (g.place p).1 = .ok n) :
    (g.place p).2 = ((g.addNode p.kind).2.addConnectors n p.connectors).2 := by
  obtain ⟨check, rfl, all⟩ := place_eq_ok.mp ok
  unfold place
  rw [check]
  simp only
  split
  · rename_i added
    rw [added]
  · rename_i refused
    rw [refused] at all
    cases all

/-- **An accepted placement adds one node of its shape.** -/
theorem adds_of_place (h : g.Housed) (ok : (g.place p).1 = .ok n) :
    g.node? n = none ∧ (g.place p).2.shape? n = some p.shape ∧ Adds n g (g.place p).2 := by
  obtain ⟨check, rfl, all⟩ := place_eq_ok.mp ok
  have begun := h.addNode p.kind
  rw [place_of_ok ok]
  refine ⟨g.node?_next _, ?_, (Adds.addNode g p.kind).trans (.addConnectors begun _ _)⟩
  rw [(shape?_addConnectors begun p.connectors).2 all, shape?_begun, Option.map_some,
    foldl_add_shape]

end Graph

end NodeScript
