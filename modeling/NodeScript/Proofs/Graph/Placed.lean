import NodeScript.Lowering.Call
import NodeScript.Proofs.Graph.Assembled

/-!
# What a node of an assembled graph has

In an assembled graph the connectors of a node go with its kind: a loop has an output for its
counter, and a call has an output for each parameter that it passes out, under the name of the
parameter.
-/

namespace NodeScript

/-- Does a call have an output for the parameter? -/
def Parameter.yields (p : Parameter) : Bool :=
  p.out && p.type.signal.isSupported

theorem ConnectorSpec.name_made (spec : ConnectorSpec) : spec.made.name = spec.name := by
  unfold made
  split <;> rfl

namespace Placement

theorem callee?_callKind (f : FunctionDecl) (archetype : Option Archetype) :
    (callKind f archetype).callee? = some ⟨some f, archetype⟩ := by
  unfold callKind
  split <;> rfl

theorem isEvent_callKind (f : FunctionDecl) (archetype : Option Archetype) :
    (callKind f archetype).isEvent = false := by
  unfold callKind
  split <;> rfl

variable {p : Placement}

/-- A node that calls was placed as a call of a function. -/
theorem of_callee? {callee : Callee} (h : p.kind.callee? = some callee) :
    ∃ f resultClass, callee.function = some f ∧ p.connectors = callConnectors f resultClass ∧
      p.kind = callKind f callee.archetype := by
  cases p with
  | call f resultClass =>
    obtain rfl := Option.some.inj ((callee?_callKind f none).symm.trans h)
    exact ⟨f, resultClass, rfl, rfl, rfl⟩
  | component f a =>
    obtain rfl := Option.some.inj ((callee?_callKind f (some a)).symm.trans h)
    exact ⟨f, some a.className, rfl, rfl, rfl⟩
  | event _ | branch | loop | member _ => cases h

/-- A branch or loop was placed as what it is. -/
theorem eq_of_kind {q : Placement} (plain : q = .branch ∨ q = .loop) (h : p.kind = q.kind) :
    p = q := by
  have callless : p.kind.callee? = none := by
    rcases plain with rfl | rfl
    · rw [h]
      rfl
    · rw [h]
      rfl
  cases p with
  | call f _ => cases (callee?_callKind f none).symm.trans callless
  | component f a => cases (callee?_callKind f (some a)).symm.trans callless
  | branch | loop | event _ | member _ =>
    rcases plain with rfl | rfl <;> first | rfl | cases h

/-- The names of the outputs of a placed node. -/
theorem names_outputs (p : Placement) :
    p.shape.outputs.map (·.name) =
      (p.connectors.filter (·.direction = .output)).map (·.name) := by
  simp [shape, Function.comp_def, ConnectorSpec.name_made]

end Placement

namespace Parameter

variable {p : Parameter} {resultClass : Option String}

/-- A parameter that is passed out, and is not the return value, has an output of its name. -/
theorem callConnector?_of_yields (arg : p.isReturn = false) (h : p.yields) :
    p.callConnector? resultClass = some ⟨.output, p.type.signal, p.name, p.type.className?⟩ := by
  obtain ⟨hout, hsupported⟩ := Bool.and_eq_true_iff.mp h
  simp [callConnector?, arg, connector?, hout, hsupported]

end Parameter

/-- The outputs of a call have the names of the parameters that it passes out, in this order. -/
theorem sublist_names_callConnectors (f : FunctionDecl) (resultClass : Option String) :
    ((f.arguments.filter (·.yields)).map (·.name)).Sublist
      (((Placement.callConnectors f resultClass).filter (·.direction = .output)).map (·.name)) := by
  unfold Placement.callConnectors FunctionDecl.arguments
  simp only [List.filter_append, List.map_append]
  refine List.Sublist.trans ?_ (List.sublist_append_right _ _)
  induction f.params with
  | nil => exact .slnil
  | cons p ps ih =>
    by_cases arg : p.isReturn = false ∧ p.yields
    · have connector : p.callConnector? resultClass = some _ :=
        Parameter.callConnector?_of_yields arg.1 arg.2
      simpa [arg.1, arg.2, connector] using ih
    · have skipped : ((p :: ps).filter (!·.isReturn)).filter (·.yields) =
          (ps.filter (!·.isReturn)).filter (·.yields) := by
        by_cases hr : p.isReturn <;> simp_all
      rw [skipped]
      refine ih.trans (List.Sublist.map _ (List.Sublist.filter _ ?_))
      exact List.Sublist.filterMap _ (List.sublist_cons_self p ps)

namespace Graph

variable {g : Graph} {n : NodeId} {node : Node}

/-- A live node has the kind and the connectors of a placement. -/
theorem Assembled.placement (h : g.Assembled) (hn : g.node? n = some node) :
    ∃ p : Placement, p.check = .ok () ∧ node.kind = p.kind ∧ g.shape? n = some p.shape := by
  obtain ⟨p, ok, hp⟩ := h.shape (shape?_eq_some_iff.mpr ⟨node, hn, rfl⟩)
  exact ⟨p, ok, congrArg Shape.kind hp, shape?_eq_some_iff.mpr ⟨node, hn, hp.symm⟩⟩

/-- A loop has an output for its counter. -/
theorem Assembled.exists_counter (h : g.Assembled) (hn : g.node? n = some node)
    (kind : node.kind = .loop) : ∃ output, g.outputNamed? n Pin.counter = some output := by
  obtain ⟨p, -, hkind, hshape⟩ := h.placement hn
  obtain rfl : p = .loop := Placement.eq_of_kind (.inr rfl) (hkind.symm.trans kind)
  refine Option.ne_none_iff_exists'.mp fun hnone => ?_
  exact (outputNamed?_eq_none_iff hshape).mp hnone (by decide)

/-- A call has a function, and passes no two parameters out under one name. -/
theorem Assembled.nodup_yields (h : g.Assembled) (hn : g.node? n = some node) {callee : Callee}
    (kind : node.kind.callee? = some callee) :
    ∃ f, callee.function = some f ∧
      ((f.arguments.filter (·.yields)).map (·.name)).Nodup := by
  obtain ⟨p, -, hkind, hshape⟩ := h.placement hn
  obtain ⟨f, resultClass, hf, hconnectors, -⟩ := Placement.of_callee? (hkind ▸ kind)
  refine ⟨f, hf, ?_⟩
  have distinct := (h.reachable.distinct hshape).outputs
  rw [Placement.names_outputs, hconnectors] at distinct
  exact (sublist_names_callConnectors f resultClass).nodup distinct

end Graph

end NodeScript
