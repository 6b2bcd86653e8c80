import NodeScript.Proofs.Graph.Consistent
import NodeScript.Proofs.Graph.Placed
import NodeScript.Proofs.Lowering.Coverage

/-!
# What the connectors of placed nodes are for

Which connectors a node of an assembled graph has is known from its placement, and with it what
lowering finds on the node: the outputs that lowering follows are execution outputs, an execution
input is the one that its node is run by, and what is read as a value is a data input. So following
an output leads to a node with a place of its own in the order of statements, never to an event, a
call without effects or a variable (`Assembled.placed_of_successor?`).
-/

namespace NodeScript

theorem DeclaredType.isExecution_signal (t : DeclaredType) : t.signal.isExecution = false := by
  cases t with
  | struct name =>
    simp only [signal]
    split
    · rfl
    · split <;> rfl
  | _ => rfl

theorem ConnectorSpec.signal_made (spec : ConnectorSpec) : spec.made.signal = spec.signal := by
  unfold made
  split <;> rfl

namespace Placement

variable {p : Placement} {spec : ConnectorSpec} {f : FunctionDecl} {resultClass : Option String}

/-! ### Placements -/

/-- The connectors for the parameters of a function carry values. -/
theorem of_connector? {q : Parameter} {direction : Direction}
    (h : q.connector? direction = some spec) :
    spec.direction = direction ∧ spec.name = q.name ∧ spec.signal = q.type.signal ∧
      q.type.signal.isSupported = true := by
  unfold Parameter.connector? at h
  split at h
  · obtain rfl := Option.some.inj h
    exact ⟨rfl, rfl, rfl, ‹_›⟩
  · cases h

/-- The connector of a call for a parameter: an output for the result, and otherwise one on the
side of the parameter, under its name. -/
theorem of_callConnector? {q : Parameter} (h : q.callConnector? resultClass = some spec) :
    spec.signal = q.type.signal ∧ q.type.signal.isSupported = true ∧
      (q.isReturn = true ∧ spec.direction = .output ∧ spec.name = Pin.result ∨
        q.isReturn = false ∧ spec.direction = (if q.out then .output else .input) ∧
          spec.name = q.name) := by
  unfold Parameter.callConnector? at h
  split at h
  · rename_i returns
    obtain ⟨c, hc, rfl⟩ := Option.map_eq_some_iff.mp h
    obtain ⟨hdirection, -, hsignal, supported⟩ := of_connector? hc
    exact ⟨hsignal, supported, .inl ⟨returns, hdirection, rfl⟩⟩
  · rename_i argument
    obtain ⟨hdirection, hname, hsignal, supported⟩ := of_connector? h
    exact ⟨hsignal, supported, .inr ⟨by simpa using argument, hdirection, hname⟩⟩

/-- The connectors of a call: those that order statements, and those of the parameters. -/
theorem mem_callConnectors (hs : spec ∈ callConnectors f resultClass) :
    f.flags.pure = false ∧ (spec = ⟨.input, .execution, Pin.run, none⟩ ∨
      spec = ⟨.input, .object, Pin.target, some f.owner⟩ ∨
      spec = ⟨.output, .execution, Pin.done, none⟩) ∨
    ∃ q ∈ f.params, q.callConnector? resultClass = some spec := by
  rcases List.mem_append.mp hs with hs | hs
  · split at hs
    · cases hs
    · exact .inl ⟨by simp_all, by simpa using hs⟩
  · exact .inr (List.mem_filterMap.mp hs)

theorem callKind_eq (pure : f.flags.pure = false) (archetype : Option Archetype) :
    callKind f archetype = .call ⟨some f, archetype⟩ := by
  simp [callKind, pure]

/-- The connectors of a variable carry its values. -/
theorem signal_of_member {v : PropertyDecl} (hs : spec ∈ (member v).connectors) :
    spec.signal = v.type.signal := by
  simp only [connectors] at hs
  split at hs
  · rw [List.mem_singleton.mp hs]
  · rcases List.mem_cons.mp hs with rfl | hs
    · rfl
    · rw [List.mem_singleton.mp hs]

/-- An input that orders statements is the one that a node with a place of its own is run by. -/
theorem of_execution_input (hs : spec ∈ p.connectors) (side : spec.direction = .input)
    (execution : spec.signal.isExecution = true) :
    p.kind.isPlaced = true ∧ spec.name = Pin.run := by
  have call : ∀ {f resultClass} (archetype : Option Archetype),
      spec ∈ callConnectors f resultClass →
        (callKind f archetype).isPlaced = true ∧ spec.name = Pin.run := by
    intro f resultClass archetype hs
    rcases mem_callConnectors hs with ⟨pure, rfl | rfl | rfl⟩ | ⟨q, -, hq⟩
    · exact ⟨by rw [callKind_eq pure]; rfl, rfl⟩
    · cases execution
    · cases side
    · obtain ⟨hsignal, -⟩ := of_callConnector? hq
      rw [hsignal, DeclaredType.isExecution_signal] at execution
      cases execution
  cases p with
  | call f resultClass => exact call none hs
  | component f a => exact call (some a) hs
  | event f =>
    rcases List.mem_cons.mp hs with rfl | hs
    · cases side
    · obtain ⟨q, -, hq⟩ := List.mem_filterMap.mp hs
      obtain ⟨hdirection, -⟩ := of_connector? hq
      cases hdirection.symm.trans side
  | branch =>
    simp only [connectors, List.mem_cons, List.not_mem_nil, or_false] at hs
    rcases hs with rfl | rfl | rfl | rfl
    · exact ⟨rfl, rfl⟩
    · cases execution
    · cases side
    · cases side
  | loop =>
    simp only [connectors, List.mem_cons, List.not_mem_nil, or_false] at hs
    rcases hs with rfl | rfl | rfl | rfl | rfl
    · exact ⟨rfl, rfl⟩
    · cases execution
    · cases side
    · cases side
    · cases side
  | member v =>
    rw [signal_of_member hs, DeclaredType.isExecution_signal] at execution
    cases execution

/-- The outputs that lowering follows order statements. -/
theorem execution_of_followed {pin : String} (hp : pin ∈ p.kind.followed) :
    ∃ spec ∈ p.connectors, spec.direction = .output ∧ spec.name = pin ∧
      spec.signal.isExecution = true := by
  have call : ∀ {f resultClass} (archetype : Option Archetype),
      pin ∈ (callKind f archetype).followed → ∃ spec ∈ callConnectors f resultClass,
        spec.direction = .output ∧ spec.name = pin ∧ spec.signal.isExecution = true := by
    intro f resultClass archetype hp
    cases pure : f.flags.pure with
    | true => simp [callKind, pure, NodeKind.followed] at hp
    | false =>
      rw [callKind_eq pure] at hp
      obtain rfl := List.mem_singleton.mp hp
      exact ⟨⟨.output, .execution, Pin.done, none⟩, by simp [callConnectors, pure], rfl, rfl, rfl⟩
  cases p with
  | call f resultClass => exact call none hp
  | component f a => exact call (some a) hp
  | event f =>
    obtain rfl := List.mem_singleton.mp hp
    exact ⟨_, .head _, rfl, rfl, rfl⟩
  | branch =>
    simp only [kind, NodeKind.followed, List.mem_cons, List.not_mem_nil, or_false] at hp
    rcases hp with rfl | rfl
    · exact ⟨⟨.output, .execution, Pin.whenTrue, none⟩, by simp [connectors], rfl, rfl, rfl⟩
    · exact ⟨⟨.output, .execution, Pin.whenFalse, none⟩, by simp [connectors], rfl, rfl, rfl⟩
  | loop =>
    simp only [kind, NodeKind.followed, List.mem_cons, List.not_mem_nil, or_false] at hp
    rcases hp with rfl | rfl
    · exact ⟨⟨.output, .execution, Pin.body, none⟩, by simp [connectors], rfl, rfl, rfl⟩
    · exact ⟨⟨.output, .execution, Pin.afterLoop, none⟩, by simp [connectors], rfl, rfl, rfl⟩
  | member v => cases hp

/-- An output that orders statements is one that lowering follows. -/
theorem followed_of_execution_output (hs : spec ∈ p.connectors) (side : spec.direction = .output)
    (execution : spec.signal.isExecution = true) : spec.name ∈ p.kind.followed := by
  have call : ∀ {f resultClass} (archetype : Option Archetype),
      spec ∈ callConnectors f resultClass → spec.name ∈ (callKind f archetype).followed := by
    intro f resultClass archetype hs
    rcases mem_callConnectors hs with ⟨pure, rfl | rfl | rfl⟩ | ⟨q, -, hq⟩
    · cases side
    · cases side
    · rw [callKind_eq pure]
      exact .head _
    · obtain ⟨hsignal, -⟩ := of_callConnector? hq
      rw [hsignal, DeclaredType.isExecution_signal] at execution
      cases execution
  cases p with
  | call f resultClass => exact call none hs
  | component f a => exact call (some a) hs
  | event f =>
    rcases List.mem_cons.mp hs with rfl | hs
    · exact .head _
    · obtain ⟨q, -, hq⟩ := List.mem_filterMap.mp hs
      obtain ⟨-, -, hsignal, -⟩ := of_connector? hq
      rw [hsignal, DeclaredType.isExecution_signal] at execution
      cases execution
  | branch =>
    simp only [connectors, List.mem_cons, List.not_mem_nil, or_false] at hs
    rcases hs with rfl | rfl | rfl | rfl
    · cases side
    · cases side
    · simp [kind, NodeKind.followed]
    · simp [kind, NodeKind.followed]
  | loop =>
    simp only [connectors, List.mem_cons, List.not_mem_nil, or_false] at hs
    rcases hs with rfl | rfl | rfl | rfl | rfl
    · cases side
    · cases side
    · simp [kind, NodeKind.followed]
    · cases execution
    · simp [kind, NodeKind.followed]
  | member v =>
    rw [signal_of_member hs, DeclaredType.isExecution_signal] at execution
    cases execution

/-- A data output of a call is for the result, or for a parameter that it passes out. -/
theorem of_data_output (hs : spec ∈ callConnectors f resultClass)
    (side : spec.direction = .output) (data : spec.signal.isExecution = false) :
    spec.name = Pin.result ∨ ∃ q ∈ f.arguments, q.yields = true ∧ spec.name = q.name := by
  rcases mem_callConnectors hs with ⟨-, rfl | rfl | rfl⟩ | ⟨q, hq, hconnector⟩
  · cases side
  · cases side
  · cases data
  · obtain ⟨-, supported, ⟨-, -, hname⟩ | ⟨argument, hdirection, hname⟩⟩ :=
      of_callConnector? hconnector
    · exact .inl hname
    · have out : q.out = true := by
        by_contra hout
        rw [if_neg hout, side] at hdirection
        cases hdirection
      refine .inr ⟨q, List.mem_filter.mpr ⟨hq, by simp [argument]⟩, ?_, hname⟩
      simp [Parameter.yields, out, supported]

/-- A parameter of a call that is passed in has an input of its name, which carries values. -/
theorem input_of_argument {q : Parameter} (hq : q ∈ f.arguments) (passed : q.out = false)
    (supported : q.type.signal.isSupported = true) :
    ∃ spec ∈ callConnectors f resultClass, spec.direction = .input ∧ spec.name = q.name ∧
      spec.signal.isExecution = false := by
  obtain ⟨hmem, argument⟩ := List.mem_filter.mp hq
  refine ⟨⟨.input, q.type.signal, q.name, q.type.className?⟩, ?_, rfl, rfl,
    DeclaredType.isExecution_signal q.type⟩
  refine List.mem_append_right _ (List.mem_filterMap.mpr ⟨q, hmem, ?_⟩)
  simp_all [Parameter.callConnector?, Parameter.connector?]

end Placement

namespace Graph

variable {g : Graph} {m n : NodeId} {node : Node} {p : Placement} {pin : String}

/-! ### Live connectors -/

/-- In a list of distinct names, each member is the first of its name. -/
theorem find?_of_nodup_map {α : Type} {name : α → String} {l : List α} {a : α}
    (distinct : (l.map name).Nodup) (ha : a ∈ l) : l.find? (name · == name a) = some a := by
  cases hfound : l.find? (name · == name a) with
  | none => simpa using List.find?_eq_none.mp hfound a ha
  | some b =>
    have hname : name b = name a := by simpa using List.find?_some hfound
    rw [List.inj_on_of_nodup_map distinct (List.mem_of_find?_eq_some hfound) ha hname]

/-- A live output is the one of its name on its node. -/
theorem Reachable.outputNamed?_name (h : g.Reachable) {output : Output}
    (ho : g.output? output.id = some output) :
    g.outputNamed? output.owner output.name = some output := by
  obtain ⟨node, hn⟩ := h.housed.output_owner ho
  have listed := (h.housed.mem_outputsOf hn).mpr ⟨ho, rfl⟩
  have distinct := (h.distinct (shape?_eq_some_iff.mpr ⟨node, hn, rfl⟩)).outputs
  rw [List.map_map] at distinct
  rw [outputNamed?, hn]
  exact find?_of_nodup_map distinct listed

/-- A live input is the one of its name on its node. -/
theorem Reachable.inputNamed?_name (h : g.Reachable) {input : Input}
    (hi : g.input? input.id = some input) :
    g.inputNamed? input.owner input.name = some input := by
  obtain ⟨node, hn⟩ := h.housed.inputs.owner_live hi
  have listed := (h.housed.mem_inputsOf hn).mpr ⟨hi, rfl⟩
  have distinct := (h.distinct (shape?_eq_some_iff.mpr ⟨node, hn, rfl⟩)).inputs
  rw [List.map_map] at distinct
  rw [inputNamed?, hn]
  exact find?_of_nodup_map distinct listed

/-- The inputs of a node are known by the specifications in its shape. -/
theorem Reachable.mem_inputs_iff (h : g.Reachable) {sh : Shape} (hs : g.shape? n = some sh)
    {spec : ConnectorSpec} : spec ∈ sh.inputs ↔
      ∃ input, g.inputNamed? n spec.name = some input ∧ input.spec .input = spec := by
  obtain ⟨node, hn, rfl⟩ := shape?_eq_some_iff.mp hs
  constructor
  · intro hspec
    obtain ⟨input, hi, rfl⟩ := List.mem_map.mp hspec
    obtain ⟨live, rfl⟩ := (h.housed.mem_inputsOf hn).mp hi
    exact ⟨input, h.inputNamed?_name live, rfl⟩
  · rintro ⟨input, hi, rfl⟩
    obtain ⟨live, owner, -⟩ := h.housed.of_inputNamed? hi
    exact List.mem_map_of_mem ((h.housed.mem_inputsOf hn).mpr ⟨live, owner⟩)

/-- The outputs of a node are known by the specifications in its shape. -/
theorem Reachable.mem_outputs_iff (h : g.Reachable) {sh : Shape} (hs : g.shape? n = some sh)
    {spec : ConnectorSpec} : spec ∈ sh.outputs ↔
      ∃ output, g.outputNamed? n spec.name = some output ∧ output.spec .output = spec := by
  obtain ⟨node, hn, rfl⟩ := shape?_eq_some_iff.mp hs
  constructor
  · intro hspec
    obtain ⟨output, ho, rfl⟩ := List.mem_map.mp hspec
    obtain ⟨live, rfl⟩ := (h.housed.mem_outputsOf hn).mp ho
    exact ⟨output, h.outputNamed?_name live, rfl⟩
  · rintro ⟨output, ho, rfl⟩
    obtain ⟨live, owner, -⟩ := h.housed.of_outputNamed? ho
    exact List.mem_map_of_mem ((h.housed.mem_outputsOf hn).mpr ⟨live, owner⟩)

/-- The inputs of a node are those of its placement. -/
theorem Housed.spec_of_input (h : g.Housed) (hshape : g.shape? n = some p.shape) {input : Input}
    (hi : g.input? input.id = some input) (owner : input.owner = n) :
    ∃ spec ∈ p.connectors, spec.direction = .input ∧ spec.name = input.name ∧
      spec.signal = input.signal := by
  obtain ⟨node, hn, heq⟩ := shape?_eq_some_iff.mp hshape
  have listed := List.mem_map_of_mem (f := fun c : Input => c.spec .input)
    ((h.mem_inputsOf hn).mpr ⟨hi, owner⟩)
  have hspec : input.spec .input ∈ p.shape.inputs := heq ▸ listed
  exact ⟨_, (List.mem_filter.mp hspec).1, rfl, rfl, rfl⟩

/-- The outputs of a node are those of its placement. -/
theorem Housed.spec_of_output (h : g.Housed) (hshape : g.shape? n = some p.shape) {output : Output}
    (ho : g.output? output.id = some output) (owner : output.owner = n) :
    ∃ spec ∈ p.connectors, spec.direction = .output ∧ spec.name = output.name ∧
      spec.signal = output.signal := by
  obtain ⟨node, hn, heq⟩ := shape?_eq_some_iff.mp hshape
  have listed := List.mem_map_of_mem (f := fun c : Output => c.spec .output)
    ((h.mem_outputsOf hn).mpr ⟨ho, owner⟩)
  have hspec : output.spec .output ∈ p.shape.outputs := heq ▸ listed
  obtain ⟨spec, hmem, hmade⟩ := List.mem_map.mp hspec
  obtain ⟨hmem, hdirection⟩ := List.mem_filter.mp hmem
  refine ⟨spec, hmem, by simpa using hdirection, ?_, ?_⟩
  · rw [← spec.name_made, hmade]
    rfl
  · rw [← spec.signal_made, hmade]
    rfl

namespace Assembled

/-- The output that is found under the name of an output of the placement carries its signal. -/
theorem signal_of_outputNamed? (h : g.Assembled) (hshape : g.shape? n = some p.shape)
    {spec : ConnectorSpec} (hs : spec ∈ p.connectors) (side : spec.direction = .output)
    {output : Output} (ho : g.outputNamed? n spec.name = some output) :
    output.signal = spec.signal := by
  obtain ⟨live, owner, name⟩ := h.reachable.housed.of_outputNamed? ho
  obtain ⟨other, hother, hside, hname, hsignal⟩ :=
    h.reachable.housed.spec_of_output hshape live owner
  have distinct := (h.reachable.distinct hshape).outputs
  rw [Placement.names_outputs] at distinct
  obtain rfl : other = spec := List.inj_on_of_nodup_map distinct
    (List.mem_filter.mpr ⟨hother, by simpa using hside⟩)
    (List.mem_filter.mpr ⟨hs, by simpa using side⟩) (hname.trans name)
  exact hsignal.symm

/-- The input that is found under the name of an input of the placement carries its signal. -/
theorem signal_of_inputNamed? (h : g.Assembled) (hshape : g.shape? n = some p.shape)
    {spec : ConnectorSpec} (hs : spec ∈ p.connectors) (side : spec.direction = .input)
    {input : Input} (hi : g.inputNamed? n spec.name = some input) :
    input.signal = spec.signal := by
  obtain ⟨live, owner, name⟩ := h.reachable.housed.of_inputNamed? hi
  obtain ⟨other, hother, hside, hname, hsignal⟩ :=
    h.reachable.housed.spec_of_input hshape live owner
  have distinct := (h.reachable.distinct hshape).inputs
  obtain rfl : other = spec := List.inj_on_of_nodup_map distinct
    (List.mem_filter.mpr ⟨hother, by simpa using hside⟩)
    (List.mem_filter.mpr ⟨hs, by simpa using side⟩) (hname.trans name)
  exact hsignal.symm

/-- An input that is not the one that nodes are run by is a data input. -/
theorem data_of_inputNamed? (h : g.Assembled) {name : String} {input : Input}
    (hi : g.inputNamed? n name = some input) (other : name ≠ Pin.run) :
    input.signal.isExecution = false := by
  obtain ⟨live, rfl, rfl⟩ := h.reachable.housed.of_inputNamed? hi
  obtain ⟨node, hn⟩ := h.reachable.housed.inputs.owner_live live
  obtain ⟨p, -, -, hshape⟩ := h.placement hn
  obtain ⟨spec, hs, side, hname, hsignal⟩ := h.reachable.housed.spec_of_input hshape live rfl
  by_contra execution
  rw [Bool.not_eq_false, ← hsignal] at execution
  exact other (hname ▸ (Placement.of_execution_input hs side execution).2)

/-- **Following an output leads to a node with a place of its own.** -/
theorem placed_of_successor? (h : g.Assembled) (exit : g.Exit (m, pin))
    (next : g.successor? m pin = some n) :
    ∃ node, g.node? n = some node ∧ node.kind.isPlaced = true := by
  have housed := h.reachable.housed
  have consistent := h.reachable.consistent
  obtain ⟨source, hm, hpin⟩ := exit
  obtain ⟨p, -, hkind, hshape⟩ := h.placement hm
  obtain ⟨spec, hs, side, rfl, execution⟩ := Placement.execution_of_followed (hkind ▸ hpin)
  -- the edge goes from an execution output to an execution input
  obtain ⟨output, houtput, hnext⟩ := Option.bind_eq_some_iff.mp next
  obtain ⟨i, hi, hnext⟩ := Option.bind_eq_some_iff.mp hnext
  obtain ⟨input, hlive, rfl⟩ := Option.map_eq_some_iff.mp hnext
  obtain ⟨ho, -, -⟩ := housed.of_outputNamed? houtput
  have hsignal := consistent.signal_eq
    ((consistent.feeds_iff _ i).mp ⟨output, ho, List.mem_of_mem_head? hi⟩)
  simp only [signalOut, signalIn, ho, hlive, Option.map_some, Option.some.injEq] at hsignal
  rw [h.signal_of_outputNamed? hshape hs side houtput] at hsignal
  obtain ⟨node, hn⟩ := housed.inputs.owner_live hlive
  obtain ⟨q, -, hkind', hshape'⟩ := h.placement hn
  obtain rfl : input.id = i := housed.inputs.ident_eq hlive
  obtain ⟨spec', hs', side', -, hsignal'⟩ := housed.spec_of_input hshape' hlive rfl
  rw [hsignal, ← hsignal'] at execution
  exact ⟨node, hn, hkind' ▸ (Placement.of_execution_input hs' side' execution).1⟩

end Assembled

end Graph

end NodeScript
