import NodeScript.Proofs.Blueprint.Realised
import NodeScript.Proofs.Lowering.Connectors

/-!
# Which blueprints can be built

Whether a blueprint can be built is known without building it. A node brings its pins with it, which
depend on its kind and on the declaration that it refers to (`Kind.Pins`): on each side they must
have different names, and each value must go to an input and be a literal of its signal
(`Node.WellPosed`). A link must lead from an output to an input of one signal (`Link.WellPosed`).
These conditions, and that no two nodes have one identifier, are all (`build_ok_iff_wellPosed`). In
particular each link can be built or not, whatever the other links are and in whatever order they
come.
-/

namespace NodeScript

open NodeScript.Except (bind_eq_ok map_eq_ok)

/-- The name and the signal of a connector. -/
abbrev TypedPin :=
  String × Signal

/-- The name and the signal of a connector. -/
def ConnectorSpec.typed (spec : ConnectorSpec) : TypedPin :=
  (spec.name, spec.signal)

namespace Parameter

/-- The pin that a parameter calls for, if its type has a signal. -/
def pin? (p : Parameter) (name : String) : Option TypedPin :=
  if p.type.signal.isSupported then some (name, p.type.signal) else none

end Parameter

namespace FunctionDecl

/-- The outputs of an event: where control leaves, and its parameters. -/
def eventOutputs (f : FunctionDecl) : List TypedPin :=
  (Pin.done, .execution) :: f.arguments.filterMap fun p => p.pin? p.name

/-- The inputs of a call: where control enters, the object that the function is called on, and the
parameters that are passed in. A call without effects has only the last. -/
def callInputs (f : FunctionDecl) : List TypedPin :=
  (if f.flags.pure then [] else [(Pin.run, .execution), (Pin.target, .object)]) ++
    (f.params.filter fun p => !p.isReturn && !p.out).filterMap fun p => p.pin? p.name

/-- The outputs of a call: where control leaves, and the parameters that are passed out. The return
value has a name of its own. -/
def callOutputs (f : FunctionDecl) : List TypedPin :=
  (if f.flags.pure then [] else [(Pin.done, .execution)]) ++
    (f.params.filter fun p => p.isReturn || p.out).filterMap fun p =>
      p.pin? (if p.isReturn then Pin.result else p.name)

end FunctionDecl

namespace Blueprint

variable (source : Lookup)

/-- A node of the kind has these inputs and these outputs, if what it refers to can be found. -/
inductive Kind.Pins : Kind → List TypedPin → List TypedPin → Prop
  | event {c name f} (found : source.function? c name = some f) :
    Pins (.event c name) [] f.eventOutputs
  | call {c name resultClass f} (found : source.function? c name = some f) :
    Pins (.call c name resultClass) f.callInputs f.callOutputs
  | component {c name archetype f} (found : source.function? c name = some f) :
    Pins (.component c name archetype) f.callInputs f.callOutputs
  | branch : Pins .branch [(Pin.run, .execution), (Pin.condition, .bool)]
      [(Pin.whenTrue, .execution), (Pin.whenFalse, .execution)]
  | loop : Pins .loop [(Pin.run, .execution), (Pin.count, .int)]
      [(Pin.body, .execution), (Pin.counter, .int), (Pin.afterLoop, .execution)]
  | member {c name property} (found : source.property? c name = some property)
    (supported : property.type.signal.isSupported = true) :
    Pins (.member c name) (if property.readOnly then [] else [(Pin.set, property.type.signal)])
      [(Pin.get, property.type.signal)]

/-- The pins on each side have different names, and each value is one for an input. -/
def Node.WellPosed (n : Node) : Prop :=
  ∃ inputs outputs, n.kind.Pins source inputs outputs ∧
    (inputs.map Prod.fst).Nodup ∧ (outputs.map Prod.fst).Nodup ∧
      ∀ entry ∈ n.defaults.entries, ∃ signal, (entry.1, signal) ∈ inputs ∧
        ∃ value, Literal.ofText signal entry.2 = .ok value

/-- A node of the identifier has an output of the name and signal. -/
def OutputPin (nodes : List Node) (id : String) (pin : TypedPin) : Prop :=
  ∃ n ∈ nodes, n.id = id ∧ ∃ inputs outputs, n.kind.Pins source inputs outputs ∧ pin ∈ outputs

/-- A node of the identifier has an input of the name and signal. -/
def InputPin (nodes : List Node) (id : String) (pin : TypedPin) : Prop :=
  ∃ n ∈ nodes, n.id = id ∧ ∃ inputs outputs, n.kind.Pins source inputs outputs ∧ pin ∈ inputs

/-- The link leads from an output to an input, of one signal. -/
def Link.WellPosed (nodes : List Node) (l : Link) : Prop :=
  ∃ signal, OutputPin source nodes l.source (l.output, signal) ∧
    InputPin source nodes l.target (l.input, signal)

/-- The conditions under which a blueprint can be built. -/
structure WellPosed (b : Blueprint) : Prop where
  unique : (b.nodes.map (·.id)).Nodup
  nodes : ∀ n ∈ b.nodes, n.WellPosed source
  links : ∀ l ∈ b.links, l.WellPosed source b.nodes

end Blueprint

/-! ### The pins of a placement -/

namespace Placement

variable {p : Placement} {f : FunctionDecl} {resultClass : Option String}

/-- The names and signals of the inputs that are placed. -/
def inputs (p : Placement) : List TypedPin :=
  p.shape.inputs.map ConnectorSpec.typed

/-- The names and signals of the outputs that are placed. -/
def outputs (p : Placement) : List TypedPin :=
  p.shape.outputs.map ConnectorSpec.typed

theorem outputs_eq (p : Placement) :
    p.outputs = (p.connectors.filter (·.direction = .output)).map ConnectorSpec.typed := by
  simp [outputs, shape, ConnectorSpec.typed, ConnectorSpec.name_made, ConnectorSpec.signal_made,
    Function.comp_def]

/-- The connectors for parameters on a side have the pins of those on that side. -/
theorem typed_filterMap {ps : List Parameter} {connector? : Parameter → Option ConnectorSpec}
    {direction : Direction} {on : Parameter → Bool} {name : Parameter → String}
    (each : ∀ p, ((connector? p).filter (·.direction = direction)).map ConnectorSpec.typed =
      if on p then p.pin? (name p) else none) :
    ((ps.filterMap connector?).filter (·.direction = direction)).map ConnectorSpec.typed =
      (ps.filter on).filterMap fun p => p.pin? (name p) := by
  rw [List.filter_filterMap, List.map_filterMap, List.filterMap_filter]
  exact List.filterMap_congr fun p _ => each p

/-- The connector of a call for a parameter, on the side of the inputs. -/
theorem typed_callConnector?_input (q : Parameter) :
    ((q.callConnector? resultClass).filter (·.direction = .input)).map ConnectorSpec.typed =
      if !q.isReturn && !q.out then q.pin? q.name else none := by
  by_cases supported : q.type.signal.isSupported <;> by_cases hr : q.isReturn <;>
    by_cases ho : q.out <;>
    simp [Parameter.callConnector?, Parameter.resultConnector?, Parameter.connector?,
      Parameter.pin?, ConnectorSpec.typed, Option.filter, supported, hr, ho]

/-- The connector of a call for a parameter, on the side of the outputs. -/
theorem typed_callConnector?_output (q : Parameter) :
    ((q.callConnector? resultClass).filter (·.direction = .output)).map ConnectorSpec.typed =
      if q.isReturn || q.out then q.pin? (if q.isReturn then Pin.result else q.name) else none := by
  by_cases supported : q.type.signal.isSupported <;> by_cases hr : q.isReturn <;>
    by_cases ho : q.out <;>
    simp [Parameter.callConnector?, Parameter.resultConnector?, Parameter.connector?,
      Parameter.pin?, ConnectorSpec.typed, Option.filter, supported, hr, ho]

theorem callConnectors_inputs (f : FunctionDecl) (resultClass : Option String) :
    ((callConnectors f resultClass).filter (·.direction = .input)).map ConnectorSpec.typed =
      f.callInputs := by
  rw [callConnectors, List.filter_append, List.map_append, FunctionDecl.callInputs,
    typed_filterMap typed_callConnector?_input]
  congr 1
  split <;> rfl

theorem callConnectors_outputs (f : FunctionDecl) (resultClass : Option String) :
    ((callConnectors f resultClass).filter (·.direction = .output)).map ConnectorSpec.typed =
      f.callOutputs := by
  rw [callConnectors, List.filter_append, List.map_append, FunctionDecl.callOutputs,
    typed_filterMap typed_callConnector?_output]
  congr 1
  split <;> rfl

theorem event_outputs (f : FunctionDecl) : (event f).outputs = f.eventOutputs := by
  have parameters : ((f.arguments.filterMap (·.connector? .output)).filter
      (·.direction = .output)).map ConnectorSpec.typed =
        (f.arguments.filter fun _ => true).filterMap fun q => q.pin? q.name :=
    typed_filterMap fun q => by
      by_cases supported : q.type.signal.isSupported <;>
        simp [Parameter.connector?, Parameter.pin?, ConnectorSpec.typed, supported]
  rw [List.filter_true] at parameters
  rw [outputs_eq, FunctionDecl.eventOutputs, ← parameters]
  rfl

theorem event_inputs (f : FunctionDecl) : (event f).inputs = [] := by
  have none : (f.arguments.filterMap (·.connector? .output)).filter
      (·.direction = .input) = [] := by
    refine List.filter_eq_nil_iff.mpr fun spec hs => ?_
    obtain ⟨q, -, hconnector⟩ := List.mem_filterMap.mp hs
    simp [(of_connector? hconnector).1]
  simp [inputs, shape, connectors, none]

theorem call_inputs (f : FunctionDecl) (resultClass : Option String) :
    (call f resultClass).inputs = f.callInputs :=
  callConnectors_inputs f resultClass

theorem call_outputs (f : FunctionDecl) (resultClass : Option String) :
    (call f resultClass).outputs = f.callOutputs :=
  (outputs_eq _).trans (callConnectors_outputs f resultClass)

theorem component_inputs (f : FunctionDecl) (archetype : Archetype) :
    (component f archetype).inputs = f.callInputs :=
  callConnectors_inputs f _

theorem component_outputs (f : FunctionDecl) (archetype : Archetype) :
    (component f archetype).outputs = f.callOutputs :=
  (outputs_eq _).trans (callConnectors_outputs f _)

theorem check_member {v : PropertyDecl} :
    (member v).check = .ok () ↔ v.type.signal.isSupported = true := by
  by_cases supported : v.type.signal.isSupported <;> simp [check, supported]

theorem member_inputs (v : PropertyDecl) : (member v).inputs =
    if v.readOnly then [] else [(Pin.set, v.type.signal)] := by
  simp only [inputs, shape, connectors]
  split <;> rfl

theorem member_outputs (v : PropertyDecl) : (member v).outputs = [(Pin.get, v.type.signal)] := by
  simp only [outputs_eq, connectors]
  split <;> rfl

/-- No placement that is accepted asks for a connector without a signal. -/
theorem supported_of_check (check : p.check = .ok ()) :
    ∀ spec ∈ p.connectors, spec.signal.isSupported = true := by
  have call : ∀ {f : FunctionDecl} {resultClass : Option String},
      ∀ spec ∈ callConnectors f resultClass, spec.signal.isSupported = true := by
    intro f resultClass spec hs
    rcases mem_callConnectors hs with ⟨-, rfl | rfl | rfl⟩ | ⟨q, -, hconnector⟩
    · rfl
    · rfl
    · rfl
    · obtain ⟨hsignal, supported, -⟩ := of_callConnector? hconnector
      exact hsignal ▸ supported
  intro spec hs
  cases p with
  | event f =>
    rcases List.mem_cons.mp hs with rfl | hs
    · rfl
    · obtain ⟨q, -, hconnector⟩ := List.mem_filterMap.mp hs
      obtain ⟨-, -, hsignal, supported⟩ := of_connector? hconnector
      exact hsignal ▸ supported
  | call f resultClass => exact call spec hs
  | component f archetype => exact call spec hs
  | branch =>
    have all : ∀ spec ∈ branch.connectors, spec.signal.isSupported = true := by decide
    exact all spec hs
  | loop =>
    have all : ∀ spec ∈ loop.connectors, spec.signal.isSupported = true := by decide
    exact all spec hs
  | member v =>
    rw [signal_of_member hs]
    exact check_member.mp check

/-- **A placement is accepted exactly if its pins have different names on each side.** -/
theorem fits_iff : p.Fits ↔ p.check = .ok () ∧ (p.inputs.map Prod.fst).Nodup ∧
    (p.outputs.map Prod.fst).Nodup := by
  have names : ∀ specs : List ConnectorSpec,
      (specs.map ConnectorSpec.typed).map Prod.fst = specs.map (·.name) := fun specs =>
    List.map_map
  rw [inputs, outputs, names, names]
  exact ⟨fun h => ⟨h.check, h.distinct.inputs, h.distinct.outputs⟩,
    fun ⟨check, ins, outs⟩ => ⟨check, supported_of_check check, ins, outs⟩⟩

end Placement

/-! ### What is needed, by the pins -/

namespace Blueprint

variable {source : Lookup} {b : Blueprint} {nodes : List Node} {links : List Link} {n : Node}
  {l : Link} {kind : Kind} {inputs outputs : List TypedPin} {p : Progress}

/-- The pins of a node are those of a placement that is accepted, as far as signals go. -/
theorem Kind.pins_iff : kind.Pins source inputs outputs ↔ ∃ placement,
    kind.placement source = .ok placement ∧ placement.check = .ok () ∧
      placement.inputs = inputs ∧ placement.outputs = outputs := by
  constructor
  · intro h
    cases h with
    | @event c name f found =>
      exact ⟨.event f, map_eq_ok.mpr ⟨f, function_eq_ok.mpr found, rfl⟩, rfl,
        Placement.event_inputs f, Placement.event_outputs f⟩
    | @call c name resultClass f found =>
      exact ⟨.call f resultClass, map_eq_ok.mpr ⟨f, function_eq_ok.mpr found, rfl⟩, rfl,
        Placement.call_inputs f resultClass, Placement.call_outputs f resultClass⟩
    | @component c name archetype f found =>
      exact ⟨.component f archetype, map_eq_ok.mpr ⟨f, function_eq_ok.mpr found, rfl⟩, rfl,
        Placement.component_inputs f archetype, Placement.component_outputs f archetype⟩
    | branch => exact ⟨.branch, rfl, rfl, rfl, rfl⟩
    | loop => exact ⟨.loop, rfl, rfl, rfl, rfl⟩
    | @member c name v found supported =>
      exact ⟨.member v, by simp [Kind.placement, found], Placement.check_member.mpr supported,
        Placement.member_inputs v, Placement.member_outputs v⟩
  · rintro ⟨placement, hplacement, check, rfl, rfl⟩
    cases kind with
    | event c name =>
      obtain ⟨f, hf, rfl⟩ := map_eq_ok.mp hplacement
      rw [Placement.event_inputs, Placement.event_outputs]
      exact .event (function_eq_ok.mp hf)
    | call c name resultClass =>
      obtain ⟨f, hf, rfl⟩ := map_eq_ok.mp hplacement
      rw [Placement.call_inputs, Placement.call_outputs]
      exact .call (function_eq_ok.mp hf)
    | component c name archetype =>
      obtain ⟨f, hf, rfl⟩ := map_eq_ok.mp hplacement
      rw [Placement.component_inputs, Placement.component_outputs]
      exact .component (function_eq_ok.mp hf)
    | branch =>
      cases hplacement
      exact .branch
    | loop =>
      cases hplacement
      exact .loop
    | member c name =>
      cases found : source.property? c name with
      | none => simp [Kind.placement, found] at hplacement
      | some v =>
        obtain rfl : Placement.member v = placement := by
          simpa [Kind.placement, found] using hplacement
        rw [Placement.member_inputs, Placement.member_outputs]
        exact .member found (Placement.check_member.mp check)

/-- An input takes the value exactly if its pin does. -/
theorem takes_iff {placement : Placement} {entry : String × String} :
    Takes placement.shape entry ↔ ∃ signal, (entry.1, signal) ∈ placement.inputs ∧
      ∃ value, Literal.ofText signal entry.2 = .ok value := by
  constructor
  · rintro ⟨spec, hspec, hname, value, hv⟩
    exact ⟨spec.signal, List.mem_map.mpr ⟨spec, hspec, Prod.ext hname rfl⟩, value, hv⟩
  · rintro ⟨signal, hpin, value, hv⟩
    obtain ⟨spec, hspec, htyped⟩ := List.mem_map.mp hpin
    obtain ⟨hname, rfl⟩ := Prod.mk.inj htyped
    exact ⟨spec, hspec, hname, value, hv⟩

theorem Node.fits_iff : n.Fits source ↔ n.WellPosed source := by
  simp only [Fits, WellPosed, Placement.fits_iff, takes_iff, Kind.pins_iff]
  constructor
  · rintro ⟨placement, hplacement, ⟨check, ins, outs⟩, takes⟩
    exact ⟨_, _, ⟨placement, hplacement, check, rfl, rfl⟩, ins, outs, takes⟩
  · rintro ⟨_, _, ⟨placement, hplacement, check, rfl, rfl⟩, ins, outs, takes⟩
    exact ⟨placement, hplacement, ⟨check, ins, outs⟩, takes⟩

/-- What is said of the pins of a node that can be built is said of those of its placement. -/
theorem exists_pins_iff (fits : ∀ n ∈ nodes, n.Fits source) {id : String}
    {P : List TypedPin → List TypedPin → Prop} :
    (∃ n ∈ nodes, n.id = id ∧ ∃ inputs outputs, n.kind.Pins source inputs outputs ∧
      P inputs outputs) ↔
    ∃ n ∈ nodes, n.id = id ∧ ∃ placement, n.kind.placement source = .ok placement ∧
      P placement.inputs placement.outputs := by
  refine exists_congr fun n => and_congr_right fun hn => and_congr_right fun _ => ?_
  constructor
  · rintro ⟨_, _, pins, holds⟩
    obtain ⟨placement, hplacement, -, rfl, rfl⟩ := Kind.pins_iff.mp pins
    exact ⟨placement, hplacement, holds⟩
  · rintro ⟨placement, hplacement, holds⟩
    obtain ⟨accepted, haccepted, fit, -⟩ := fits n hn
    obtain rfl : placement = accepted := Except.ok.inj (hplacement.symm.trans haccepted)
    exact ⟨_, _, Kind.pins_iff.mpr ⟨placement, hplacement, fit.check, rfl, rfl⟩, holds⟩

theorem outputPin_iff (fits : ∀ n ∈ nodes, n.Fits source) {id : String} {pin : TypedPin} :
    OutputPin source nodes id pin ↔ ∃ spec, HasOutput source nodes id spec ∧ spec.typed = pin := by
  refine (exists_pins_iff fits (P := fun _ outputs => pin ∈ outputs)).trans ?_
  simp only [HasOutput, Placement.outputs, List.mem_map]
  grind

theorem inputPin_iff (fits : ∀ n ∈ nodes, n.Fits source) {id : String} {pin : TypedPin} :
    InputPin source nodes id pin ↔ ∃ spec, HasInput source nodes id spec ∧ spec.typed = pin := by
  refine (exists_pins_iff fits (P := fun inputs _ => pin ∈ inputs)).trans ?_
  simp only [HasInput, Placement.inputs, List.mem_map]
  grind

theorem Link.fits_iff (fits : ∀ n ∈ nodes, n.Fits source) :
    l.Fits source nodes ↔ l.WellPosed source nodes := by
  simp only [Link.WellPosed, outputPin_iff fits, inputPin_iff fits]
  constructor
  · rintro ⟨output, input, hasOutput, hout, hasInput, hin, same⟩
    exact ⟨output.signal, ⟨output, hasOutput, Prod.ext hout rfl⟩,
      ⟨input, hasInput, Prod.ext hin same.symm⟩⟩
  · rintro ⟨signal, ⟨output, hasOutput, hout⟩, ⟨input, hasInput, hin⟩⟩
    obtain ⟨hname, rfl⟩ := Prod.mk.inj hout
    obtain ⟨hname', same⟩ := Prod.mk.inj hin
    exact ⟨output, input, hasOutput, hname, hasInput, hname', same.symm⟩

theorem sound_iff : Sound source b ↔ b.WellPosed source := by
  constructor
  · intro h
    exact ⟨h.unique, fun n hn => Node.fits_iff.mp (h.nodes n hn),
      fun l hl => (Link.fits_iff h.nodes).mp (h.links l hl)⟩
  · intro h
    have fits : ∀ n ∈ b.nodes, n.Fits source := fun n hn => Node.fits_iff.mpr (h.nodes n hn)
    exact ⟨h.unique, fits, fun l hl => (Link.fits_iff fits).mpr (h.links l hl)⟩

/-- The links of a blueprint are sound one by one. -/
theorem sound_iff_each : Sound source b ↔ Sound source { b with links := [] } ∧
    ∀ l ∈ b.links, Sound source { b with links := [l] } := by
  constructor
  · intro h
    have bare : Sound source { b with links := [] } := ⟨h.unique, h.nodes, by simp⟩
    exact ⟨bare, fun l hl => ⟨h.unique, h.nodes, by simpa using h.links l hl⟩⟩
  · rintro ⟨bare, each⟩
    exact ⟨bare.unique, bare.nodes, fun l hl => (each l hl).links l (.head _)⟩

/-! ### Building -/

/-- **Links are built exactly if each fits**, though one may take the input away from another. -/
theorem Describes.addAllLinks_ok_iff (h : Describes source nodes links p) :
    ∀ {ls : List Link}, (∃ p', ls.foldlM Blueprint.addLink p = .ok p') ↔
      ∀ l ∈ ls, l.Fits source nodes := by
  intro ls
  induction ls generalizing links p with
  | nil => simp
  | cons l ls ih =>
    have first := h.addLink_ok_iff (l := l)
    simp only [List.foldlM_cons, bind_eq_ok, List.forall_mem_cons, ← first]
    constructor
    · rintro ⟨p', p₁, h₁, h₂⟩
      exact ⟨⟨p₁, h₁⟩, (ih (h.relink h₁)).mp ⟨p', h₂⟩⟩
    · rintro ⟨⟨p₁, h₁⟩, rest⟩
      obtain ⟨p', h₂⟩ := (ih (h.relink h₁)).mpr rest
      exact ⟨p', p₁, h₁, h₂⟩

theorem build_ok_iff_sound : (∃ g, build source b = .ok g) ↔ Sound source b := by
  have start := Describes.empty source b.name
  have nodes : (∃ p, b.nodes.foldlM (addNode source) ⟨.empty b.name, []⟩ = .ok p) ↔ _ :=
    start.addNodes_ok_iff .nil
  simp only [build_eq_ok]
  constructor
  · rintro ⟨g, p, hp, p', hp', -⟩
    obtain ⟨unique, fits⟩ := nodes.mp ⟨p, hp⟩
    exact ⟨unique, fits, (start.addNodes hp).addAllLinks_ok_iff.mp ⟨p', hp'⟩⟩
  · intro sound
    obtain ⟨p, hp⟩ := nodes.mpr ⟨sound.unique, sound.nodes⟩
    obtain ⟨p', hp'⟩ := (start.addNodes hp).addAllLinks_ok_iff.mpr sound.links
    exact ⟨_, p, hp, p', hp', rfl⟩

/-- **Which blueprints can be built.** It is known without building one (`WellPosed`). Each link can
be built or not by itself: a blueprint can be built exactly if it can without links, and with each
of its links alone. So the order of the links is of no account, nor how often each is listed. -/
theorem build_ok_iff_wellPosed (source : Lookup) (b : Blueprint) :
    ((∃ g, build source b = .ok g) ↔ b.WellPosed source) ∧
      ((∃ g, build source b = .ok g) ↔ (∃ g, build source { b with links := [] } = .ok g) ∧
        ∀ l ∈ b.links, ∃ g, build source { b with links := [l] } = .ok g) ∧
      ∀ links, (∀ l, l ∈ links ↔ l ∈ b.links) →
        ((∃ g, build source { b with links := links } = .ok g) ↔
          ∃ g, build source b = .ok g) := by
  simp only [build_ok_iff_sound]
  refine ⟨sound_iff, sound_iff_each, fun links same => ?_⟩
  rw [sound_iff_each, sound_iff_each (b := b)]
  simp only [same]

/-- Four links that compete for two inputs are built in each order, and then the blueprint is well
posed; a link from a text to an input for control is not. -/
theorem build_ok_iff_wellPosed_competing :
    competing.WellPosed greetings ∧
      (∃ g, build greetings { competing with links := competing.links.reverse } = .ok g) ∧
      ¬ (Link.mk "name" Pin.result "one" Pin.run).WellPosed greetings competing.nodes := by
  obtain ⟨iff, -, order⟩ := build_ok_iff_wellPosed greetings competing
  have built : ∃ g, build greetings competing = .ok g := ⟨_, rfl⟩
  have posed := iff.mp built
  refine ⟨posed, (order _ fun _ => List.mem_reverse).mpr built, fun link => ?_⟩
  have refused : ¬ ∃ g, build greetings
      { competing with links := [⟨"name", Pin.result, "one", Pin.run⟩] } = .ok g := by
    rintro ⟨g, hg⟩
    cases hg
  exact refused ((build_ok_iff_wellPosed greetings _).1.mpr
    ⟨posed.unique, posed.nodes, fun l hl => List.mem_singleton.mp hl ▸ link⟩)

end Blueprint

end NodeScript
