import NodeScript.Proofs.Lowering.CallLine
import NodeScript.Proofs.Lowering.Circular
import NodeScript.Proofs.Lowering.Connectors

/-!
# The object that a function is called on

A call that orders statements gets an input `Target` for the object that its function is called on.
A call without effects gets none. But the line of a call looks for an input of that name among all
inputs of the node, and a parameter may have any name. A call that orders statements cannot have two
inputs of one name, so there it finds the right one (`Assembled.exists_target`). A call without
effects that passes a parameter in under the name `Target` is called on the value of this parameter,
and shows it again among its arguments.

So the lines of calls are as they should be (`Graph.Addressed`) but for those of calls without
effects to whose parameter `Target` an edge leads (`addressed_iff`).
-/

namespace NodeScript

/-! ### The text of a call -/

/-- The arguments of a call, as they follow the name of the function. -/
def Argument.list (as : List Argument) : String :=
  if as = [] then "()" else "( " ++ ", ".intercalate (as.map text) ++ " )"

/-- The texts of the arguments stand in the list one after the other. -/
theorem Argument.list_eq (as : List Argument) : list as =
    if as.map text = [] then "()" else "( " ++ ", ".intercalate (as.map text) ++ " )" := by
  by_cases hnone : as = [] <;> simp [list, hnone]

/-- A text without an object in front is shorter than each that has one. -/
theorem ne_prefixed (object t : String) : t ≠ object ++ "." ++ t := by
  intro h
  have length := congrArg String.length h
  simp only [String.length_append] at length
  have dot : ".".length = 1 := by decide
  omega

/-! ### The inputs of a call -/

namespace Placement

variable {f : FunctionDecl} {resultClass : Option String}

/-- A parameter that is passed in has an input of its name. -/
theorem callConnector?_of_passed {p : Parameter} (argument : p.isReturn = false)
    (passed : p.out = false) (supported : p.type.signal.isSupported = true) :
    p.callConnector? resultClass = some ⟨.input, p.type.signal, p.name, p.type.className?⟩ := by
  simp [Parameter.callConnector?, Parameter.connector?, argument, passed, supported]

/-- If the inputs of a call have distinct names, so have the parameters that are passed in. -/
theorem pairwise_arguments
    (distinct : (((callConnectors f resultClass).filter (·.direction = .input)).map
      (·.name)).Nodup) :
    f.arguments.Pairwise fun p q =>
      p.out = false → p.type.signal.isSupported = true →
        q.out = false → q.type.signal.isSupported = true → p.name ≠ q.name := by
  rw [List.Nodup, List.pairwise_map, List.pairwise_filter] at distinct
  have parameters := List.pairwise_filterMap.mp (List.pairwise_append.mp distinct).2.1
  refine List.pairwise_filter.mpr (parameters.imp fun {p q} apart hp hq => ?_)
  intro hout hsupported hout' hsupported'
  have first : p.callConnector? resultClass = _ :=
    callConnector?_of_passed (by simpa using hp) hout hsupported
  have second : q.callConnector? resultClass = _ :=
    callConnector?_of_passed (by simpa using hq) hout' hsupported'
  exact apart _ first _ second rfl rfl

/-- A call that orders statements passes no parameter in under the name of its target. -/
theorem name_ne_target (impure : f.flags.pure = false)
    (distinct : (((callConnectors f resultClass).filter (·.direction = .input)).map
      (·.name)).Nodup) {p : Parameter} (hp : p ∈ f.arguments) (passed : p.out = false)
    (supported : p.type.signal.isSupported = true) : p.name ≠ Pin.target := by
  rw [List.Nodup, List.pairwise_map, List.pairwise_filter] at distinct
  obtain ⟨hmem, argument⟩ := List.mem_filter.mp hp
  have control := (List.pairwise_append.mp distinct).2.2
    ⟨.input, .object, Pin.target, some f.owner⟩ (by simp [impure]) _
    (List.mem_filterMap.mpr
      ⟨p, hmem, callConnector?_of_passed (by simpa using argument) passed supported⟩)
  exact (control rfl rfl).symm

end Placement

namespace Graph

open Lowering

variable {g : Graph} {n e : NodeId} {node node' : Node} {f : FunctionDecl}
  {archetype : Option Archetype} {s s' : Scope} {script : EventScript} {head : Head}
  {st : CallStatement} {before after : List Head} {use use' : Use} {input : Input}

/-- An edge brings a value to the input named `Target`. -/
def IsAimed (g : Graph) (n : NodeId) : Prop :=
  ∃ input, g.inputNamed? n Pin.target = some input ∧ input.source.isSome = true

/-- What was placed for a call. -/
theorem Assembled.placement_call (h : g.Assembled) (live : g.node? n = some node)
    (calls : calleeOf node = .ok (f, archetype)) :
    ∃ (p : Placement) (resultClass : Option String), g.shape? n = some p.shape ∧
      p.connectors = Placement.callConnectors f resultClass ∧
        node.kind = Placement.callKind f archetype := by
  obtain ⟨p, -, hkind, hshape⟩ := h.placement live
  have hcallee := callee?_of_calleeOf calls
  rw [hkind] at hcallee
  obtain ⟨f', resultClass, hf, hconnectors, hkind'⟩ := Placement.of_callee? hcallee
  obtain rfl := Option.some.inj hf
  exact ⟨p, resultClass, hshape, hconnectors, hkind.trans hkind'⟩

/-- A node is a call without effects if its function is marked so. -/
theorem Assembled.isPureCall_iff (h : g.Assembled) (live : g.node? n = some node)
    (calls : calleeOf node = .ok (f, archetype)) : g.IsPureCall n ↔ f.flags.pure = true := by
  obtain ⟨-, -, -, -, hkind⟩ := h.placement_call live calls
  have same : node.kind.isPureCall = f.flags.pure := by
    rw [hkind, Placement.callKind]
    cases f.flags.pure <;> rfl
  rw [← same]
  constructor
  · rintro ⟨other, hother, pure⟩
    obtain rfl := Option.some.inj (hother.symm.trans live)
    exact pure
  · exact fun pure => ⟨node, live, pure⟩

/-- **A call that orders statements has the input for its target**, and no parameter takes the
name. -/
theorem Assembled.exists_target (h : g.Assembled) (live : g.node? n = some node)
    (calls : calleeOf node = .ok (f, archetype)) (impure : ¬ g.IsPureCall n) :
    (∃ input, g.inputNamed? n Pin.target = some input ∧ input.signal = .object ∧
      input.className = some f.owner) ∧
    ∀ p ∈ f.arguments, p.out = false → p.type.signal.isSupported = true →
      p.name ≠ Pin.target := by
  rw [h.isPureCall_iff live calls, Bool.not_eq_true] at impure
  obtain ⟨p, resultClass, hshape, hconnectors, -⟩ := h.placement_call live calls
  have distinct := (h.reachable.distinct hshape).inputs
  refine ⟨?_, ?_⟩
  · have made : (⟨.input, .object, Pin.target, some f.owner⟩ : ConnectorSpec) ∈ p.shape.inputs := by
      simp [Placement.shape, hconnectors, Placement.callConnectors, impure]
    obtain ⟨input, found, spec⟩ := (h.reachable.mem_inputs_iff hshape).mp made
    obtain ⟨-, hsignal, -, hclass⟩ := ConnectorSpec.mk.inj spec
    exact ⟨input, found, hsignal, hclass⟩
  · simp only [Placement.shape, hconnectors] at distinct
    exact fun q hq => Placement.name_ne_target impure distinct hq

/-- The input of a call without effects is that of a parameter at one place. -/
theorem Assembled.existsUnique_parameter (h : g.Assembled) (live : g.node? n = some node)
    (calls : calleeOf node = .ok (f, archetype)) (pure : g.IsPureCall n)
    (hi : input ∈ g.inputsOf node) :
    ∃! k : Nat, ∃ p : Parameter, f.arguments[k]? = some p ∧ p.name = input.name ∧ p.out = false ∧
      p.type.signal.isSupported = true := by
  obtain ⟨p, resultClass, hshape, hconnectors, -⟩ := h.placement_call live calls
  have distinct := (h.reachable.distinct hshape).inputs
  simp only [Placement.shape, hconnectors] at distinct
  have apart := List.pairwise_iff_getElem.mp (Placement.pairwise_arguments distinct)
  obtain ⟨hlive, howner⟩ := (h.reachable.housed.mem_inputsOf live).mp hi
  obtain ⟨spec, hspec, side, hname, -⟩ := h.reachable.housed.spec_of_input hshape hlive howner
  rw [h.isPureCall_iff live calls] at pure
  rw [hconnectors] at hspec
  rcases Placement.mem_callConnectors hspec with ⟨impure, -⟩ | ⟨q, hq, hconnector⟩
  · cases pure.symm.trans impure
  obtain ⟨-, supported, ⟨-, out, -⟩ | ⟨argument, hdirection, hqname⟩⟩ :=
    Placement.of_callConnector? hconnector
  · cases out.symm.trans side
  have passed : q.out = false := by
    by_contra out
    rw [if_pos (by simpa using out), side] at hdirection
    cases hdirection
  have listed : q ∈ f.arguments := List.mem_filter.mpr ⟨hq, by simp [argument]⟩
  obtain ⟨k, hk, rfl⟩ := List.mem_iff_getElem.mp listed
  refine ⟨k, ⟨_, List.getElem?_eq_getElem hk, hqname.symm.trans hname, passed, supported⟩, ?_⟩
  rintro k' ⟨q', hq', hname', passed', supported'⟩
  obtain ⟨hk', rfl⟩ := List.getElem?_eq_some_iff.mp hq'
  have same : f.arguments[k'].name = f.arguments[k].name :=
    hname'.trans (hname.symm.trans hqname)
  rcases Nat.lt_trichotomy k' k with lt | eq | lt
  · exact absurd same (apart k' k hk' hk lt passed' supported' passed supported)
  · exact eq
  · exact absurd same.symm (apart k k' hk hk' lt passed supported passed' supported')

/-! ### Where the value of an input is shown -/

/-- The line of a head shows the value of an input at a place: the text of what stands for the value
is in the line of the script. -/
def ShowsAt (g : Graph) (e : NodeId) (script : EventScript) (before : List Head) (head : Head)
    (input : Input) (use : Use) : Prop :=
  g.Takes head.node use input ∧
    ∃ operand, head.operandAt use = some operand ∧
      g.Explained e script before head use input operand ∧
      ∃ i text line, operand.Spells text ∧ script.LineAt i (.statement head) line ∧
        head.ShowsAt use text line

/-- A call is written as it should be: it is called on an object exactly if it orders statements and
an edge leads to its input for the object. If it has no effects, it is the name of its function with
its arguments, and the value of each input that has an edge is shown at one place, unless the
archetype of a new component takes it. -/
structure Addressed (g : Graph) (e : NodeId) (script : EventScript) (before : List Head)
    (st : CallStatement) (node : Node) (f : FunctionDecl) (archetype : Option Archetype) :
    Prop where
  aimed : (∃ object, st.form.text = object ++ "." ++ (f.name ++ Argument.list st.form.arguments)) ↔
    ¬ g.IsPureCall st.node ∧ g.IsAimed st.node
  bare : g.IsPureCall st.node → st.form.text = f.name ++ Argument.list st.form.arguments
  once : g.IsPureCall st.node → ∀ input ∈ g.inputsOf node, input.source.isSome = true →
    ¬ (archetype.isSome = true ∧ input.name = archetypeParameter) →
      ∃! use, g.ShowsAt e script before (.call st) input use

/-- The calls of a script were made by `callStatement`. -/
theorem Written.makes (h : g.Written e script node s')
    (place : script.statements.heads = before ++ .call st :: after) :
    ∃ t t', g.Makes st.node t st t' := by
  have made := EmitsAll.of_lowered h.lowered
  rw [place] at made
  obtain ⟨t, t', -, here, -⟩ := made.place
  cases here with
  | call makes => exact ⟨t, t', makes⟩

/-- Something stands for the value of an input that needs an edge if there is one. -/
theorem isSome_of_connectedOperand {name : String} {found : Option Operand}
    (h : g.connectedOperand s node name = .ok found) : found.isSome = true ↔
      ∃ input, g.inputNamed? node.id name = some input ∧ input.source.isSome = true := by
  unfold connectedOperand at h
  split at h
  · rename_i input hi
    split at h
    · rename_i fed
      cases ho : g.operand s node input with
      | error e => simp [ho] at h
      | ok operand =>
        obtain rfl : some operand = found := by simpa [ho] using h
        exact ⟨fun _ => ⟨input, hi, fed⟩, fun _ => rfl⟩
    · rename_i free
      cases h
      simpa [hi] using free
  · rename_i hi
    cases h
    simp [hi]

/-- The text of a call of a function is the function with its arguments, and in front of it the
object that the function is called on, if an edge brings one. -/
theorem Written.text_form (h : g.Written e script node s') (housed : g.Housed)
    (place : script.statements.heads = before ++ .call st :: after)
    (live : g.node? st.node = some node') (calls : calleeOf node' = .ok (f, archetype))
    (invoked : f.flags.operator = false) :
    (¬ g.IsAimed st.node → st.form.text = f.name ++ Argument.list st.form.arguments) ∧
      (g.IsAimed st.node → ∃ operand, st.form.callee? = some operand ∧
        st.form.text = operand.text ++ "." ++ (f.name ++ Argument.list st.form.arguments)) := by
  obtain ⟨t, t', makes⟩ := h.makes place
  obtain ⟨caller, f', archetype', u, live', calls', -, -, hform⟩ :=
    parts_of_callStatement makes.returns
  obtain rfl := Option.some.inj (live.symm.trans live')
  obtain ⟨rfl, rfl⟩ := Prod.mk.inj (Except.ok.inj (calls.symm.trans calls'))
  simp only [callForm, invoked, Bool.false_eq_true, if_false] at hform
  obtain ⟨target, u, hread, hform⟩ := returns_bind.mp hform
  obtain ⟨htarget, rfl⟩ := returns_reading.mp hread
  obtain ⟨hform, -⟩ := returns_pure.mp hform
  have text := (congrArg CallForm.text hform).symm.trans (CallForm.text_invocation ..)
  rw [← Argument.list_eq] at text
  have aimed : target.isSome = true ↔ g.IsAimed st.node := by
    rw [IsAimed, ← housed.node_id live]
    exact isSome_of_connectedOperand htarget
  cases target with
  | none =>
    exact ⟨fun _ => text.trans (by simp), fun other => absurd (aimed.mpr other) (by simp)⟩
  | some operand =>
    refine ⟨fun free => absurd (aimed.mp rfl) free, fun _ => ⟨operand, ?_, ?_⟩⟩
    · exact (congrArg CallForm.callee? hform).symm
    · exact text.trans (by simp [String.append_assoc])

/-- What a line takes it shows, with its text. -/
theorem Written.showsAt (h : g.Written e script node s') (reach : g.Reachable)
    (place : script.statements.heads = before ++ head :: after)
    (takes : g.Takes head.node use input) : g.ShowsAt e script before head input use := by
  obtain ⟨operand, shown, explained⟩ := h.explained reach place takes
  have listed : head ∈ script.statements.heads := by simp [place]
  obtain ⟨i, line, here⟩ := EventScript.exists_lineAt_head h.printed listed
  obtain rfl : line = head.text := here.text_eq
  exact ⟨takes, operand, shown, explained, i, operand.text, head.text, operand.spells_text, here,
    Head.showsAt_text shown⟩

/-- A call without effects shows one operand for an input, wherever it shows its value. -/
theorem Written.operandAt_eq (h : g.Written e script node s') (assembled : g.Assembled)
    (place : script.statements.heads = before ++ head :: after) (pure : g.IsPureCall head.node)
    (takes : g.Takes head.node use input) (takes' : g.Takes head.node use' input) :
    head.operandAt use = head.operandAt use' := by
  have housed := assembled.reachable.housed
  have made := EmitsAll.of_lowered h.lowered
  rw [place] at made
  obtain ⟨t, t', -, here, -⟩ := made.place
  -- the value comes from another node, so what the call is given does not change it
  have stands : ∀ {use : Use}, g.Takes head.node use input → ∃ operand consumer,
      head.operandAt use = some operand ∧ g.node? head.node = some consumer ∧
        g.operand t consumer input = .ok operand := by
    intro use takes
    obtain ⟨operand, consumer, u, early, late, looks⟩ := here.looks housed takes
    refine ⟨operand, consumer, looks.shown, looks.live, ?_⟩
    rw [← looks.stands]
    refine operand_congr fun o ho => (looks.first.nameOf?_of_notMem fun hmem => ?_).symm
    rw [looks.outputs] at hmem
    obtain ⟨edge, hedge, hlive⟩ := Option.bind_eq_some_iff.mp ho
    have itself : g.Supplies head.node head.node :=
      ⟨use, input, edge, takes, hedge, housed.output_id hlive ▸ ownerOf?_boundBefore housed hmem⟩
    have listed : head.node ∈ script.nodes := by simp [EventScript.nodes, place]
    exact h.not_supplies_itself assembled listed pure itself
  obtain ⟨operand, consumer, shown, live, hop⟩ := stands takes
  obtain ⟨operand', consumer', shown', live', hop'⟩ := stands takes'
  obtain rfl := Option.some.inj (live.symm.trans live')
  rw [shown, shown', Except.ok.inj (hop.symm.trans hop')]

/-- The value of each input of a call without effects is shown at one place, if no edge brings an
object to call the function on. -/
theorem Written.existsUnique_showsAt (h : g.Written e script node s') (assembled : g.Assembled)
    (place : script.statements.heads = before ++ .call st :: after)
    (live : g.node? st.node = some node') (calls : calleeOf node' = .ok (f, archetype))
    (pure : g.IsPureCall st.node) (unaimed : ¬ g.IsAimed st.node) (hi : input ∈ g.inputsOf node')
    (value : ¬ (archetype.isSome = true ∧ input.name = archetypeParameter)) :
    ∃! use, g.ShowsAt e script before (.call st) input use := by
  have housed := assembled.reachable.housed
  obtain ⟨k, ⟨p, hk, hname, passed, supported⟩, unique⟩ :=
    assembled.existsUnique_parameter live calls pure hi
  obtain ⟨hlive, howner⟩ := (housed.mem_inputsOf live).mp hi
  have found : g.inputNamed? st.node p.name = some input := by
    rw [hname, ← howner]
    exact assembled.reachable.inputNamed?_name hlive
  have takes : g.Takes st.node (.argument k) input :=
    .argument live calls hk (hname ▸ value) passed supported found
  refine ⟨.argument k, h.showsAt assembled.reachable place takes, ?_⟩
  rintro use ⟨takes', -⟩
  cases takes' with
  | @argument other f' archetype' k' q _ hother calls' hk' _ passed' supported' found' =>
    obtain rfl := Option.some.inj (live.symm.trans hother)
    obtain ⟨rfl, rfl⟩ := Prod.mk.inj (Except.ok.inj (calls.symm.trans calls'))
    obtain ⟨-, -, hname'⟩ := housed.of_inputNamed? found'
    exact congrArg Use.argument (unique k' ⟨q, hk', hname'.symm, passed', supported'⟩)
  | target _ _ _ found' fed => exact absurd ⟨input, found', fed⟩ unaimed
  | condition hother kind =>
    obtain rfl := Option.some.inj (live.symm.trans hother)
    exact absurd calls (not_calls_of_kind (.inl kind))
  | bound hother kind =>
    obtain rfl := Option.some.inj (live.symm.trans hother)
    exact absurd calls (not_calls_of_kind (.inr kind))

/-- What a call without effects is called on is one of its arguments. -/
theorem Written.shown_twice (h : g.Written e script node s') (assembled : g.Assembled)
    (place : script.statements.heads = before ++ .call st :: after)
    (live : g.node? st.node = some node') (calls : calleeOf node' = .ok (f, archetype))
    (invoked : f.flags.operator = false) (pure : g.IsPureCall st.node) (aimed : g.IsAimed st.node)
    {operand : Operand} (callee : st.form.callee? = some operand) :
    ∃ k : Nat, st.form.arguments[k]? = some (Argument.value operand) := by
  have housed := assembled.reachable.housed
  obtain ⟨input, found, fed⟩ := aimed
  obtain ⟨hlive, howner, hname⟩ := housed.of_inputNamed? found
  obtain ⟨k, ⟨p, hk, hp, passed, supported⟩, -⟩ := assembled.existsUnique_parameter live calls
    pure ((housed.mem_inputsOf live).mpr ⟨hlive, howner⟩)
  have value : ¬ (archetype.isSome = true ∧ p.name = archetypeParameter) := by
    rw [hp, hname]
    exact fun made => absurd made.2 (by decide)
  have argument : g.Takes st.node (.argument k) input :=
    .argument live calls hk value passed supported (hp.trans hname ▸ found)
  have same := h.operandAt_eq assembled place pure argument (.target live calls invoked found fed)
  have shown : st.form.arguments[k]?.bind Argument.operand? = some operand := same.trans callee
  obtain ⟨a, ha, hoperand⟩ := Option.bind_eq_some_iff.mp shown
  cases a with
  | value other => exact ⟨k, ha.trans (congrArg _ (congrArg _ (Option.some.inj hoperand)))⟩
  | archetype | absent | result => cases hoperand

/-- **Which calls are written as they should be.** In an assembled graph let an event have a script,
and let a statement in it be a call of a function that is no operator. The statement is written as
it should be, unless the call has no effects and an edge leads to an input of it that is named
`Target`. Such an input is that of a parameter, and what stands for its value is shown twice: in
front of the function, and as the argument for the parameter. A call that orders statements has an
input `Target` of its own, an object of the class of the function, and no parameter that is passed
in takes its name. The statement has a line in the script, in which the texts of its arguments stand
one after the other. -/
theorem addressed_iff (h : g.Assembled) (ok : g.scriptOf e = .ok script)
    (place : script.statements.heads = before ++ .call st :: after)
    (live : g.node? st.node = some node) (calls : calleeOf node = .ok (f, archetype))
    (invoked : f.flags.operator = false) :
    (g.Addressed e script before st node f archetype ↔
      ¬ (g.IsPureCall st.node ∧ g.IsAimed st.node)) ∧
    (g.IsPureCall st.node → g.IsAimed st.node → ∃ (k : Nat) (operand : Operand),
      st.form.arguments[k]? = some (Argument.value operand) ∧
      st.form.text = operand.text ++ "." ++ (f.name ++ Argument.list st.form.arguments)) ∧
    (¬ g.IsPureCall st.node →
      (∃ input, g.inputNamed? st.node Pin.target = some input ∧ input.signal = .object ∧
        input.className = some f.owner) ∧
      ∀ p ∈ f.arguments, p.out = false → p.type.signal.isSupported = true →
        p.name ≠ Pin.target) ∧
    ∃ i line entries, script.LineAt i (.statement (.call st)) line ∧
      line = st.result.elim "" (·.2 ++ " = ") ++ st.cast.elim st.form.text
        (fun className => className ++ "( " ++ st.form.text ++ " )") ++ ";" ∧
      List.Forall₂ Argument.Spells st.form.arguments entries ∧
      Argument.list st.form.arguments =
        if entries = [] then "()" else "( " ++ ", ".intercalate entries ++ " )" := by
  have housed := h.reachable.housed
  obtain ⟨start, s, written⟩ := written_of_scriptOf housed ok
  obtain ⟨bare, dotted⟩ := written.text_form housed place live calls invoked
  have listed : .call st ∈ script.statements.heads := by simp [place]
  obtain ⟨i, line, here⟩ := EventScript.exists_lineAt_head written.printed listed
  refine ⟨⟨fun addressed ⟨pure, aimed⟩ => ?_, fun unaimed => ?_⟩, fun pure aimed => ?_,
    h.exists_target live calls, i, line, st.form.arguments.map Argument.text, here, here.text_eq,
    Argument.forall₂_spells_text _, Argument.list_eq _⟩
  · obtain ⟨operand, -, text⟩ := dotted aimed
    exact (addressed.aimed.mp ⟨_, text⟩).1 pure
  · refine ⟨⟨fun ⟨object, text⟩ => ?_, fun ⟨_, aimed⟩ => ?_⟩, fun pure => ?_, ?_⟩
    · have aimed : g.IsAimed st.node := by
        by_contra free
        exact ne_prefixed object _ ((bare free).symm.trans text)
      exact ⟨fun pure => unaimed ⟨pure, aimed⟩, aimed⟩
    · obtain ⟨operand, -, text⟩ := dotted aimed
      exact ⟨operand.text, text⟩
    · exact bare fun aimed => unaimed ⟨pure, aimed⟩
    · intro pure input hi _ value
      exact written.existsUnique_showsAt h place live calls pure
        (fun aimed => unaimed ⟨pure, aimed⟩) hi value
  · obtain ⟨operand, callee, text⟩ := dotted aimed
    obtain ⟨k, argument⟩ := written.shown_twice h place live calls invoked pure aimed callee
    exact ⟨k, operand, argument, text⟩

/-- An event that leads to a call of a function on what another call returns. -/
def greeting : Graph :=
  let getOwner := { FunctionDecl.callable "Actor" "GetOwner" with
    params := [.returns (.object "Actor")] }
  (empty "Greet").run [.place (.event (FunctionDecl.callable "Actor" "Tick").asEvent),
    .place (.call getOwner none), .place (.call (FunctionDecl.callable "Actor" "Greet") none),
    .connect ⟨0⟩ ⟨0⟩ .any, .connect ⟨1⟩ ⟨2⟩ .any, .connect ⟨2⟩ ⟨3⟩ .any]

/-- The call is written as it should be, on the object. -/
theorem addressed_iff_greeting :
    greeting.Assembled ∧ ∃ script before st node f, greeting.scriptOf ⟨0⟩ = .ok script ∧
      script.statements.heads = before ++ [.call st] ∧ greeting.node? st.node = some node ∧
      calleeOf node = .ok (f, none) ∧ f.flags.operator = false ∧
      st.text = "GetOwnerRet_1.Greet();" ∧
      greeting.Addressed ⟨0⟩ script before st node f none := by
  have assembled : greeting.Assembled := ⟨_, _, by decide, rfl⟩
  let greet : CallStatement :=
    ⟨⟨2⟩, none, none, .invocation (some (.held ⟨2⟩ "GetOwnerRet_1")) "Greet" []⟩
  obtain ⟨script, before, ok, heads⟩ : ∃ script before, greeting.scriptOf ⟨0⟩ = .ok script ∧
      script.statements.heads = before ++ [.call greet] := ⟨_, [_], rfl, rfl⟩
  obtain ⟨node, f, live, calls, invoked⟩ : ∃ node f, greeting.node? greet.node = some node ∧
      calleeOf node = .ok (f, none) ∧ f.flags.operator = false := ⟨_, _, rfl, rfl, rfl⟩
  have impure : ¬ greeting.IsPureCall ⟨2⟩ := by
    rintro ⟨other, hother, pure⟩
    obtain rfl := Option.some.inj (hother.symm.trans rfl)
    cases pure
  have addressed := (addressed_iff assembled ok heads live calls invoked).1
  exact ⟨assembled, script, before, greet, node, f, ok, heads, live, calls, invoked, by decide,
    addressed.mpr fun both => impure both.1⟩

/-- An event that leads to a branch, on what a call without effects finds out about an object that
it takes as `Target`. -/
def asking : Graph :=
  let getOwner := { FunctionDecl.callable "Actor" "GetOwner" with
    params := [.returns (.object "Actor")] }
  let isAlive := { (FunctionDecl.callable "Actor" "IsAlive").asPure with
    params := [.input "Target" (.object "Actor"), .returns .bool] }
  (empty "Ask").run [.place (.event (FunctionDecl.callable "Actor" "Tick").asEvent),
    .place (.call getOwner none), .place (.call isAlive none), .place .branch,
    .connect ⟨0⟩ ⟨0⟩ .any, .connect ⟨1⟩ ⟨3⟩ .any, .connect ⟨2⟩ ⟨2⟩ .any, .connect ⟨3⟩ ⟨4⟩ .any]

/-- The call without effects is called on the object, and shows it again as its argument. -/
theorem asking_aims_at_argument :
    asking.Assembled ∧ ∃ script before st after node f, asking.scriptOf ⟨0⟩ = .ok script ∧
      script.statements.heads = before ++ .call st :: after ∧
      asking.node? st.node = some node ∧ calleeOf node = .ok (f, none) ∧
      f.flags.operator = false ∧ asking.IsPureCall st.node ∧
      st.text = "IsAliveRet_1 = GetOwnerRet_1.IsAlive( GetOwnerRet_1 );" ∧
      ¬ asking.Addressed ⟨0⟩ script before st node f none := by
  let owner : Operand := .held ⟨2⟩ "GetOwnerRet_1"
  let isAlive : CallStatement := ⟨⟨2⟩, some (⟨3⟩, "IsAliveRet_1"), none,
    .invocation (some owner) "IsAlive" [.value owner]⟩
  refine ⟨⟨_, _, by decide, rfl⟩, _, [_], isAlive, [_], _, _, rfl, rfl, rfl, rfl, rfl,
    ⟨_, rfl, rfl⟩, by decide, fun addressed => ?_⟩
  have text := addressed.bare ⟨_, rfl, rfl⟩
  exact absurd text (by decide)

end Graph

end NodeScript
