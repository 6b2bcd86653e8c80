import NodeScript.Proofs.Blueprint.WellPosed
import NodeScript.Proofs.Graph.Skipped
import NodeScript.Proofs.Lowering.Culprits

/-!
# The nodes that errors of a blueprint name

Who writes a blueprint knows its nodes by their identifiers, and errors name nodes by these. A node
that is placed has a numbered name at first and is named by its identifier right after, so that
everything later speaks of it by the identifier: its values, its links, and all that compiling the
graph has to say. One error comes before: if two connectors of the node have one name, placing it is
refused, and the error shows the numbered name (`ShowsNumbered`).

So errors name nodes by identifiers of the blueprint, unless building stops at such a node and its
numbered name is not by accident an identifier (`errors_name_ids_iff`).
-/

namespace NodeScript

open NodeScript.Except (bind_eq_ok bind_eq_error map_eq_ok)

/-- The nodes that the refusal of an edit names. -/
def EditError.nodes : EditError → List String
  | nodeNotFound id => [id.label]
  | duplicateConnector node _ _ => [node]
  | typeMismatch _ _ | inputNotFound _ | outputNotFound _ | unsupportedType _ | literal _ => []

/-- The nodes that an error of building names. -/
def BuildError.nodes : BuildError → List String
  | duplicateNode id | unknownNode id => [id]
  | unknownConnector node _ _ => [node]
  | unknownFunction _ _ | unknownProperty _ _ => []
  | edit e => e.nodes

/-! ### Refused placements -/

namespace Graph

variable {g : Graph} {n : NodeId} {node : Node} {p : Placement} {spec : ConnectorSpec}
  {specs : List ConnectorSpec} {e : EditError}

theorem addConnector_fails (live : g.node? n = some node) (hf : g.addConnector n spec = .error e) :
    spec.signal.isSupported = false ∨
      e = .duplicateConnector node.name spec.direction spec.name := by
  unfold addConnector at hf
  rw [requireNode_eq_ok.mpr live, Except.ok_bind] at hf
  by_cases supported : spec.signal.isSupported = true
  · simp only [supported, Bool.not_true, Bool.false_eq_true, if_false] at hf
    by_cases taken : g.isTaken n spec.direction spec.name = true
    · right
      simp only [taken, if_true] at hf
      exact (Except.error.inj hf).symm
    · simp only [taken, Bool.false_eq_true, if_false] at hf
      cases hd : spec.direction <;> simp [hd] at hf
  · exact .inl (by simpa using supported)

/-- A connector that can be carried is refused for its name only. -/
theorem addConnectors_fails (live : g.node? n = some node)
    (supported : ∀ spec ∈ specs, spec.signal.isSupported = true)
    (hf : (g.addConnectors n specs).1 = .error e) :
    ∃ direction name, e = .duplicateConnector node.name direction name := by
  induction specs generalizing g node with
  | nil => cases hf
  | cons spec specs ih =>
    obtain ⟨here, later⟩ := List.forall_mem_cons.mp supported
    cases hr : g.addConnector n spec with
    | error e' =>
      obtain rfl : e' = e := by simpa [addConnectors, hr] using hf
      rcases addConnector_fails live hr with unsupported | rfl
      · cases here.symm.trans unsupported
      · exact ⟨_, _, rfl⟩
    | ok r =>
      have same := (names_addConnector hr).2 n
      rw [live] at same
      obtain ⟨node', live', hname⟩ := Option.map_eq_some_iff.mp same
      simp only [addConnectors, hr] at hf
      obtain ⟨direction, name, rfl⟩ := ih live' later hf
      exact ⟨direction, name, by rw [hname]⟩

/-- **A placement that has begun is refused under a numbered name.** It is the next name of its
label. -/
theorem place_fails (h : g.Housed) (begun : p.check = .ok ()) (hf : (g.place p).1 = .error e) :
    ∃ direction name, e = .duplicateConnector (g.names.next p.kind.label).1 direction name := by
  have live := (g.node?_addNode p.kind (g.addNode p.kind).1).trans (if_pos rfl)
  have refused : ((g.addNode p.kind).2.addConnectors (g.addNode p.kind).1 p.connectors).1 =
      .error e := by
    have added := h.addNode p.kind
    obtain ⟨sh, still⟩ := exists_shape_addConnectors added p.connectors (g.shape?_begun p.kind)
    obtain ⟨found, hfound, -⟩ := shape?_eq_some_iff.mp still
    obtain ⟨k, removed⟩ := (added.steps (addConnectors_steps _ (g.addNode p.kind).1
      p.connectors)).exists_removeNode hfound
    unfold place at hf
    rw [begun] at hf
    simp only at hf
    split at hf
    · cases hf
    · rename_i stuck
      rw [stuck] at removed ⊢
      simp only [removed] at hf
      exact congrArg Except.error (Except.error.inj hf)
  exact addConnectors_fails live (Placement.supported_of_check begun) refused

/-- Two live connectors are not connected if their signals differ. -/
theorem connect_fails {o : OutputId} {i : InputId} {output : Output} {input : Input}
    (ho : g.output? o = some output) (hi : g.input? i = some input)
    (hf : g.connect o i .any = .error e) : e = .typeMismatch output.signal input.signal := by
  by_cases same : output.signal = input.signal
  · obtain ⟨k, hk⟩ := (connect_ok_iff ho hi).mpr same
    cases hf.symm.trans hk
  · rw [connect, requireOutput_eq_ok.mpr ho, Except.ok_bind, requireInput_eq_ok.mpr hi,
      Except.ok_bind, if_pos same] at hf
    exact (Except.error.inj hf).symm

end Graph

namespace Blueprint

variable {source : Lookup} {b : Blueprint} {nodes before : List Node} {links : List Link} {n : Node}
  {l : Link} {p p' : Progress} {g k : Graph} {err : BuildError} {x : String}

/-! ### Numbered names -/

/-- The label that a node of the kind is numbered under, if what it refers to can be found. -/
def Kind.label? (source : Lookup) (kind : Kind) : Option String :=
  (kind.placement source).toOption.map (·.kind.label)

/-- The numbered name of a node of a label, placed after others. -/
def numberedAfter (source : Lookup) (before : List Node) (label : String) : String :=
  FreshNames.numbered label ((before.filterMap (·.kind.label? source)).count label + 1)

/-- Two pins on one side of the node have one name. -/
def Node.Ambiguous (source : Lookup) (n : Node) : Prop :=
  ∃ inputs outputs, n.kind.Pins source inputs outputs ∧
    ¬ ((inputs.map Prod.fst).Nodup ∧ (outputs.map Prod.fst).Nodup)

/-- Building stops at a node with two pins of one name, which has the numbered name `x` by then: the
nodes before are well posed, and the identifiers differ so far. -/
def ShowsNumbered (source : Lookup) (b : Blueprint) (x : String) : Prop :=
  ∃ before n after label, b.nodes = before ++ n :: after ∧
    ((before ++ [n]).map (·.id)).Nodup ∧ (∀ m ∈ before, m.WellPosed source) ∧
    n.Ambiguous source ∧ n.kind.label? source = some label ∧ x = numberedAfter source before label

/-- The labels that names were asked for are those of the nodes. -/
def Asked (source : Lookup) (nodes : List Node) (g : Graph) : Prop :=
  g.names.requests = (nodes.filterMap (·.kind.label? source)).reverse

theorem Asked.next (h : Asked source nodes g) (label : String) :
    (g.names.next label).1 = numberedAfter source nodes label := by
  rw [FreshNames.next_fst, h, List.count_reverse]
  rfl

theorem label?_of_placement {placement : Placement} (h : n.kind.placement source = .ok placement) :
    n.kind.label? source = some placement.kind.label := by
  simp [Kind.label?, h, Except.toOption]

theorem names_setDefaults {name : String} {id : NodeId} {values : List (String × String)}
    (hk : values.foldlM (setDefault name id) g = .ok k) : k.names = g.names := by
  refine Except.foldlM_induction (motive := fun k => k.names = g.names) hk rfl ?_
  intro entry _ g₁ g₂ same h
  unfold setDefault at h
  split at h
  · obtain ⟨_, _, -, -, rfl⟩ := Graph.setFallback_eq_ok.mp (lift_eq_ok.mp h)
    exact same
  · cases h

/-- A node that is built has asked for one name of its label. -/
theorem Asked.addNode (h : Asked source nodes p.graph) (reach : p.graph.Reachable)
    (hp : addNode source p n = .ok p') : Asked source (nodes ++ [n]) p'.graph := by
  obtain ⟨-, placement, hplacement, id, hid, g, hg, rfl⟩ := addNode_eq_ok.mp hp
  have begun := (Graph.place_eq_ok.mp hid).1
  have names : g.names = (p.graph.names.next placement.kind.label).2 :=
    (names_setDefaults hg).trans (Graph.names_place reach begun)
  rw [Asked, names, FreshNames.requests_next, h, List.filterMap_append]
  simp [label?_of_placement hplacement]

/-- The nodes of a list that is built have asked for names of their labels. -/
theorem asked_of_addNodes
    (hp : nodes.foldlM (Blueprint.addNode source) ⟨.empty b.name, []⟩ = .ok p) :
    Describes source nodes [] p ∧ Asked source nodes p.graph := by
  have start : Describes source [] [] ⟨.empty b.name, []⟩ ∧ Asked source [] (.empty b.name) :=
    ⟨.empty source b.name, rfl⟩
  refine Except.foldlM_read
    (motive := fun ns p => Describes source ns [] p ∧ Asked source ns p.graph) hp start ?_
  exact fun ⟨describes, asked⟩ hp =>
    ⟨describes.addNode hp, asked.addNode describes.assembled.reachable hp⟩

/-! ### Errors of building -/

/-- What looking up a placement says names no node. -/
theorem nodes_of_placement {kind : Kind} (hf : kind.placement source = .error err) :
    err.nodes = [] := by
  have function : ∀ {c f : String},
      Blueprint.function source c f = .error err → err.nodes = [] := by
    intro c f hf
    unfold Blueprint.function at hf
    cases hfound : source.function? c f <;> simp [hfound] at hf
    rw [← hf]
    rfl
  cases kind with
  | event c f | call c f resultClass | component c f archetype =>
    simp only [Kind.placement] at hf
    cases hfound : Blueprint.function source c f with
    | error e =>
      rw [hfound] at hf
      obtain rfl : e = err := by simpa [Functor.map, Except.map] using hf
      exact function hfound
    | ok decl => simp [hfound, Functor.map, Except.map] at hf
  | branch | loop => cases hf
  | member c name =>
    simp only [Kind.placement] at hf
    cases hfound : source.property? c name <;> simp [hfound] at hf
    rw [← hf]
    rfl

theorem lift_eq_error {α : Type} {r : Except EditError α} :
    lift r = .error err ↔ ∃ e, r = .error e ∧ .edit e = err := by
  cases r <;> simp [lift, Except.mapError]

/-- A placement that does not begin is refused for its type. -/
theorem nodes_of_unbegun {placement : Placement} {e : EditError}
    (unbegun : placement.check ≠ .ok ()) (refused : (g.place placement).1 = .error e) :
    (BuildError.edit e).nodes = [] := by
  unfold Graph.place at refused
  cases hcheck : placement.check with
  | ok u => exact absurd hcheck unbegun
  | error e' =>
    obtain rfl : e' = e := by simpa [hcheck] using refused
    cases placement with
    | member property =>
      simp only [Placement.check] at hcheck
      split at hcheck
      · cases hcheck
      · obtain rfl := Except.error.inj hcheck
        rfl
    | event _ | call _ _ | component _ _ | branch | loop => cases hcheck

/-- What is wrong with the value of an input names no node but its own. -/
theorem nodes_of_setDefault {name : String} {id : NodeId} (h : g.Housed) {entry : String × String}
    (hf : setDefault name id g entry = .error err) : ∀ x ∈ err.nodes, x = name := by
  unfold setDefault at hf
  split at hf
  · rename_i input hi
    obtain ⟨live, -, -⟩ := h.of_inputNamed? hi
    rw [Graph.setFallback, Graph.requireInput_eq_ok.mpr live, Except.ok_bind] at hf
    split at hf
    · cases hf
    · obtain rfl := Except.error.inj hf
      simp [BuildError.nodes, EditError.nodes]
  · obtain rfl := Except.error.inj hf
    simp [BuildError.nodes]

/-- A node is refused with an error that names it by its identifier or names no node, unless it has
two pins of one name. -/
theorem addNode_fails (h : Describes source nodes [] p) (asked : Asked source nodes p.graph)
    (hf : addNode source p n = .error err) : (∀ x ∈ err.nodes, x = n.id) ∨
      n.id ∉ nodes.map (·.id) ∧ n.Ambiguous source ∧ ∃ label direction name,
        n.kind.label? source = some label ∧
          err = .edit (.duplicateConnector (numberedAfter source nodes label) direction name) := by
  have housed := h.assembled.reachable.housed
  unfold addNode at hf
  cases hid : p.ids.lookup n.id with
  | some id =>
    obtain rfl : .duplicateNode n.id = err := by simpa [hid] using hf
    exact .inl (by simp [BuildError.nodes])
  | none =>
    have new : n.id ∉ nodes.map (·.id) := by simp [h.mem_ids_iff, hid]
    rw [hid] at hf
    rcases bind_eq_error.mp hf with hf | ⟨placement, hplacement, hf⟩
    · exact .inl (by simp [nodes_of_placement hf])
    rcases bind_eq_error.mp hf with hf | ⟨id, hplaced, hf⟩
    · obtain ⟨e, refused, rfl⟩ := lift_eq_error.mp hf
      by_cases begun : placement.check = .ok ()
      · obtain ⟨direction, name, rfl⟩ := Graph.place_fails housed begun refused
        refine .inr ⟨new, ⟨_, _, Kind.pins_iff.mpr ⟨placement, hplacement, begun, rfl, rfl⟩, ?_⟩,
          placement.kind.label, direction, name, label?_of_placement hplacement,
          by rw [asked.next]⟩
        intro distinct
        obtain ⟨id, placed⟩ := (Graph.place_ok_iff housed).mpr
          (Placement.fits_iff.mpr ⟨begun, distinct⟩)
        cases refused.symm.trans placed
      · refine .inl ?_
        rw [nodes_of_unbegun begun refused]
        simp
    rcases bind_eq_error.mp hf with hf | ⟨g, hg, hf⟩
    · obtain ⟨_, entry, _, g, -, hg, hf⟩ := Except.foldlM_eq_error.mp hf
      have begun := (placed h.assembled (lift_eq_ok.mp hplaced) n.id).1
      have valued : g.Assembled := Except.foldlM_induction (motive := Graph.Assembled) hg begun
        fun _ _ _ _ assembled hk => (Valued.setDefault assembled hk).assembled
      exact .inl (nodes_of_setDefault valued.reachable.housed hf)
    · cases hf

/-- A link is refused with an error that names its ends, if they are nodes of the blueprint. -/
theorem addLink_fails (h : Describes source nodes links p) (hf : addLink p l = .error err) :
    (∃ id, err = .unknownNode id) ∨ ∀ x ∈ err.nodes, x ∈ nodes.map (·.id) := by
  have housed := h.assembled.reachable.housed
  have unknown : ∀ {id}, linkEnd p id = .error err → ∃ id, err = .unknownNode id := by
    intro id hf
    unfold linkEnd at hf
    cases hid : p.ids.lookup id <;> simp [hid] at hf
    exact ⟨id, hf.symm⟩
  have listed : ∀ {id a}, linkEnd p id = .ok a → id ∈ nodes.map (·.id) := fun ha =>
    h.mem_ids_iff.mpr ⟨_, linkEnd_eq_ok.mp ha⟩
  rcases bind_eq_error.mp hf with hf | ⟨a, ha, hf⟩
  · exact .inl (unknown hf)
  rcases bind_eq_error.mp hf with hf | ⟨b, hb, hf⟩
  · exact .inl (unknown hf)
  refine .inr ?_
  cases ho : p.graph.outputNamed? a l.output with
  | none =>
    obtain rfl : .unknownConnector l.source .output l.output = err := by simpa [ho] using hf
    simpa [BuildError.nodes] using listed ha
  | some output =>
    cases hi : p.graph.inputNamed? b l.input with
    | none =>
      obtain rfl : .unknownConnector l.target .input l.input = err := by simpa [ho, hi] using hf
      simpa [BuildError.nodes] using listed hb
    | some input =>
      simp only [ho, hi] at hf
      rcases bind_eq_error.mp hf with hf | ⟨g, -, hf⟩
      · obtain ⟨e, refused, rfl⟩ := lift_eq_error.mp hf
        obtain rfl := Graph.connect_fails (housed.of_outputNamed? ho).1 (housed.of_inputNamed? hi).1
          refused
        simp [BuildError.nodes, EditError.nodes]
      · cases hf

/-- Building that fails names identifiers only, unless it shows a numbered name or names the end of
a link that is no node. -/
theorem build_fails (hf : build source b = .error err) : (∃ id, err = .unknownNode id) ∨
    (∀ x ∈ err.nodes, x ∈ b.nodes.map (·.id)) ∨
    ∃ x direction name, ShowsNumbered source b x ∧
      err = .edit (.duplicateConnector x direction name) := by
  have start := Describes.empty source b.name
  rcases bind_eq_error.mp hf with hf | ⟨p, hp, hf⟩
  · obtain ⟨before, n, after, p, hnodes, hp, hf⟩ := Except.foldlM_eq_error.mp hf
    obtain ⟨describes, asked⟩ := asked_of_addNodes hp
    rcases addNode_fails describes asked hf with
      own | ⟨new, pins, label, direction, name, hlabel, rfl⟩
    · exact .inr (.inl fun x hx => by simp [own x hx, hnodes])
    · obtain ⟨unique, fits⟩ := (start.addNodes_ok_iff .nil).mp ⟨p, hp⟩
      refine .inr (.inr ⟨_, direction, name, ⟨before, n, after, label, hnodes, ?_, ?_, pins, hlabel,
        rfl⟩, rfl⟩)
      · exact (nodup_map_concat _ _ _).mpr ⟨unique, new⟩
      · exact fun m hm => Node.fits_iff.mp (fits m hm)
  rcases bind_eq_error.mp hf with hf | ⟨p', -, hf⟩
  · obtain ⟨before, l, after, q, hlinks, hq, hf⟩ := Except.foldlM_eq_error.mp hf
    obtain ⟨links, describes⟩ : ∃ links, Describes source b.nodes links q :=
      Except.foldlM_induction (motive := fun q => ∃ links, Describes source b.nodes links q) hq
        ⟨[], start.addNodes hp⟩ fun _ _ _ _ ⟨_, describes⟩ hl => ⟨_, describes.relink hl⟩
    exact (addLink_fails describes hf).imp_right .inl
  · cases hf

/-- A new node with two pins of one name is refused under its numbered name. -/
theorem addNode_of_ambiguous (h : Describes source nodes [] p) (asked : Asked source nodes p.graph)
    (new : n.id ∉ nodes.map (·.id)) (ambiguous : n.Ambiguous source) {label : String}
    (hlabel : n.kind.label? source = some label) : ∃ direction name, addNode source p n =
      .error (.edit (.duplicateConnector (numberedAfter source nodes label) direction name)) := by
  have housed := h.assembled.reachable.housed
  obtain ⟨_, _, pins, clash⟩ := ambiguous
  obtain ⟨placement, hplacement, begun, rfl, rfl⟩ := Kind.pins_iff.mp pins
  obtain rfl : placement.kind.label = label :=
    Option.some.inj ((label?_of_placement hplacement).symm.trans hlabel)
  have unused : p.ids.lookup n.id = none := by
    rw [h.mem_ids_iff, ← Option.ne_none_iff_exists', not_not] at new
    exact new
  cases hplaced : (p.graph.place placement).1 with
  | ok id =>
    have fits := (Graph.place_ok_iff housed).mp ⟨id, hplaced⟩
    exact absurd (Placement.fits_iff.mp fits).2 clash
  | error e =>
    obtain ⟨direction, name, rfl⟩ := Graph.place_fails housed begun hplaced
    refine ⟨direction, name, ?_⟩
    rw [addNode, unused]
    refine bind_eq_error.mpr (.inr ⟨placement, hplacement, bind_eq_error.mpr (.inl ?_)⟩)
    exact lift_eq_error.mpr ⟨_, hplaced, by rw [asked.next]⟩

/-- **Building stops at a node with two pins of one name** and shows its numbered name. -/
theorem build_of_showsNumbered (h : ShowsNumbered source b x) :
    ∃ direction name, build source b = .error (.edit (.duplicateConnector x direction name)) := by
  obtain ⟨before, n, after, label, hnodes, unique, posed, ambiguous, hlabel, rfl⟩ := h
  obtain ⟨uniqueBefore, new⟩ := (nodup_map_concat _ _ _).mp unique
  obtain ⟨p, hp⟩ := ((Describes.empty source b.name).addNodes_ok_iff .nil).mpr
    ⟨uniqueBefore, fun m hm => Node.fits_iff.mpr (posed m hm)⟩
  obtain ⟨describes, asked⟩ := asked_of_addNodes hp
  obtain ⟨direction, name, hn⟩ := addNode_of_ambiguous describes asked new ambiguous hlabel
  refine ⟨direction, name, bind_eq_error.mpr (.inl ?_)⟩
  exact Except.foldlM_eq_error.mpr ⟨before, n, after, p, hnodes, hp, hn⟩

/-! ### Errors of compiling -/

/-- The live nodes of a graph that was built have identifiers of the blueprint as their names. -/
theorem name_of_build (hg : build source b = .ok g) {m : NodeId} {node : NodeScript.Node}
    (live : g.node? m = some node) : node.name ∈ b.nodes.map (·.id) := by
  obtain ⟨p, rfl, lists⟩ := lists_build hg
  have hname := Graph.nodeName?_eq_some.mpr ⟨node, live, rfl⟩
  obtain ⟨n, hn, hid⟩ := lists.describes.only hname
  exact hid ▸ List.mem_map_of_mem hn

/-- **Which errors of a blueprint name its nodes by their identifiers.** Let `ids` be the
identifiers of the nodes of a blueprint. If it cannot be built, and not because a link names a node
that is missing, all nodes that the error names are among `ids`, unless building stops at a node
with two pins of one name: then the error shows the numbered name that the node has got after the
nodes before it, which is among `ids` only by accident. If the blueprint is built, all nodes that an
error of compiling the graph names are among `ids`, whether everything, what goes by a name or a
single node is compiled. -/
theorem errors_name_ids_iff (source : Lookup) (b : Blueprint) :
    let ids := b.nodes.map (·.id)
    (∀ err, build source b = .error err → (∀ id, err ≠ .unknownNode id) →
      ((∀ x ∈ err.nodes, x ∈ ids) ↔ ∀ x, ShowsNumbered source b x → x ∈ ids)) ∧
    (∀ x, ShowsNumbered source b x → ∃ direction name,
      build source b = .error (.edit (.duplicateConnector x direction name))) ∧
    ∀ g, build source b = .ok g → ∀ style err, g.CompilingFails style err →
      ∀ x ∈ err.nodes, x ∈ ids := by
  intro ids
  refine ⟨fun err hf known => ⟨fun named x shows => ?_, fun named => ?_⟩,
    fun x => build_of_showsNumbered, fun g hg style err fails x hx => ?_⟩
  · obtain ⟨direction, name, hb⟩ := build_of_showsNumbered shows
    obtain rfl := Except.error.inj (hf.symm.trans hb)
    exact named x (List.mem_singleton_self x)
  · rcases build_fails hf with ⟨id, rfl⟩ | listed | ⟨x, direction, name, shows, rfl⟩
    · exact absurd rfl (known id)
    · exact listed
    · exact fun y hy => List.mem_singleton.mp hy ▸ named x shows
  · obtain ⟨p, hp, lists⟩ := lists_build hg
    have assembled : g.Assembled := hp ▸ lists.describes.assembled
    obtain ⟨m, node, live, rfl⟩ := fails.namesLive assembled x hx
    exact name_of_build hg live

/-- An entry point, a call that returns a text, and one that takes a text. -/
def dialogues : Lookup where
  function? _ name := [(FunctionDecl.callable "Actor" "Tick").asEvent,
    { FunctionDecl.callable "Actor" "Ask" with params := [.returns .string] },
    { FunctionDecl.callable "Actor" "Log" with params := [.input "Message" .string] }].find?
      (·.name == name)
  property? _ _ := none

/-- An event that logs the text of a call which nothing leads to. -/
def unasked : Blueprint where
  nodes := [⟨"tick", .event "Actor" "Tick", .empty⟩, ⟨"ask", .call "Actor" "Ask" none, .empty⟩,
    ⟨"log", .call "Actor" "Log" none, .empty⟩]
  links := [⟨"tick", Pin.done, "log", Pin.run⟩, ⟨"ask", Pin.result, "log", "Message"⟩]

/-- The error of compiling the graph names both calls by their identifiers, and that of building the
nodes twice names the event by its own. -/
theorem errors_name_ids_iff_unasked :
    let repeated := { unasked with nodes := unasked.nodes ++ unasked.nodes }
    (∃ g, build dialogues unasked = .ok g ∧
      g.compileAll {} = .error (.unresolvedValue "Return" "ask" "log") ∧
      "ask" ∈ unasked.nodes.map (·.id)) ∧
    build dialogues repeated = .error (.duplicateNode "tick") ∧
      ∀ x, ShowsNumbered dialogues repeated x → x ∈ repeated.nodes.map (·.id) := by
  intro repeated
  have compiled : (build dialogues unasked).toOption.map (·.compileAll {}) =
      some (.error (.unresolvedValue "Return" "ask" "log")) := by decide +kernel
  obtain ⟨g, hg⟩ : ∃ g, build dialogues unasked = .ok g := ⟨_, rfl⟩
  rw [hg] at compiled
  have fails : g.compileAll {} = .error (.unresolvedValue "Return" "ask" "log") :=
    Option.some.inj compiled
  have built : build dialogues repeated = .error (.duplicateNode "tick") := by decide +kernel
  refine ⟨⟨g, hg, fails, ?_⟩, built, ?_⟩
  · exact (errors_name_ids_iff dialogues unasked).2.2 g hg {} _ (.all fails) _ (.head _)
  · exact ((errors_name_ids_iff dialogues repeated).1 _ built (by simp)).mp
      (by simp [BuildError.nodes, repeated, unasked])

/-- A call that takes two values of one name. -/
def swaps : Lookup where
  function? _ _ := some { FunctionDecl.callable "Actor" "Swap" with
    params := [.input "Value" .int, .input "Value" .int] }
  property? _ _ := none

/-- The one node is the call. -/
def exchange : Blueprint where
  nodes := [⟨"Exchange", .call "Actor" "Swap" none, .empty⟩]

/-- The error names a node `Func_1`, although the blueprint has only a node `Exchange`. -/
theorem exchange_shows_numbered :
    build swaps exchange = .error (.edit (.duplicateConnector "Func_1" .input "Value")) ∧
      ¬ ∀ x ∈ (BuildError.edit (.duplicateConnector "Func_1" .input "Value")).nodes,
        x ∈ exchange.nodes.map (·.id) :=
  ⟨by decide +kernel, by decide⟩

end Blueprint

end NodeScript
