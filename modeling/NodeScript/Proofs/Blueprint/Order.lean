import NodeScript.Proofs.Blueprint.Linked
import NodeScript.Proofs.Lowering.Numbering

/-!
# The order of a blueprint

Blueprints with the same nodes and links, listed in different orders, lead to graphs that number
their nodes and connectors differently and list the edges of an output in different orders. The
graphs are twins (`Describes.twins`), so none of this shows in the scripts, except where an output
that lowering follows has several edges, or a value goes to several variables: these are read in the
order of their edges. Without such forks (`Orderless`) the order of a blueprint is of no account
(`order_irrelevant`).
-/

namespace NodeScript

open NodeScript.Except (map_eq_ok)

namespace Blueprint

variable {source : Lookup} {b b' : Blueprint} {nodes nodes' : List Node} {links links' : List Link}
  {p p' : Progress} {n : Node} {t : Terminal}

/-! ### What may depend on the order -/

/-- Control leaves the node through the output. -/
def IsControl (source : Lookup) (b : Blueprint) (t : Terminal) : Prop :=
  ∃ spec, HasOutput source b.nodes t.node spec ∧ spec.name = t.pin ∧ spec.signal.isExecution = true

/-- The input sets a member variable. -/
def IsSetter (b : Blueprint) (t : Terminal) : Prop :=
  t.pin = Pin.set ∧ ∃ n ∈ b.nodes, n.id = t.node ∧ ∃ c property, n.kind = .member c property

/-- No input has two links, control leaves through one link at most, and no output has two links to
inputs that set member variables. -/
structure Orderless (source : Lookup) (b : Blueprint) : Prop where
  inputs : (b.links.map Link.drain).Nodup
  control : ∀ l ∈ b.links, ∀ l' ∈ b.links, l.origin = l'.origin →
    IsControl source b l.origin → l = l'
  setting : ∀ l ∈ b.links, ∀ l' ∈ b.links, l.origin = l'.origin →
    IsSetter b l.drain → IsSetter b l'.drain → l = l'

/-- What the building needs is said of the members of the lists. -/
theorem Sound.perm (h : Sound source b) (hn : b'.nodes.Perm b.nodes)
    (hl : b'.links.Perm b.links) : Sound source b' where
  unique := (hn.map _).nodup_iff.mpr h.unique
  nodes n hmem := h.nodes n (hn.mem_iff.mp hmem)
  links l hmem := by
    simpa only [Link.Fits, HasInput, HasOutput, hn.mem_iff] using h.links l (hl.mem_iff.mp hmem)

/-! ### Twins -/

namespace Describes

/-- **Lists of the same nodes and links describe twins.** -/
theorem twins (h : Describes source nodes links p) (h' : Describes source nodes' links' p')
    (unique : (nodes.map (·.id)).Nodup) (hn : ∀ n, n ∈ nodes' ↔ n ∈ nodes)
    (hl : ∀ l, l ∈ links' ↔ l ∈ links) : Graph.Twins p.graph p'.graph := by
  -- nodes of one name were built from one node
  have common : ∀ {m m' name}, p.graph.nodeName? m = some name → p'.graph.nodeName? m' = some name →
      ∃ n : Node, n.Built source p.graph m ∧ n.Built source p'.graph m' := by
    intro m m' name hm hm'
    obtain ⟨n, hmem, hid, built⟩ := h.built_of_name hm
    obtain ⟨n', hmem', hid', built'⟩ := h'.built_of_name hm'
    obtain rfl : n' = n :=
      List.inj_on_of_nodup_map unique ((hn n').mp hmem') hmem (hid'.trans hid.symm)
    exact ⟨n', built, built'⟩
  refine ⟨h.named, h'.named, fun hm hm' => ?_, fun {i i'} hi => ?_, fun {t u} => ?_⟩
  · obtain ⟨n, built, built'⟩ := common hm hm'
    obtain ⟨placement, hplacement, hshape⟩ := built.shape
    obtain ⟨placement', hplacement', hshape'⟩ := built'.shape
    obtain rfl : placement = placement' := Except.ok.inj (hplacement.symm.trans hplacement')
    exact hshape'.trans hshape.symm
  · obtain ⟨name, hm, hm'⟩ := hi.owners
    obtain ⟨n, built, built'⟩ := common hm hm'
    rw [built.value hi.live rfl, built'.value hi.live' rfl]
    simp only [given, Connector.zero, hi.name, hi.signal]
  · simp only [h.wired, h'.wired, hl]

end Describes

/-! ### Forks -/

/-- Only a variable of the blueprint is placed as a member variable. -/
theorem Kind.member_of_placement {kind : Kind} {placement : Placement}
    (h : kind.placement source = .ok placement) (hm : placement.kind.member?.isSome) :
    ∃ c property, kind = .member c property := by
  have call : ∀ f archetype, (Placement.callKind f archetype).member? = none := by
    intro f archetype
    unfold Placement.callKind
    split <;> rfl
  cases kind with
  | member c property => exact ⟨c, property, rfl⟩
  | event c f =>
    obtain ⟨decl, -, rfl⟩ := map_eq_ok.mp h
    cases hm
  | call c f resultClass =>
    obtain ⟨decl, -, rfl⟩ := map_eq_ok.mp h
    simp [Placement.kind, call] at hm
  | component c f archetype =>
    obtain ⟨decl, -, rfl⟩ := map_eq_ok.mp h
    simp [Placement.kind, call] at hm
  | branch =>
    cases h
    cases hm
  | loop =>
    cases h
    cases hm

/-- An event of the blueprint is placed as an event. -/
theorem Kind.isEvent_of_placement {c f : String} {placement : Placement}
    (h : (event c f).placement source = .ok placement) : placement.kind.isEvent = true := by
  obtain ⟨decl, -, rfl⟩ := map_eq_ok.mp h
  rfl

/-- The node is of the kind that the placement calls for. -/
theorem Node.Built.kind {g : Graph} {id : NodeId} {node : NodeScript.Node}
    (h : n.Built source g id) (hn : g.node? id = some node) :
    ∃ placement, n.kind.placement source = .ok placement ∧ g.shape? id = some placement.shape ∧
      node.kind = placement.kind := by
  obtain ⟨placement, hplacement, hshape⟩ := h.shape
  obtain ⟨found, hfound, hsame⟩ := Graph.shape?_eq_some_iff.mp hshape
  obtain rfl : node = found := Option.some.inj (hn.symm.trans hfound)
  exact ⟨placement, hplacement, hshape, (congrArg Shape.kind hsame).symm⟩

namespace Describes

/-- A followed output of the graph is one through which control leaves. -/
theorem isControl (h : Describes source b.nodes links p) {m : NodeId} {pin name : String}
    (exit : p.graph.Exit (m, pin)) (hm : p.graph.nodeName? m = some name) :
    IsControl source b ⟨name, pin⟩ := by
  obtain ⟨n, hn, hid, built⟩ := h.built_of_name hm
  obtain ⟨node, hnode, hpin⟩ := exit
  obtain ⟨placement, hplacement, hshape, hkind⟩ := built.kind hnode
  obtain ⟨spec, hspec, side, hname, execution⟩ :=
    Placement.execution_of_followed (p := placement) (hkind ▸ hpin)
  have listed : spec.made ∈ placement.shape.outputs :=
    List.mem_map_of_mem (List.mem_filter.mpr ⟨hspec, by simpa using side⟩)
  exact ⟨spec.made, ⟨n, hn, hid, placement, hplacement, listed⟩, spec.name_made.trans hname,
    spec.signal_made ▸ execution⟩

/-- A member variable of the graph is set where one of the blueprint is. -/
theorem isSetter (h : Describes source b.nodes links p) {m : NodeId} {node : NodeScript.Node}
    (hm : p.graph.node? m = some node) (hkind : node.kind.member?.isSome) :
    IsSetter b ⟨node.name, Pin.set⟩ := by
  obtain ⟨n, hn, hid, built⟩ := h.built_of_name (Graph.nodeName?_eq_some.mpr ⟨node, hm, rfl⟩)
  obtain ⟨placement, hplacement, -, hkind'⟩ := built.kind hm
  exact ⟨rfl, n, hn, hid, Kind.member_of_placement hplacement (hkind' ▸ hkind)⟩

/-- Without forks in the blueprint there are none in its graph. -/
theorem narrow (h : Describes source b.nodes b.links p) (orderless : Orderless source b) :
    p.graph.Narrow where
  control {m pin name u v} exit hm hu hv := by
    obtain ⟨l, hl, horigin, rfl⟩ := h.wired.mp hu
    obtain ⟨l', hl', horigin', rfl⟩ := h.wired.mp hv
    have control := h.isControl exit hm
    rw [orderless.control l hl l' hl' (horigin.trans horigin'.symm) (horigin ▸ control)]
  setting {t m m' node other} hm hm' hkind hkind' hu hv := by
    obtain ⟨l, hl, horigin, hdrain⟩ := h.wired.mp hu
    obtain ⟨l', hl', horigin', hdrain'⟩ := h.wired.mp hv
    have sets := h.isSetter hm hkind
    have sets' := h.isSetter hm' hkind'
    have same : l = l' := orderless.setting l hl l' hl' (horigin.trans horigin'.symm)
      (hdrain ▸ sets) (hdrain' ▸ sets')
    exact congrArg Terminal.node (hdrain.symm.trans (same ▸ hdrain'))

end Describes

/-! ### Order -/

/-- **The order in which a blueprint lists its nodes and links is of no account**, as long as there
are no forks. Either order can be built if the other can, and then the node of each name, an event
if the blueprint says so, compiles to the same text or the same error. The blueprints may have
different names. -/
theorem order_irrelevant (orderless : Orderless source b) (hn : b'.nodes.Perm b.nodes)
    (hl : b'.links.Perm b.links) :
    ((∃ g, build source b = .ok g) ↔ ∃ g', build source b' = .ok g') ∧
      ∀ g g', build source b = .ok g → build source b' = .ok g' → ∀ n ∈ b.nodes, ∃ node node',
        g.findNode? n.id = some node ∧ g'.findNode? n.id = some node' ∧
          (∀ c f, n.kind = .event c f → node.kind.isEvent = true) ∧ node'.kind = node.kind ∧
          ∀ style, g'.compileEvent style node'.id = g.compileEvent style node.id := by
  have free := orderless.inputs
  have free' := (hl.map Link.drain).nodup_iff.mpr free
  refine ⟨?_, fun g g' hg hg' n hmem => ?_⟩
  · rw [build_ok_iff free, build_ok_iff free']
    exact ⟨fun sound => sound.perm hn hl, fun sound => sound.perm hn.symm hl.symm⟩
  · have sound := (build_ok_iff free).mp ⟨g, hg⟩
    obtain ⟨p, rfl, h⟩ := describes_build free hg
    obtain ⟨p', rfl, h'⟩ := describes_build free' hg'
    have twins := h.twins h' sound.unique (fun _ => hn.mem_iff) fun _ => hl.mem_iff
    obtain ⟨m, built⟩ := h.built n hmem
    obtain ⟨m', built'⟩ := h'.built n (hn.mem_iff.mpr hmem)
    have same : Graph.TwinNodes p.graph p'.graph m m' := ⟨n.id, built.name, built'.name⟩
    obtain ⟨node, node', hnode, hnode', rfl, rfl, rows⟩ := twins.exists_rows same
    obtain ⟨placement, hplacement, -, hkind⟩ := built.kind hnode
    have called := Graph.nodeName?_eq_some.mpr ⟨node, hnode, rfl⟩
    have hname := Option.some.inj (built.name.symm.trans called)
    have found := h.named.findNode? hnode
    have found' := h'.named.findNode? hnode'
    rw [← hname] at found
    rw [rows.name, ← hname] at found'
    refine ⟨node, node', found, found', fun c f hevent => ?_, rows.kind,
      twins.compileEvent_eq (h.narrow orderless) same⟩
    rw [hkind]
    exact Kind.isEvent_of_placement (hevent ▸ hplacement)

/-- An entry point, a call without effects that returns a text, and a call that takes one. -/
def greetings : Lookup where
  function? _ name := [(FunctionDecl.callable "Actor" "Tick").asEvent,
    { (FunctionDecl.callable "Actor" "Name").asPure with params := [.returns .string] },
    { FunctionDecl.callable "Actor" "Log" with params := [.input "Message" .string] }].find?
      (·.name == name)
  property? _ _ := none

/-- An event that logs one text two times, so that the text goes to two inputs. -/
def greeting : Blueprint where
  nodes := [⟨"tick", .event "Actor" "Tick", .empty⟩, ⟨"name", .call "Actor" "Name" none, .empty⟩,
    ⟨"one", .call "Actor" "Log" none, .empty⟩, ⟨"two", .call "Actor" "Log" none, .empty⟩]
  links := [⟨"tick", Pin.done, "one", Pin.run⟩, ⟨"one", Pin.done, "two", Pin.run⟩,
    ⟨"name", Pin.result, "one", "Message"⟩, ⟨"name", Pin.result, "two", "Message"⟩]

/-- The one fork is that of the text. -/
theorem greeting_orderless : Orderless greetings greeting := by
  have value : ¬ IsControl greetings greeting ⟨"name", Pin.result⟩ := by
    rintro ⟨spec, ⟨n, hn, hid, placement, hplacement, hspec⟩, -, execution⟩
    have only : ∀ n ∈ greeting.nodes, n.id = "name" →
        n = ⟨"name", .call "Actor" "Name" none, .empty⟩ := by decide
    obtain rfl := only n hn hid
    cases hplacement
    obtain rfl : spec = ⟨.output, .string, Pin.result, none⟩ := List.mem_singleton.mp hspec
    cases execution
  have unset : ∀ t, ¬ IsSetter greeting t := by
    rintro t ⟨-, n, hn, -, c, property, hkind⟩
    simp only [greeting, List.mem_cons, List.not_mem_nil, or_false] at hn
    rcases hn with rfl | rfl | rfl | rfl <;> cases hkind
  have forks : ∀ l ∈ greeting.links, ∀ l' ∈ greeting.links, l.origin = l'.origin →
      l = l' ∨ l.origin = ⟨"name", Pin.result⟩ := by decide
  refine ⟨by decide, fun l hl l' hl' horigin control => ?_,
    fun l hl l' hl' _ sets _ => absurd sets (unset _)⟩
  exact (forks l hl l' hl' horigin).resolve_right fun fork => value (fork ▸ control)

/-- Listed backwards, the blueprint leads to another graph, in which the event is the last node and
compiles alike. -/
theorem order_irrelevant_backwards :
    let backwards := { greeting with
      nodes := greeting.nodes.reverse, links := greeting.links.reverse }
    ∃ g g' node node', build greetings greeting = .ok g ∧ build greetings backwards = .ok g' ∧
      g.findNode? "tick" = some node ∧ g'.findNode? "tick" = some node' ∧
      node.id = ⟨0⟩ ∧ node'.id = ⟨3⟩ ∧ (g.compileEvent {} ⟨0⟩).toOption.isSome = true ∧
      g'.compileEvent {} ⟨3⟩ = g.compileEvent {} ⟨0⟩ := by
  intro backwards
  have first : (build greetings greeting).toOption.bind (fun g => (g.findNode? "tick").map (·.id)) =
      some ⟨0⟩ := by decide +kernel
  have last : (build greetings backwards).toOption.bind (fun g => (g.findNode? "tick").map (·.id)) =
      some ⟨3⟩ := by decide +kernel
  have accepted : (build greetings greeting).toOption.any
      (fun g => (g.compileEvent {} ⟨0⟩).toOption.isSome) = true := by decide +kernel
  obtain ⟨g, hg⟩ : ∃ g, build greetings greeting = .ok g := ⟨_, rfl⟩
  have hn : backwards.nodes.Perm greeting.nodes := List.reverse_perm _
  have hl : backwards.links.Perm greeting.links := List.reverse_perm _
  obtain ⟨iff, same⟩ := order_irrelevant greeting_orderless hn hl
  obtain ⟨g', hg'⟩ := iff.mp ⟨g, hg⟩
  obtain ⟨node, node', hnode, hnode', -, -, compiles⟩ := same g g' hg hg' _ (.head _)
  have hnode : g.findNode? "tick" = some node := hnode
  have hnode' : g'.findNode? "tick" = some node' := hnode'
  simp only [hg, hg', hnode, hnode', Except.toOption, Option.bind_some, Option.any_some,
    Option.map_some, Option.some.injEq] at first last accepted
  refine ⟨g, g', node, node', hg, hg', hnode, hnode', first, last, accepted, ?_⟩
  rw [← first, ← last]
  exact compiles {}

end Blueprint

end NodeScript
