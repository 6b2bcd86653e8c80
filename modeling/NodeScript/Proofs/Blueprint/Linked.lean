import NodeScript.Proofs.Blueprint.Built
import NodeScript.Proofs.Graph.EdgeLists

/-!
# Building the links of a blueprint

A link can be built exactly if it leads from an output to an input of one signal (`Link.Fits`);
the links that were built before make no difference (`Describes.addLink_ok_iff`). It becomes one
edge more, unless it takes the input away from a link that was built before.

So a blueprint in which no two links lead to one input can be built exactly if its nodes and links
fit and no two nodes have one identifier (`Sound`, `build_ok_iff`), and the graph then is what the
lists describe (`describes_build`).
-/

namespace NodeScript

open NodeScript.Except (bind_eq_ok)

/-! ### Edges between terminals -/

namespace Graph

variable {g g' : Graph} {o p : OutputId} {i j : InputId} {output : Output} {input : Input}
  {t u : Terminal}

/-- A connector is at one terminal at most. -/
theorem At.unique {c : Connector} (ht : g.At c t) (hu : g.At c u) : t = u := by
  obtain ⟨name, pin⟩ := t
  obtain ⟨name', pin'⟩ := u
  obtain ⟨hname, rfl⟩ := ht
  obtain ⟨hname', rfl⟩ := hu
  obtain rfl : name = name' := Option.some.inj (hname.symm.trans hname')
  rfl

/-- A node is found under its name. -/
theorem Named.findNode? (h : g.Named) {n : NodeId} {node : Node}
    (hn : g.node? n = some node) : g.findNode? node.name = some node := by
  have housed := h.assembled.reachable.housed
  have live : node ∈ g.nodes.live := Table.mem_live.mpr ⟨n.index, hn⟩
  cases hfound : g.findNode? node.name with
  | none => simpa using List.find?_eq_none.mp hfound node live
  | some found =>
    obtain ⟨k, hk⟩ := Table.mem_live.mp (List.mem_of_find?_eq_some hfound)
    have hk : g.node? ⟨k⟩ = some found := hk
    have same : found.name = node.name := by simpa using List.find?_some hfound
    have hid : (⟨k⟩ : NodeId) = n := h.injective (nodeName?_eq_some.mpr ⟨found, hk, same⟩)
      (nodeName?_eq_some.mpr ⟨node, hn, rfl⟩)
    rw [← hk, hid, hn]

/-- The live output has the names of the terminal. -/
def OutputAt (g : Graph) (o : OutputId) (t : Terminal) : Prop :=
  ∃ output, g.output? o = some output ∧ g.At output.toConnector t

/-- The live input has the names of the terminal. -/
def InputAt (g : Graph) (i : InputId) (t : Terminal) : Prop :=
  ∃ input, g.input? i = some input ∧ g.At input.toConnector t

theorem OutputAt.unique (ht : g.OutputAt o t) (hu : g.OutputAt o u) : t = u := by
  obtain ⟨output, ho, ht⟩ := ht
  obtain ⟨output', ho', hu⟩ := hu
  obtain rfl : output = output' := Option.some.inj (ho.symm.trans ho')
  exact ht.unique hu

theorem InputAt.unique (ht : g.InputAt i t) (hu : g.InputAt i u) : t = u := by
  obtain ⟨input, hi, ht⟩ := ht
  obtain ⟨input', hi', hu⟩ := hu
  obtain rfl : input = input' := Option.some.inj (hi.symm.trans hi')
  exact ht.unique hu

/-- Both ends of an edge are at terminals. -/
theorem Reachable.exists_terminals (h : g.Reachable) (hf : g.FedBy i o) :
    ∃ t u, g.OutputAt o t ∧ g.InputAt i u := by
  obtain ⟨input, hi, -⟩ := id hf
  obtain ⟨output, ho, -⟩ := (h.consistent.feeds_iff o i).mpr hf
  obtain rfl := h.housed.output_id ho
  obtain rfl : input.id = i := h.housed.inputs.ident_eq hi
  obtain ⟨t, ht⟩ := h.housed.exists_at_output ho
  obtain ⟨u, hu⟩ := h.housed.exists_at_input hi
  exact ⟨t, u, ⟨output, ho, ht⟩, input, hi, hu⟩

/-- Edges between terminals, by their ends. -/
theorem Reachable.wired_iff (h : g.Reachable) :
    g.Wired t u ↔ ∃ o i, g.FedBy i o ∧ g.OutputAt o t ∧ g.InputAt i u := by
  constructor
  · rintro ⟨output, input, ho, hi, hs, ht, hu⟩
    exact ⟨output.id, input.id, ⟨input, hi, hs⟩, ⟨output, ho, ht⟩, input, hi, hu⟩
  · rintro ⟨o, i, ⟨found, hfound, hs⟩, ⟨output, ho, ht⟩, input, hi, hu⟩
    obtain rfl : found = input := Option.some.inj (hfound.symm.trans hi)
    obtain rfl := h.housed.output_id ho
    obtain rfl : found.id = i := h.housed.inputs.ident_eq hi
    exact ⟨output, found, ho, hi, hs, ht, hu⟩

theorem Named.inputAt_unique (h : g.Named) (hi : g.InputAt i t) (hj : g.InputAt j t) : i = j := by
  obtain ⟨input, hi, hit⟩ := hi
  obtain ⟨other, hj, hjt⟩ := hj
  have housed := h.assembled.reachable.housed
  obtain rfl : input.id = i := housed.inputs.ident_eq hi
  obtain rfl : other.id = j := housed.inputs.ident_eq hj
  rw [h.input_unique hi hj hit hjt]

theorem Named.outputAt_unique (h : g.Named) (ho : g.OutputAt o t) (hp : g.OutputAt p t) :
    o = p := by
  obtain ⟨output, ho, hot⟩ := ho
  obtain ⟨other, hp, hpt⟩ := hp
  have housed := h.assembled.reachable.housed
  obtain rfl := housed.output_id ho
  obtain rfl := housed.output_id hp
  rw [h.output_unique ho hp hot hpt]

/-! ### What does not depend on edges -/

theorem outputAt_unwired : g.unwired.OutputAt o t ↔ g.OutputAt o t := by
  simp only [OutputAt, output?_unwired]
  cases g.output? o <;> simp [Output.bare, At, nodeName?]

theorem inputAt_unwired : g.unwired.InputAt i t ↔ g.InputAt i t := by
  simp only [InputAt, input?_unwired]
  cases g.input? i <;> simp [Input.bare, At, nodeName?]

theorem shape?_unwired (g : Graph) : g.unwired.shape? = g.shape? := by
  refine shape?_congr (fun n => by rw [node?_unwired]) (fun i => ?_) fun o => ?_
  · rw [input?_unwired, Option.map_map]
    rfl
  · rw [output?_unwired, Option.map_map]
    rfl

namespace Rewires

variable {w : EdgeLists}

theorem outputAt (h : Rewires g g' w) : g'.OutputAt o t ↔ g.OutputAt o t := by
  rw [← outputAt_unwired, h.rest, outputAt_unwired]

theorem inputAt (h : Rewires g g' w) : g'.InputAt i t ↔ g.InputAt i t := by
  rw [← inputAt_unwired, h.rest, inputAt_unwired]

theorem shape? (h : Rewires g g' w) : g'.shape? = g.shape? := by
  rw [← shape?_unwired, h.rest, shape?_unwired]

end Rewires

/-! ### Connecting -/

/-- A connection takes the input away from the output that it was connected to. -/
theorem fedBy_connect (hc : g.connect o i .any = .ok g') :
    g'.FedBy j p ↔ g.FedBy j p ∧ j ≠ i ∨ p = o ∧ j = i := by
  obtain ⟨output, -, input, -, -, g₁, h₁, g₂, hb, rfl⟩ := connect_eq_ok.mp hc
  obtain rfl : g₁ = g := h₁
  obtain ⟨input', hi', rfl⟩ := breakInput_eq_ok.mp hb
  obtain ⟨freed, hfreed⟩ := exists_input?_severed hi' input'.source
  rw [fedBy_link hfreed, fedBy_severed, and_assoc, and_self]

/-- The edges between terminals after a connection. -/
theorem Named.wired_connect (h : g.Named) (h' : g'.Reachable) {output : Output} {t₀ u₀ : Terminal}
    (live : g.output? o = some output) (ho : g.OutputAt o t₀) (hi : g.InputAt i u₀)
    (hc : g.connect o i .any = .ok g') :
    g'.Wired t u ↔ g.Wired t u ∧ u ≠ u₀ ∨ t₀ = t ∧ u₀ = u := by
  have reach := h.assembled.reachable
  have rewires := rewires_connect reach.consistent live hc
  simp only [reach.wired_iff, h'.wired_iff, rewires.outputAt, rewires.inputAt, fedBy_connect hc]
  constructor
  · rintro ⟨p, j, ⟨hfed, other⟩ | ⟨rfl, rfl⟩, ht, hu⟩
    · refine .inl ⟨⟨p, j, hfed, ht, hu⟩, ?_⟩
      rintro rfl
      exact other (h.inputAt_unique hu hi)
    · exact .inr ⟨ho.unique ht, hi.unique hu⟩
  · rintro (⟨⟨p, j, hfed, ht, hu⟩, other⟩ | ⟨rfl, rfl⟩)
    · refine ⟨p, j, .inl ⟨hfed, ?_⟩, ht, hu⟩
      rintro rfl
      exact other (hu.unique hi)
    · exact ⟨o, i, .inr ⟨rfl, rfl⟩, ho, hi⟩

/-- Two live connectors can be connected exactly if they have one signal. -/
theorem connect_ok_iff (ho : g.output? o = some output) (hi : g.input? i = some input) :
    (∃ g', g.connect o i .any = .ok g') ↔ output.signal = input.signal := by
  constructor
  · rintro ⟨g', hg'⟩
    obtain ⟨output', ho', input', hi', hs, -⟩ := connect_eq_ok.mp hg'
    rwa [Option.some.inj (ho.symm.trans ho'), Option.some.inj (hi.symm.trans hi')]
  · intro hs
    have freed := breakInput_eq_ok.mpr ⟨input, hi, rfl⟩
    exact ⟨_, connect_eq_ok.mpr ⟨output, ho, input, hi, hs, g, rfl, _, freed, rfl⟩⟩

end Graph

namespace Blueprint

variable {source : Lookup} {nodes : List Node} {links ls : List Link} {n : Node} {l : Link}
  {name : String} {spec : ConnectorSpec} {p p' : Progress}

/-! ### What is needed -/

/-- A node of the identifier has an input of the specification. -/
def HasInput (source : Lookup) (nodes : List Node) (id : String) (spec : ConnectorSpec) : Prop :=
  ∃ n ∈ nodes, n.id = id ∧ ∃ p, n.kind.placement source = .ok p ∧ spec ∈ p.shape.inputs

/-- A node of the identifier has an output of the specification. -/
def HasOutput (source : Lookup) (nodes : List Node) (id : String) (spec : ConnectorSpec) : Prop :=
  ∃ n ∈ nodes, n.id = id ∧ ∃ p, n.kind.placement source = .ok p ∧ spec ∈ p.shape.outputs

/-- What the building needs of a link: an output and an input of one signal. -/
def Link.Fits (source : Lookup) (nodes : List Node) (l : Link) : Prop :=
  ∃ output input, HasOutput source nodes l.source output ∧ output.name = l.output ∧
    HasInput source nodes l.target input ∧ input.name = l.input ∧ output.signal = input.signal

/-- What the building needs of a blueprint. -/
structure Sound (source : Lookup) (b : Blueprint) : Prop where
  unique : (b.nodes.map (·.id)).Nodup
  nodes : ∀ n ∈ b.nodes, n.Fits source
  links : ∀ l ∈ b.links, l.Fits source b.nodes

/-! ### Links -/

@[simp] theorem linkEnd_eq_ok {id : NodeId} :
    linkEnd p name = .ok id ↔ p.ids.lookup name = some id := by
  cases h : p.ids.lookup name <;> simp [linkEnd, h]

/-- A link that is built has an output and an input on nodes that were built, and they were
connected. -/
theorem addLink_eq_ok : addLink p l = .ok p' ↔
    ∃ a, p.ids.lookup l.source = some a ∧ ∃ b, p.ids.lookup l.target = some b ∧
      ∃ output, p.graph.outputNamed? a l.output = some output ∧
        ∃ input, p.graph.inputNamed? b l.input = some input ∧
          ∃ g, p.graph.connect output.id input.id .any = .ok g ∧ p' = { p with graph := g } := by
  simp only [addLink, bind_eq_ok, linkEnd_eq_ok]
  refine exists_congr fun a => and_congr_right fun _ =>
    exists_congr fun b => and_congr_right fun _ => ?_
  cases p.graph.outputNamed? a l.output with
  | none => simp
  | some output =>
    cases p.graph.inputNamed? b l.input with
    | none => simp
    | some input => simp [bind_eq_ok, eq_comm (a := p')]

namespace Describes

/-- The shapes that nodes have in the graph are those that their placements call for. -/
theorem exists_shape_iff (h : Describes source nodes links p) {P : Shape → Prop} :
    (∃ n ∈ nodes, n.id = name ∧ ∃ placement, n.kind.placement source = .ok placement ∧
      P placement.shape) ↔
    ∃ id, p.ids.lookup name = some id ∧ ∃ sh, p.graph.shape? id = some sh ∧ P sh := by
  constructor
  · rintro ⟨n, hn, rfl, placement, hplacement, hP⟩
    obtain ⟨id, built⟩ := h.built n hn
    obtain ⟨found, hfound, hshape⟩ := built.shape
    obtain rfl : placement = found := Except.ok.inj (hplacement.symm.trans hfound)
    exact ⟨id, h.lookup.mpr built.name, placement.shape, hshape, hP⟩
  · rintro ⟨id, hid, sh, hsh, hP⟩
    obtain ⟨n, hn, rfl, built⟩ := h.built_of_name (h.lookup.mp hid)
    obtain ⟨placement, hplacement, hshape⟩ := built.shape
    obtain rfl : sh = placement.shape := Option.some.inj (hsh.symm.trans hshape)
    exact ⟨n, hn, rfl, placement, hplacement, hP⟩

/-- A node that was built has a shape. -/
theorem exists_shape (h : Describes source nodes links p) {id : NodeId}
    (hid : p.ids.lookup name = some id) : ∃ sh, p.graph.shape? id = some sh := by
  obtain ⟨n, -, -, built⟩ := h.built_of_name (h.lookup.mp hid)
  obtain ⟨placement, -, hshape⟩ := built.shape
  exact ⟨placement.shape, hshape⟩

theorem hasOutput_iff (h : Describes source nodes links p) :
    HasOutput source nodes name spec ↔ ∃ id, p.ids.lookup name = some id ∧
      ∃ output, p.graph.outputNamed? id spec.name = some output ∧ output.spec .output = spec := by
  refine (h.exists_shape_iff (P := fun sh => spec ∈ sh.outputs)).trans
    (exists_congr fun id => and_congr_right fun hid => ?_)
  obtain ⟨sh, hsh⟩ := h.exists_shape hid
  simp [hsh, h.assembled.reachable.mem_outputs_iff hsh]

theorem hasInput_iff (h : Describes source nodes links p) :
    HasInput source nodes name spec ↔ ∃ id, p.ids.lookup name = some id ∧
      ∃ input, p.graph.inputNamed? id spec.name = some input ∧ input.spec .input = spec := by
  refine (h.exists_shape_iff (P := fun sh => spec ∈ sh.inputs)).trans
    (exists_congr fun id => and_congr_right fun hid => ?_)
  obtain ⟨sh, hsh⟩ := h.exists_shape hid
  simp [hsh, h.assembled.reachable.mem_inputs_iff hsh]

/-- **Whether a link is built does not depend on the links before it.** -/
theorem addLink_ok_iff (h : Describes source nodes links p) :
    (∃ p', Blueprint.addLink p l = .ok p') ↔ l.Fits source nodes := by
  have housed := h.assembled.reachable.housed
  constructor
  · rintro ⟨p', hp'⟩
    obtain ⟨a, ha, b, hb, output, ho, input, hi, g, hg, -⟩ := addLink_eq_ok.mp hp'
    obtain ⟨liveOut, -, hout⟩ := housed.of_outputNamed? ho
    obtain ⟨liveIn, -, hin⟩ := housed.of_inputNamed? hi
    have hs := (Graph.connect_ok_iff liveOut liveIn).mp ⟨g, hg⟩
    exact ⟨output.spec .output, input.spec .input,
      h.hasOutput_iff.mpr ⟨a, ha, output, by rwa [← hout] at ho, rfl⟩, hout,
      h.hasInput_iff.mpr ⟨b, hb, input, by rwa [← hin] at hi, rfl⟩, hin, hs⟩
  · rintro ⟨_, _, hasOutput, hout, hasInput, hin, hs⟩
    obtain ⟨a, ha, output, ho, rfl⟩ := h.hasOutput_iff.mp hasOutput
    obtain ⟨b, hb, input, hi, rfl⟩ := h.hasInput_iff.mp hasInput
    rw [hout] at ho
    rw [hin] at hi
    obtain ⟨liveOut, -, -⟩ := housed.of_outputNamed? ho
    obtain ⟨liveIn, -, -⟩ := housed.of_inputNamed? hi
    obtain ⟨g, hg⟩ := (Graph.connect_ok_iff liveOut liveIn).mpr hs
    exact ⟨_, addLink_eq_ok.mpr ⟨a, ha, b, hb, output, ho, input, hi, g, hg, rfl⟩⟩

/-- **A link that is built takes its input away from the links before it.** -/
theorem relink (h : Describes source nodes links p) (hp : Blueprint.addLink p l = .ok p') :
    Describes source nodes (links.filter (·.drain ≠ l.drain) ++ [l]) p' := by
  obtain ⟨a, ha, b, hb, output, ho, input, hi, g, hg, rfl⟩ := addLink_eq_ok.mp hp
  have reach := h.assembled.reachable
  obtain ⟨liveOut, rfl, hout⟩ := reach.housed.of_outputNamed? ho
  obtain ⟨liveIn, rfl, hin⟩ := reach.housed.of_inputNamed? hi
  have hdrain : p.graph.InputAt input.id l.drain := ⟨input, liveIn, h.lookup.mp hb, hin⟩
  have horigin : p.graph.OutputAt output.id l.origin := ⟨output, liveOut, h.lookup.mp ha, hout⟩
  have assembled : g.Assembled := by
    have edit := h.assembled.apply (e := .connect output.id input.id .any) rfl
    simpa [Graph.apply, hg, Except.map, Graph.settle] using edit
  have rewires := Graph.rewires_connect reach.consistent liveOut hg
  have names : ∀ m, g.nodeName? m = p.graph.nodeName? m := fun m => by
    rw [Graph.nodeName?, rewires.node?, Graph.nodeName?]
  refine ⟨assembled, fun {name id} => by rw [names, h.lookup], fun n hn => ?_,
    fun {id name} hid => h.only (names id ▸ hid), fun {t u} => ?_⟩
  · obtain ⟨id, built⟩ := h.built n hn
    refine ⟨id, built.congr (names id) (congrFun rewires.shape? id) fun {i} live _ => ?_⟩
    obtain ⟨old, hold, connector, ident, fallback⟩ :=
      Graph.exists_input_of_unwired rewires.rest live
    exact ⟨old, ident ▸ hold, connector, fallback⟩
  · rw [h.named.wired_connect assembled.reachable liveOut horigin hdrain hg, h.wired]
    simp only [List.mem_append, List.mem_filter, List.mem_singleton, decide_eq_true_eq, or_and_right,
      exists_or, exists_eq_left]
    refine or_congr_left ⟨?_, ?_⟩
    · rintro ⟨⟨m, hm, rfl, rfl⟩, other⟩
      exact ⟨m, ⟨hm, other⟩, rfl, rfl⟩
    · rintro ⟨m, ⟨hm, other⟩, rfl, rfl⟩
      exact ⟨⟨m, hm, rfl, rfl⟩, other⟩

/-- The graph describes one link more when it is built, if its input was free. -/
theorem addLink (h : Describes source nodes links p) (free : l.drain ∉ links.map Link.drain)
    (hp : Blueprint.addLink p l = .ok p') : Describes source nodes (links ++ [l]) p' := by
  have others : links.filter (·.drain ≠ l.drain) = links :=
    List.filter_eq_self.mpr fun m hm => decide_eq_true fun same =>
      free (same ▸ List.mem_map_of_mem hm)
  exact others ▸ h.relink hp

/-- A list of links is described when it is built, if no two lead to one input. -/
theorem addLinks (h : Describes source nodes links p)
    (free : ((links ++ ls).map Link.drain).Nodup)
    (hp : ls.foldlM Blueprint.addLink p = .ok p') : Describes source nodes (links ++ ls) p' := by
  refine Except.foldlM_read
    (motive := fun ls p => (ls.map Link.drain).Nodup → Describes source nodes ls p)
    hp (fun _ => h) (fun {done l b c} before hc free => ?_) free
  obtain ⟨distinct, new⟩ := (nodup_map_concat _ done l).mp free
  exact (before distinct).addLink new hc

/-- **Links to different inputs are built exactly if each fits.** -/
theorem addLinks_ok_iff (h : Describes source nodes links p)
    (free : ((links ++ ls).map Link.drain).Nodup) :
    (∃ p', ls.foldlM Blueprint.addLink p = .ok p') ↔ ∀ l ∈ ls, l.Fits source nodes := by
  induction ls generalizing links p with
  | nil => simp
  | cons l ls ih =>
    rw [List.append_cons] at free
    have first := h.addLink_ok_iff (l := l)
    have now := (List.nodup_append'.mp (List.map_append ▸ free)).1
    have new := ((nodup_map_concat _ links l).mp now).2
    simp only [List.foldlM_cons, bind_eq_ok, List.forall_mem_cons, ← first]
    constructor
    · rintro ⟨p', p₁, h₁, h₂⟩
      exact ⟨⟨p₁, h₁⟩, (ih (h.addLink new h₁) free).mp ⟨p', h₂⟩⟩
    · rintro ⟨⟨p₁, h₁⟩, rest⟩
      obtain ⟨p', h₂⟩ := (ih (h.addLink new h₁) free).mpr rest
      exact ⟨p', p₁, h₁, h₂⟩

end Describes

/-! ### Blueprints -/

variable {b : Blueprint} {g : Graph}

/-- A blueprint is built in two parts. -/
theorem build_eq_ok : build source b = .ok g ↔
    ∃ p, b.nodes.foldlM (addNode source) ⟨.empty b.name, []⟩ = .ok p ∧
      ∃ p', b.links.foldlM addLink p = .ok p' ∧ p'.graph = g := by
  simp [build, bind_eq_ok]

/-- **What is built is what the blueprint lists**, in whatever order. -/
theorem describes_build (free : (b.links.map Link.drain).Nodup) (hg : build source b = .ok g) :
    ∃ p, p.graph = g ∧ Describes source b.nodes b.links p := by
  obtain ⟨p, hp, p', hp', rfl⟩ := build_eq_ok.mp hg
  have nodes := (Describes.empty source b.name).addNodes hp
  exact ⟨p', rfl, nodes.addLinks free hp'⟩

/-- **A blueprint is built exactly if its parts fit**, as long as no two links lead to one input. -/
theorem build_ok_iff (free : (b.links.map Link.drain).Nodup) :
    (∃ g, build source b = .ok g) ↔ Sound source b := by
  have start := Describes.empty source b.name
  have nodes : (∃ p, b.nodes.foldlM (addNode source) ⟨.empty b.name, []⟩ = .ok p) ↔ _ :=
    start.addNodes_ok_iff .nil
  simp only [build_eq_ok]
  constructor
  · rintro ⟨g, p, hp, p', hp', -⟩
    obtain ⟨unique, fits⟩ := nodes.mp ⟨p, hp⟩
    exact ⟨unique, fits, ((start.addNodes hp).addLinks_ok_iff free).mp ⟨p', hp'⟩⟩
  · intro sound
    obtain ⟨p, hp⟩ := nodes.mpr ⟨sound.unique, sound.nodes⟩
    obtain ⟨p', hp'⟩ := ((start.addNodes hp).addLinks_ok_iff free).mpr sound.links
    exact ⟨_, p, hp, p', hp', rfl⟩

end Blueprint

end NodeScript
