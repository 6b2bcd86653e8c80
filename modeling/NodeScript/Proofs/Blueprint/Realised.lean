import NodeScript.Proofs.Blueprint.Order
import NodeScript.Proofs.Graph.Slots
import NodeScript.Proofs.Graph.WellFormed

/-!
# The graph of a blueprint

What a blueprint says of its nodes, the graph that is built from it has: its live nodes are those of
the list, in the same order, each under its identifier as a name, with the connectors of its
placement and with its values (`Node.Realised`).

Links are built one after the other, and a link takes its input away from the links before it. So
the edges are those of the links that stand, which are the last ones to their inputs (`standing`),
and each output lists its inputs in the order of these (`Graph.FansOut`, `realised_build`).
-/

namespace NodeScript

open List (Forall₂)
open NodeScript.Except (bind_eq_ok)

namespace Blueprint

variable {source : Lookup} {b : Blueprint} {nodes : List Node} {links ls : List Link} {n : Node}
  {l m : Link} {u : Terminal} {p p' : Progress} {g : Graph}

/-! ### Links that stand -/

/-- The last link to an input. -/
def lastTo (links : List Link) (u : Terminal) : Option Link :=
  links.findRev? (·.drain = u)

/-- The links that no later link takes the input away from. -/
def standing : List Link → List Link
  | [] => []
  | l :: ls => if l.drain ∈ ls.map Link.drain then standing ls else l :: standing ls

theorem standing_concat (links : List Link) (l : Link) :
    standing (links ++ [l]) = (standing links).filter (·.drain ≠ l.drain) ++ [l] := by
  induction links with
  | nil => rfl
  | cons m links ih =>
    simp only [List.cons_append, standing, List.map_append, List.map_singleton, List.mem_append,
      List.mem_singleton, ih]
    by_cases later : m.drain ∈ links.map Link.drain
    · simp [later]
    · rw [if_neg later, List.filter_cons]
      by_cases same : m.drain = l.drain
      · simp [same]
      · simp [later, same]

theorem lastTo_concat (links : List Link) (l : Link) (u : Terminal) :
    lastTo (links ++ [l]) u = if l.drain = u then some l else lastTo links u := by
  simp only [lastTo, List.findRev?_eq_find?_reverse, List.reverse_append, List.reverse_singleton,
    List.singleton_append, List.find?_cons]
  by_cases same : l.drain = u <;> simp [same]

/-- The links that stand are the last ones to their inputs. -/
theorem mem_standing_iff : l ∈ standing links ↔ lastTo links l.drain = some l := by
  induction links using List.reverseRecOn with
  | nil => simp [standing, lastTo]
  | append_singleton links m ih =>
    rw [standing_concat, lastTo_concat, List.mem_append, List.mem_filter, List.mem_singleton, ih]
    by_cases same : m.drain = l.drain
    · simp [same, eq_comm]
    · have other : l ≠ m := fun h => same (h ▸ rfl)
      simp [same, Ne.symm same, other]

/-- The links that stand, by their ends. -/
theorem exists_standing_iff {t : Terminal} : (∃ l ∈ standing links, l.origin = t ∧ l.drain = u) ↔
    (lastTo links u).map Link.origin = some t := by
  rw [Option.map_eq_some_iff]
  constructor
  · rintro ⟨l, hl, rfl, rfl⟩
    exact ⟨l, mem_standing_iff.mp hl, rfl⟩
  · rintro ⟨l, hl, rfl⟩
    have found := List.findRev?_eq_find?_reverse.symm.trans hl
    obtain rfl : l.drain = u := by simpa using List.find?_some found
    exact ⟨l, mem_standing_iff.mpr hl, rfl, rfl⟩

end Blueprint

/-! ### The order of the edges of an output -/

namespace Graph

open Blueprint (Link)

variable {g g' : Graph} {links : List Link} {l : Link} {o : OutputId} {i : InputId}

/-- Each output lists the inputs of the links that come from it, in their order. -/
def FansOut (g : Graph) (links : List Link) : Prop :=
  ∀ o targets t, g.edgeLists o = some targets → g.OutputAt o t →
    Forall₂ (fun i (l : Link) => g.InputAt i l.drain) targets (links.filter (·.origin = t))

/-- Connecting as a link says takes the input out of the list that it is in, and adds it at the end
of one. -/
theorem FansOut.connect (h : g.FansOut links) (named : g.Named)
    (rewires : Rewires g g' ((g.edgeLists.detach [i]).attach o i)) (ho : g.OutputAt o l.origin)
    (hi : g.InputAt i l.drain) : g'.FansOut (links.filter (·.drain ≠ l.drain) ++ [l]) := by
  intro q targets t hq hat
  rw [rewires.edges] at hq
  rw [rewires.outputAt] at hat
  simp only [rewires.inputAt]
  obtain ⟨before, hbefore⟩ : ∃ before, g.edgeLists q = some before := by
    cases hlist : g.edgeLists q with
    | some before => exact ⟨before, rfl⟩
    | none => simp [EdgeLists.attach, EdgeLists.detach, hlist] at hq
  -- the lists lose the input where the links to it are dropped, because names tell inputs apart
  have kept : Forall₂ (fun i (l : Link) => g.InputAt i l.drain) (before.filter (· ∉ [i]))
      ((links.filter (·.origin = t)).filter (·.drain ≠ l.drain)) := by
    refine List.rel_filter (fun j m hj => ?_) (h q before t hbefore hat)
    simp only [List.mem_singleton, decide_eq_true_eq]
    refine not_congr ⟨?_, fun same => named.inputAt_unique (same ▸ hj) hi⟩
    rintro rfl
    exact hj.unique hi
  rw [List.filter_append, List.filter_comm]
  by_cases here : q = o
  · subst q
    obtain rfl := ho.unique hat
    obtain rfl : before.filter (· ∉ [i]) ++ [i] = targets := by
      simpa [EdgeLists.attach, EdgeLists.detach, hbefore] using hq
    simpa using List.rel_append kept (.cons hi .nil)
  · obtain rfl : before.filter (· ∉ [i]) = targets := by
      simpa [EdgeLists.attach, EdgeLists.detach, hbefore, here] using hq
    have elsewhere : l.origin ≠ t := by
      rintro rfl
      exact here (named.outputAt_unique hat ho)
    simpa [elsewhere] using kept

end Graph

namespace Blueprint

variable {source : Lookup} {b : Blueprint} {nodes : List Node} {links ls : List Link} {n : Node}
  {l m : Link} {u : Terminal} {p p' : Progress} {g : Graph}

/-! ### What is built -/

/-- The progress is described, and lists nodes and edges in the order of the lists. -/
structure Lists (source : Lookup) (nodes : List Node) (links : List Link) (p : Progress) :
    Prop where
  describes : Describes source nodes links p
  names : p.graph.nodes.live.map (·.name) = nodes.map (·.id)
  fansOut : p.graph.FansOut links

namespace Lists

/-- Without links, no output lists anything. -/
theorem of_describes (h : Describes source nodes [] p)
    (names : p.graph.nodes.live.map (·.name) = nodes.map (·.id)) : Lists source nodes [] p := by
  refine ⟨h, names, fun o targets t hlist _ => ?_⟩
  obtain ⟨output, ho, rfl⟩ := Option.map_eq_some_iff.mp hlist
  have bare : output.targets = [] := by
    refine List.eq_nil_iff_forall_not_mem.mpr fun i hi => ?_
    have reach := h.assembled.reachable
    obtain ⟨t, u, edge⟩ := wired_of_fedBy reach ((reach.consistent.feeds_iff o i).mp ⟨output, ho, hi⟩)
    simpa using h.wired.mp edge
  rw [bare]
  exact .nil

/-- A node that is built is listed after the others. -/
theorem addNode (h : Lists source nodes [] p) (hp : addNode source p n = .ok p') :
    Lists source (nodes ++ [n]) [] p' := by
  refine of_describes (h.describes.addNode hp) ?_
  obtain ⟨-, placement, hplacement, id, hid, k, hk, rfl⟩ := addNode_eq_ok.mp hp
  have added := extends_of_placed h.describes.assembled hplacement hid hk
  obtain ⟨-, rfl, -⟩ := Graph.place_eq_ok.mp hid
  -- the names are those of a table with one row more
  let row : NodeScript.Node := ⟨⟨p.graph.nodes.size⟩, n.id, placement.kind, [], []⟩
  have slots : ∀ i, (k.nodes.get? i).map (·.name) =
      ((p.graph.nodes.push row).get? i).map (·.name) := by
    intro i
    rw [Table.get?_push]
    by_cases hi : i = p.graph.nodes.size
    · rw [if_pos hi, hi]
      exact added.built.name
    · rw [if_neg hi]
      exact added.name (m := ⟨i⟩) fun same => hi (congrArg NodeId.index same)
  rw [Table.map_live_congr slots, Table.live_push, List.map_append, List.map_append, h.names]
  rfl

/-- A link that is built comes last, and takes its input away from the links before it. -/
theorem addLink (h : Lists source nodes links p) (hp : addLink p l = .ok p') :
    Lists source nodes (links.filter (·.drain ≠ l.drain) ++ [l]) p' := by
  have describes := h.describes.relink hp
  obtain ⟨a, ha, b, hb, output, ho, input, hi, g, hg, rfl⟩ := addLink_eq_ok.mp hp
  have reach := h.describes.assembled.reachable
  obtain ⟨liveOut, rfl, hout⟩ := reach.housed.of_outputNamed? ho
  obtain ⟨liveIn, rfl, hin⟩ := reach.housed.of_inputNamed? hi
  have rewires := Graph.rewires_connect reach.consistent liveOut hg
  exact ⟨describes, (congrArg _ (congrArg _ rewires.nodes)).trans h.names,
    h.fansOut.connect h.describes.named rewires ⟨output, liveOut, h.describes.lookup.mp ha, hout⟩
      ⟨input, liveIn, h.describes.lookup.mp hb, hin⟩⟩

end Lists

/-- **What is built is what the blueprint lists**, with the links that stand. -/
theorem lists_build (hg : build source b = .ok g) :
    ∃ p, p.graph = g ∧ Lists source b.nodes (standing b.links) p := by
  obtain ⟨p, hp, p', hp', rfl⟩ := build_eq_ok.mp hg
  have start := Lists.of_describes (.empty source b.name) rfl
  -- the nodes first, and then the links, by induction on the part of the list that has been read
  have nodes : Lists source b.nodes [] p :=
    Except.foldlM_read (motive := fun ns p => Lists source ns [] p) hp start fun h hp => h.addNode hp
  have unlinked : Lists source b.nodes (standing []) p := nodes
  refine ⟨p', rfl, Except.foldlM_read
    (motive := fun ls p => Lists source b.nodes (standing ls) p) hp' unlinked fun h hl => ?_⟩
  rw [standing_concat]
  exact h.addLink hl

/-! ### Nodes and their values -/

/-- The input has the value of its text, if the node gives it one, and otherwise the zero value of
its signal. -/
structure Node.Gives (n : Node) (input : Input) : Prop where
  text : ∀ text, n.defaults.find? input.name = some text →
    Literal.ofText input.signal text = .ok input.fallback
  zero : n.defaults.find? input.name = none → Literal.zero? input.signal = some input.fallback

/-- The node of the graph is the only one of its name, and has the kind, the connectors and the values
that the node of the blueprint calls for. -/
structure Node.Realised (source : Lookup) (g : Graph) (n : Node) (node : NodeScript.Node) :
    Prop where
  name : node.name = n.id
  found : g.findNode? n.id = some node
  only : ∀ other ∈ g.nodes.live, other.name = n.id → other = node
  shape : ∃ placement, n.kind.placement source = .ok placement ∧
    g.shape? node.id = some placement.shape
  value : ∀ input ∈ g.inputsOf node, n.Gives input

/-- A value that an input was given is the one of its text, because each text is a literal of the
signal of the one input of its name. -/
theorem Node.gives_of_given {sh : Shape} (takes : ∀ entry ∈ n.defaults.entries, Takes sh entry)
    (distinct : sh.Distinct) {input : Input} (listed : input.spec .input ∈ sh.inputs)
    (typed : input.Typed)
    (value : input.fallback = given n.defaults.entries input.toConnector input.zero) :
    n.Gives input := by
  rw [given] at value
  refine ⟨fun text hfind => ?_, fun hfind => ?_⟩
  · have here : Directory.findIn input.name n.defaults.entries = some text := hfind
    obtain ⟨spec, hspec, hname, literal, hliteral⟩ :=
      takes _ (Directory.mem_entries_iff.mpr hfind)
    obtain rfl : spec = input.spec .input :=
      List.inj_on_of_nodup_map distinct.inputs hspec listed hname
    have read : Literal.ofText input.signal text = .ok literal := hliteral
    simp [value, here, read, Except.toOption]
  · have absent : Directory.findIn input.name n.defaults.entries = none := hfind
    obtain ⟨zero, hzero⟩ := Literal.exists_zero typed.supported
    simp [value, absent, Connector.zero, hzero]

theorem Lists.realised (h : Lists source nodes links p) (fits : ∀ n ∈ nodes, n.Fits source) :
    Forall₂ (Node.Realised source p.graph) nodes p.graph.nodes.live := by
  have named := h.describes.named
  have reach := named.assembled.reachable
  have live : ∀ {node}, node ∈ p.graph.nodes.live → p.graph.node? node.id = some node :=
    reach.housed.node?_of_mem_live
  refine (forall₂_of_map_eq h.names).imp fun n node same => ?_
  obtain ⟨hn, hnode, hname⟩ := same
  have here := live hnode
  obtain ⟨id, built⟩ := h.describes.built n hn
  obtain rfl : id = node.id :=
    named.injective built.name (Graph.nodeName?_eq_some.mpr ⟨node, here, hname⟩)
  obtain ⟨placement, hplacement, hshape⟩ := built.shape
  refine ⟨hname, hname ▸ named.findNode? here, fun other hother same => ?_,
    ⟨placement, hplacement, hshape⟩, fun input hinput => ?_⟩
  · have there := live hother
    have hid : other.id = node.id :=
      named.injective (Graph.nodeName?_eq_some.mpr ⟨other, there, same⟩) built.name
    exact Option.some.inj ((hid ▸ there).symm.trans here)
  · obtain ⟨hlive, howner⟩ := (reach.housed.mem_inputsOf here).mp hinput
    obtain ⟨placement', hplacement', -, takes⟩ := fits n hn
    obtain rfl : placement = placement' := Except.ok.inj (hplacement.symm.trans hplacement')
    have listed : input.spec .input ∈ placement.shape.inputs := by
      obtain ⟨found, hfound, hsame⟩ := Graph.shape?_eq_some_iff.mp hshape
      obtain rfl : node = found := Option.some.inj (here.symm.trans hfound)
      rw [hsame]
      exact List.mem_map_of_mem hinput
    exact Node.gives_of_given takes (reach.distinct hshape) listed (reach.typed.input hlive)
      (built.value hlive howner)

/-- There is an edge from one connector to another exactly if the last link to the one comes from the
other. -/
theorem Lists.mem_edges_iff (h : Lists source nodes (standing links) p) {o : OutputId}
    {i : InputId} : (o, i) ∈ p.graph.edges ↔ ∃ t u, p.graph.OutputAt o t ∧ p.graph.InputAt i u ∧
      (lastTo links u).map Link.origin = some t := by
  have named := h.describes.named
  have reach := named.assembled.reachable
  have wired : ∀ {t u}, p.graph.Wired t u ↔ (lastTo links u).map Link.origin = some t :=
    h.describes.wired.trans exists_standing_iff
  rw [Graph.mem_edges_iff reach.housed, reach.consistent.feeds_iff]
  constructor
  · intro hf
    obtain ⟨t, u, ht, hu⟩ := reach.exists_terminals hf
    exact ⟨t, u, ht, hu, wired.mp (reach.wired_iff.mpr ⟨o, i, hf, ht, hu⟩)⟩
  · rintro ⟨t, u, ht, hu, last⟩
    -- the edge that is there is between connectors of these names, so between these
    obtain ⟨o', i', hf, ht', hu'⟩ := reach.wired_iff.mp (wired.mpr last)
    rwa [named.outputAt_unique ht ht', named.inputAt_unique hu hu']

/-- **The graph of a blueprint is what the blueprint lists.** Its live nodes are those of the list, in
the same order, and each is the only one of its name and has the kind, the connectors and the values
that are called for. There is an edge from an output to an input exactly if the last of the links to
the input comes from the output, and each output lists its inputs in the order of these last
links. -/
theorem realised_build (hg : build source b = .ok g) :
    Forall₂ (Node.Realised source g) b.nodes g.nodes.live ∧
      (∀ o i, (o, i) ∈ g.edges ↔ ∃ t u, g.OutputAt o t ∧ g.InputAt i u ∧
        (lastTo b.links u).map Link.origin = some t) ∧
      ∀ o output t, g.output? o = some output → g.At output.toConnector t →
        Forall₂ (fun i (l : Link) => g.InputAt i l.drain) output.targets
          ((standing b.links).filter (·.origin = t)) := by
  obtain ⟨p₀, hp₀, -⟩ := build_eq_ok.mp hg
  have fits := ((Describes.empty source b.name).addNodes_ok_iff .nil).mp ⟨p₀, hp₀⟩
  obtain ⟨p, rfl, h⟩ := lists_build hg
  refine ⟨h.realised fits.2, fun o i => h.mem_edges_iff, fun o output t ho hat => ?_⟩
  exact h.fansOut o output.targets t (by simp [Graph.edgeLists, ho]) ⟨output, ho, hat⟩

/-- Two calls that return texts and two that take one each. Of the four links, the first is made again
at the end, and the second loses its input to the third. -/
def competing : Blueprint where
  nodes := [⟨"name", .call "Actor" "Name" none, .empty⟩, ⟨"other", .call "Actor" "Name" none, .empty⟩,
    ⟨"one", .call "Actor" "Log" none, .empty⟩, ⟨"two", .call "Actor" "Log" none, .empty⟩]
  links := [⟨"name", Pin.result, "one", "Message"⟩, ⟨"other", Pin.result, "two", "Message"⟩,
    ⟨"name", Pin.result, "two", "Message"⟩, ⟨"name", Pin.result, "one", "Message"⟩]

/-- The first text goes to both of the calls that take one, to the second of them first, and the other
text goes nowhere. -/
theorem realised_build_competing : ∃ g, build greetings competing = .ok g ∧
    g.edges = [(⟨0⟩, ⟨5⟩), (⟨0⟩, ⟨2⟩)] ∧
    Forall₂ (fun (n : Node) node => g.findNode? n.id = some node) competing.nodes g.nodes.live ∧
    (∀ o output, g.output? o = some output → g.At output.toConnector ⟨"name", Pin.result⟩ →
      Forall₂ (fun i (l : Link) => g.InputAt i l.drain) output.targets
        [⟨"name", Pin.result, "two", "Message"⟩, ⟨"name", Pin.result, "one", "Message"⟩]) ∧
    ∀ o output, g.output? o = some output → g.At output.toConnector ⟨"other", Pin.result⟩ →
      output.targets = [] := by
  have edges : (build greetings competing).toOption.map (·.edges) =
      some [(⟨0⟩, ⟨5⟩), (⟨0⟩, ⟨2⟩)] := by decide +kernel
  obtain ⟨g, hg⟩ : ∃ g, build greetings competing = .ok g := ⟨_, rfl⟩
  obtain ⟨nodes, -, fansOut⟩ := realised_build hg
  rw [hg] at edges
  exact ⟨g, hg, Option.some.inj edges, nodes.imp fun _ _ realised => realised.found,
    fun o output ho hat => fansOut o output _ ho hat,
    fun o output ho hat => List.forall₂_nil_right_iff.mp (fansOut o output _ ho hat)⟩

end Blueprint

end NodeScript
