import NodeScript.Blueprint.Build
import NodeScript.Proofs.Graph.Placing
import NodeScript.Proofs.Graph.Twins

/-!
# Building the nodes of a blueprint

Whether a node can be built does not depend on how far the building has come, as long as its
identifier is new: it needs a placement that is accepted and values that its inputs can take
(`Node.Fits`). Once the nodes are built, the graph has one node for each of them, under its
identifier as a name, of the shape of its placement and with its values (`Node.Built`), and no
edges (`Describes`, `addNodes_ok_iff`, `Describes.addNodes`). All this is said of the members of
the list, whatever their order.
-/

namespace NodeScript

open NodeScript.Except (bind_eq_ok)

namespace Blueprint

/-! ### What is needed -/

variable (source : Lookup)

/-- The value that an input has that was given values, and `start` if none of them is its own. -/
def given (values : List (String × String)) (c : Connector) (start : Literal) : Literal :=
  ((Directory.findIn c.name values).bind fun text =>
    (Literal.ofText c.signal text).toOption).getD start

/-- An input can be given the value: it is there, and the text is a literal of its signal. -/
def Takes (sh : Shape) (entry : String × String) : Prop :=
  ∃ spec ∈ sh.inputs, spec.name = entry.1 ∧ ∃ value, Literal.ofText spec.signal entry.2 = .ok value

/-- What the building needs of a node. -/
def Node.Fits (n : Node) : Prop :=
  ∃ p, n.kind.placement source = .ok p ∧ p.Fits ∧ ∀ entry ∈ n.defaults.entries, Takes p.shape entry

/-- The input that a link leads to. -/
def Link.drain (l : Link) : Terminal :=
  ⟨l.target, l.input⟩

/-- The output that a link comes from. -/
def Link.origin (l : Link) : Terminal :=
  ⟨l.source, l.output⟩

/-! ### What is built -/

/-- The node of the graph was built from the node of the blueprint. -/
structure Node.Built (n : Node) (g : Graph) (id : NodeId) : Prop where
  name : g.nodeName? id = some n.id
  shape : ∃ p, n.kind.placement source = .ok p ∧ g.shape? id = some p.shape
  value : ∀ {i : Input}, g.input? i.id = some i → i.owner = id →
    i.fallback = given n.defaults.entries i.toConnector i.zero

/-- So far, the nodes and edges of the graph are those of the lists. -/
structure Describes (nodes : List Node) (links : List Link) (p : Progress) : Prop where
  assembled : p.graph.Assembled
  lookup : ∀ {name id}, p.ids.lookup name = some id ↔ p.graph.nodeName? id = some name
  built : ∀ n ∈ nodes, ∃ id, n.Built source p.graph id
  only : ∀ {id name}, p.graph.nodeName? id = some name → ∃ n ∈ nodes, n.id = name
  wired : ∀ {t u}, p.graph.Wired t u ↔ ∃ l ∈ links, l.origin = t ∧ l.drain = u

variable {source} {g k : Graph} {id : NodeId} {name : String} {entry : String × String}
  {values : List (String × String)} {nodes : List Node} {links : List Link} {n : Node} {l : Link}
  {p p' : Progress}

@[simp] theorem lift_eq_ok {α : Type} {r : Except EditError α} {a : α} :
    lift r = .ok a ↔ r = .ok a := by
  cases r <;> simp [lift, Except.mapError]

theorem function_eq_ok {c name : String} {f : FunctionDecl} :
    function source c name = .ok f ↔ source.function? c name = some f := by
  cases h : source.function? c name <;> simp [function, h]

/-! ### Values -/

theorem setDefault_eq_ok (h : g.Housed) : setDefault name id g entry = .ok k ↔
    ∃ input, g.inputNamed? id entry.1 = some input ∧
      ∃ value, Literal.ofText input.signal entry.2 = .ok value ∧
        k = g.modifyInput input.id ({ · with fallback := value }) := by
  unfold setDefault
  cases hi : g.inputNamed? id entry.1 with
  | none => simp
  | some input =>
    obtain ⟨live, -, -⟩ := h.of_inputNamed? hi
    simp [Graph.setFallback_eq_ok, live]

theorem setDefault_ok_iff (h : g.Reachable) {sh : Shape} (hs : g.shape? id = some sh) :
    (∃ k, setDefault name id g entry = .ok k) ↔ Takes sh entry := by
  constructor
  · rintro ⟨k, hk⟩
    obtain ⟨input, hi, value, hv, -⟩ := (setDefault_eq_ok h.housed).mp hk
    obtain ⟨-, -, hname⟩ := h.housed.of_inputNamed? hi
    rw [← hname] at hi
    exact ⟨input.spec .input, (h.mem_inputs_iff hs).mpr ⟨input, hi, rfl⟩, hname, value, hv⟩
  · rintro ⟨spec, hspec, hname, value, hv⟩
    obtain ⟨input, hi, rfl⟩ := (h.mem_inputs_iff hs).mp hspec
    exact ⟨_, (setDefault_eq_ok h.housed).mpr ⟨input, hname ▸ hi, value, hv, rfl⟩⟩

/-- The second graph is the first with values for the inputs of a node. -/
structure Valued (id : NodeId) (values : List (String × String)) (g k : Graph) : Prop where
  assembled : k.Assembled
  node : k.node? = g.node?
  output : k.output? = g.output?
  input : ∀ i, k.input? i = (g.input? i).map fun input =>
    if input.owner = id
    then { input with fallback := given values input.toConnector input.fallback } else input

namespace Valued

theorem shape (h : Valued id values g k) : k.shape? = g.shape? := by
  refine Graph.shape?_congr (fun n => by rw [h.node]) (fun i => ?_) fun o => by rw [h.output]
  rw [h.input, Option.map_map]
  congr 1
  funext input
  simp only [Function.comp]
  split <;> rfl

theorem fedBy_iff (h : Valued id values g k) {i : InputId} {o : OutputId} :
    k.FedBy i o ↔ g.FedBy i o := by
  simp only [Graph.FedBy, h.input]
  cases g.input? i with
  | none => simp
  | some input => by_cases ho : input.owner = id <;> simp [ho]

/-- Only values were changed, and those of the one node. -/
theorem exists_input (h : Valued id values g k) {i : Input} (hi : k.input? i.id = some i) :
    ∃ j : Input, g.input? i.id = some j ∧ j.toConnector = i.toConnector ∧
      i.fallback = if i.owner = id then given values i.toConnector j.fallback else j.fallback := by
  rw [h.input] at hi
  obtain ⟨j, hj, hij⟩ := Option.map_eq_some_iff.mp hi
  refine ⟨j, hj, ?_⟩
  by_cases howner : j.owner = id
  · rw [if_pos howner] at hij
    rw [← hij]
    exact ⟨rfl, (if_pos howner).symm⟩
  · rw [if_neg howner] at hij
    rw [← hij]
    exact ⟨rfl, (if_neg howner).symm⟩

/-- A value goes to the one input of its name. -/
theorem setDefault (h : g.Assembled) (hk : setDefault name id g entry = .ok k) :
    Valued id [entry] g k := by
  obtain ⟨input, hi, value, hv, rfl⟩ := (setDefault_eq_ok h.reachable.housed).mp hk
  obtain ⟨live, rfl, hname⟩ := h.reachable.housed.of_inputNamed? hi
  have edit : (g.apply (.setFallback input.id entry.2)).2 =
      g.modifyInput input.id ({ · with fallback := value }) := by
    have accepted := Graph.setFallback_eq_ok.mpr ⟨input, value, live, hv, rfl⟩
    simp [Graph.apply, accepted, Graph.settle, Except.map]
  refine ⟨edit ▸ h.apply rfl, rfl, rfl, fun i => ?_⟩
  rw [Graph.input?_modifyInput]
  split
  · subst i
    simp [live, given, Directory.findIn, hname, hv, Except.toOption]
  · rename_i other
    cases hother : g.input? i with
    | none => rfl
    | some found =>
      obtain rfl := h.reachable.housed.inputs.ident_eq hother
      -- another input of the node has another name
      have skipped : found.owner = input.owner → entry.1 ≠ found.name := by
        intro howner hsame
        have same := h.reachable.inputNamed?_name hother
        rw [howner, ← hsame, hi] at same
        exact other (congrArg Input.id (Option.some.inj same))
      by_cases howner : found.owner = input.owner
      · simp [howner, given, Directory.findIn, skipped howner]
      · simp [howner]

theorem cons (first : Valued id [entry] g k) {g' : Graph} (rest : Valued id values k g')
    (before : ∀ e ∈ values, entry.1 < e.1) : Valued id (entry :: values) g g' where
  assembled := rest.assembled
  node := rest.node.trans first.node
  output := rest.output.trans first.output
  input i := by
    rw [rest.input, first.input, Option.map_map]
    congr 1
    funext input
    simp only [Function.comp]
    by_cases howner : input.owner = id
    · by_cases hname : entry.1 = input.name
      · have later : Directory.findIn input.name values = none :=
          Directory.findIn_eq_none fun e he => hname ▸ before e he
        simp [howner, given, Directory.findIn, hname, later]
      · simp [howner, given, Directory.findIn, hname]
    · simp [howner]

/-- The values of a directory go to the inputs of their names. -/
theorem foldlM (h : g.Assembled) (ascending : values.Pairwise (·.1 < ·.1))
    (hk : values.foldlM (Blueprint.setDefault name id) g = .ok k) : Valued id values g k := by
  induction values generalizing g with
  | nil =>
    obtain rfl : g = k := by simpa using hk
    exact ⟨h, rfl, rfl, fun i => by cases g.input? i <;> simp [given, Directory.findIn]⟩
  | cons entry values ih =>
    rw [List.foldlM_cons] at hk
    obtain ⟨g₁, h₁, h₂⟩ := bind_eq_ok.mp hk
    obtain ⟨before, ascending⟩ := List.pairwise_cons.mp ascending
    have first := setDefault h h₁
    exact first.cons (ih first.assembled ascending h₂) before

end Valued

theorem setDefaults_ok_iff (h : g.Assembled) {sh : Shape} (hs : g.shape? id = some sh) :
    (∃ k, values.foldlM (setDefault name id) g = .ok k) ↔ ∀ entry ∈ values, Takes sh entry := by
  induction values generalizing g with
  | nil => simp
  | cons entry values ih =>
    have first : (∃ k, setDefault name id g entry = .ok k) ↔ Takes sh entry :=
      setDefault_ok_iff h.reachable hs
    simp only [List.foldlM_cons, bind_eq_ok, List.forall_mem_cons, ← first]
    constructor
    · rintro ⟨k, g₁, h₁, h₂⟩
      have valued := Valued.setDefault h h₁
      exact ⟨⟨g₁, h₁⟩, (ih valued.assembled (valued.shape ▸ hs)).mp ⟨k, h₂⟩⟩
    · rintro ⟨⟨g₁, h₁⟩, rest⟩
      have valued := Valued.setDefault h h₁
      obtain ⟨k, h₂⟩ := (ih valued.assembled (valued.shape ▸ hs)).mpr rest
      exact ⟨k, g₁, h₁, h₂⟩

/-! ### Nodes -/

/-- A node that is built has a placement that was accepted, under a new identifier, and its
values. -/
theorem addNode_eq_ok : addNode source p n = .ok p' ↔ p.ids.lookup n.id = none ∧
    ∃ placement, n.kind.placement source = .ok placement ∧
      ∃ id, (p.graph.place placement).1 = .ok id ∧
        ∃ g, n.defaults.entries.foldlM (setDefault n.id id)
            ((p.graph.place placement).2.rename id n.id) = .ok g ∧
          p' = ⟨g, (n.id, id) :: p.ids⟩ := by
  unfold addNode
  cases hid : p.ids.lookup n.id with
  | some id => simp
  | none => simp [bind_eq_ok, eq_comm (a := p')]

namespace Node.Built

variable {i : InputId}

/-- What a node was built from does not depend on the rest of the graph, nor on its edges. -/
theorem congr (h : n.Built source g id) (hn : k.nodeName? id = g.nodeName? id)
    (hs : k.shape? id = g.shape? id)
    (hi : ∀ {i : Input}, k.input? i.id = some i → i.owner = id →
      ∃ j : Input, g.input? j.id = some j ∧ j.toConnector = i.toConnector ∧
        j.fallback = i.fallback) : n.Built source k id where
  name := hn.trans h.name
  shape := by
    rw [hs]
    exact h.shape
  value {i} live howner := by
    obtain ⟨j, hj, hconnector, hfallback⟩ := hi live howner
    rw [← hfallback, ← hconnector]
    exact h.value hj (hconnector ▸ howner)

end Node.Built

/-- An edge leads from a terminal to a terminal. -/
theorem wired_of_fedBy (h : g.Reachable) {i : InputId} {o : OutputId} (hf : g.FedBy i o) :
    ∃ t u, g.Wired t u := by
  obtain ⟨input, hi, hs⟩ := hf
  obtain ⟨output, ho, -⟩ := (h.consistent.feeds_iff o i).mpr ⟨input, hi, hs⟩
  obtain rfl := h.housed.inputs.ident_eq hi
  obtain rfl := h.housed.output_id ho
  obtain ⟨t, ht⟩ := h.housed.exists_at_output ho
  obtain ⟨u, hu⟩ := h.housed.exists_at_input hi
  exact ⟨t, u, output, input, ho, hi, hs, ht, hu⟩

/-- A placement that was accepted leads to a node of its shape, whatever it is called. -/
theorem placed {placement : Placement} (h : g.Assembled) (ok : (g.place placement).1 = .ok id)
    (name : String) : ((g.place placement).2.rename id name).Assembled ∧
      ((g.place placement).2.rename id name).shape? id = some placement.shape := by
  have begun : (g.place placement).2.Assembled := h.apply (e := .place placement) rfl
  refine ⟨begun.apply (e := .rename id name) rfl, ?_⟩
  rw [Graph.shape?_rename]
  exact (Graph.adds_of_place h.reachable.housed ok).2.1

/-- The second graph is the first with a node more, built from a node of the blueprint. -/
structure Extends (source : Lookup) (n : Node) (id : NodeId) (g k : Graph) : Prop where
  assembled : k.Assembled
  new : g.node? id = none
  built : n.Built source k id
  name : ∀ {m}, m ≠ id → k.nodeName? m = g.nodeName? m
  keeps : ∀ {m n'}, m ≠ id → Node.Built source n' g m → Node.Built source n' k m
  fedBy : ∀ {i o}, k.FedBy i o → g.FedBy i o

/-- **A placement that was accepted, named and given values, is one node more.** -/
theorem extends_of_placed {placement : Placement} (h : g.Assembled)
    (hplacement : n.kind.placement source = .ok placement) (ok : (g.place placement).1 = .ok id)
    (hk : n.defaults.entries.foldlM (setDefault n.id id)
      ((g.place placement).2.rename id n.id) = .ok k) : Extends source n id g k := by
  have housed := h.reachable.housed
  obtain ⟨new, -, adds⟩ := Graph.adds_of_place housed ok
  obtain ⟨begun, hs⟩ := placed h ok n.id
  have valued := Valued.foldlM begun n.defaults.ascending hk
  have inputs : ∀ {i : Input}, k.input? i.id = some i → ∃ j : Input,
      (g.place placement).2.input? i.id = some j ∧ j.toConnector = i.toConnector ∧
        i.fallback = if i.owner = id then given n.defaults.entries i.toConnector j.fallback
          else j.fallback := valued.exists_input
  have names : ∀ {m}, m ≠ id → k.node? m = g.node? m := fun hm => by
    rw [valued.node, Graph.rename, Graph.node?_modifyNode, if_neg hm.symm, adds.node hm]
  refine ⟨valued.assembled, new, ⟨?_, ⟨placement, hplacement, valued.shape ▸ hs⟩, ?_⟩,
    fun hm => congrArg (Option.map _) (names hm), fun {m n'} hm built => ?_, fun {i o} hf => ?_⟩
  · obtain ⟨node, hnode, -⟩ := Graph.shape?_eq_some_iff.mp hs
    rw [Graph.nodeName?, valued.node, hnode]
    rw [Graph.rename, Graph.node?_modifyNode, if_pos rfl] at hnode
    obtain ⟨before, -, rfl⟩ := Option.map_eq_some_iff.mp hnode
    rfl
  · intro i hi howner
    obtain ⟨j, hj, hconnector, hfallback⟩ := inputs hi
    have hzero : j.fallback = i.zero := by
      rcases adds.input i.id with same | ⟨-, found, hfound, -, -, hzero⟩
      · -- nothing was on the node before
        rw [same] at hj
        have howner' : j.owner = id := (congrArg Connector.owner hconnector).trans howner
        obtain ⟨node, hnode⟩ : ∃ node, g.node? j.owner = some node := housed.inputs.owner_live hj
        rw [howner', new] at hnode
        cases hnode
      · obtain rfl : found = j := Option.some.inj (hfound.symm.trans hj)
        rw [hzero, hconnector]
    rw [hfallback, if_pos howner, hzero]
  · refine built.congr (congrArg (Option.map _) (names hm)) ?_ fun {i} hi howner => ?_
    · rw [valued.shape, Graph.shape?_rename, adds.shape hm]
    · obtain ⟨j, hj, hconnector, hfallback⟩ := inputs hi
      have howner' : j.owner = m := (congrArg Connector.owner hconnector).trans howner
      rw [if_neg (howner ▸ hm)] at hfallback
      rcases adds.input i.id with same | ⟨-, found, hfound, hother, -⟩
      · rw [same] at hj
        have hident : j.id = i.id := housed.inputs.ident_eq hj
        exact ⟨j, hident ▸ hj, hconnector, hfallback.symm⟩
      · obtain rfl : found = j := Option.some.inj (hfound.symm.trans hj)
        exact absurd (howner'.symm.trans hother) hm
  · exact adds.fedBy_iff.mp (valued.fedBy_iff.mp hf)

namespace Describes

theorem mem_ids_iff (h : Describes source nodes links p) :
    name ∈ nodes.map (·.id) ↔ ∃ id, p.ids.lookup name = some id := by
  rw [List.mem_map]
  constructor
  · rintro ⟨n, hn, rfl⟩
    obtain ⟨id, built⟩ := h.built n hn
    exact ⟨id, h.lookup.mpr built.name⟩
  · rintro ⟨id, hid⟩
    exact h.only (h.lookup.mp hid)

/-- The graph gives no two nodes one name. -/
theorem named (h : Describes source nodes links p) : p.graph.Named where
  assembled := h.assembled
  injective hn hm := Option.some.inj ((h.lookup.mpr hn).symm.trans (h.lookup.mpr hm))

/-- Each live node was built from the node of its name. -/
theorem built_of_name (h : Describes source nodes links p)
    (hid : p.graph.nodeName? id = some name) : ∃ n ∈ nodes, n.id = name ∧ n.Built source p.graph id := by
  obtain ⟨n, hn, rfl⟩ := h.only hid
  obtain ⟨id', built⟩ := h.built n hn
  obtain rfl : id' = id := h.named.injective built.name hid
  exact ⟨n, hn, rfl, built⟩

theorem empty (source : Lookup) (name : String) :
    Describes source [] [] ⟨.empty name, []⟩ := by
  refine ⟨Graph.assembled_empty name, ?_, by simp, ?_, ?_⟩
  · simp [Graph.nodeName?]
  · simp [Graph.nodeName?]
  · simp [Graph.Wired]

/-- A node is built exactly if its identifier is new and it fits. -/
theorem addNode_ok_iff (h : Describes source nodes [] p) :
    (∃ p', addNode source p n = .ok p') ↔ n.id ∉ nodes.map (·.id) ∧ n.Fits source := by
  have unused : p.ids.lookup n.id = none ↔ n.id ∉ nodes.map (·.id) := by
    rw [h.mem_ids_iff, ← Option.ne_none_iff_exists', not_not]
  have housed := h.assembled.reachable.housed
  rw [← unused]
  constructor
  · rintro ⟨p', hp'⟩
    obtain ⟨hnone, placement, hplacement, id, hid, g, hg, -⟩ := addNode_eq_ok.mp hp'
    obtain ⟨begun, hs⟩ := placed h.assembled hid n.id
    exact ⟨hnone, placement, hplacement, (Graph.place_ok_iff housed).mp ⟨id, hid⟩,
      (setDefaults_ok_iff begun hs).mp ⟨g, hg⟩⟩
  · rintro ⟨hnone, placement, hplacement, fits, takes⟩
    obtain ⟨id, hid⟩ := (Graph.place_ok_iff housed).mpr fits
    obtain ⟨begun, hs⟩ := placed h.assembled hid n.id
    obtain ⟨g, hg⟩ := (setDefaults_ok_iff begun hs).mpr takes
    exact ⟨_, addNode_eq_ok.mpr ⟨hnone, placement, hplacement, id, hid, g, hg, rfl⟩⟩

/-- The graph describes one node more when it is built. -/
theorem addNode (h : Describes source nodes [] p) (hp : addNode source p n = .ok p') :
    Describes source (nodes ++ [n]) [] p' := by
  obtain ⟨unused, placement, hplacement, id, hid, k, hk, rfl⟩ := addNode_eq_ok.mp hp
  have added := extends_of_placed h.assembled hplacement hid hk
  have old : ∀ {m name}, p.graph.nodeName? m = some name → m ≠ id := by
    rintro m name hname rfl
    simp [Graph.nodeName?, added.new] at hname
  refine ⟨added.assembled, fun {name m} => ?_, fun n' hn' => ?_, fun {m name} hm => ?_,
    fun {t u} => ?_⟩
  · have lookup : List.lookup name ((n.id, id) :: p.ids) =
        if name = n.id then some id else p.ids.lookup name := by
      rw [List.lookup_cons]
      by_cases hname : name = n.id
      · simp [hname]
      · simp [beq_eq_false_iff_ne.mpr hname, hname]
    rw [lookup]
    by_cases hm : m = id
    · subst hm
      have absent : p.ids.lookup name ≠ some m := fun hlookup => old (h.lookup.mp hlookup) rfl
      rw [added.built.name]
      by_cases hname : name = n.id
      · simp [hname]
      · simp [hname, Ne.symm hname, absent]
    · rw [added.name hm, ← h.lookup]
      by_cases hname : name = n.id
      · simp [hname, unused, Ne.symm hm]
      · simp [hname]
  · rcases List.mem_append.mp hn' with hn' | hn'
    · obtain ⟨m, built⟩ := h.built n' hn'
      exact ⟨m, added.keeps (old built.name) built⟩
    · exact ⟨id, List.mem_singleton.mp hn' ▸ added.built⟩
  · by_cases hid : m = id
    · subst hid
      have hname := Option.some.inj (added.built.name.symm.trans hm)
      exact ⟨n, by simp, hname⟩
    · rw [added.name hid] at hm
      obtain ⟨n', hn', hname⟩ := h.only hm
      exact ⟨n', List.mem_append_left _ hn', hname⟩
  · simp only [List.not_mem_nil, false_and, exists_false, iff_false]
    rintro ⟨output, input, -, hi, hs, -⟩
    obtain ⟨t, u, edge⟩ := wired_of_fedBy h.assembled.reachable (added.fedBy ⟨input, hi, hs⟩)
    simpa using h.wired.mp edge

/-- A list of nodes is described when it is built. -/
theorem addNodes {ns : List Node} (h : Describes source nodes [] p)
    (hp : ns.foldlM (Blueprint.addNode source) p = .ok p') :
    Describes source (nodes ++ ns) [] p' :=
  Except.foldlM_read (motive := fun ns p => Describes source ns [] p) hp h fun h hp => h.addNode hp

/-- **Nodes are built exactly if each fits and no two have one identifier.** -/
theorem addNodes_ok_iff {ns : List Node} (h : Describes source nodes [] p)
    (unique : (nodes.map (·.id)).Nodup) :
    (∃ p', ns.foldlM (Blueprint.addNode source) p = .ok p') ↔
      ((nodes ++ ns).map (·.id)).Nodup ∧ ∀ n ∈ ns, n.Fits source := by
  induction ns generalizing nodes p with
  | nil => simpa using unique
  | cons n ns ih =>
    have next : ((nodes ++ [n]).map (·.id)).Nodup ↔ n.id ∉ nodes.map (·.id) := by
      rw [nodup_map_concat, and_iff_right unique]
    have first := h.addNode_ok_iff (n := n)
    simp only [List.foldlM_cons, bind_eq_ok, List.forall_mem_cons, List.append_cons nodes n ns]
    constructor
    · rintro ⟨p', p₁, h₁, h₂⟩
      obtain ⟨new, fits⟩ := first.mp ⟨p₁, h₁⟩
      obtain ⟨distinct, rest⟩ := (ih (h.addNode h₁) (next.mpr new)).mp ⟨p', h₂⟩
      exact ⟨distinct, fits, rest⟩
    · rintro ⟨distinct, fits, rest⟩
      have unique' := (List.nodup_append'.mp (List.map_append ▸ distinct)).1
      obtain ⟨p₁, h₁⟩ := first.mpr ⟨next.mp unique', fits⟩
      obtain ⟨p', h₂⟩ := (ih (h.addNode h₁) unique').mpr ⟨distinct, rest⟩
      exact ⟨p', p₁, h₁, h₂⟩

end Describes

end Blueprint

end NodeScript
