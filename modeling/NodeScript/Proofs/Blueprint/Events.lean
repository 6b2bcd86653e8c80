import NodeScript.Compilation
import NodeScript.Proofs.Blueprint.Realised

/-!
# The events of a blueprint

The events of a graph are those of its blueprint, in the same order (`becomes_events`). A text names
the first event that has it as its identifier or as the name of its function (`compileNamed_eq`). No
two events have one identifier, but an identifier may be the name of the function of another event,
and then it depends on the order which of the two it names (`find?_id_iff`).

If no identifier is the name of the function of an event before (`Unshadowed`), every identifier
names its own event, and compiling everything is compiling event by event (`compile_eventwise`).
-/

namespace NodeScript

/-- The text of the script of the node of a name. -/
def Graph.compileNode (g : Graph) (style : Style) (name : String) : Except CompileError String :=
  (g.findNode? name).elim (.error (.eventNotFound name)) fun node => g.compileEvent style node.id

namespace Blueprint

open NodeScript.Except (map_eq_ok mapM_eq_ok mapM_eq_error mapM_forall₂ mapM_congr)

/-! ### Events of a blueprint -/

/-- Is this an event? -/
def Kind.isEvent : Kind → Bool
  | event _ _ => true
  | _ => false

/-- The name of the function of an event. -/
def Node.eventName? (source : Lookup) (n : Node) : Option String :=
  match n.kind with
  | .event c f => (source.function? c f).map (·.name)
  | _ => none

/-- Does the node go by the name, by its identifier or by its function? -/
def Node.goesBy (source : Lookup) (name : String) (n : Node) : Bool :=
  n.id == name || n.eventName? source == some name

/-- The events of a blueprint, in its order. -/
def events (b : Blueprint) : List Node :=
  b.nodes.filter (·.kind.isEvent)

/-- No identifier of an event is the name of the function of an event before it. -/
def Unshadowed (source : Lookup) (b : Blueprint) : Prop :=
  b.events.Pairwise fun d e => d.eventName? source ≠ some e.id

variable {source : Lookup} {b : Blueprint} {g : Graph} {n : Node} {node : NodeScript.Node}

/-! ### Events in their order -/

/-- The event of the blueprint is the event node of the graph that is found under its identifier. -/
structure Node.Becomes (source : Lookup) (g : Graph) (n : Node) (node : NodeScript.Node) :
    Prop where
  found : g.findNode? n.id = some node
  name : node.name = n.id
  event : ∃ decl, node.kind = .event decl.name (some decl) ∧ n.eventName? source = some decl.name

/-- A node of the blueprint is an event exactly if that of the graph is. -/
theorem Kind.isEvent_placement {kind : Kind} {placement : Placement}
    (h : kind.placement source = .ok placement) : placement.kind.isEvent = kind.isEvent := by
  cases kind with
  | event c f => exact Kind.isEvent_of_placement h
  | call c f resultClass =>
    obtain ⟨decl, -, rfl⟩ := map_eq_ok.mp h
    exact Placement.isEvent_callKind decl none
  | component c f archetype =>
    obtain ⟨decl, -, rfl⟩ := map_eq_ok.mp h
    exact Placement.isEvent_callKind decl (some archetype)
  | branch | loop =>
    cases h
    rfl
  | member c p =>
    simp only [Kind.placement] at h
    cases hp : source.property? c p <;> rw [hp] at h <;> cases h
    rfl

theorem Node.eventName?_of_placement {placement : Placement}
    (h : n.kind.placement source = .ok placement) (event : n.kind.isEvent = true) :
    ∃ decl, placement.kind = .event decl.name (some decl) ∧
      n.eventName? source = some decl.name := by
  unfold Node.eventName?
  cases hn : n.kind <;> rw [hn] at h event <;> try cases event
  obtain ⟨decl, hdecl, rfl⟩ := map_eq_ok.mp h
  exact ⟨decl, rfl, by simp [function_eq_ok.mp hdecl]⟩

namespace Node

theorem Realised.kind (h : n.Realised source g node) (housed : g.Housed) :
    ∃ placement, n.kind.placement source = .ok placement ∧ node.kind = placement.kind := by
  have live := housed.node?_of_mem_live (List.mem_of_find?_eq_some h.found)
  obtain ⟨placement, hplacement, hshape⟩ := h.shape
  obtain ⟨found, hfound, hsame⟩ := Graph.shape?_eq_some_iff.mp hshape
  obtain rfl : node = found := Option.some.inj (live.symm.trans hfound)
  exact ⟨placement, hplacement, (congrArg Shape.kind hsame).symm⟩

/-- An event node goes by the names that its event goes by. -/
theorem Becomes.goesBy_eq (h : n.Becomes source g node) (name : String) :
    n.goesBy source name = Graph.isEventNamed name node := by
  obtain ⟨decl, hkind, hname⟩ := h.event
  simp [goesBy, Graph.isEventNamed, hkind, hname, h.name]

end Node

/-- The nodes of a blueprint that is built fit, and no two have one identifier. -/
theorem nodes_of_build (hg : build source b = .ok g) :
    (b.nodes.map (·.id)).Nodup ∧ ∀ n ∈ b.nodes, n.Fits source := by
  obtain ⟨p, hp, -⟩ := build_eq_ok.mp hg
  exact ((Describes.empty source b.name).addNodes_ok_iff .nil).mp ⟨p, hp⟩

/-- **The events of the graph are those of the blueprint, in order.** -/
theorem becomes_events (hg : build source b = .ok g) :
    List.Forall₂ (Node.Becomes source g) b.events g.events := by
  obtain ⟨-, fits⟩ := nodes_of_build hg
  obtain ⟨p, rfl, lists⟩ := lists_build hg
  have housed := lists.describes.assembled.reachable.housed
  have events : List.Forall₂ (Node.Realised source p.graph) b.events p.graph.events := by
    refine List.rel_filter (fun n node h => ?_) (lists.realised fits)
    obtain ⟨placement, hplacement, hkind⟩ := h.kind housed
    simp only [hkind, Kind.isEvent_placement hplacement]
  have here : ∀ n ∈ b.events, n.kind.isEvent = true := fun n hn => (List.mem_filter.mp hn).2
  refine ((List.forall₂_and_left _ _).mpr ⟨here, events⟩).imp fun n node ⟨event, h⟩ => ?_
  obtain ⟨placement, hplacement, hkind⟩ := h.kind housed
  exact ⟨h.found, h.name, hkind ▸ Node.eventName?_of_placement hplacement event⟩

theorem exists_of_forall₂ {α β : Type} {R : α → β → Prop} {l : List α} {m : List β} {a : α}
    (ha : a ∈ l) (h : List.Forall₂ R l m) : ∃ b, R a b := by
  induction h with
  | nil => cases ha
  | @cons _ b _ _ hab _ ih =>
    rcases List.mem_cons.mp ha with rfl | ha
    · exact ⟨b, hab⟩
    · exact ih ha

/-- No two events have one identifier. -/
theorem nodup_events (hg : build source b = .ok g) : (b.events.map (·.id)).Nodup :=
  (List.filter_sublist.map _).nodup (nodes_of_build hg).1

/-! ### What a text names -/

/-- A text names the first event that goes by it. -/
theorem compileNamed_eq (hg : build source b = .ok g) (style : Style) (name : String) :
    g.compileNamed style name =
      (b.events.find? (·.goesBy source name)).elim (.error (.eventNotFound name)) fun e =>
        g.compileNode style e.id := by
  have first : Option.Rel (Node.Becomes source g) (b.events.find? (·.goesBy source name))
      (g.events.find? (Graph.isEventNamed name)) :=
    rel_find? (becomes_events hg) fun n node h => h.goesBy_eq name
  unfold Graph.compileNamed Graph.eventNamed?
  generalize b.events.find? _ = e?, g.events.find? _ = node? at first
  cases first with
  | none => rfl
  | some becomes => simp [Graph.compileNode, becomes.found]

/-- An identifier names its own event exactly if no event before it has a function of that name. -/
theorem find?_id_iff (unique : (b.events.map (·.id)).Nodup) {before after : List Node} {e : Node}
    (split : b.events = before ++ e :: after) :
    b.events.find? (·.goesBy source e.id) = some e ↔
      ∀ d ∈ before, d.eventName? source ≠ some e.id := by
  rw [split, List.map_append, List.map_cons] at unique
  have other : ∀ d ∈ before, d.id ≠ e.id := fun d hd same =>
    (List.nodup_append.mp unique).2.2 _ (List.mem_map_of_mem hd) _ (.head _) same
  have itself : e.goesBy source e.id = true := by simp [Node.goesBy]
  rw [split, List.find?_append, List.find?_cons_of_pos itself]
  cases first : before.find? (·.goesBy source e.id) with
  | none =>
    refine ⟨fun _ d hd same => ?_, fun _ => rfl⟩
    simpa [Node.goesBy, same] using List.find?_eq_none.mp first d hd
  | some d =>
    have hd := List.mem_of_find?_eq_some first
    have named : d.eventName? source = some e.id := by
      simpa [Node.goesBy, other d hd] using List.find?_some first
    refine ⟨fun same => ?_, fun apart => absurd named (apart d hd)⟩
    obtain rfl : d = e := Option.some.inj same
    exact absurd rfl (other d hd)

/-- If no identifier is the name of the function of an event before, each names its own event. -/
theorem compileNamed_id (hg : build source b = .ok g) (clear : b.Unshadowed source) (style : Style)
    {e : Node} (he : e ∈ b.events) : g.compileNamed style e.id = g.compileNode style e.id := by
  obtain ⟨before, after, split⟩ := List.append_of_mem he
  have apart : ∀ d ∈ before, d.eventName? source ≠ some e.id := by
    intro d hd
    rw [Unshadowed, split] at clear
    exact (List.pairwise_append.mp clear).2.2 d hd e (.head _)
  rw [compileNamed_eq hg, (find?_id_iff (nodup_events hg) split).mpr apart]
  rfl

/-! ### All events -/

/-- The whole consists of the parts for the events: their texts with the separator in between, or
the error of the first part that fails. -/
structure Joins (b : Blueprint) (style : Style) (part : Node → Except CompileError String)
    (whole : Except CompileError String) : Prop where
  ok : ∀ s, whole = .ok s ↔ ∃ texts, List.Forall₂ (fun e t => part e = .ok t) b.events texts ∧
    s = style.separator.intercalate texts
  error : ∀ err, whole = .error err ↔ ∃ before e after, b.events = before ++ e :: after ∧
    (∀ d ∈ before, ∃ t, part d = .ok t) ∧ part e = .error err

theorem joins_mapM (style : Style) (part : Node → Except CompileError String) :
    Joins b style part (style.separator.intercalate <$> b.events.mapM part) where
  ok s := by simp only [map_eq_ok, mapM_eq_ok, @eq_comm _ s]
  error err := by
    rw [← mapM_eq_error]
    cases b.events.mapM part <;> simp [Functor.map, Except.map]

/-- All events are compiled in the order of the blueprint. -/
theorem compileAll_eq (hg : build source b = .ok g) (style : Style) :
    g.compileAll style = style.separator.intercalate <$>
      b.events.mapM fun e => g.compileNode style e.id := by
  have same : (b.events.mapM fun e => g.compileNode style e.id) =
      g.events.mapM fun node => g.compileEvent style node.id :=
    mapM_forall₂ (becomes_events hg) fun n node h => by simp [Graph.compileNode, h.found]
  rw [same]
  unfold Graph.compileAll
  cases g.events.mapM fun node => g.compileEvent style node.id <;> rfl

/-- How the graph of a blueprint is compiled, event by event and as a whole. -/
structure Eventwise (source : Lookup) (b : Blueprint) (g : Graph) (style : Style) : Prop where
  /-- An event is a node of the graph under its identifier. -/
  node : ∀ e ∈ b.events, ∃ node, g.findNode? e.id = some node ∧ node.kind.isEvent = true
  /-- A text names the first event that goes by it. -/
  named : ∀ name, g.compileNamed style name =
    (b.events.find? (·.goesBy source name)).elim (.error (.eventNotFound name)) fun e =>
      g.compileNode style e.id
  /-- An identifier names its own event if no event before has a function of that name. -/
  own : ∀ before e after, b.events = before ++ e :: after →
    (b.events.find? (·.goesBy source e.id) = some e ↔
      ∀ d ∈ before, d.eventName? source ≠ some e.id)
  nodes : Joins b style (fun e => g.compileNode style e.id) (g.compileAll style)
  agree : b.Unshadowed source →
    Joins b style (fun e => g.compileNamed style e.id) (g.compileAll style)

/-- **Compiling everything is compiling event by event.** The text of a graph that was built from a
blueprint consists of the scripts of the events of the blueprint, in its order. If no identifier of
an event is the name of the function of an event before it, these are the scripts that the
identifiers name. -/
theorem compile_eventwise (hg : build source b = .ok g) (style : Style) :
    Eventwise source b g style where
  node e he := by
    obtain ⟨node, becomes⟩ := exists_of_forall₂ he (becomes_events hg)
    obtain ⟨decl, hkind, -⟩ := becomes.event
    exact ⟨node, becomes.found, by rw [hkind]; rfl⟩
  named := compileNamed_eq hg style
  own _ _ _ := find?_id_iff (nodup_events hg)
  nodes := by
    rw [compileAll_eq hg]
    exact joins_mapM style _
  agree clear := by
    rw [compileAll_eq hg, mapM_congr fun e he => (compileNamed_id hg clear style he).symm]
    exact joins_mapM style _

/-- Two events of one class. -/
def handlers : Lookup where
  function? _ name := [(FunctionDecl.callable "Actor" "Start").asEvent,
    (FunctionDecl.callable "Actor" "Stop").asEvent].find? (·.name == name)
  property? _ _ := none

/-- Two events, the second of which has the name of the function of the first as its identifier. -/
def crossed : Blueprint where
  nodes := [⟨"First", .event "Actor" "Start", .empty⟩, ⟨"Start", .event "Actor" "Stop", .empty⟩]
  links := []

/-- In the other order, each identifier names its own event. -/
theorem compile_eventwise_uncrossed :
    let uncrossed := { crossed with nodes := crossed.nodes.reverse }
    ∃ g, build handlers uncrossed = .ok g ∧ uncrossed.Unshadowed handlers ∧
      g.compileNamed {} "Start" = .ok "event Stop()\n\x7b\n\x7d\n" ∧
      Joins uncrossed {} (fun e => g.compileNamed {} e.id) (g.compileAll {}) := by
  intro uncrossed
  obtain ⟨g, hg⟩ : ∃ g, build handlers uncrossed = .ok g := ⟨_, rfl⟩
  have clear : uncrossed.Unshadowed handlers := by
    unfold Unshadowed
    decide
  have text : (build handlers uncrossed).toOption.map (·.compileNamed {} "Start") =
      some (.ok "event Stop()\n\x7b\n\x7d\n") := by decide +kernel
  rw [hg] at text
  exact ⟨g, hg, clear, Option.some.inj text, (compile_eventwise hg {}).agree clear⟩

/-- In this order both identifiers name the first event, and the text of the graph is another one
than that of what they name. -/
theorem crossed_disagrees :
    ∃ g, build handlers crossed = .ok g ∧
      g.compileNamed {} "Start" = .ok "event Start()\n\x7b\n\x7d\n" ∧
      g.compileNode {} "Start" = .ok "event Stop()\n\x7b\n\x7d\n" ∧
      ¬ Joins crossed {} (fun e => g.compileNamed {} e.id) (g.compileAll {}) := by
  have results : (build handlers crossed).toOption.map (fun g =>
      (g.compileNamed {} "Start", g.compileNode {} "Start",
        crossed.events.mapM fun e => g.compileNamed {} e.id, g.compileAll {})) =
      some (.ok "event Start()\n\x7b\n\x7d\n", .ok "event Stop()\n\x7b\n\x7d\n",
        .ok ["event Start()\n\x7b\n\x7d\n", "event Start()\n\x7b\n\x7d\n"],
        .ok "event Start()\n\x7b\n\x7d\n\nevent Stop()\n\x7b\n\x7d\n") := by decide +kernel
  obtain ⟨g, hg⟩ : ∃ g, build handlers crossed = .ok g := ⟨_, rfl⟩
  rw [hg] at results
  obtain ⟨named, node, parts, whole⟩ : _ ∧ _ ∧ _ ∧ _ := by simpa using Option.some.inj results
  refine ⟨g, hg, named, node, fun joins => ?_⟩
  obtain ⟨texts, each, joined⟩ := (joins.ok _).mp whole
  obtain rfl := Except.ok.inj (parts.symm.trans (mapM_eq_ok.mpr each))
  exact absurd joined (by decide)

end Blueprint

end NodeScript
