import NodeScript.Blueprint.Json
import NodeScript.Declaration.Json
import NodeScript.Proofs.Json.Record

/-!
# Reading undoes writing

Blueprints and declarations are read back from the JSON that is written for them
(`reading_undoes_writing`), if this is not nested too deeply. All that is written is made of texts,
truth values and nulls, so it has a text that denotes it (`IsPlain.parse?_render`). And the reader of
each kind of data takes it apart as it was put together, member by member (`Restores`). The order in
which a node lists the values of its inputs does not matter (`Node.WrittenAs`).

A declared type is read after its tag, and a node after the members that are its own. Their readers
refuse what is nested too deeply anywhere, so here the depth matters also for what is not looked at.
-/

namespace NodeScript

open Json (Value)
open Json.Value
open List (Forall₂)

/-! ### Declarations -/

namespace DeclaredType

theorem isPlain_toJson (t : DeclaredType) : t.toJson.IsPlain := by
  induction t with
  | array t ih => exact isPlain_ofMembers.mpr (by simp [ih])
  | _ => exact isPlain_ofMembers.mpr (by simp)

theorem restores_toJson (place : TagPlace) (t : DeclaredType) :
    Restores (ofJson? place) t t.toJson := by
  refine ⟨t.isPlain_toJson, fun {d} deep => ?_⟩
  have plain := t.isPlain_toJson
  induction t generalizing place d with
  | array t ih =>
    obtain ⟨inside, rfl, within⟩ := depth_ofMembers_le.mp deep
    have inner := ih .inside (within ("inner", t.toJson) (by simp)) t.isPlain_toJson
    rw [toJson] at deep plain ⊢
    rw [ofJson?, tagged?_written (by decide) (by simp) plain deep]
    show ((ofJson? .inside inside t.toJson).bind fun t => some (array t)) = some (array t)
    rw [inner, Option.bind_some]
  | _ =>
    obtain ⟨inside, rfl, -⟩ := depth_ofMembers_le.mp deep
    simp only [toJson, toJson.kindOnly] at deep plain ⊢
    rw [ofJson?, tagged?_written (by decide) (by simp) plain deep]
    rfl

end DeclaredType

theorem Parameter.restores_toJson (p : Parameter) : Restores ofJson? p p.toJson := by
  have type := p.type.restores_toJson .outside
  refine .ofMembers (by simp [type.plain]) fun within => ?_
  simp [ofJson?, record?_written, type.read (within ("type", p.type.toJson) (by simp))]

theorem FunctionFlags.restores_toJson (f : FunctionFlags) : Restores ofJson? f f.toJson := by
  refine .ofMembers (by simp) fun _ => ?_
  simp [ofJson?, record?_written]

theorem FunctionDecl.restores_toJson (f : FunctionDecl) : Restores ofJson? f f.toJson := by
  have params := Restores.list_map Parameter.restores_toJson f.params
  have flags := f.flags.restores_toJson
  refine .ofMembers (by simp [params.plain, flags.plain]) fun within => ?_
  simp [ofJson?, record?_written, params.read (within ("params", _) (by simp)),
    flags.read (within ("flags", f.flags.toJson) (by simp))]

theorem PropertyDecl.restores_toJson (p : PropertyDecl) : Restores ofJson? p p.toJson := by
  have type := p.type.restores_toJson .outside
  refine .ofMembers (by simp [type.plain]) fun within => ?_
  simp [ofJson?, record?_written, type.read (within ("type", p.type.toJson) (by simp))]

theorem ClassDecl.restores_toJson (c : ClassDecl) : Restores ofJson? c c.toJson := by
  have functions := Restores.list_map FunctionDecl.restores_toJson c.functions
  have properties := Restores.list_map PropertyDecl.restores_toJson c.properties
  refine .ofMembers (by simp [functions.plain, properties.plain]) fun within => ?_
  simp [ofJson?, record?_written, functions.read (within ("functions", _) (by simp)),
    properties.read (within ("properties", _) (by simp))]

/-! ### Blueprints -/

namespace Blueprint

namespace Kind

theorem isPlain_toMembers (k : Kind) : (ofMembers k.toMembers).IsPlain := by
  cases k with
  | call c f resultClass => cases resultClass <;> exact isPlain_ofMembers.mpr (by simp [toMembers])
  | component c f a => exact isPlain_ofMembers.mpr (by simp [toMembers, isPlain_ofMembers])
  | _ => exact isPlain_ofMembers.mpr (by simp [toMembers])

theorem restores_toMembers (k : Kind) : Restores ofJson? k (ofMembers k.toMembers) := by
  refine ⟨k.isPlain_toMembers, fun deep => ?_⟩
  have plain := k.isPlain_toMembers
  cases k with
  | call c f resultClass =>
    simp only [toMembers] at deep plain ⊢
    rw [ofJson?, tagged?_written (by decide) (by simp) plain deep]
    cases resultClass <;> rfl
  | _ =>
    simp only [toMembers] at deep plain ⊢
    rw [ofJson?, tagged?_written (by decide) (by simp) plain deep]
    rfl

/-- What a node refers to is not said by members of its own. -/
theorem not_own (k : Kind) : ∀ m ∈ k.toMembers, Node.ownNames.contains m.1 = false := by
  cases k <;> simp [toMembers, Node.ownNames]

end Kind

namespace Node

variable {n : Node} {v : Value}

/-- A node is read from its identifier, its values and the members that say what it refers to. -/
theorem ofJson?_members {values : Value} {d : Nat}
    (kind : Kind.ofJson? (d + 1) (ofMembers n.kind.toMembers) = some n.kind)
    (defaults : texts? d values = some n.defaults) :
    ofJson? (d + 1)
      (ofMembers (("id", ofText n.id) :: n.kind.toMembers ++ [("defaults", values)])) = some n := by
  have foreign := n.kind.not_own
  obtain ⟨ms, written⟩ : ∃ ms, ms = ("id", ofText n.id) :: n.kind.toMembers ++
    [("defaults", values)] := ⟨_, rfl⟩
  have own : ms.filter (fun m => ownNames.contains m.1) =
      [("id", ofText n.id), ("defaults", values)] := by
    rw [written, List.filter_append, List.filter_cons_of_pos rfl, List.filter_eq_nil_iff.mpr]
    · rfl
    · simpa using foreign
  have fields : (ofMembers ms).fields? ownNames =
      some ⟨[("id", ofText n.id), ("defaults", values)]⟩ := by
    rw [fields?_ofMembers, own]
    rw [own]
    simp
  have others : ms.filter (fun m => !ownNames.contains m.1) = n.kind.toMembers := by
    rw [written, List.filter_append, List.filter_cons_of_neg (by simp [ownNames]),
      List.filter_eq_self.mpr]
    · simp [ownNames]
    · simpa using foreign
  rw [← written]
  rw [ofMembers] at fields kind ⊢
  rw [ofJson?, fields]
  simp only [filter_not_known, others, Option.bind_eq_bind, Option.bind_some]
  simp [kind, defaults]

/-- The value is the JSON of the node, with the values of its inputs in some order. -/
def WrittenAs (n : Node) (v : Value) : Prop :=
  ∃ values : List (String × String), values.Perm n.defaults.entries ∧
    v = .ofMembers (("id", .ofText n.id) :: n.kind.toMembers
      ++ [("defaults", .ofMembers (values.map fun (k, v) => (k, .ofText v)))])

theorem writtenAs_toJson (n : Node) : n.WrittenAs n.toJson :=
  ⟨_, .refl _, rfl⟩

theorem WrittenAs.restores (h : n.WrittenAs v) : Restores ofJson? n v := by
  obtain ⟨values, same, rfl⟩ := h
  have kind := n.kind.restores_toMembers
  have defaults := restores_texts? same
  refine .ofMembers (List.forall_mem_append.mpr ⟨List.forall_mem_cons.mpr
    ⟨isPlain_ofText n.id, isPlain_ofMembers.mp kind.plain⟩, by simp [defaults.plain]⟩)
    fun within => ofJson?_members (kind.read ?_)
      (defaults.read (within _ (List.mem_append_right _ (.head _))))
  exact depth_ofMembers_le.mpr ⟨_, rfl, fun m hm => within m (by simp [hm])⟩

end Node

theorem Link.restores_toJson (l : Link) : Restores ofJson? l l.toJson := by
  refine .ofMembers (by simp) fun _ => ?_
  simp [ofJson?, record?_written]

variable {b : Blueprint} {v : Value}

/-- The value is the JSON of the blueprint, with the values of the inputs of each node in some
order. -/
def WrittenAs (b : Blueprint) (v : Value) : Prop :=
  ∃ nodes, Forall₂ Node.WrittenAs b.nodes nodes ∧
    v = .ofMembers [("name", .ofText b.name), ("nodes", .array nodes),
      ("links", .array (b.links.map Link.toJson))]

theorem writtenAs_toJson (b : Blueprint) : b.WrittenAs b.toJson := by
  refine ⟨b.nodes.map Node.toJson, ?_, rfl⟩
  exact List.forall₂_map_right_iff.mpr (List.forall₂_same.mpr fun n _ => n.writtenAs_toJson)

theorem WrittenAs.restores (h : b.WrittenAs v) : Restores ofJson? b v := by
  obtain ⟨items, written, rfl⟩ := h
  have nodes := Restores.list (written.imp fun _ _ => Node.WrittenAs.restores)
  have links := Restores.list_map Link.restores_toJson b.links
  refine .ofMembers (by simp [nodes.plain, links.plain]) fun within => ?_
  simp [ofJson?, record?_written, nodes.read (within ("nodes", .array items) (by simp)),
    links.read (within ("links", _) (by simp))]

end Blueprint

/-! ### Texts -/

namespace Json

variable {α : Type}

/-- What is written for data is read as the same data, if it is not nested too deeply: from its own
text, and from every other text of the same value. -/
def RoundTrips (written : α → Value → Prop) (read : Nat → Value → Option α) : Prop :=
  ∀ a v, written a v → v.depth ≤ maxDepth →
    (Value.parse? v.render).bind (read maxDepth) = some a ∧
      ∀ text, Value.parse? text = some v → (Value.parse? text).bind (read maxDepth) = some a

theorem RoundTrips.of_restores {written : α → Value → Prop} {read : Nat → Value → Option α}
    (h : ∀ {a v}, written a v → Restores read a v) : RoundTrips written read := by
  intro a v wrote deep
  have each : ∀ text, Value.parse? text = some v →
      (Value.parse? text).bind (read maxDepth) = some a := by
    intro text parsed
    rw [parsed, Option.bind_some, (h wrote).read deep]
  exact ⟨each _ (h wrote).plain.parse?_render, each⟩

/-- **Reading undoes writing** for blueprints, whatever the order in which the values of inputs are
written, and for the declarations of classes, functions, properties and types. -/
theorem reading_undoes_writing :
    RoundTrips Blueprint.WrittenAs Blueprint.ofJson? ∧
      (∀ b : Blueprint, b.WrittenAs b.toJson) ∧
      RoundTrips (fun c v => v = c.toJson) ClassDecl.ofJson? ∧
      RoundTrips (fun f v => v = f.toJson) FunctionDecl.ofJson? ∧
      RoundTrips (fun p v => v = p.toJson) PropertyDecl.ofJson? ∧
      RoundTrips (fun t v => v = t.toJson) (DeclaredType.ofJson? .outside) :=
  ⟨.of_restores (·.restores), Blueprint.writtenAs_toJson,
    .of_restores fun h => h ▸ ClassDecl.restores_toJson _,
    .of_restores fun h => h ▸ FunctionDecl.restores_toJson _,
    .of_restores fun h => h ▸ PropertyDecl.restores_toJson _,
    .of_restores fun h => h ▸ DeclaredType.restores_toJson _ _⟩

/-- A blueprint with a quote, a backslash and a line break in its name, and with values that are not
in the order of their inputs. -/
def quoted : Blueprint where
  name := "\"\\\n"
  nodes := [⟨"log", .call "Actor" "Log" none, .ofList [("Prefix", "\x01"), ("Message", "ö")]⟩]
  links := [⟨"log", "Done", "log", "Run"⟩]

/-- The blueprint and a type of nested lists are read back. -/
theorem reading_undoes_writing_quoted :
    Blueprint.parse? quoted.toJson.render = some quoted ∧
      (Value.parse? (DeclaredType.array (.array (.object "Actor"))).toJson.render).bind
          (DeclaredType.ofJson? .outside maxDepth) = some (.array (.array (.object "Actor"))) := by
  obtain ⟨blueprint, written, -, -, -, type⟩ := reading_undoes_writing
  exact ⟨(blueprint _ _ (written quoted) (by decide)).1, (type _ _ rfl (by decide)).1⟩

end Json

end NodeScript
