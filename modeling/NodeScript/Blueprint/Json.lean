import NodeScript.Blueprint.Basic
import NodeScript.Json.Record

/-!
# Blueprints in JSON

Blueprints and links are records. A node is an object with an identifier, the values of its inputs,
and besides these the members of a value tagged by its `kind`. Writing gives every field.
-/

namespace NodeScript.Blueprint

open Json (Value)

namespace Kind

/-- The kinds of nodes. -/
def kinds : List String :=
  ["event", "call", "new_component", "if_else", "for_loop", "variable"]

/-- Reads an archetype. -/
def archetype? (v : Value) : Option Archetype := do
  let fs ← v.fields? ["class", "path"]
  return ⟨← fs.required "class" Value.toText?, ← fs.required "path" Value.toText?⟩

/-- Reads a text that may also be null. -/
def textOrNull? : Value → Option (Option String)
  | .null => some none
  | v => v.toText?.map some

/-- Reads what a node refers to, from the members that are not its own. -/
def ofJson? (depth : Nat) (v : Value) : Option Kind := do
  let (kind, rest) ← v.tagged? "kind" kinds .inside depth
  match kind with
  | "if_else" => rest.noFields? branch
  | "for_loop" => rest.noFields? loop
  | "event" =>
    let fs ← rest.fields? ["class", "function"]
    return event (← fs.required "class" Value.toText?) (← fs.required "function" Value.toText?)
  | "call" =>
    let fs ← rest.fields? ["class", "function", "return_class"]
    return call (← fs.required "class" Value.toText?) (← fs.required "function" Value.toText?)
      (← fs.optional "return_class" none textOrNull?)
  | "new_component" =>
    let fs ← rest.fields? ["class", "function", "template"]
    return component (← fs.required "class" Value.toText?) (← fs.required "function" Value.toText?)
      (← fs.required "template" archetype?)
  | "variable" =>
    let fs ← rest.fields? ["class", "property"]
    return member (← fs.required "class" Value.toText?) (← fs.required "property" Value.toText?)
  | _ => none

/-- The members that say what a node refers to. -/
def toMembers : Kind → List (String × Value)
  | event c f => [("kind", .ofText "event"), ("class", .ofText c), ("function", .ofText f)]
  | call c f r =>
    [("kind", .ofText "call"), ("class", .ofText c), ("function", .ofText f),
      ("return_class", r.elim .null .ofText)]
  | component c f a =>
    [("kind", .ofText "new_component"), ("class", .ofText c), ("function", .ofText f),
      ("template", .ofMembers [("class", .ofText a.className), ("path", .ofText a.path)])]
  | branch => [("kind", .ofText "if_else")]
  | loop => [("kind", .ofText "for_loop")]
  | member c p => [("kind", .ofText "variable"), ("class", .ofText c), ("property", .ofText p)]

end Kind

namespace Node

/-- The members of a node that are its own. -/
def ownNames : List String :=
  ["id", "defaults"]

/-- Reads a node. -/
def ofJson? : (depth : Nat) → Value → Option Node
  | depth + 1, .object members => do
    let fs ← (Value.object members).fields? ownNames
    let others := members.filter fun m => !(m.1.elim false ownNames.contains)
    return {
      id := ← fs.required "id" Value.toText?
      kind := ← Kind.ofJson? (depth + 1) (.object others)
      defaults := ← fs.optional "defaults" .empty (Value.texts? depth) }
  | _, _ => none

/-- A node in JSON. -/
def toJson (n : Node) : Value :=
  .ofMembers (("id", .ofText n.id) :: n.kind.toMembers
    ++ [("defaults", .ofMembers (n.defaults.entries.map fun (k, v) => (k, .ofText v)))])

end Node

namespace Link

/-- Reads a link. -/
def ofJson? (depth : Nat) (v : Value) : Option Link := do
  let (fs, _) ← v.record? ["from", "output", "to", "input"] depth
  return {
    source := ← fs.required "from" Value.toText?
    output := ← fs.required "output" Value.toText?
    target := ← fs.required "to" Value.toText?
    input := ← fs.required "input" Value.toText? }

/-- A link in JSON. -/
def toJson (l : Link) : Value :=
  .ofMembers [("from", .ofText l.source), ("output", .ofText l.output), ("to", .ofText l.target),
    ("input", .ofText l.input)]

end Link

/-- Reads a blueprint. -/
def ofJson? (depth : Nat) (v : Value) : Option Blueprint := do
  let (fs, depth) ← v.record? ["name", "nodes", "links"] depth
  return {
    name := ← fs.optional "name" "" Value.toText?
    nodes := ← fs.optional "nodes" [] (Value.list? Node.ofJson? depth)
    links := ← fs.optional "links" [] (Value.list? Link.ofJson? depth) }

/-- A blueprint in JSON. -/
def toJson (b : Blueprint) : Value :=
  .ofMembers [("name", .ofText b.name), ("nodes", .array (b.nodes.map Node.toJson)),
    ("links", .array (b.links.map Link.toJson))]

/-- Reads the text of a blueprint. -/
def parse? (text : String) : Option Blueprint :=
  (Value.parse? text).bind (ofJson? Json.maxDepth)

end NodeScript.Blueprint
