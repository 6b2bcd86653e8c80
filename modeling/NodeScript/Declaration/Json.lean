import NodeScript.Declaration.Basic
import NodeScript.Json.Record

/-!
# Declarations in JSON

Declared types are tagged by their `kind`; parameters, functions, properties and classes are
records. Everything but names and types may be left out. Writing gives every field.
-/

namespace NodeScript

open Json (Value)

namespace DeclaredType

/-- The kinds of declared types. -/
def kinds : List String :=
  ["bool", "int", "float", "byte", "name", "string", "object", "interface", "struct", "array",
    "map", "delegate"]

/-- Reads a declared type. -/
def ofJson? (place : Value.TagPlace) : (depth : Nat) → Value → Option DeclaredType
  | 0, _ => none
  | depth + 1, v => do
    let (kind, rest) ← v.tagged? "kind" kinds place (depth + 1)
    match kind with
    | "bool" => rest.noFields? bool
    | "int" => rest.noFields? int
    | "float" => rest.noFields? float
    | "byte" => rest.noFields? byte
    | "name" => rest.noFields? name
    | "string" => rest.noFields? string
    | "map" => rest.noFields? map
    | "delegate" => rest.noFields? delegate
    | "object" => return object (← (← rest.fields? ["class"]).required "class" Value.toText?)
    | "interface" => return interface (← (← rest.fields? ["class"]).required "class" Value.toText?)
    | "struct" => return struct (← (← rest.fields? ["name"]).required "name" Value.toText?)
    | "array" => return array (← (← rest.fields? ["inner"]).required "inner" (ofJson? .inside depth))
    | _ => none

/-- A declared type in JSON. -/
def toJson : DeclaredType → Value
  | bool => kindOnly "bool"
  | int => kindOnly "int"
  | float => kindOnly "float"
  | byte => kindOnly "byte"
  | name => kindOnly "name"
  | string => kindOnly "string"
  | map => kindOnly "map"
  | delegate => kindOnly "delegate"
  | object c => .ofMembers [("kind", .ofText "object"), ("class", .ofText c)]
  | interface c => .ofMembers [("kind", .ofText "interface"), ("class", .ofText c)]
  | struct s => .ofMembers [("kind", .ofText "struct"), ("name", .ofText s)]
  | array t => .ofMembers [("kind", .ofText "array"), ("inner", t.toJson)]
where
  kindOnly (kind : String) : Value := .ofMembers [("kind", .ofText kind)]

end DeclaredType

namespace Parameter

/-- Reads a parameter. -/
def ofJson? (depth : Nat) (v : Value) : Option Parameter := do
  let (fs, depth) ← v.record? ["name", "type", "out", "return"] depth
  return {
    name := ← fs.required "name" Value.toText?
    type := ← fs.required "type" (DeclaredType.ofJson? .outside depth)
    out := ← fs.optional "out" false Value.toBool?
    isReturn := ← fs.optional "return" false Value.toBool? }

/-- A parameter in JSON. -/
def toJson (p : Parameter) : Value :=
  .ofMembers [("name", .ofText p.name), ("type", p.type.toJson), ("out", .bool p.out),
    ("return", .bool p.isReturn)]

end Parameter

namespace FunctionFlags

/-- Reads the flags of a function. -/
def ofJson? (depth : Nat) (v : Value) : Option FunctionFlags := do
  let (fs, _) ← v.record? ["operator", "callable", "event", "pure"] depth
  return {
    operator := ← fs.optional "operator" false Value.toBool?
    callable := ← fs.optional "callable" false Value.toBool?
    event := ← fs.optional "event" false Value.toBool?
    pure := ← fs.optional "pure" false Value.toBool? }

/-- The flags of a function in JSON. -/
def toJson (f : FunctionFlags) : Value :=
  .ofMembers [("operator", .bool f.operator), ("callable", .bool f.callable),
    ("event", .bool f.event), ("pure", .bool f.pure)]

end FunctionFlags

namespace FunctionDecl

/-- Reads a function. -/
def ofJson? (depth : Nat) (v : Value) : Option FunctionDecl := do
  let (fs, depth) ← v.record? ["name", "owner", "params", "flags"] depth
  return {
    name := ← fs.required "name" Value.toText?
    owner := ← fs.optional "owner" "" Value.toText?
    params := ← fs.optional "params" [] (Value.list? Parameter.ofJson? depth)
    flags := ← fs.optional "flags" {} (FunctionFlags.ofJson? depth) }

/-- A function in JSON. -/
def toJson (f : FunctionDecl) : Value :=
  .ofMembers [("name", .ofText f.name), ("owner", .ofText f.owner),
    ("params", .array (f.params.map Parameter.toJson)), ("flags", f.flags.toJson)]

end FunctionDecl

namespace PropertyDecl

/-- Reads a property. -/
def ofJson? (depth : Nat) (v : Value) : Option PropertyDecl := do
  let (fs, depth) ← v.record? ["name", "type", "read_only", "editable"] depth
  return {
    name := ← fs.required "name" Value.toText?
    type := ← fs.required "type" (DeclaredType.ofJson? .outside depth)
    readOnly := ← fs.optional "read_only" false Value.toBool?
    editable := ← fs.optional "editable" true Value.toBool? }

/-- A property in JSON. -/
def toJson (p : PropertyDecl) : Value :=
  .ofMembers [("name", .ofText p.name), ("type", p.type.toJson), ("read_only", .bool p.readOnly),
    ("editable", .bool p.editable)]

end PropertyDecl

namespace ClassDecl

/-- Reads a class. -/
def ofJson? (depth : Nat) (v : Value) : Option ClassDecl := do
  let (fs, depth) ← v.record? ["name", "functions", "properties"] depth
  return {
    name := ← fs.required "name" Value.toText?
    functions := ← fs.optional "functions" [] (Value.list? FunctionDecl.ofJson? depth)
    properties := ← fs.optional "properties" [] (Value.list? PropertyDecl.ofJson? depth) }

/-- A class in JSON. -/
def toJson (c : ClassDecl) : Value :=
  .ofMembers [("name", .ofText c.name), ("functions", .array (c.functions.map FunctionDecl.toJson)),
    ("properties", .array (c.properties.map PropertyDecl.toJson))]

end ClassDecl

end NodeScript
