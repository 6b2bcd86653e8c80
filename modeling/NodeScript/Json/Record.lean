import NodeScript.Directory
import NodeScript.Json.Value

/-!
# Records in JSON

How structured data is read from JSON values.

A *record* is an object with named fields, or an array of the fields in their declared order whose
last fields may be missing. Fields with unknown names are ignored and may hold anything; a known
name may come only once.

A *tagged* value is an object or array that says by a tag which kind of record the rest of it is.
All of a tagged value is read before its kind is known, so nothing in it may be malformed: strings
denote texts, numbers are in range, and containers are not nested too deeply (`Value.fits`).

The depth that the readers take is the number of containers that may still be opened.
-/

namespace NodeScript.Json

/-- How many containers of a text may be open at once. -/
def maxDepth : Nat :=
  127

/-- The fields that a record has. -/
structure Fields where
  present : List (String × Value)

namespace Fields

/-- The field of a name, if present. -/
def find? (fs : Fields) (name : String) : Option Value :=
  fs.present.lookup name

variable {α : Type}

/-- Reads a field that has to be there. -/
def required (fs : Fields) (name : String) (read : Value → Option α) : Option α :=
  (fs.find? name).bind read

/-- Reads a field that may be missing. -/
def optional (fs : Fields) (name : String) (missing : α) (read : Value → Option α) : Option α :=
  match fs.find? name with
  | none => some missing
  | some v => read v

end Fields

namespace Value

variable {α : Type}

/-! ### Records and lists -/

/-- The members of an object, whose names all have to denote texts. -/
def namedMembers? (members : List (Text × Value)) : Option (List (String × Value)) :=
  members.mapM fun (k, v) => k.map (·, v)

/-- The fields of a record with the given field names. -/
def fields? (names : List String) : Value → Option Fields
  | array items => if items.length ≤ names.length then some ⟨names.zip items⟩ else none
  | object members => do
    let known := (← namedMembers? members).filter fun m => names.contains m.1
    if (known.map (·.1)).Nodup then some ⟨known⟩ else none
  | _ => none

/-- Opens a record, and gives the depth left inside it. -/
def record? (names : List String) (depth : Nat) (v : Value) : Option (Fields × Nat) :=
  match depth with
  | 0 => none
  | depth + 1 => (v.fields? names).map (·, depth)

/-- Reads a list of values of one kind. -/
def list? (read : Nat → Value → Option α) (depth : Nat) (v : Value) : Option (List α) :=
  match depth, v with
  | depth + 1, array items => items.mapM (read depth)
  | _, _ => none

/-- Reads an object that maps names to texts. The last member of a name counts. -/
def texts? (depth : Nat) (v : Value) : Option (Directory String) :=
  match depth, v with
  | _ + 1, object members => do
    let entries ← (← namedMembers? members).mapM fun (k, v) => v.toText?.map (k, ·)
    return .ofList entries
  | _, _ => none

/-! ### Tagged values -/

mutual

/-- Is everything in the value well-formed, with at most `depth` containers open at once? -/
def fits (depth : Nat) : Value → Bool
  | null | bool _ => true
  | number n => n.toDouble?.isSome
  | text t => t.isSome
  | array items => 0 < depth && itemsFit (depth - 1) items
  | object members => 0 < depth && membersFit (depth - 1) members

/-- Do all items of an array fit? -/
def itemsFit (depth : Nat) : List Value → Bool
  | [] => true
  | v :: vs => fits depth v && itemsFit depth vs

/-- Do all members of an object fit? -/
def membersFit (depth : Nat) : List (Text × Value) → Bool
  | [] => true
  | (k, v) :: ms => k.isSome && fits depth v && membersFit depth ms

end

/-- Where a tag stands: at the head of a text, where it is a word, or inside a tagged value, where
the position of the word in the list of all tags may stand for it. -/
inductive TagPlace where
  | outside
  | inside
  deriving DecidableEq, Repr

/-- Reads a tag out of the list of all tags. -/
def tag? (tags : List String) (place : TagPlace) : Value → Option String
  | text (some s) => if tags.contains s then some s else none
  | number n =>
    match place, n.toInt? with
    | .inside, some (.ofNat i) => tags[i]?
    | _, _ => none
  | _ => none

/-- Takes a tagged value apart: its tag, and the fields of the record that the tag announces. The
tag is the first item of an array, or the only member `key` of an object. -/
def tagged? (key : String) (tags : List String) (place : TagPlace) (depth : Nat) :
    Value → Option (String × Value)
  | array (t :: items) => do
    let tag ← tag? tags place t
    if (array items).fits depth then some (tag, array items) else none
  | object members =>
    match members.partition fun m => m.1 == some key with
    | ([(_, t)], others) => do
      let tag ← tag? tags place t
      if (object others).fits depth then some (tag, object others) else none
    | _ => none
  | _ => none

/-- Reads the rest of a tagged value without fields of its own. Its members are all unknown. -/
def noFields? (result : α) : Value → Option α
  | array [] => some result
  | object _ => some result
  | _ => none

end Value

end NodeScript.Json
