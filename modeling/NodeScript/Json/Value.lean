import NodeScript.Json.Token

/-!
# JSON values

JSON text and the values it denotes. An object keeps its members in the order in which they are
written, and keeps all members of a repeated name.

Reading goes through the tokens once, with the containers part way through held in a list
(`Frame`), so that nesting costs no recursion.
-/

namespace NodeScript.Json

/-- A JSON value. -/
inductive Value where
  | null
  | bool (value : Bool)
  | number (value : Number)
  | text (value : Text)
  | array (items : List Value)
  | object (members : List (Text × Value))
  deriving Inhabited, Repr

namespace Value

/-! ### Writing -/

mutual

/-- The tokens of a value. -/
def tokens : Value → List Token
  | null => [.null]
  | bool b => [.bool b]
  | number n => [.number n]
  | text t => [.text t]
  | array [] => [.openArray, .closeArray]
  | array (v :: vs) => .openArray :: (tokens v ++ itemTokens vs)
  | object [] => [.openObject, .closeObject]
  | object ((k, v) :: ms) => .openObject :: .text k :: .colon :: (tokens v ++ memberTokens ms)

/-- The tokens of an array after its first item. -/
def itemTokens : List Value → List Token
  | [] => [.closeArray]
  | v :: vs => .comma :: (tokens v ++ itemTokens vs)

/-- The tokens of an object after its first member. -/
def memberTokens : List (Text × Value) → List Token
  | [] => [.closeObject]
  | (k, v) :: ms => .comma :: .text k :: .colon :: (tokens v ++ memberTokens ms)

end

/-- The text of a value, without spaces. -/
def render (v : Value) : String :=
  String.ofList (v.tokens.flatMap Token.chars)

/-! ### Reading -/

/-- A container part way through: what has been read of it, the last first. -/
inductive Frame where
  | array (items : List Value)
  | member (members : List (Text × Value)) (name : Text)

/-- What has been read and what has to come next, inside the given frames. -/
inductive Progress where
  /-- A value comes. -/
  | value (frames : List Frame)
  /-- A value or the end of an array comes. -/
  | firstItem (frames : List Frame)
  /-- A name or the end of an object comes. -/
  | firstName (frames : List Frame)
  /-- A name comes. -/
  | name (members : List (Text × Value)) (frames : List Frame)
  /-- The colon after a name comes. -/
  | colon (members : List (Text × Value)) (name : Text) (frames : List Frame)
  /-- A value has ended. -/
  | ended (value : Value) (frames : List Frame)

namespace Progress

/-- Starts a value. -/
def start? (frames : List Frame) : Token → Option Progress
  | .null => some (ended .null frames)
  | .bool b => some (ended (.bool b) frames)
  | .number n => some (ended (.number n) frames)
  | .text t => some (ended (.text t) frames)
  | .openArray => some (firstItem frames)
  | .openObject => some (firstName frames)
  | _ => none

/-- Reads one token. -/
def step? : Progress → Token → Option Progress
  | value frames, t => start? frames t
  | firstItem frames, t =>
    if t = .closeArray then some (ended (.array []) frames) else start? (.array [] :: frames) t
  | firstName frames, t =>
    match t with
    | .closeObject => some (ended (.object []) frames)
    | .text k => some (colon [] k frames)
    | _ => none
  | name ms frames, t =>
    match t with
    | .text k => some (colon ms k frames)
    | _ => none
  | colon ms k frames, t =>
    if t = .colon then some (value (.member ms k :: frames)) else none
  | ended v (.array vs :: frames), t =>
    match t with
    | .comma => some (value (.array (v :: vs) :: frames))
    | .closeArray => some (ended (.array (v :: vs).reverse) frames)
    | _ => none
  | ended v (.member ms k :: frames), t =>
    match t with
    | .comma => some (name ((k, v) :: ms) frames)
    | .closeObject => some (ended (.object ((k, v) :: ms).reverse) frames)
    | _ => none
  | ended _ [], _ => none

/-- Reads tokens to the end. -/
def run? : Progress → List Token → Option Value
  | ended v [], [] => some v
  | _, [] => none
  | p, t :: ts => (p.step? t).bind fun p => run? p ts

end Progress

/-- The value that a list of tokens denotes. -/
def ofTokens? (ts : List Token) : Option Value :=
  (Progress.value []).run? ts

/-- The value that a text denotes. -/
def parse? (text : String) : Option Value :=
  (Token.scanAll? text.toList).bind ofTokens?

/-! ### Access -/

/-- The text of a string value. -/
def toText? : Value → Option String
  | text t => t
  | _ => none

/-- The truth value of a boolean value. -/
def toBool? : Value → Option Bool
  | bool b => some b
  | _ => none

/-- The whole number that a value is. -/
def toInt? : Value → Option Int
  | number n => n.toInt?
  | _ => none

/-- The number that a value is, in single precision. -/
def toSingle? : Value → Option Single
  | number n => n.toSingle?
  | _ => none

/-! ### Construction -/

/-- A string value. -/
def ofText (s : String) : Value :=
  text (some s)

/-- A whole number value. -/
def ofInt (n : Int) : Value :=
  number (.ofInt n)

/-- An object value. -/
def ofMembers (members : List (String × Value)) : Value :=
  object (members.map fun (k, v) => (some k, v))

end Value

end NodeScript.Json
