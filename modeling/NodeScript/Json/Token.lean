import NodeScript.Json.Number
import NodeScript.Json.Text

/-!
# JSON tokens

The words of JSON text. Every JSON text falls into tokens in one way, and since no two values ever
stand next to each other in JSON, the boundaries of tokens decide nothing else.
-/

namespace NodeScript.Json

/-- A word of JSON text. -/
inductive Token where
  | openArray
  | closeArray
  | openObject
  | closeObject
  | colon
  | comma
  | null
  | bool (value : Bool)
  | number (value : Number)
  | text (value : Text)
  deriving DecidableEq, Repr

namespace Token

/-- The characters of a token. -/
def chars : Token → List Char
  | openArray => ['[']
  | closeArray => [']']
  | openObject => ['\x7b']
  | closeObject => ['\x7d']
  | colon => [':']
  | comma => [',']
  | null => ['n', 'u', 'l', 'l']
  | bool true => ['t', 'r', 'u', 'e']
  | bool false => ['f', 'a', 'l', 's', 'e']
  | number n => n.chars
  | text t => t.chars

/-- The characters that may stand between tokens. -/
def isSpace (c : Char) : Bool :=
  c == ' ' || c == '\t' || c == '\n' || c == '\r'

/-- Splits off a token. -/
def scan? : List Char → Option (Token × List Char)
  | '[' :: rest => some (openArray, rest)
  | ']' :: rest => some (closeArray, rest)
  | '\x7b' :: rest => some (openObject, rest)
  | '\x7d' :: rest => some (closeObject, rest)
  | ':' :: rest => some (colon, rest)
  | ',' :: rest => some (comma, rest)
  | 'n' :: 'u' :: 'l' :: 'l' :: rest => some (null, rest)
  | 't' :: 'r' :: 'u' :: 'e' :: rest => some (bool true, rest)
  | 'f' :: 'a' :: 'l' :: 's' :: 'e' :: rest => some (bool false, rest)
  | '"' :: rest => (Text.scan? [] rest).map fun (us, rest) => (text (.ofCodePoints us), rest)
  | cs => (Number.scan? cs).map fun (n, rest) => (number n, rest)

/-- Reads at most `n` spaces and tokens. `done` holds the tokens read so far, the last first. -/
def scanUpTo? (done : List Token) : Nat → List Char → Option (List Token)
  | _, [] => some done.reverse
  | 0, _ :: _ => none
  | n + 1, c :: rest =>
    if isSpace c then scanUpTo? done n rest
    else match scan? (c :: rest) with
      | some (t, rest) => scanUpTo? (t :: done) n rest
      | none => none

/-- The tokens of a text. There are no more of them than characters. -/
def scanAll? (cs : List Char) : Option (List Token) :=
  scanUpTo? [] cs.length cs

end Token

end NodeScript.Json
