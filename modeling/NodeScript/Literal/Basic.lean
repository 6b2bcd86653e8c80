import NodeScript.Binary.Numeral
import NodeScript.Literal.Angle
import NodeScript.Signal

/-!
# Literals

The value that an input falls back to when nothing is connected to it. A literal has two written
forms: the one an editor shows (`Literal.display`) and the one that stands in a script
(`Literal.code`). Text in a script stands between quotes as it is; nothing in it is escaped.
-/

namespace NodeScript

/-- The value of an input that nothing is connected to. -/
inductive Literal where
  | bool (value : Bool)
  | int (value : Int32)
  | float (value : Single)
  | vector (x y z : Single)
  /-- A rotation, in the units of `NodeScript.Angle`. -/
  | rotator (pitch yaw roll : Int32)
  | string (value : String)
  /-- No object. -/
  | object
  | execution
  deriving DecidableEq, Repr

namespace Literal

/-- The signal that the literal is a value of. -/
def signal : Literal → Signal
  | bool _ => .bool
  | int _ => .int
  | float _ => .float
  | vector _ _ _ => .vector
  | rotator _ _ _ => .rotator
  | string _ => .string
  | object => .object
  | execution => .execution

/-- The zero value of a signal; only `unsupported` has none. -/
def zero? : Signal → Option Literal
  | .bool => some (bool false)
  | .int => some (int 0)
  | .float => some (float .zero)
  | .vector => some (vector .zero .zero .zero)
  | .rotator => some (rotator 0 0 0)
  | .string => some (string "")
  | .object => some object
  | .execution => some execution
  | .unsupported => none

/-- The zero value is a value of its signal. -/
theorem signal_of_zero? {s : Signal} {l : Literal} (h : zero? s = some l) : l.signal = s := by
  cases s <;> simp [zero?] at h <;> subst h <;> rfl

/-- Three numbers with commas between them, four decimal places each. -/
def displayTriple (x y z : Single) : String :=
  x.fixed 4 ++ ", " ++ y.fixed 4 ++ ", " ++ z.fixed 4

/-- The literal as an editor shows it: numbers with four decimal places, rotations in degrees. -/
def display : Literal → String
  | bool b => if b then "TRUE" else "FALSE"
  | int n => toString n.toInt
  | float x => x.fixed 4
  | vector x y z => displayTriple x y z
  | rotator p y r => displayTriple (Angle.toDegrees p) (Angle.toDegrees y) (Angle.toDegrees r)
  | string s => s
  | object | execution => ""

/-- The literal as it stands in a script: rotations in units, text between quotes. -/
def code : Literal → String
  | rotator p y r => s!"rot({p.toInt},{y.toInt},{r.toInt})"
  | string s => "\"" ++ s ++ "\""
  | object => "None"
  | vector x y z => s!"vect({displayTriple x y z})"
  | l => l.display

end Literal

/-- Why a text is no literal. -/
inductive LiteralError where
  | invalid (signal : Signal) (text : String)
  | unsupported (signal : Signal)
  deriving DecidableEq, Repr

/-- The wording of the error. -/
def LiteralError.message : LiteralError → String
  | invalid signal text => s!"'{text}' is not a valid {signal.keyword} literal"
  | unsupported signal => s!"{signal.keyword} connectors cannot hold a literal value"

end NodeScript
