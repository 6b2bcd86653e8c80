import NodeScript.Literal.Basic
import NodeScript.Text.Blank

/-!
# Reading literals

How the text of a default becomes a literal of a given signal. Blanks around a number do not
count and empty text is zero. The components of a vector or rotation stand between commas; missing
ones are zero, and only the first three pieces are looked at. Rotations are read in degrees.
-/

namespace NodeScript

/-- The pieces of a text between its commas; at least one. -/
def commaPieces : List Char → List (List Char)
  | [] => [[]]
  | c :: cs =>
    if c = ',' then [] :: commaPieces cs
    else match commaPieces cs with
      | piece :: pieces => (c :: piece) :: pieces
      | [] => [[c]]

namespace Literal

/-- Words that stand for true, in any case. -/
def truthy : List (List Char) :=
  [['t', 'r', 'u', 'e'], ['t'], ['1']]

/-- A whole number of 32 bits; empty text is zero. -/
def readInt? (cs : List Char) : Option Int32 :=
  let cs := Text.trim cs
  if cs = [] then some 0
  else (Decimal.wholeNumber? cs).bind fun n =>
    if Int32.minValue.toInt ≤ n ∧ n ≤ Int32.maxValue.toInt then some (Int32.ofInt n) else none

/-- A single precision number; empty text is zero. -/
def readSingle? (cs : List Char) : Option Single :=
  let cs := Text.trim cs
  if cs = [] then some .zero else Binary.ofChars? cs

/-- The first three pieces of a text as numbers. -/
def readTriple? (cs : List Char) : Option (Single × Single × Single) := do
  let pieces := commaPieces cs
  let x ← readSingle? (pieces.getD 0 [])
  let y ← readSingle? (pieces.getD 1 [])
  let z ← readSingle? (pieces.getD 2 [])
  return (x, y, z)

/-- Reads a literal of the given signal. Every text is a truth value, and every text is a literal
of the signals whose value no text describes. -/
def ofText (signal : Signal) (text : String) : Except LiteralError Literal :=
  let cs := text.toList
  let orInvalid (l : Option Literal) : Except LiteralError Literal :=
    l.elim (.error (.invalid signal text)) .ok
  match signal with
  | .bool => .ok (bool (truthy.contains ((Text.trim cs).map Char.toLower)))
  | .int => orInvalid ((readInt? cs).map int)
  | .float => orInvalid ((readSingle? cs).map float)
  | .vector => orInvalid ((readTriple? cs).map fun (x, y, z) => vector x y z)
  | .rotator => orInvalid ((readTriple? cs).map fun (p, y, r) =>
      rotator (Angle.ofDegrees p) (Angle.ofDegrees y) (Angle.ofDegrees r))
  | .string => .ok (string text)
  | .object => .ok object
  | .execution => .ok execution
  | .unsupported => .error (.unsupported signal)

/-- What is read is a value of the signal it was read for. -/
theorem signal_of_ofText {signal : Signal} {text : String} {l : Literal}
    (h : ofText signal text = .ok l) : l.signal = signal := by
  cases signal <;> simp only [ofText] at h
  case bool | string | object | execution => cases h; rfl
  case unsupported => cases h
  case int => cases hr : readInt? text.toList <;> simp [hr] at h; subst h; rfl
  case float => cases hr : readSingle? text.toList <;> simp [hr] at h; subst h; rfl
  case vector => cases hr : readTriple? text.toList <;> simp [hr] at h; subst h; rfl
  case rotator => cases hr : readTriple? text.toList <;> simp [hr] at h; subst h; rfl

end Literal

end NodeScript
