import NodeScript.Json.Record
import NodeScript.Literal.Basic

/-!
# Literals in JSON

A literal is an object with one member, whose name says the kind of literal and whose value is the
value of the literal. A kind without a value may also stand alone, as a string.
-/

namespace NodeScript.Literal

open Json (Value)

/-- Reads a whole number of 32 bits. -/
def int32? (v : Value) : Option Int32 :=
  v.toInt?.bind fun n =>
    if Int32.minValue.toInt ≤ n ∧ n ≤ Int32.maxValue.toInt then some (Int32.ofInt n) else none

/-- Reads a literal. -/
def ofJson? : Value → Option Literal
  | .text (some "Object") => some object
  | .text (some "Execution") => some execution
  | .object [(some "Bool", v)] => v.toBool?.map bool
  | .object [(some "Int", v)] => (int32? v).map int
  | .object [(some "Float", v)] => v.toSingle?.map float
  | .object [(some "Vector", v)] => do
    let fs ← v.fields? ["x", "y", "z"]
    return vector (← fs.required "x" Value.toSingle?) (← fs.required "y" Value.toSingle?)
      (← fs.required "z" Value.toSingle?)
  | .object [(some "Rotator", v)] => do
    let fs ← v.fields? ["pitch", "yaw", "roll"]
    return rotator (← fs.required "pitch" int32?) (← fs.required "yaw" int32?)
      (← fs.required "roll" int32?)
  | .object [(some "String", v)] => v.toText?.map string
  | .object [(some "Object", .null)] => some object
  | .object [(some "Execution", .null)] => some execution
  | _ => none

/-- Reads the text of a literal. -/
def parse? (text : String) : Option Literal :=
  (Value.parse? text).bind ofJson?

end NodeScript.Literal
