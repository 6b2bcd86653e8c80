/-!
# Signals

What flows through a connector: a value of one of seven types, or control. The signal
`unsupported` stands for every declared type that no connector can carry.
-/

namespace NodeScript

/-- What a connector carries. -/
inductive Signal where
  | bool
  | int
  | float
  | vector
  | rotator
  | string
  | object
  /-- Control: the order in which statements run. -/
  | execution
  | unsupported
  deriving DecidableEq, Repr

namespace Signal

/-- The word that declares a variable of this type. -/
def keyword : Signal → String
  | bool => "bool"
  | int => "int"
  | float => "float"
  | vector => "vector"
  | rotator => "rotator"
  | string => "string"
  | object => "object"
  | execution => "execution"
  | unsupported => "UNKNOWN"

/-- Does the connector order statements instead of carrying a value? -/
def isExecution (s : Signal) : Bool :=
  s == execution

/-- Can a connector carry this signal at all? -/
def isSupported (s : Signal) : Bool :=
  s != unsupported

end Signal

end NodeScript
