import NodeScript.Signal

/-!
# Declarations

The classes, functions and properties that a graph may use, as the host program declares them. Of
the declared types only some have a signal of their own; a parameter of any other type gets no
connector.
-/

namespace NodeScript

/-- The declared type of a parameter or property. -/
inductive DeclaredType where
  | bool
  | int
  | float
  | byte
  | name
  | string
  | object (className : String)
  | interface (className : String)
  | struct (structName : String)
  | array (inner : DeclaredType)
  | map
  | delegate
  deriving DecidableEq, Repr

namespace DeclaredType

/-- The signal of a connector of the declared type. Two structs have signals of their own. -/
def signal : DeclaredType → Signal
  | bool => .bool
  | int => .int
  | float => .float
  | string => .string
  | object _ => .object
  | struct structName =>
    if structName = "Vector" then .vector
    else if structName = "Rotator" then .rotator
    else .unsupported
  | byte | name | interface _ | array _ | map | delegate => .unsupported

/-- The class that values of the type belong to, for object types. -/
def className? : DeclaredType → Option String
  | object className => some className
  | _ => none

end DeclaredType

/-- A formal parameter of a function. The return value is a parameter too. -/
structure Parameter where
  name : String
  type : DeclaredType
  out : Bool := false
  isReturn : Bool := false
  deriving DecidableEq, Repr

namespace Parameter

/-- A parameter that the caller passes in. -/
def input (name : String) (type : DeclaredType) : Parameter :=
  { name, type }

/-- A parameter that the function passes out. -/
def output (name : String) (type : DeclaredType) : Parameter :=
  { name, type, out := true }

/-- The return value. -/
def returns (type : DeclaredType) : Parameter :=
  { name := "ReturnValue", type, out := true, isReturn := true }

end Parameter

/-- How a function may be used in a graph. -/
structure FunctionFlags where
  /-- Written between its two arguments instead of in front of them. -/
  operator : Bool := false
  /-- May be called. -/
  callable : Bool := false
  /-- May be the entry point of a script. -/
  event : Bool := false
  /-- Has no effects, so that its calls need no place in the order of statements. -/
  pure : Bool := false
  deriving DecidableEq, Repr

/-- A function with its parameters in the order of their declaration. -/
structure FunctionDecl where
  name : String
  owner : String := ""
  params : List Parameter := []
  flags : FunctionFlags := {}
  deriving DecidableEq, Repr

namespace FunctionDecl

/-- A callable function without parameters. -/
def callable (owner name : String) : FunctionDecl :=
  { name, owner, flags := { callable := true } }

/-- The function with one more parameter. -/
def withParameter (f : FunctionDecl) (p : Parameter) : FunctionDecl :=
  { f with params := f.params ++ [p] }

/-- The function marked as free of effects. -/
def asPure (f : FunctionDecl) : FunctionDecl :=
  { f with flags.pure := true }

/-- The function marked as an operator. -/
def asOperator (f : FunctionDecl) : FunctionDecl :=
  { f with flags.operator := true }

/-- The function marked as an entry point, which nothing calls. -/
def asEvent (f : FunctionDecl) : FunctionDecl :=
  { f with flags.event := true, flags.callable := false }

/-- The first parameter that is a return value. -/
def returnParameter? (f : FunctionDecl) : Option Parameter :=
  f.params.find? (·.isReturn)

/-- The parameters other than return values. -/
def arguments (f : FunctionDecl) : List Parameter :=
  f.params.filter (!·.isReturn)

end FunctionDecl

/-- A member variable of a class. -/
structure PropertyDecl where
  name : String
  type : DeclaredType
  readOnly : Bool := false
  editable : Bool := true
  deriving DecidableEq, Repr

/-- A class with the members that a graph may use. -/
structure ClassDecl where
  name : String
  functions : List FunctionDecl := []
  properties : List PropertyDecl := []
  deriving DecidableEq, Repr

end NodeScript
