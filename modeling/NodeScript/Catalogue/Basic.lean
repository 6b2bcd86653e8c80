import NodeScript.Declaration.Basic
import NodeScript.Directory

/-!
# Catalogues

The functions and properties known for each class. A member declared again replaces the earlier
declaration of that name; all listings are in ascending order of names.

What a graph is built against is a `Lookup`, which a catalogue is one source of.
-/

namespace NodeScript

/-- A source of declarations by class and name. -/
structure Lookup where
  function? : (className name : String) → Option FunctionDecl
  property? : (className name : String) → Option PropertyDecl

/-- The members of one class. -/
structure Members where
  functions : Directory FunctionDecl := .empty
  properties : Directory PropertyDecl := .empty
  deriving DecidableEq, Repr

/-- Classes and their members. -/
structure Catalogue where
  classes : Directory Members := .empty
  deriving DecidableEq, Repr

namespace Catalogue

/-- The members of a class; a class never mentioned has none. -/
def members (c : Catalogue) (className : String) : Members :=
  (c.classes.find? className).getD {}

/-- Changes the members of a class, which is mentioned thereby. -/
def modify (c : Catalogue) (className : String) (change : Members → Members) : Catalogue :=
  ⟨c.classes.insert className (change (c.members className))⟩

/-- Enters a function under its owner. -/
def addFunction (c : Catalogue) (f : FunctionDecl) : Catalogue :=
  c.modify f.owner fun m => { m with functions := m.functions.insert f.name f }

/-- Enters a property of a class. -/
def addProperty (c : Catalogue) (className : String) (p : PropertyDecl) : Catalogue :=
  c.modify className fun m => { m with properties := m.properties.insert p.name p }

/-- Enters a class with its members. The class is the owner of its functions, whatever owner they
declare. -/
def addClass (c : Catalogue) (d : ClassDecl) : Catalogue :=
  let c := d.functions.foldl (fun c f => c.addFunction { f with owner := d.name }) c
  let c := d.properties.foldl (fun c p => c.addProperty d.name p) c
  c.modify d.name id

/-- The catalogue of a list of classes. -/
def ofClasses (ds : List ClassDecl) : Catalogue :=
  ds.foldl addClass {}

/-- The function of a class and name. -/
def function? (c : Catalogue) (className name : String) : Option FunctionDecl :=
  (c.members className).functions.find? name

/-- The property of a class and name. -/
def property? (c : Catalogue) (className name : String) : Option PropertyDecl :=
  (c.members className).properties.find? name

/-- The catalogue as a source of declarations. -/
def lookup (c : Catalogue) : Lookup :=
  ⟨c.function?, c.property?⟩

/-- Every class mentioned. -/
def classNames (c : Catalogue) : List String :=
  c.classes.names

/-- The functions of a class that may be called. -/
def callables (c : Catalogue) (className : String) : List FunctionDecl :=
  (c.members className).functions.values.filter fun f => f.flags.callable && !f.flags.event

/-- The functions of a class that may be entry points. -/
def events (c : Catalogue) (className : String) : List FunctionDecl :=
  (c.members className).functions.values.filter (·.flags.event)

/-- The properties of a class that a graph may read. -/
def editableProperties (c : Catalogue) (className : String) : List PropertyDecl :=
  (c.members className).properties.values.filter (·.editable)

/-! ### What a change does -/

theorem members_modify (c : Catalogue) (className other : String) (change : Members → Members) :
    (c.modify className change).members other =
      if className = other then change (c.members className) else c.members other := by
  simp only [modify, members, Directory.find?_insert]
  split <;> rfl

/-- A function entered is found under its owner and name, and all else as before. -/
theorem function?_addFunction (c : Catalogue) (f : FunctionDecl) (className name : String) :
    (c.addFunction f).function? className name =
      if f.owner = className ∧ f.name = name then some f else c.function? className name := by
  simp only [function?, addFunction, members_modify]
  by_cases hc : f.owner = className
  · subst hc
    simp [Directory.find?_insert]
  · simp [hc]

/-- A property entered is found under its class and name, and all else as before. -/
theorem property?_addProperty (c : Catalogue) (owner : String) (p : PropertyDecl)
    (className name : String) :
    (c.addProperty owner p).property? className name =
      if owner = className ∧ p.name = name then some p else c.property? className name := by
  simp only [property?, addProperty, members_modify]
  by_cases hc : owner = className
  · subst hc
    simp [Directory.find?_insert]
  · simp [hc]

end Catalogue

end NodeScript
