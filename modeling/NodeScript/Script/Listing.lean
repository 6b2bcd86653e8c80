/-!
# Listings

Source text as a list of lines, each with its level of indentation. Only when a listing is rendered
is it decided what one level looks like. Empty lines are rendered without indentation.
-/

namespace NodeScript

/-- What one level of indentation looks like. -/
inductive Indent where
  | tabs
  | spaces (count : Nat)
  deriving DecidableEq, Repr

/-- The text of one level. -/
def Indent.unit : Indent → String
  | tabs => "\t"
  | spaces n => String.ofList (List.replicate n ' ')

/-- A line of source text. -/
structure Line where
  indent : Nat
  text : String
  deriving DecidableEq, Repr

/-- Lines of source text. -/
abbrev Listing :=
  List Line

/-- A line at the outermost level. -/
def Line.flat (text : String) : Line :=
  ⟨0, text⟩

/-- The line, indented with copies of `unit`, and its end. -/
def Line.render (unit : String) (l : Line) : String :=
  if l.text = "" then "\n" else String.join (List.replicate l.indent unit) ++ l.text ++ "\n"

namespace Listing

/-- All lines one level further in. -/
def indented (l : Listing) : Listing :=
  l.map fun line => { line with indent := line.indent + 1 }

/-- The text of the lines. -/
def render (style : Indent) (l : Listing) : String :=
  String.join (l.map (Line.render style.unit))

/-! ### Laws -/

@[simp] theorem indented_nil : indented [] = [] := rfl

@[simp] theorem indented_cons (line : Line) (l : Listing) :
    indented (line :: l) = { line with indent := line.indent + 1 } :: indented l := rfl

@[simp] theorem indented_append (l m : Listing) : indented (l ++ m) = indented l ++ indented m :=
  List.map_append

end Listing

end NodeScript
