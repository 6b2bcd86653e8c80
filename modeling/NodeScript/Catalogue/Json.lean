import NodeScript.Catalogue.Basic
import NodeScript.Declaration.Json

/-!
# Catalogues in JSON

A catalogue is read from a record with one field, the list of its classes.
-/

namespace NodeScript.Catalogue

open Json (Value)

/-- Reads a catalogue. -/
def ofJson? (v : Value) : Option Catalogue := do
  let (fs, depth) ← v.record? ["classes"] Json.maxDepth
  return ofClasses (← fs.optional "classes" [] (Value.list? ClassDecl.ofJson? depth))

/-- Reads the text of a catalogue. -/
def parse? (text : String) : Option Catalogue :=
  (Value.parse? text).bind ofJson?

end NodeScript.Catalogue
