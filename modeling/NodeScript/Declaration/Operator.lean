/-!
# Operator symbols

An operator is declared as a function whose name begins with a word for its symbol, as in
`Add_FloatFloat`. The word ends at the first underscore.
-/

namespace NodeScript

/-- The words that name symbols. -/
def operatorWords : List (String × String) :=
  [("Add", "+"), ("Subtract", "-"), ("Multiply", "*"), ("Divide", "/"), ("Less", "<"),
    ("LessEqual", "<="), ("Greater", ">"), ("GreaterEqual", ">="), ("Equal", "="),
    ("EqualEqual", "=="), ("At", "@")]

/-- The symbol of an operator. A name without an underscore or with an unknown first word is its
own symbol. -/
def operatorSymbol (functionName : String) : String :=
  let cs := functionName.toList
  if cs.contains '_' then
    (operatorWords.lookup (String.ofList (cs.takeWhile (· != '_')))).getD functionName
  else functionName

end NodeScript
