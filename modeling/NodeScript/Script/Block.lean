import NodeScript.Graph.Basic
import NodeScript.Script.Listing

/-!
# Scripts

Scripts as structured programs: statements that call functions and set variables, branches and
loops. A script knows which node each statement comes from and which output each variable holds
the value of; its text (`EventScript.lines`) shows neither.
-/

namespace NodeScript

/-! ### Values -/

/-- A value that a statement reads. -/
inductive Operand where
  | literal (value : Literal)
  /-- A variable of the object that the script runs on. -/
  | member (node : NodeId) (name : String)
  /-- A local variable or parameter that holds the value of an output. -/
  | held (output : OutputId) (name : String)
  deriving DecidableEq, Repr

/-- The text of a value. -/
def Operand.text : Operand → String
  | literal l => l.code
  | member _ name | held _ name => name

/-- The text of a value that may be missing. -/
def Operand.textOrNone (o : Option Operand) : String :=
  o.elim "" Operand.text

/-- An argument of a call. -/
inductive Argument where
  | archetype (a : Archetype)
  /-- Nothing, for a parameter without a connector. -/
  | absent
  /-- A variable that the call sets. -/
  | result (output : OutputId) (name : String)
  | value (operand : Operand)
  deriving DecidableEq, Repr

/-- The text of an argument. -/
def Argument.text : Argument → String
  | archetype a => a.code
  | absent => ""
  | result _ name => name
  | value o => o.text

/-! ### Statements -/

/-- What a call statement evaluates. -/
inductive CallForm where
  | operation (symbol : String) (left right : Argument)
  | invocation (target : Option Operand) (function : String) (arguments : List Argument)
  deriving DecidableEq, Repr

/-- The text of a call. -/
def CallForm.text : CallForm → String
  | operation symbol left right => left.text ++ " " ++ symbol ++ " " ++ right.text
  | invocation target function arguments =>
    let callee := target.elim "" (·.text ++ ".") ++ function
    if arguments = [] then callee ++ "()"
    else callee ++ "( " ++ ", ".intercalate (arguments.map Argument.text) ++ " )"

theorem CallForm.text_invocation (target : Option Operand) (function : String)
    (arguments : List Argument) : (invocation target function arguments).text =
      target.elim "" (·.text ++ ".") ++ function ++ if arguments.map Argument.text = [] then "()"
        else "( " ++ ", ".intercalate (arguments.map Argument.text) ++ " )" := by
  by_cases none : arguments = [] <;> simp [text, none, String.append_assoc]

/-- A call, and the variable that takes what it returns. -/
structure CallStatement where
  node : NodeId
  result : Option (OutputId × String)
  /-- The class that the returned object is taken for. -/
  cast : Option String
  form : CallForm
  deriving DecidableEq, Repr

/-- The line of a call. -/
def CallStatement.text (s : CallStatement) : String :=
  let call := s.cast.elim s.form.text fun className => className ++ "( " ++ s.form.text ++ " )"
  s.result.elim "" (·.2 ++ " = ") ++ call ++ ";"

/-- Sets a variable of the object that the script runs on. -/
structure Assignment where
  /-- The node that stands for the variable. -/
  member : NodeId
  name : String
  /-- The output whose value is written, and the variable that holds it. -/
  output : OutputId
  value : String
  deriving DecidableEq, Repr

/-- The line of an assignment. -/
def Assignment.text (s : Assignment) : String :=
  s.name ++ " = " ++ s.value ++ ";"

/-- How often a loop runs, and the variable that counts the runs. -/
structure LoopHeader where
  node : NodeId
  counter : String
  bound : Option Operand
  deriving DecidableEq, Repr

/-- The line that opens a loop. -/
def LoopHeader.text (h : LoopHeader) : String :=
  "for( " ++ h.counter ++ "=0; " ++ h.counter ++ "<" ++ Operand.textOrNone h.bound ++ "; "
    ++ h.counter ++ "++ )"

/-- Statements in the order in which they run. -/
inductive Block where
  | done
  | call (statement : CallStatement) (rest : Block)
  | assign (statement : Assignment) (rest : Block)
  | branch (node : NodeId) (condition : Option Operand) (whenTrue whenFalse rest : Block)
  | loop (header : LoopHeader) (body rest : Block)
  deriving DecidableEq, Repr

namespace Block

/-- One block after the other. -/
def append : Block → Block → Block
  | done, b => b
  | call s rest, b => call s (rest.append b)
  | assign s rest, b => assign s (rest.append b)
  | branch n c t f rest, b => branch n c t f (rest.append b)
  | loop h body rest, b => loop h body (rest.append b)

instance : Append Block := ⟨append⟩

/-- A block of calls. -/
def calls (ss : List CallStatement) : Block :=
  ss.foldr call done

/-- A block of assignments. -/
def assigns (ss : List Assignment) : Block :=
  ss.foldr assign done

/-- The lines of a block. A loop is followed by an empty line. -/
def lines : Block → Listing
  | done => []
  | call s rest => .flat s.text :: rest.lines
  | assign s rest => .flat s.text :: rest.lines
  | branch _ c t f rest =>
    [.flat ("if( " ++ Operand.textOrNone c ++ " == TRUE)"), .flat "\x7b"] ++ t.lines.indented
      ++ [.flat "\x7d", .flat "else", .flat "\x7b"] ++ f.lines.indented ++ [.flat "\x7d"]
      ++ rest.lines
  | loop h body rest =>
    [.flat h.text, .flat "\x7b"] ++ body.lines.indented ++ [.flat "\x7d", .flat ""] ++ rest.lines

/-! ### Laws -/

@[simp] theorem done_append (b : Block) : done ++ b = b := rfl

@[simp] theorem append_done (b : Block) : b ++ done = b := by
  show b.append done = b
  induction b <;> simp_all [append]

theorem append_assoc (a b c : Block) : a ++ b ++ c = a ++ (b ++ c) := by
  show (a.append b).append c = a.append (b.append c)
  induction a <;> simp_all [append]

/-- The lines of one block after the other. -/
@[simp] theorem lines_append (a b : Block) : (a ++ b).lines = a.lines ++ b.lines := by
  show (a.append b).lines = a.lines ++ b.lines
  induction a <;> simp_all [append, lines]

@[simp] theorem lines_calls (ss : List CallStatement) :
    (calls ss).lines = ss.map fun s => .flat s.text := by
  induction ss with
  | nil => rfl
  | cons s ss ih => simpa [calls, lines] using ih

@[simp] theorem lines_assigns (ss : List Assignment) :
    (assigns ss).lines = ss.map fun s => .flat s.text := by
  induction ss with
  | nil => rfl
  | cons s ss ih => simpa [assigns, lines] using ih

end Block

/-! ### Events -/

/-- A variable or parameter with its type. -/
structure VariableDecl where
  type : String
  name : String
  deriving DecidableEq, Repr

/-- The declaration in a list of parameters. -/
def VariableDecl.text (d : VariableDecl) : String :=
  d.type ++ " " ++ d.name

/-- The script of an event: what it is given, what it declares, and what it does. -/
structure EventScript where
  node : NodeId
  name : String
  parameters : List VariableDecl
  locals : List VariableDecl
  /-- Nothing, if the event leads nowhere. -/
  body : Option Block
  deriving DecidableEq, Repr

namespace EventScript

/-- The line that opens the script. -/
def header (s : EventScript) : String :=
  "event " ++ s.name ++ "(" ++ ", ".intercalate (s.parameters.map VariableDecl.text) ++ ")"

/-- The lines inside the braces: the variables, an empty line, the statements. -/
def bodyLines (s : EventScript) : Listing :=
  match s.body with
  | none => []
  | some block =>
    s.locals.map (fun d => ⟨1, "local " ++ d.text ++ ";"⟩) ++ [.flat ""] ++ block.lines.indented

/-- The lines of the script. -/
def lines (s : EventScript) : Listing :=
  [.flat s.header, .flat "\x7b"] ++ s.bodyLines ++ [.flat "\x7d"]

end EventScript

end NodeScript
