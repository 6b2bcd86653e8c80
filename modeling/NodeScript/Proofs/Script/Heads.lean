import NodeScript.Proofs.Script.Paths

/-!
# The lines that look at values

A call looks at the object that its function is called on and at its arguments, a branch at its
condition, and a loop at the number of its runs. The heads of a block are its calls and the lines
that open its branches and loops, in the order of the text. Each place of a head shows at most one
operand (`Head.operandAt`).
-/

namespace NodeScript

/-- A call, or the line that opens a branch or a loop. -/
inductive Head where
  | call (statement : CallStatement)
  | branch (node : NodeId) (condition : Option Operand)
  | loop (header : LoopHeader)
  deriving DecidableEq, Repr

/-- A place of a head where a value may stand. -/
inductive Use where
  | argument (position : Nat)
  /-- The object that a function is called on. -/
  | target
  | condition
  /-- How often a loop runs. -/
  | bound
  deriving DecidableEq, Repr

/-- The value that an argument stands for. -/
def Argument.operand? : Argument → Option Operand
  | value operand => some operand
  | archetype _ | absent | result _ _ => none

/-- The object that a function is called on. -/
def CallForm.callee? : CallForm → Option Operand
  | operation _ _ _ => none
  | invocation target _ _ => target

namespace Head

/-- The node that the head comes from. -/
def node : Head → NodeId
  | call st => st.node
  | branch n _ => n
  | loop header => header.node

/-- The form of the statement. -/
def form : Head → Form
  | call _ => .call
  | branch _ _ => .branch
  | loop _ => .loop

/-- The line of the head. -/
def text : Head → String
  | call st => st.text
  | branch _ condition => "if( " ++ Operand.textOrNone condition ++ " == TRUE)"
  | loop header => header.text

/-- The value at a place of the head. -/
def operandAt : Head → Use → Option Operand
  | call st, .argument k => st.form.arguments[k]?.bind Argument.operand?
  | call st, .target => st.form.callee?
  | branch _ condition, .condition => condition
  | loop header, .bound => header.bound
  | _, _ => none

end Head

namespace Block

/-- The calls, branches and loops of a block in the order of the text. -/
def heads : Block → List Head
  | done => []
  | call s rest => .call s :: rest.heads
  | assign _ rest => rest.heads
  | branch n c t f rest => .branch n c :: (t.heads ++ (f.heads ++ rest.heads))
  | loop h body rest => .loop h :: (body.heads ++ rest.heads)

@[simp] theorem heads_append (a b : Block) : (a ++ b).heads = a.heads ++ b.heads := by
  show (a.append b).heads = a.heads ++ b.heads
  induction a <;> simp_all [append, heads]

@[simp] theorem heads_calls (ss : List CallStatement) : (calls ss).heads = ss.map .call := by
  induction ss with
  | nil => rfl
  | cons s ss ih => simpa [calls, heads] using ih

@[simp] theorem heads_assigns (ss : List Assignment) : (assigns ss).heads = [] := by
  induction ss with
  | nil => rfl
  | cons s ss ih => simpa [assigns, heads] using ih

/-- The heads of a block are what it emits. -/
theorem emitted_eq (b : Block) : b.emitted = b.heads.map fun head => (head.form, head.node) := by
  induction b <;> simp_all [emitted, heads, Head.form, Head.node]

end Block

end NodeScript
