import NodeScript.Script.Block

/-!
# What a block is made of

The calls, branches and loops of a block, in the order of its text, each with the node that it
comes from. Assignments come with the call or loop they follow and are not counted.
-/

namespace NodeScript

/-- The kinds of statements that nodes turn into. -/
inductive Form where
  | call
  | branch
  | loop
  deriving DecidableEq, Repr

namespace Block

/-- The calls, branches and loops of a block with their nodes, in the order of the text. -/
def emitted : Block → List (Form × NodeId)
  | done => []
  | call s rest => (.call, s.node) :: rest.emitted
  | assign _ rest => rest.emitted
  | branch n _ t f rest => (.branch, n) :: (t.emitted ++ f.emitted ++ rest.emitted)
  | loop h body rest => (.loop, h.node) :: (body.emitted ++ rest.emitted)

@[simp] theorem emitted_append (a b : Block) : (a ++ b).emitted = a.emitted ++ b.emitted := by
  show (a.append b).emitted = a.emitted ++ b.emitted
  induction a <;> simp_all [append, emitted]

@[simp] theorem emitted_calls (ss : List CallStatement) :
    (calls ss).emitted = ss.map (.call, ·.node) := by
  induction ss with
  | nil => rfl
  | cons s ss ih => simpa [calls, emitted] using ih

@[simp] theorem emitted_assigns (ss : List Assignment) : (assigns ss).emitted = [] := by
  induction ss with
  | nil => rfl
  | cons s ss ih => simpa [assigns, emitted] using ih

end Block

namespace EventScript

/-- The statements of an event, none if it leads nowhere. -/
def statements (script : EventScript) : Block :=
  script.body.getD .done

variable {script : EventScript}

theorem statements_of_none (h : script.body = none) : script.statements = .done := by
  simp [statements, h]

theorem statements_of_body {block : Block} (h : script.body = some block) :
    script.statements = block := by
  simp [statements, h]

end EventScript

end NodeScript
