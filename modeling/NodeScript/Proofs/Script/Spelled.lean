import NodeScript.Proofs.Script.Heads

/-!
# How statements are spelled

The line of a call, and the lines that open branches and loops, written out. Which texts a statement
may have is a relation (`Head.Spells`), with a rule for each kind of statement that says what the
line consists of and where the texts of its values stand in it. No rule mentions the functions that
write lines; that these write what the rules say is `Head.spells_text`.

A line shows a text at a place (`Head.ShowsAt`) if it is spelled with this text there, and it sets a
variable (`Head.Sets`) if this is on its left, among its arguments, or counts its runs.
-/

namespace NodeScript

open List (Forall₂)

/-! ### Values -/

/-- The text of a value: the code of a literal, or the name of a variable. -/
inductive Operand.Spells : Operand → String → Prop
  | literal (l : Literal) : Spells (.literal l) l.code
  | member (node : NodeId) (name : String) : Spells (.member node name) name
  | held (output : OutputId) (name : String) : Spells (.held output name) name

/-- The text of an argument. -/
inductive Argument.Spells : Argument → String → Prop
  | archetype (a : Archetype) : Spells (.archetype a) a.code
  | absent : Spells .absent ""
  | result (output : OutputId) (name : String) : Spells (.result output name) name
  | value {operand : Operand} {text : String} (spells : operand.Spells text) :
    Spells (.value operand) text

theorem Operand.spells_text (o : Operand) : o.Spells o.text := by
  cases o with
  | literal l => exact .literal l
  | member node name => exact .member node name
  | held output name => exact .held output name

theorem Operand.rel_spells_text (o : Option Operand) :
    Option.Rel Spells o (o.map Operand.text) := by
  cases o with
  | none => exact .none
  | some o => exact .some o.spells_text

theorem Operand.textOrNone_eq (o : Option Operand) :
    textOrNone o = (o.map Operand.text).getD "" := by
  cases o <;> rfl

theorem Argument.spells_text (a : Argument) : a.Spells a.text := by
  cases a with
  | archetype a => exact .archetype a
  | absent => exact .absent
  | result output name => exact .result output name
  | value o => exact .value o.spells_text

theorem Argument.forall₂_spells_text (as : List Argument) :
    Forall₂ Spells as (as.map Argument.text) :=
  List.forall₂_map_right_iff.mpr (List.forall₂_same.mpr fun a _ => a.spells_text)

/-! ### Calls -/

/-- The text of what a call evaluates, with the text of the object that a function is called on and
the texts of the arguments: an operator between two arguments, or a function with its arguments in
brackets and the object in front. -/
inductive CallForm.Spells : CallForm → Option String → List String → String → Prop
  | operation (symbol : String) {left right : Argument} {x y : String} (first : left.Spells x)
    (second : right.Spells y) :
    Spells (.operation symbol left right) none [x, y] (x ++ " " ++ symbol ++ " " ++ y)
  | invocation (function : String) {target : Option Operand} {object : Option String}
    {arguments : List Argument} {entries : List String}
    (calledOn : Option.Rel Operand.Spells target object)
    (passed : Forall₂ Argument.Spells arguments entries) :
    Spells (.invocation target function arguments) object entries
      (object.elim "" (· ++ ".") ++ function ++
        if entries = [] then "()" else "( " ++ ", ".intercalate entries ++ " )")

/-- The line of a call: the variable that takes what it returns, the class that this is taken for,
and what the call evaluates. -/
inductive CallStatement.Spells (st : CallStatement) (object : Option String)
    (entries : List String) : String → Prop
  | line {call : String} (spells : st.form.Spells object entries call) :
    Spells st object entries (st.result.elim "" (·.2 ++ " = ") ++
      st.cast.elim call (fun className => className ++ "( " ++ call ++ " )") ++ ";")

theorem CallForm.spells_text (form : CallForm) :
    form.Spells (form.callee?.map Operand.text) (form.arguments.map Argument.text) form.text := by
  cases form with
  | operation symbol left right => exact .operation symbol left.spells_text right.spells_text
  | invocation target function as =>
    have spelled := Spells.invocation function (Operand.rel_spells_text target)
      (Argument.forall₂_spells_text as)
    rw [Option.elim_map] at spelled
    rw [text_invocation]
    exact spelled

theorem CallStatement.spells_text (st : CallStatement) :
    st.Spells (st.form.callee?.map Operand.text) (st.form.arguments.map Argument.text) st.text :=
  .line st.form.spells_text

/-! ### Heads -/

namespace Head

/-- The line of a head: a call, a test, or the line that opens a loop. -/
inductive Spells : Head → String → Prop
  | call {st : CallStatement} {object : Option String} {entries : List String} {line : String}
    (spells : st.Spells object entries line) : Spells (.call st) line
  | branch (node : NodeId) {condition : Option Operand} {x : Option String}
    (spells : Option.Rel Operand.Spells condition x) :
    Spells (.branch node condition) ("if( " ++ x.getD "" ++ " == TRUE)")
  | loop {header : LoopHeader} {x : Option String}
    (spells : Option.Rel Operand.Spells header.bound x) :
    Spells (.loop header) ("for( " ++ header.counter ++ "=0; " ++ header.counter ++ "<" ++
      x.getD "" ++ "; " ++ header.counter ++ "++ )")

/-- The line of a head shows a text at a place. -/
inductive ShowsAt : Head → Use → String → String → Prop
  | argument {st : CallStatement} {object : Option String} {entries : List String}
    {k : Nat} {text line : String} (spells : st.Spells object entries line)
    (place : entries[k]? = some text) : ShowsAt (.call st) (.argument k) text line
  | target {st : CallStatement} {entries : List String} {text line : String}
    (spells : st.Spells (some text) entries line) : ShowsAt (.call st) .target text line
  | condition (node : NodeId) (operand : Option Operand) (text : String) :
    ShowsAt (.branch node operand) .condition text ("if( " ++ text ++ " == TRUE)")
  | bound (header : LoopHeader) (text : String) :
    ShowsAt (.loop header) .bound text ("for( " ++ header.counter ++ "=0; " ++ header.counter ++
      "<" ++ text ++ "; " ++ header.counter ++ "++ )")

/-- The line of a head sets a variable: one that takes what a call returns, one that a call passes
out, or the counter of a loop. -/
inductive Sets : Head → Variable → String → Prop
  | result {st : CallStatement} {v : Variable} {call : String} (result : st.result = some v) :
    Sets (.call st) v (v.2 ++ " = " ++ call)
  | passed {st : CallStatement} {object : Option String} {entries : List String} {k : Nat}
    {v : Variable} {line : String} (spells : st.Spells object entries line)
    (argument : st.form.arguments[k]? = some (.result v.1 v.2))
    (place : entries[k]? = some v.2) : Sets (.call st) v line
  | counter (output : OutputId) (header : LoopHeader) (bound : String) :
    Sets (.loop header) (output, header.counter) ("for( " ++ header.counter ++ "=0; " ++
      header.counter ++ "<" ++ bound ++ "; " ++ header.counter ++ "++ )")

variable {head : Head} {use : Use} {operand : Operand} {st : CallStatement} {v : Variable}

/-- **Heads are written as they are spelled.** -/
theorem spells_text (head : Head) : head.Spells head.text := by
  cases head with
  | call st => exact .call st.spells_text
  | branch node condition =>
    rw [text, Operand.textOrNone_eq]
    exact .branch node (Operand.rel_spells_text condition)
  | loop header =>
    have spelled := Spells.loop (Operand.rel_spells_text header.bound)
    rwa [← Operand.textOrNone_eq] at spelled

/-- The value at a place of a head is shown there. -/
theorem showsAt_text (h : head.operandAt use = some operand) :
    head.ShowsAt use operand.text head.text := by
  cases head with
  | call st =>
    cases use with
    | argument k =>
      obtain ⟨a, ha, hvalue⟩ := Option.bind_eq_some_iff.mp h
      refine .argument st.spells_text ?_
      cases a with
      | value o =>
        obtain rfl := Option.some.inj hvalue
        simp [ha, Argument.text]
      | archetype | absent | result => cases hvalue
    | target =>
      have callee : st.form.callee? = some operand := h
      have spells := st.spells_text
      rw [callee] at spells
      exact .target spells
    | condition | bound => cases h
  | branch node condition =>
    cases use with
    | condition =>
      obtain rfl : condition = some operand := h
      exact .condition node (some operand) operand.text
    | argument | target | bound => cases h
  | loop header =>
    cases use with
    | bound =>
      have bound : header.bound = some operand := h
      have text : Operand.textOrNone header.bound = operand.text := by
        rw [bound, Operand.textOrNone, Option.elim_some]
      show (Head.loop header).ShowsAt .bound operand.text header.text
      rw [LoopHeader.text, text]
      exact .bound header operand.text
    | argument | target | condition => cases h

/-- What takes the result of a call is set by its line. -/
theorem sets_of_result (h : st.result = some v) : (Head.call st).Sets v (Head.call st).text := by
  have line : st.text = v.2 ++ " = " ++
      (st.cast.elim st.form.text (fun className => className ++ "( " ++ st.form.text ++ " )")
        ++ ";") := by
    simp [CallStatement.text, h, String.append_assoc]
  show (Head.call st).Sets v st.text
  exact line ▸ .result h

/-- What a call passes out is set by its line. -/
theorem sets_of_argument (h : v ∈ st.form.arguments.filterMap Argument.set?) :
    (Head.call st).Sets v (Head.call st).text := by
  obtain ⟨a, hmem, hset⟩ := List.mem_filterMap.mp h
  obtain ⟨k, hk⟩ := List.mem_iff_getElem?.mp hmem
  cases a with
  | result output name =>
    obtain rfl := Option.some.inj hset
    exact .passed st.spells_text hk (by simp [hk, Argument.text])
  | archetype | absent | value => cases hset

end Head

end NodeScript
