import NodeScript.Proofs.Script.Spelled

/-!
# The lines of a script

What the lines of a script are: the line of the event, braces, declarations, and the lines of the
statements, at their levels of indentation. The marks of a script (`EventScript.marks`) say this
line by line, and `Mark.Spells` says how the line of a mark is spelled. The lines of a script are
those of its marks (`EventScript.forall₂_prints`), and its declarations, heads and assignments are
among the marks in their order (`EventScript.Printed`).

So what is known about the statements of a script is known about its lines: each has its place
(`EventScript.LineAt`), and what is before it in one order is before it in the other.
-/

namespace NodeScript

open List (Forall₂)

/-! ### Marks -/

/-- What a line of a script is. -/
inductive Mark where
  | event (name : String) (parameters : List VariableDecl)
  | opening
  | closing
  /-- The other arm of a branch follows. -/
  | otherwise
  | blank
  | declaration (decl : VariableDecl)
  | statement (head : Head)
  | assignment (statement : Assignment)
  deriving DecidableEq, Repr

namespace Mark

/-- The text of a line. -/
inductive Spells : Mark → String → Prop
  | event (name : String) (parameters : List VariableDecl) :
    Spells (.event name parameters) ("event " ++ name ++ "(" ++
      ", ".intercalate (parameters.map fun p => p.type ++ " " ++ p.name) ++ ")")
  | opening : Spells .opening "\x7b"
  | closing : Spells .closing "\x7d"
  | otherwise : Spells .otherwise "else"
  | blank : Spells .blank ""
  | declaration (d : VariableDecl) :
    Spells (.declaration d) ("local " ++ d.type ++ " " ++ d.name ++ ";")
  | statement {head : Head} {text : String} (spells : head.Spells text) :
    Spells (.statement head) text
  | assignment (a : Assignment) : Spells (.assignment a) (a.name ++ " = " ++ a.value ++ ";")

/-- A line is that of a mark: it stands at its level and is spelled as it says. -/
structure Prints (mark : Nat × Mark) (line : Line) : Prop where
  level : line.indent = mark.1
  spells : mark.2.Spells line.text

/-- The variable that a line declares. -/
def declaration? : Mark → Option VariableDecl
  | declaration d => some d
  | _ => none

/-- The head that a line is the line of. -/
def head? : Mark → Option Head
  | statement head => some head
  | _ => none

/-- The assignment that a line is the line of. -/
def assignment? : Mark → Option Assignment
  | assignment a => some a
  | _ => none

variable {mark : Mark}

/-- The text of a line as it is written. -/
def text : Mark → String
  | event name parameters =>
    "event " ++ name ++ "(" ++ ", ".intercalate (parameters.map VariableDecl.text) ++ ")"
  | opening => "\x7b"
  | closing => "\x7d"
  | otherwise => "else"
  | blank => ""
  | declaration d => "local " ++ d.text ++ ";"
  | statement head => head.text
  | assignment a => a.text

theorem text_declaration (d : VariableDecl) :
    (declaration d).text = "local " ++ d.type ++ " " ++ d.name ++ ";" := by
  simp [text, VariableDecl.text, String.append_assoc]

/-- Lines are written as they are spelled. -/
theorem spells_text (mark : Mark) : mark.Spells mark.text := by
  cases mark with
  | event name parameters => exact .event name parameters
  | opening => exact .opening
  | closing => exact .closing
  | otherwise => exact .otherwise
  | blank => exact .blank
  | declaration d =>
    rw [text_declaration]
    exact .declaration d
  | statement head => exact .statement head.spells_text
  | assignment a => exact .assignment a

/-- The line of a mark as it is written. -/
def line (mark : Nat × Mark) : Line :=
  ⟨mark.1, mark.2.text⟩

theorem prints_line (mark : Nat × Mark) : Prints mark (line mark) :=
  ⟨rfl, mark.2.spells_text⟩

theorem head?_eq_some {head : Head} : mark.head? = some head ↔ mark = .statement head := by
  cases mark <;> simp [head?]

theorem assignment?_eq_some {a : Assignment} :
    mark.assignment? = some a ↔ mark = .assignment a := by
  cases mark <;> simp [assignment?]

theorem declaration?_eq_some {d : VariableDecl} :
    mark.declaration? = some d ↔ mark = .declaration d := by
  cases mark <;> simp [declaration?]

end Mark

/-! ### The lines of a block -/

namespace Listing

/-- All lines a number of levels further in. -/
def shifted (depth : Nat) (l : Listing) : Listing :=
  l.map fun line => { line with indent := depth + line.indent }

@[simp] theorem shifted_nil (depth : Nat) : shifted depth [] = [] := rfl

@[simp] theorem shifted_cons (depth : Nat) (line : Line) (l : Listing) :
    shifted depth (line :: l) =
      { line with indent := depth + line.indent } :: shifted depth l := rfl

@[simp] theorem shifted_append (depth : Nat) (l m : Listing) :
    shifted depth (l ++ m) = shifted depth l ++ shifted depth m :=
  List.map_append

@[simp] theorem shifted_indented (depth : Nat) (l : Listing) :
    l.indented.shifted depth = l.shifted (depth + 1) := by
  simp [indented, shifted, Nat.add_comm, Nat.add_left_comm]

theorem shifted_zero (l : Listing) : l.shifted 0 = l := by
  simp [shifted]

end Listing

namespace Block

/-- The assignments of a block in the order of its text. -/
def assignments : Block → List Assignment
  | done => []
  | call _ rest => rest.assignments
  | assign a rest => a :: rest.assignments
  | branch _ _ t f rest => t.assignments ++ (f.assignments ++ rest.assignments)
  | loop _ body rest => body.assignments ++ rest.assignments

/-- What the lines of a block are, if it starts at a level of indentation. -/
def marks : Block → Nat → List (Nat × Mark)
  | done, _ => []
  | call st rest, k => (k, .statement (.call st)) :: rest.marks k
  | assign a rest, k => (k, .assignment a) :: rest.marks k
  | branch n c t f rest, k =>
    (k, .statement (.branch n c)) :: (k, .opening) :: (t.marks (k + 1) ++
      (k, .closing) :: (k, .otherwise) :: (k, .opening) :: (f.marks (k + 1) ++
        (k, .closing) :: rest.marks k))
  | loop header body rest, k =>
    (k, .statement (.loop header)) :: (k, .opening) :: (body.marks (k + 1) ++
      (k, .closing) :: (k, .blank) :: rest.marks k)

variable (b : Block) (k : Nat)

/-- The lines of a block are those of its marks. -/
theorem lines_eq : b.lines.shifted k = (b.marks k).map Mark.line := by
  induction b generalizing k with
  | done => rfl
  | call st rest ih => exact congrArg _ (ih k)
  | assign a rest ih => exact congrArg _ (ih k)
  | branch n c t f rest iht ihf ih =>
    simp [lines, marks, Line.flat, iht (k + 1), ihf (k + 1), ih k, Mark.line, Mark.text, Head.text]
  | loop header body rest ihb ih =>
    simp [lines, marks, Line.flat, ihb (k + 1), ih k, Mark.line, Mark.text, Head.text]

/-- The heads of a block are among its lines, in this order. -/
theorem heads_marks : (b.marks k).filterMap (·.2.head?) = b.heads := by
  induction b generalizing k <;> simp_all [marks, heads, Mark.head?]

/-- The assignments of a block are among its lines, in this order. -/
theorem assignments_marks : (b.marks k).filterMap (·.2.assignment?) = b.assignments := by
  induction b generalizing k <;> simp_all [marks, assignments, Mark.assignment?]

/-- No line of a block declares a variable. -/
theorem declarations_marks : (b.marks k).filterMap (·.2.declaration?) = [] := by
  induction b generalizing k <;>
    simp_all [marks, Mark.declaration?, -List.filterMap_eq_nil_iff]

end Block

/-! ### The lines of a script -/

namespace EventScript

/-- What the lines of a script are: the line of the event, and in braces the declarations, an empty
line and the statements. -/
def marks (script : EventScript) : List (Nat × Mark) :=
  (0, .event script.name script.parameters) :: (0, .opening) :: (script.body.elim [] (fun block =>
    script.locals.map (fun d => (1, .declaration d)) ++ (0, .blank) :: block.marks 1) ++
      [(0, .closing)])

/-- The lines of a script are those of its marks. -/
theorem lines_eq (script : EventScript) : script.lines = script.marks.map Mark.line := by
  unfold lines bodyLines marks
  cases script.body with
  | none => rfl
  | some block =>
    have statements : block.lines.indented = (block.marks 1).map Mark.line := by
      rw [← block.lines_eq, ← Listing.shifted_indented, Listing.shifted_zero]
    simp [statements, Line.flat, header, Mark.line, Mark.text]

/-- **The lines of a script are spelled as its marks say.** -/
theorem forall₂_prints (script : EventScript) :
    Forall₂ Mark.Prints script.marks script.lines := by
  rw [lines_eq, List.forall₂_map_right_iff, List.forall₂_same]
  exact fun mark _ => Mark.prints_line mark

/-- The lines of the statements stand in the script without a gap. -/
theorem infix_statements (script : EventScript) : script.statements.marks 1 <:+: script.marks := by
  unfold marks
  cases hbody : script.body with
  | none =>
    rw [statements_of_none hbody]
    exact List.nil_infix
  | some block =>
    rw [statements_of_body hbody]
    have inside : block.marks 1 <:+: script.locals.map (fun d => (1, Mark.declaration d)) ++
        (0, .blank) :: block.marks 1 :=
      List.infix_append_of_infix_right (List.infix_cons List.infix_rfl)
    exact List.infix_cons (List.infix_cons (List.infix_append_of_infix_left inside))

/-- How a script is printed: its lines are those of its marks, and its declarations, heads and
assignments are among these, in their order. -/
structure Printed (script : EventScript) : Prop where
  lines : Forall₂ Mark.Prints script.marks script.lines
  declarations : script.marks.filterMap (·.2.declaration?) = script.locals
  heads : script.marks.filterMap (·.2.head?) = script.statements.heads
  assignments : script.marks.filterMap (·.2.assignment?) = script.statements.assignments

/-- What is found among the lines of a script is found among its declarations and the lines of its
statements, if it is found neither in the line of the event nor in braces and empty lines. -/
theorem filterMap_marks {α : Type} {f : Mark → Option α} {script : EventScript} {block : Block}
    (h : script.body = some block) (event : ∀ name parameters, f (.event name parameters) = none)
    (opening : f .opening = none) (closing : f .closing = none) (blank : f .blank = none) :
    script.marks.filterMap (fun mark => f mark.2) =
      script.locals.filterMap (fun d => f (.declaration d)) ++
        (block.marks 1).filterMap fun mark => f mark.2 := by
  simp [marks, h, event, opening, closing, blank]

/-- A script is printed so, if it declares nothing when it has no statements. -/
theorem printed_of_locals {script : EventScript} (h : script.body = none → script.locals = []) :
    script.Printed := by
  cases hbody : script.body with
  | none =>
    have marks : script.marks =
        [(0, .event script.name script.parameters), (0, .opening), (0, .closing)] := by
      simp [marks, hbody]
    refine ⟨script.forall₂_prints, ?_, ?_, ?_⟩ <;> rw [marks]
    · exact (h hbody).symm
    · rw [statements_of_none hbody]
      rfl
    · rw [statements_of_none hbody]
      rfl
  | some block =>
    refine ⟨script.forall₂_prints, ?_, ?_, ?_⟩ <;>
      rw [filterMap_marks hbody (fun _ _ => rfl) rfl rfl rfl]
    · rw [block.declarations_marks, List.append_nil]
      exact List.filterMap_some
    · rw [statements_of_body hbody, block.heads_marks]
      simp [Mark.head?]
    · rw [statements_of_body hbody, block.assignments_marks]
      simp [Mark.assignment?]

/-! ### Places -/

/-- The line at a place of a script is that of a mark, and this is its text. Places are counted from
the line of the event. -/
structure LineAt (script : EventScript) (i : Nat) (mark : Mark) (text : String) : Prop where
  place : ∃ level, script.marks[i]? = some (level, mark) ∧ script.lines[i]? = some ⟨level, text⟩
  spells : mark.Spells text

variable {script : EventScript} {i j : Nat} {level : Nat} {mark : Mark} {text : String}
  {head other : Head}

/-- Each mark has its line. -/
theorem lineAt (h : script.marks[i]? = some (level, mark)) : script.LineAt i mark mark.text :=
  ⟨⟨level, h, by rw [lines_eq, List.getElem?_map, h]; rfl⟩, mark.spells_text⟩

/-- What is found among the marks has a line. -/
theorem exists_lineAt {α : Type} {f : Mark → Option α} {a : α}
    (h : a ∈ script.marks.filterMap (fun mark => f mark.2)) :
    ∃ i mark, f mark = some a ∧ script.LineAt i mark mark.text := by
  obtain ⟨⟨level, mark⟩, hmem, hmark⟩ := List.mem_filterMap.mp h
  obtain ⟨i, hi⟩ := List.mem_iff_getElem?.mp hmem
  exact ⟨i, mark, hmark, lineAt hi⟩

theorem LineAt.spells_head (h : script.LineAt i (.statement head) text) : head.Spells text := by
  cases h.spells with
  | statement spells => exact spells

/-- A head has its place in the lines behind those before it. -/
theorem LineAt.place_in_heads (h : script.LineAt i (.statement head) text)
    (printed : script.Printed) : ∃ after,
      script.statements.heads = (script.marks.take i).filterMap (·.2.head?) ++ head :: after := by
  obtain ⟨level, hmark, -⟩ := h.place
  rw [← printed.heads]
  exact filterMap_place hmark rfl

/-- Every head has a line. -/
theorem exists_lineAt_head (printed : script.Printed) (h : head ∈ script.statements.heads) :
    ∃ i text, script.LineAt i (.statement head) text := by
  rw [← printed.heads] at h
  obtain ⟨i, mark, hhead, line⟩ := exists_lineAt h
  obtain rfl := Mark.head?_eq_some.mp hhead
  exact ⟨i, _, line⟩

theorem LineAt.text_eq (h : script.LineAt i mark text) : text = mark.text := by
  obtain ⟨level, hmark, hline⟩ := h.place
  rw [lines_eq, List.getElem?_map, hmark] at hline
  exact (Line.mk.inj (Option.some.inj hline)).2.symm

/-- A script declares the variables that its lines declare. -/
theorem Printed.mem_locals_iff (printed : script.Printed) {d : VariableDecl} :
    d ∈ script.locals ↔
      ∃ i, script.LineAt i (.declaration d) ("local " ++ d.type ++ " " ++ d.name ++ ";") := by
  rw [← printed.declarations]
  constructor
  · intro h
    obtain ⟨i, mark, hd, line⟩ := exists_lineAt h
    obtain rfl := Mark.declaration?_eq_some.mp hd
    exact ⟨i, (Mark.text_declaration d) ▸ line⟩
  · rintro ⟨i, line⟩
    obtain ⟨level, hi, -⟩ := line.place
    exact List.mem_filterMap.mpr ⟨_, List.mem_of_getElem? hi, rfl⟩

/-- Exactly one line declares a variable of this name, and it declares it with this type. -/
def DeclaresOnce (script : EventScript) (d : VariableDecl) : Prop :=
  ∃ i, script.LineAt i (.declaration d) ("local " ++ d.type ++ " " ++ d.name ++ ";") ∧
    ∀ j d' text, script.LineAt j (.declaration d') text → d'.name = d.name → j = i

theorem Printed.declaresOnce (printed : script.Printed) {d : VariableDecl}
    (h : script.locals.filter (·.name = d.name) = [d]) : script.DeclaresOnce d := by
  have hd : d ∈ script.locals.filter (·.name = d.name) := h ▸ List.mem_singleton_self d
  obtain ⟨i, line⟩ := printed.mem_locals_iff.mp (List.mem_filter.mp hd).1
  refine ⟨i, line, fun j d' text line' same => ?_⟩
  have alone : (script.locals.filter (·.name = d.name)).Pairwise fun _ _ => False := by
    rw [h]
    exact List.pairwise_singleton _ _
  rw [List.pairwise_filter, ← printed.declarations] at alone
  obtain ⟨_, hi, -⟩ := line.place
  obtain ⟨_, hj, -⟩ := line'.place
  exact place_unique alone hj rfl hi rfl (by simp [same]) (by simp [same])

/-- Heads that are not apart have one line, if all others are. -/
theorem LineAt.unique {R : Head → Head → Prop} {text' : String}
    (h : script.LineAt i (.statement head) text)
    (h' : script.LineAt j (.statement other) text')
    (apart : (script.marks.filterMap (·.2.head?)).Pairwise R) (hR : ¬ R head other)
    (hR' : ¬ R other head) : i = j := by
  obtain ⟨_, hi, -⟩ := h.place
  obtain ⟨_, hj, -⟩ := h'.place
  exact place_unique apart hi rfl hj rfl hR hR'

/-- Every assignment has a line. -/
theorem exists_lineAt_assignment {a : Assignment} (printed : script.Printed)
    (h : a ∈ script.statements.assignments) :
    ∃ i, script.LineAt i (.assignment a) (a.name ++ " = " ++ a.value ++ ";") := by
  rw [← printed.assignments] at h
  obtain ⟨i, mark, ha, line⟩ := exists_lineAt h
  obtain rfl := Mark.assignment?_eq_some.mp ha
  exact ⟨i, line⟩

/-- The heads before a place have their lines before it. -/
theorem exists_lineAt_before (h : other ∈ (script.marks.take i).filterMap (·.2.head?)) :
    ∃ j < i, ∃ text, script.LineAt j (.statement other) text := by
  obtain ⟨j, before, ⟨level, mark⟩, hj, hhead⟩ := exists_place_of_mem_take h
  obtain rfl := Mark.head?_eq_some.mp hhead
  exact ⟨j, before, _, lineAt hj⟩

end EventScript

end NodeScript
