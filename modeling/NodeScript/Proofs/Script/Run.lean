import NodeScript.Proofs.Script.Emitted

/-!
# Running a script

A run takes one arm of every branch it meets and goes through the body of a loop as often as is
decided when it meets the loop. The decisions are given in the order in which they come up
(`Decisions`), and a run is described by what it meets from a given decision on (`Course`).

Both a block and its text can be run. The text is run as it stands there: braces say which lines
belong to an arm or a body, and the word after a closing brace says whether there is another arm
(`Listing.run`). Running the text of a block meets the lines of what running the block meets
(`Block.run_lines`), so the lines of a block are put together as its statements are.
-/

namespace NodeScript

/-- What is decided on the way, by the number of decisions made before: the arm, if the decision is
that of a branch, and the number of runs, if it is that of a loop. -/
structure Decisions where
  arm : Nat → Bool
  runs : Nat → Nat

/-- What is met after a number of decisions, and how many decisions are made by then. -/
abbrev Course (α : Type) :=
  Nat → List α × Nat

namespace Course

variable {α β : Type}

/-- Nothing is met. -/
def nothing : Course α :=
  fun t => ([], t)

/-- One thing is met. -/
def meet (a : α) : Course α :=
  fun t => ([a], t)

/-- One course after the other. -/
def andThen (c d : Course α) : Course α :=
  fun t => ((c t).1 ++ (d (c t).2).1, (d (c t).2).2)

/-- A course a number of times. -/
def times (c : Course α) : Nat → Course α
  | 0 => nothing
  | n + 1 => c.andThen (c.times n)

/-- A course that depends on the next decision. -/
def decide (c : Nat → Course α) : Course α :=
  fun t => c t (t + 1)

/-- The course that shows of what is met only what `f` makes of it. -/
def filterMap (f : α → Option β) (c : Course α) : Course β :=
  fun t => ((c t).1.filterMap f, (c t).2)

@[simp] theorem nothing_andThen (c : Course α) : nothing.andThen c = c := rfl

@[simp] theorem andThen_nothing (c : Course α) : c.andThen nothing = c := by
  funext t
  simp [andThen, nothing]

theorem andThen_assoc (b c d : Course α) : (b.andThen c).andThen d = b.andThen (c.andThen d) := by
  funext t
  simp [andThen]

section FilterMap

variable (f : α → Option β)

@[simp] theorem filterMap_nothing : filterMap f nothing = nothing := rfl

theorem filterMap_meet (a : α) : filterMap f (meet a) = (f a).elim nothing meet := by
  funext t
  cases h : f a <;> simp [filterMap, meet, nothing, h]

@[simp] theorem filterMap_andThen (c d : Course α) :
    filterMap f (c.andThen d) = (filterMap f c).andThen (filterMap f d) := by
  funext t
  simp [filterMap, andThen]

@[simp] theorem filterMap_times (c : Course α) (n : Nat) :
    filterMap f (c.times n) = (filterMap f c).times n := by
  induction n with
  | zero => rfl
  | succ n ih => simp [times, ih]

theorem filterMap_decide (c : Nat → Course α) :
    filterMap f (decide c) = decide fun t => filterMap f (c t) := rfl

end FilterMap

/-! ### What is met -/

/-- All that is met has a property, whatever is decided before. -/
def All (P : α → Prop) (c : Course α) : Prop :=
  ∀ t, ∀ a ∈ (c t).1, P a

namespace All

variable {P Q : α → Prop} {c d : Course α}

theorem nothing : All P (Course.nothing : Course α) := fun _ _ ha => by cases ha

theorem meet {a : α} (ha : P a) : All P (Course.meet a) := fun _ b hb => by
  obtain rfl := List.mem_singleton.mp hb
  exact ha

theorem andThen (hc : All P c) (hd : All P d) : All P (c.andThen d) := fun t a ha =>
  (List.mem_append.mp ha).elim (hc t a) (hd (c t).2 a)

theorem times (hc : All P c) (n : Nat) : All P (c.times n) := by
  induction n with
  | zero => exact nothing
  | succ n ih => exact hc.andThen ih

theorem decide {c : Nat → Course α} (hc : ∀ k, All P (c k)) : All P (Course.decide c) :=
  fun t a ha => hc t (t + 1) a ha

theorem imp (hc : All P c) (h : ∀ a, P a → Q a) : All Q c := fun t a ha => h a (hc t a ha)

end All

end Course

/-! ### Running a block -/

/-- What a run meets. -/
inductive Passage where
  | call (statement : CallStatement)
  | assign (statement : Assignment)
  | branch (node : NodeId) (condition : Option Operand) (arm : Bool)
  | loop (header : LoopHeader) (runs : Nat)
  deriving DecidableEq, Repr

/-- The line that is met. -/
def Passage.text : Passage → String
  | call s => s.text
  | assign s => s.text
  | branch _ condition _ => "if( " ++ Operand.textOrNone condition ++ " == TRUE)"
  | loop h _ => h.text

namespace Block

open Course

/-- The course of a run through a block. -/
def run (d : Decisions) : Block → Course Passage
  | done => nothing
  | call s rest => (meet (.call s)).andThen (rest.run d)
  | assign s rest => (meet (.assign s)).andThen (rest.run d)
  | branch n c t f rest =>
    (decide fun k => (meet (.branch n c (d.arm k))).andThen
      (if d.arm k then t.run d else f.run d)).andThen (rest.run d)
  | loop h body rest =>
    (decide fun k => (meet (.loop h (d.runs k))).andThen
      ((body.run d).times (d.runs k))).andThen (rest.run d)

@[simp] theorem run_append (d : Decisions) (a b : Block) :
    (a ++ b).run d = (a.run d).andThen (b.run d) := by
  show (a.append b).run d = (a.run d).andThen (b.run d)
  induction a <;> simp_all [append, run, andThen_assoc]

end Block

/-! ### Running a text -/

namespace Listing

open Course

/-- The lines up to the brace that closes an open one, and those behind it. Inside, `depth` more
braces are open. -/
def untilClose : (depth : Nat) → List String → List String × List String
  | _, [] => ([], [])
  | depth, line :: rest =>
    if line = "\x7d" then
      match depth with
      | 0 => ([], rest)
      | depth + 1 => (line :: (untilClose depth rest).1, (untilClose depth rest).2)
    else
      let depth := if line = "\x7b" then depth + 1 else depth
      (line :: (untilClose depth rest).1, (untilClose depth rest).2)

/-- The lines between braces, if the lines begin with a brace, and those behind them. -/
def braced? : List String → Option (List String × List String)
  | [] => none
  | line :: rest => if line = "\x7b" then some (untilClose 0 rest) else none

/-- The lines of another arm, if there is one, and those behind it. -/
def otherArm? : List String → Option (List String × List String)
  | [] => none
  | line :: rest => if line = "else" then braced? rest else none

theorem length_untilClose (depth : Nat) (l : List String) :
    (untilClose depth l).1.length ≤ l.length ∧ (untilClose depth l).2.length ≤ l.length := by
  induction l generalizing depth with
  | nil => simp [untilClose]
  | cons line rest ih =>
    unfold untilClose
    split
    · cases depth with
      | zero => simp
      | succ depth =>
        have := ih depth
        simp only [List.length_cons]
        omega
    · have := ih (if line = "\x7b" then depth + 1 else depth)
      simp only [List.length_cons]
      omega

@[grind →]
theorem length_braced? {l inner behind : List String} (h : braced? l = some (inner, behind)) :
    inner.length < l.length ∧ behind.length < l.length := by
  cases l with
  | nil => simp [braced?] at h
  | cons line rest =>
    simp only [braced?] at h
    split at h
    · have := length_untilClose 0 rest
      simp only [Option.some.inj h, List.length_cons] at this ⊢
      omega
    · cases h

@[grind →]
theorem length_otherArm? {l inner behind : List String}
    (h : otherArm? l = some (inner, behind)) :
    inner.length < l.length ∧ behind.length < l.length := by
  cases l with
  | nil => simp [otherArm?] at h
  | cons line rest =>
    simp only [otherArm?] at h
    split at h
    · have := length_braced? h
      simp only [List.length_cons]
      omega
    · cases h

/-- The course of a run through the lines of a text. Lines between braces belong to the line before
them; if another arm follows, they are an arm of a branch, otherwise the body of a loop. Empty lines
are passed over. -/
def runText (d : Decisions) : List String → Course String
  | [] => nothing
  | line :: rest =>
    match _h : braced? rest with
    | none => (if line = "" then nothing else meet line).andThen (runText d rest)
    | some (inner, behind) =>
      match _h' : otherArm? behind with
      | some (other, after) =>
        (decide fun k => (meet line).andThen
          (if d.arm k then runText d inner else runText d other)).andThen (runText d after)
      | none =>
        (decide fun k => (meet line).andThen
          ((runText d inner).times (d.runs k))).andThen (runText d behind)
termination_by l => l.length
decreasing_by all_goals grind

/-- The course of a run through a listing. -/
def run (d : Decisions) (l : Listing) : Course String :=
  runText d (l.map Line.text)

end Listing

/-! ### The text of a block -/

/-- A line that is no brace and not empty. -/
structure Plain (line : String) : Prop where
  opens : line ≠ "\x7b"
  closes : line ≠ "\x7d"
  nonempty : line ≠ ""

/-- How a line ends decides that it is neither a brace nor empty. -/
theorem Plain.append {t : String} (h : Plain t) (s : String) : Plain (s ++ t) := by
  have one : ∀ b : Char, t ≠ String.ofList [b] → s ++ t ≠ String.ofList [b] := by
    intro b hb heq
    have heq : s.toList ++ t.toList = [b] := by simpa using congrArg String.toList heq
    rcases List.append_eq_singleton_iff.mp heq with ⟨-, ht⟩ | ⟨-, ht⟩
    · exact hb (String.toList_inj.mp (by simpa using ht))
    · exact h.nonempty (String.toList_inj.mp (by simpa using ht))
  exact ⟨one '\x7b' h.opens, one '\x7d' h.closes, fun heq => h.nonempty (by simp_all)⟩

theorem Passage.plain_text (p : Passage) : Plain p.text := by
  have semicolon : Plain ";" := by constructor <;> decide
  have test : Plain " == TRUE)" := by constructor <;> decide
  have count : Plain "++ )" := by constructor <;> decide
  cases p with
  | call s => exact semicolon.append _
  | assign s => exact semicolon.append _
  | branch _ condition _ => exact test.append _
  | loop h _ => exact count.append _

namespace Listing

open Course

/-- Lines between which every brace has its partner: looking for the brace that closes an open one
goes past them. -/
def Balanced (l : List String) : Prop :=
  ∀ depth rest, untilClose depth (l ++ rest) =
    (l ++ (untilClose depth rest).1, (untilClose depth rest).2)

theorem balanced_nil : Balanced [] := fun _ _ => rfl

theorem Balanced.append {l m : List String} (hl : Balanced l) (hm : Balanced m) :
    Balanced (l ++ m) := by
  intro depth rest
  rw [List.append_assoc, hl, hm, List.append_assoc]

theorem Balanced.cons {line : String} {l : List String} (hl : Balanced l)
    (hopen : line ≠ "\x7b") (hclose : line ≠ "\x7d") : Balanced (line :: l) := by
  intro depth rest
  simp [untilClose, hopen, hclose, hl depth rest]

theorem Balanced.braces {l : List String} (hl : Balanced l) :
    Balanced ("\x7b" :: (l ++ ["\x7d"])) := by
  intro depth rest
  have close : ("\x7d" : String) ≠ "\x7b" := by decide
  simp [untilClose, hl (depth + 1) _, close.symm]

/-- The lines between braces are what stands between them. -/
theorem braced?_braces {l : List String} (hl : Balanced l) (rest : List String) :
    braced? ("\x7b" :: (l ++ "\x7d" :: rest)) = some (l, rest) := by
  simp [braced?, hl 0 _, untilClose]

variable {d : Decisions} {line : String} {l t f rest : List String}

theorem runText_statement (hline : line ≠ "") (h : braced? rest = none) :
    runText d (line :: rest) = (meet line).andThen (runText d rest) := by
  rw [runText]
  split <;> simp_all

/-- Empty lines are passed over. -/
theorem runText_empty (h : braced? rest = none) : runText d ("" :: rest) = runText d rest := by
  rw [runText]
  split <;> simp_all

/-- Lines that no brace follows are met one after the other. -/
theorem runText_statements {first : List String} (plain : ∀ line ∈ first, Plain line)
    (h : braced? rest = none) (k : Nat) :
    runText d (first ++ rest) k = (first ++ (runText d rest k).1, (runText d rest k).2) := by
  induction first with
  | nil => rfl
  | cons line first ih =>
    have unbraced : braced? (first ++ rest) = none := by
      cases first with
      | nil => exact h
      | cons next _ => simp [braced?, (plain next (.tail _ (.head _))).opens]
    rw [List.cons_append, runText_statement (plain line (.head _)).nonempty unbraced]
    simp [andThen, meet, ih fun other hmem => plain other (.tail _ hmem)]

theorem runText_branch (ht : Balanced t) (hf : Balanced f) :
    runText d (line :: "\x7b" :: (t ++ "\x7d" :: "else" :: "\x7b" :: (f ++ "\x7d" :: rest))) =
      (decide fun k => (meet line).andThen
        (if d.arm k then runText d t else runText d f)).andThen (runText d rest) := by
  have hother : otherArm? ("else" :: "\x7b" :: (f ++ "\x7d" :: rest)) = some (f, rest) := by
    simp [otherArm?, braced?_braces hf]
  rw [runText]
  split
  · simp_all [braced?_braces ht]
  · rename_i inner behind h
    obtain ⟨rfl, rfl⟩ : t = inner ∧ _ = behind := by simpa [braced?_braces ht] using h
    split
    · rename_i other after h'
      obtain ⟨rfl, rfl⟩ : f = other ∧ rest = after := by simpa [hother] using h'
      rfl
    · simp_all

theorem runText_loop (hbody : Balanced l) (hrest : braced? rest = none) :
    runText d (line :: "\x7b" :: (l ++ "\x7d" :: "" :: rest)) =
      (decide fun k => (meet line).andThen ((runText d l).times (d.runs k))).andThen
        (runText d rest) := by
  rw [runText]
  split
  · simp_all [braced?_braces hbody]
  · rename_i inner behind h
    obtain ⟨rfl, rfl⟩ : l = inner ∧ _ = behind := by simpa [braced?_braces hbody] using h
    split
    · simp_all [otherArm?]
    · rw [runText_empty hrest]

end Listing

namespace Block

open Course Listing

/-- The texts of the lines of a block. -/
def texts (b : Block) : List String :=
  b.lines.map Line.text

private theorem texts_indented (l : Listing) : l.indented.map Line.text = l.map Line.text := by
  simp [Listing.indented, Function.comp_def]

theorem texts_branch (n : NodeId) (c : Option Operand) (t f rest : Block) (arm : Bool) :
    (branch n c t f rest).texts = (Passage.branch n c arm).text :: "\x7b" ::
      (t.texts ++ "\x7d" :: "else" :: "\x7b" :: (f.texts ++ "\x7d" :: rest.texts)) := by
  simp [texts, lines, texts_indented, Line.flat, Passage.text]

theorem texts_loop (h : LoopHeader) (body rest : Block) (runs : Nat) :
    (loop h body rest).texts = (Passage.loop h runs).text :: "\x7b" ::
      (body.texts ++ "\x7d" :: "" :: rest.texts) := by
  simp [texts, lines, texts_indented, Line.flat, Passage.text]

theorem balanced_texts (b : Block) : Balanced b.texts := by
  induction b with
  | done => exact balanced_nil
  | call s rest ih =>
    have plain := (Passage.call s).plain_text
    exact ih.cons plain.opens plain.closes
  | assign s rest ih =>
    have plain := (Passage.assign s).plain_text
    exact ih.cons plain.opens plain.closes
  | branch n c t f rest iht ihf ih =>
    have plain := (Passage.branch n c true).plain_text
    have second : Balanced ("else" :: ("\x7b" :: (f.texts ++ ["\x7d"]) ++ rest.texts)) :=
      (ihf.braces.append ih).cons (by decide) (by decide)
    rw [texts_branch n c t f rest true]
    simpa using (iht.braces.append second).cons plain.opens plain.closes
  | loop h body rest ihb ih =>
    have plain := (Passage.loop h 0).plain_text
    have behind : Balanced ("" :: rest.texts) := ih.cons (by decide) (by decide)
    rw [texts_loop h body rest 0]
    simpa using (ihb.braces.append behind).cons plain.opens plain.closes

/-- No block begins with a brace. -/
theorem braced?_texts (b : Block) : braced? b.texts = none := by
  have first : ∀ (p : Passage) l, braced? (p.text :: l) = none := fun p l => by
    simp [braced?, p.plain_text.opens]
  cases b with
  | done => rfl
  | call s rest => exact first (.call s) _
  | assign s rest => exact first (.assign s) _
  | branch n c t f rest => exact texts_branch n c t f rest true ▸ first ..
  | loop h body rest => exact texts_loop h body rest 0 ▸ first ..

/-- **The text runs as the block does.** Running the lines of a block under some decisions meets, in
this order, the lines of what running the block meets. -/
theorem run_lines (d : Decisions) (b : Block) :
    b.lines.run d = filterMap (fun p => some p.text) (b.run d) := by
  show runText d b.texts = _
  induction b with
  | done => rw [texts, lines, List.map_nil, runText]; rfl
  | call s rest ih =>
    rw [run, filterMap_andThen, ← ih]
    exact runText_statement (Passage.call s).plain_text.nonempty (braced?_texts rest)
  | assign s rest ih =>
    rw [run, filterMap_andThen, ← ih]
    exact runText_statement (Passage.assign s).plain_text.nonempty (braced?_texts rest)
  | branch n c t f rest iht ihf ih =>
    rw [texts_branch n c t f rest true, runText_branch (balanced_texts t) (balanced_texts f), iht,
      ihf, ih, run, filterMap_andThen, filterMap_decide]
    congr
    funext k
    cases d.arm k <;> rfl
  | loop h body rest ihb ih =>
    rw [texts_loop h body rest 0, runText_loop (balanced_texts body) (braced?_texts rest), ihb, ih,
      run, filterMap_andThen, filterMap_decide]
    simp only [filterMap_andThen, filterMap_times]
    rfl

end Block

/-! ### The text of a script -/

namespace EventScript

open Listing

variable {script : EventScript} {block : Block}

/-- The texts of the lines between the braces of a script. -/
def inner (script : EventScript) : List String :=
  script.bodyLines.map Line.text

theorem plain_declaration (decl : VariableDecl) : Plain ("local " ++ decl.text ++ ";") := by
  have semicolon : Plain ";" := by constructor <;> decide
  exact semicolon.append _

theorem inner_of_body (h : script.body = some block) :
    script.inner =
      script.locals.map (fun decl => "local " ++ decl.text ++ ";") ++ "" :: block.texts := by
  have statements : block.lines.indented.map Line.text = block.texts := by
    simp [Block.texts, Listing.indented, Function.comp_def]
  simp [inner, bodyLines, h, statements, Line.flat, Function.comp_def]

theorem balanced_inner (script : EventScript) : Balanced script.inner := by
  cases hbody : script.body with
  | none => simpa [inner, bodyLines, hbody] using balanced_nil
  | some block =>
    have blank : Balanced ("" :: block.texts) :=
      block.balanced_texts.cons (by decide) (by decide)
    rw [inner_of_body hbody]
    induction script.locals with
    | nil => exact blank
    | cons decl locals ih =>
      exact ih.cons (plain_declaration decl).opens (plain_declaration decl).closes

/-- Behind the line of the event stand these lines in braces, and nothing else. -/
theorem braced?_lines (script : EventScript) :
    braced? (script.lines.map Line.text).tail = some (script.inner, []) := by
  have texts : (script.lines.map Line.text).tail = "\x7b" :: (script.inner ++ "\x7d" :: []) := by
    simp [lines, inner, Line.flat]
  rw [texts]
  exact braced?_braces script.balanced_inner []

/-- Running the lines between the braces meets the declarations, and then the lines of what running
the block meets. -/
theorem run_inner_of_body (d : Decisions) (h : script.body = some block) (k : Nat) :
    runText d script.inner k =
      (script.locals.map (fun decl => "local " ++ decl.text ++ ";") ++
        (block.run d k).1.map Passage.text, (block.run d k).2) := by
  have statements : runText d ("" :: block.texts) k =
      ((block.run d k).1.map Passage.text, (block.run d k).2) := by
    rw [runText_empty block.braced?_texts]
    refine (congrFun (block.run_lines d) k).trans ?_
    exact Prod.ext (congrFun List.filterMap_eq_map' _) rfl
  have unbraced : braced? ("" :: block.texts) = none := by simp [braced?]
  rw [inner_of_body h, runText_statements ?_ unbraced, statements]
  intro line hline
  obtain ⟨decl, -, rfl⟩ := List.mem_map.mp hline
  exact plain_declaration decl

/-- **The text of a script runs as its statements do.** Running the lines between the braces meets
the declarations, and then the lines of what running the statements meets. A script without
statements is to declare nothing. -/
theorem run_inner (d : Decisions) (h : script.body = none → script.locals = []) (k : Nat) :
    runText d script.inner k =
      (script.locals.map (fun decl => "local " ++ decl.text ++ ";") ++
        (script.statements.run d k).1.map Passage.text, (script.statements.run d k).2) := by
  cases hbody : script.body with
  | none =>
    rw [h hbody, statements_of_none hbody, inner, bodyLines, hbody, List.map_nil, runText]
    rfl
  | some block =>
    rw [statements_of_body hbody]
    exact run_inner_of_body d hbody k

end EventScript

end NodeScript
