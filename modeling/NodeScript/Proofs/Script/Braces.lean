import NodeScript.Graph.Edit
import NodeScript.Lowering.Event
import NodeScript.Proofs.Except
import NodeScript.Proofs.Script.Run

/-!
# Braces and indentation

The lines of a script are read with a counter of open braces, which a closing brace takes down
before its line and an opening brace takes up behind its line. The counter tells the indentation of
every line, and it is back at zero only at the end.

The lines of a block are put together from single lines and from groups, a line with braces behind
it, and the braces of a test are followed by another group (`Listing.Nested`). Everything about the
counter is shown of such listings, whatever the texts of their lines are: no text of a statement is
a brace, because a statement ends in a semicolon.
-/

namespace NodeScript

/-! ### The counter -/

/-- By how much a line moves the counter. -/
def Line.weight (line : Line) : Int :=
  if line.text = "\x7b" then 1 else if line.text = "\x7d" then -1 else 0

namespace Listing

/-- The counter behind the lines: the braces they open less the braces they close. -/
def depth : Listing → Int
  | [] => 0
  | line :: l => line.weight + depth l

/-- The counter at a line. A closing brace takes it down before its line. -/
def depthAt (before : Listing) (line : Line) : Int :=
  if line.text = "\x7d" then depth before - 1 else depth before

@[simp] theorem depth_nil : depth [] = 0 := rfl

@[simp] theorem depth_cons (line : Line) (l : Listing) :
    depth (line :: l) = line.weight + depth l := rfl

@[simp] theorem depth_append (l m : Listing) : depth (l ++ m) = depth l + depth m := by
  induction l with
  | nil => simp
  | cons line l ih => simp [ih, Int.add_assoc]

@[simp] theorem depthAt_nil (line : Line) :
    depthAt [] line = if line.text = "\x7d" then -1 else 0 := by
  simp [depthAt]

@[simp] theorem depthAt_cons (first line : Line) (before : Listing) :
    depthAt (first :: before) line = first.weight + depthAt before line := by
  simp only [depthAt, depth_cons]
  split <;> omega

@[simp] theorem depthAt_append (l before : Listing) (line : Line) :
    depthAt (l ++ before) line = depth l + depthAt before line := by
  simp only [depthAt, depth_append]
  split <;> omega

@[simp] theorem weight_open (k : Nat) : Line.weight ⟨k, "\x7b"⟩ = 1 := rfl

@[simp] theorem weight_close (k : Nat) : Line.weight ⟨k, "\x7d"⟩ = -1 := rfl

theorem weight_eq_zero {line : Line} (hopen : line.text ≠ "\x7b") (hclose : line.text ≠ "\x7d") :
    line.weight = 0 := by
  simp [Line.weight, hopen, hclose]

/-- Lines that close the braces they open and no others. -/
structure Paired (l : Listing) : Prop where
  depth_eq : depth l = 0
  nonneg : ∀ {before after : Listing}, l = before ++ after → 0 ≤ depth before

/-- The brace that closes an open one is the only one with paired lines in between. -/
theorem Paired.unique {l m : Listing} {x y : Line} {after behind : Listing} (hl : l.Paired)
    (hm : m.Paired) (hx : x.text = "\x7d") (hy : y.text = "\x7d")
    (heq : l ++ x :: after = m ++ y :: behind) : l = m ∧ x = y ∧ after = behind := by
  have shorter : ∀ {l m : Listing} {x : Line} {t : Listing}, l.Paired → m.Paired →
      x.text = "\x7d" → m ≠ l ++ x :: t := by
    intro l m x t hl hm hx heq
    have split : m = (l ++ [x]) ++ t := by simp [heq]
    have := hm.nonneg split
    simp [hl.depth_eq, Line.weight, hx] at this
  rcases List.append_eq_append_iff.mp heq with ⟨z, rfl, hz⟩ | ⟨z, rfl, hz⟩
  · cases z with
    | nil => simp_all
    | cons a z => cases hz; exact absurd rfl (shorter hl hm hx)
  · cases z with
    | nil => simp_all
    | cons a z => cases hz; exact absurd rfl (shorter hm hl hy)

/-! ### What holds at every line -/

/-- What holds at every line, given the lines before it and the lines behind it. -/
def Everywhere (P : Listing → Line → Listing → Prop) (l : Listing) : Prop :=
  ∀ before line after, l = before ++ line :: after → P before line after

section Everywhere

variable {P Q : Listing → Line → Listing → Prop}

@[simp] theorem everywhere_nil : Everywhere P [] := by
  intro before line after heq
  simp at heq

@[simp] theorem everywhere_cons (line : Line) (l : Listing) :
    Everywhere P (line :: l) ↔ P [] line l ∧ Everywhere (fun before => P (line :: before)) l := by
  constructor
  · intro h
    exact ⟨h [] line l rfl, fun before x after heq => h (line :: before) x after (by simp [heq])⟩
  · rintro ⟨first, others⟩ before x after heq
    cases before with
    | nil => cases heq; exact first
    | cons a before => cases heq; exact others before x after rfl

@[simp] theorem everywhere_append (l m : Listing) :
    Everywhere P (l ++ m) ↔ Everywhere (fun before x after => P before x (after ++ m)) l ∧
      Everywhere (fun before => P (l ++ before)) m := by
  induction l generalizing P with
  | nil => simp
  | cons a l ih => simp [ih, and_assoc]

theorem Everywhere.imp {l : Listing} (h : Everywhere P l)
    (himp : ∀ before line after, P before line after → Q before line after) : Everywhere Q l :=
  fun before line after heq => himp _ _ _ (h before line after heq)

end Everywhere

/-! ### The lines that open something -/

/-- A line that a brace may follow. -/
inductive Heading : String → Prop where
  | event (name parameters : String) : Heading ("event " ++ name ++ "(" ++ parameters ++ ")")
  | test (condition : String) : Heading ("if( " ++ condition ++ " == TRUE)")
  | otherwise : Heading "else"
  | repetition (counter bound : String) :
    Heading ("for( " ++ counter ++ "=0; " ++ counter ++ "<" ++ bound ++ "; " ++ counter ++ "++ )")

/-- A line that begins as a test does. -/
def IsTest (text : String) : Prop :=
  ∃ rest, text = "if( " ++ rest

/-- How a text begins decides that it is no test. -/
theorem not_isTest {text : String} (h : text.toList.head? ≠ some 'i') : ¬ IsTest text := by
  rintro ⟨rest, rfl⟩
  simp at h

theorem Heading.plain {text : String} (h : Heading text) : Plain text := by
  have bracket : Plain ")" := by constructor <;> decide
  have test : Plain " == TRUE)" := by constructor <;> decide
  have count : Plain "++ )" := by constructor <;> decide
  cases h with
  | event name parameters => exact bracket.append _
  | test condition => exact test.append _
  | otherwise => constructor <;> decide
  | repetition counter bound => exact count.append _

theorem Heading.weight {text : String} (h : Heading text) (k : Nat) : Line.weight ⟨k, text⟩ = 0 :=
  weight_eq_zero h.plain.opens h.plain.closes

/-- A brace is opened directly behind a line that one may follow, which is indented as it is. -/
def Opened (before : Listing) (x : Line) : Prop :=
  x.text = "\x7b" → ∃ earlier head, before = earlier ++ [head] ∧ Heading head.text ∧
    head.indent = x.indent

/-- The brace that closes that of a test has another arm directly behind it, which is indented as it
is. -/
def Answered (x : Line) (after : Listing) : Prop :=
  IsTest x.text → ∀ (first : Line) (inner : Listing) (last : Line) (behind : Listing),
    after = first :: (inner ++ last :: behind) → first.text = "\x7b" → inner.Paired →
    last.text = "\x7d" →
    ∃ other others, behind = other :: others ∧ other.text = "else" ∧ other.indent = last.indent

theorem Opened.append {before : Listing} {x : Line} (h : Opened before x) (l : Listing) :
    Opened (l ++ before) x := by
  intro heq
  obtain ⟨earlier, head, rfl, hhead, hindent⟩ := h heq
  exact ⟨l ++ earlier, head, by rw [List.append_assoc], hhead, hindent⟩

/-- What holds of a test with the lines behind it holds if the lines go on where more braces are
closed than opened. -/
theorem Answered.extend {x y : Line} {after : Listing} (h : Answered x after)
    (hdepth : IsTest x.text → depth after ≤ 0) (hy : y.text ≠ "\x7b") (rest : Listing) :
    Answered x (after ++ y :: rest) := by
  rintro htest first inner last behind heq hfirst hinner hlast
  cases after with
  | nil => exact absurd hfirst (by cases heq; exact hy)
  | cons a after =>
    obtain ⟨rfl, htail⟩ := List.cons.inj heq
    -- The lines behind the first brace close it, so its partner is among them.
    have hlow : depth after < 0 := by
      have := hdepth htest
      rw [depth_cons, Line.weight, if_pos hfirst] at this
      omega
    have hinside : ∀ z, inner ≠ after ++ z := fun z hz =>
      absurd (hinner.nonneg hz) (by omega)
    rcases List.append_eq_append_iff.mp htail with ⟨z, hz, -⟩ | ⟨z, rfl, hz⟩
    · exact absurd hz (hinside z)
    · cases z with
      | nil => exact absurd (by simp) (hinside [])
      | cons b z =>
        cases hz
        obtain ⟨other, others, rfl, hother⟩ := h htest _ inner _ z rfl hfirst hinner hlast
        exact ⟨other, others ++ y :: rest, rfl, hother⟩

/-! ### Nested listings -/

/-- Lines with their braces, at a level of indentation. -/
inductive Nested : (level : Nat) → Listing → Prop where
  | nil (k : Nat) : Nested k []
  /-- A line of its own. An empty line may be indented in any way. -/
  | line {k : Nat} {x : Line} {rest : Listing} (hopen : x.text ≠ "\x7b") (hclose : x.text ≠ "\x7d")
    (hindent : x.text ≠ "" → x.indent = k) (hrest : Nested k rest) : Nested k (x :: rest)
  /-- A line with braces behind it. Those of a test are followed by another such line. -/
  | group {k : Nat} {head : String} {body rest : Listing} (hhead : Heading head)
    (hbody : Nested (k + 1) body) (hrest : Nested k rest)
    (hother : IsTest head → ∃ others, rest = ⟨k, "else"⟩ :: others) :
    Nested k (⟨k, head⟩ :: ⟨k, "\x7b"⟩ :: (body ++ ⟨k, "\x7d"⟩ :: rest))

namespace Nested

variable {k : Nat} {l : Listing}

/-- A level further in. -/
theorem indented (h : Nested k l) : Nested (k + 1) l.indented := by
  induction h with
  | nil k => exact .nil _
  | line hopen hclose hindent hrest ih =>
    exact .line hopen hclose (fun hne => by simp [hindent hne]) ih
  | group hhead hbody hrest hother ihbody ih =>
    rw [indented_cons, indented_cons, indented_append, indented_cons]
    refine .group hhead ihbody ih fun htest => ?_
    obtain ⟨others, rfl⟩ := hother htest
    exact ⟨Listing.indented others, rfl⟩

theorem depth_eq (h : Nested k l) : depth l = 0 := by
  induction h with
  | nil k => rfl
  | line hopen hclose hindent hrest ih => simp [weight_eq_zero hopen hclose, ih]
  | group hhead hbody hrest hother ihbody ih => simp [hhead.weight, ihbody, ih]

theorem nonneg (h : Nested k l) : Everywhere (fun before _ _ => 0 ≤ depth before) l := by
  induction h with
  | nil k => exact everywhere_nil
  | line hopen hclose hindent hrest ih =>
    simpa [weight_eq_zero hopen hclose] using ih
  | group hhead hbody hrest hother ihbody ih =>
    have inside := ihbody.imp (Q := fun before _ _ => 0 ≤ 1 + depth before) fun _ _ _ _ => by omega
    simpa [hhead.weight, hbody.depth_eq, Int.add_neg_cancel_left] using ⟨inside, ih⟩

/-- The lines close the braces they open and no others. -/
theorem paired (h : Nested k l) : l.Paired := by
  refine ⟨h.depth_eq, fun {before after} heq => ?_⟩
  cases after with
  | nil => simp [← h.depth_eq, heq]
  | cons x after => exact h.nonneg _ _ _ heq

/-- The counter tells the indentation. -/
theorem indent_eq (h : Nested k l) :
    Everywhere (fun before x _ => x.text ≠ "" → (x.indent : Int) = k + depthAt before x) l := by
  induction h with
  | nil k => exact everywhere_nil
  | line hopen hclose hindent hrest ih =>
    simpa +contextual [weight_eq_zero hopen hclose, hclose, hindent] using ih
  | @group k head body rest hhead hbody hrest hother ihbody ih =>
    have inside := ihbody.imp
      (Q := fun before x _ => x.text ≠ "" → (x.indent : Int) = k + (1 + depthAt before x))
      fun _ _ _ heq hne => by simp [heq hne]; omega
    simpa [hhead.weight, hhead.plain.closes, hbody.depth_eq, Int.add_neg_cancel_left]
      using ⟨inside, ih⟩

theorem opened (h : Nested k l) : Everywhere (fun before x _ => Opened before x) l := by
  induction h with
  | nil k => exact everywhere_nil
  | line hopen hclose hindent hrest ih =>
    rw [everywhere_cons]
    exact ⟨fun heq => absurd heq hopen, ih.imp fun _ _ _ h => h.append [_]⟩
  | @group k head body rest hhead hbody hrest hother ihbody ih =>
    rw [everywhere_cons, everywhere_cons, everywhere_append, everywhere_cons]
    refine ⟨fun heq => absurd heq hhead.plain.opens, fun _ => ⟨[], ⟨k, head⟩, rfl, hhead, rfl⟩,
      ihbody.imp fun _ _ _ h => h.append [_, _], fun heq => ?_, ?_⟩
    · simp at heq
    · refine ih.imp fun before x _ h => ?_
      have := h.append (⟨k, head⟩ :: ⟨k, "\x7b"⟩ :: (body ++ [⟨k, "\x7d"⟩]))
      simpa [List.append_assoc] using this

/-- No brace is opened in the first line. -/
theorem head_ne_open {x : Line} (h : Nested k (x :: l)) : x.text ≠ "\x7b" := by
  intro heq
  obtain ⟨earlier, head, hnil, -⟩ := h.opened [] x l rfl heq
  simp at hnil

theorem answered (h : Nested k l) : Everywhere (fun _ x after => Answered x after) l := by
  induction h with
  | nil k => exact everywhere_nil
  | @line k x rest hopen hclose hindent hrest ih =>
    rw [everywhere_cons]
    refine ⟨?_, ih⟩
    rintro - first inner last behind rfl hfirst
    exact absurd hfirst hrest.head_ne_open
  | @group k head body rest hhead hbody hrest hother ihbody ih =>
    have hopen : ¬ IsTest "\x7b" := not_isTest (by decide)
    have hclose : ¬ IsTest "\x7d" := not_isTest (by decide)
    rw [everywhere_cons, everywhere_cons, everywhere_append, everywhere_cons]
    refine ⟨?_, fun htest => absurd htest hopen, ?_, fun htest => absurd htest hclose, ih⟩
    · rintro htest first inner last behind heq hfirst hinner hlast
      obtain ⟨rfl, htail⟩ := List.cons.inj heq
      obtain ⟨-, rfl, rfl⟩ := hbody.paired.unique hinner rfl hlast htail
      obtain ⟨others, rfl⟩ := hother htest
      exact ⟨_, others, rfl, rfl, rfl⟩
    · intro before x after heq
      refine (ihbody before x after heq).extend (fun htest => ?_) (by simp) rest
      have htotal := hbody.depth_eq
      have hbefore := hbody.nonneg before x after heq
      have hx : x.weight = 0 :=
        weight_eq_zero (fun h => hopen (h ▸ htest)) (fun h => hclose (h ▸ htest))
      rw [heq, depth_append, depth_cons, hx] at htotal
      omega

end Nested

/-! ### Braced listings -/

/-- Lines with one group around all others, as the counter of open braces sees them. -/
structure Braced (l : Listing) : Prop where
  /-- The counter is never below zero. -/
  nonneg : ∀ before after, l = before ++ after → 0 ≤ depth before
  /-- The counter is zero at the end, before the first brace is opened, and nowhere else. -/
  eq_zero_iff : ∀ before after, l = before ++ after →
    (depth before = 0 ↔ after = [] ∨ ∀ x ∈ before, x.text ≠ "\x7b")
  indent_eq : Everywhere (fun before x _ => x.text ≠ "" → (x.indent : Int) = depthAt before x) l
  opened : Everywhere (fun before x _ => Opened before x) l
  answered : Everywhere (fun _ x after => Answered x after) l

/-- A group that is not that of a test. -/
theorem Nested.braced {head : String} {body : Listing} (hhead : Heading head)
    (htest : ¬ IsTest head) (hbody : Nested 1 body) :
    Braced (⟨0, head⟩ :: ⟨0, "\x7b"⟩ :: (body ++ [⟨0, "\x7d"⟩])) := by
  have whole : Nested 0 (⟨0, head⟩ :: ⟨0, "\x7b"⟩ :: (body ++ [⟨0, "\x7d"⟩])) :=
    .group hhead hbody (.nil 0) fun h => absurd h htest
  refine ⟨fun _ _ heq => whole.paired.nonneg heq, fun before after heq => ?_,
    whole.indent_eq.imp fun _ _ _ h => by simpa using h, whole.opened, whole.answered⟩
  rcases before with _ | ⟨first, _ | ⟨second, before⟩⟩
  · simp
  · obtain ⟨rfl, -⟩ := List.cons.inj heq
    simp [hhead.weight, hhead.plain.opens]
  · obtain ⟨rfl, hbehind⟩ := List.cons.inj heq
    obtain ⟨rfl, htail⟩ := List.cons.inj hbehind
    rcases after.eq_nil_or_concat with rfl | ⟨after, last, rfl⟩
    · have hall : before = body ++ [⟨0, "\x7d"⟩] := by simpa using htail.symm
      simp [hall, hhead.weight, hbody.depth_eq]
    · -- The last line is behind these, so no more than the body is.
      have hpart : body ++ [⟨0, "\x7d"⟩] = (before ++ after) ++ [last] := by simpa using htail
      have hlow := hbody.paired.nonneg (List.append_inj_left' hpart rfl)
      simp [hhead.weight]
      omega

end Listing

/-! ### The lines of a script -/

open Listing

theorem Plain.nested {x : Line} {l : Listing} {k : Nat} (h : Plain x.text) (hindent : x.indent = k)
    (hl : Nested k l) : Nested k (x :: l) :=
  .line h.opens h.closes (fun _ => hindent) hl

theorem Listing.Nested.blank {l : Listing} {k : Nat} (hl : Nested k l) :
    Nested k (.flat "" :: l) :=
  .line (by decide) (by decide) (fun h => absurd rfl h) hl

/-- The lines of a block are nested. -/
theorem Block.nested_lines (b : Block) : Nested 0 b.lines := by
  induction b with
  | done => exact .nil 0
  | call s rest ih => exact (Passage.call s).plain_text.nested rfl ih
  | assign s rest ih => exact (Passage.assign s).plain_text.nested rfl ih
  | branch n c t f rest iht ihf ih =>
    have other := Nested.group .otherwise ihf.indented ih fun h => absurd h (not_isTest (by decide))
    have := Nested.group (.test (Operand.textOrNone c)) iht.indented other fun _ => ⟨_, rfl⟩
    simpa only [lines, Line.flat, List.append_assoc, List.cons_append, List.nil_append] using this
  | loop h body rest ihb ih =>
    have heading : Heading h.text := .repetition h.counter (Operand.textOrNone h.bound)
    have notTest : ¬ IsTest h.text := by
      -- the equation of this definition is slow to derive
      delta LoopHeader.text
      exact not_isTest (by simp)
    have := Nested.group heading ihb.indented ih.blank fun htest => absurd htest notTest
    simpa only [lines, Line.flat, List.append_assoc, List.cons_append, List.nil_append] using this

namespace EventScript

theorem nested_bodyLines (s : EventScript) : Nested 1 s.bodyLines := by
  have declared : ∀ (ds : List VariableDecl) {l : Listing}, Nested 1 l →
      Nested 1 (ds.map (fun d => ⟨1, "local " ++ d.text ++ ";"⟩) ++ l) := by
    intro ds l hl
    have semicolon : Plain ";" := by constructor <;> decide
    induction ds with
    | nil => exact hl
    | cons d ds ih => exact (semicolon.append _).nested rfl ih
  unfold bodyLines
  cases s.body with
  | none => exact .nil 1
  | some block => simpa using declared s.locals block.nested_lines.indented.blank

/-- **The braces of a script.** -/
theorem braced_lines (s : EventScript) : Braced s.lines :=
  Nested.braced (.event s.name _) (not_isTest (by simp [header])) s.nested_bodyLines

end EventScript

namespace Graph

variable {g : Graph}

/-- **Braces and indentation.** Whatever the names and values of a graph, the counter of open braces
runs through the lines of a script as their indentation says, every brace is opened behind a line
that announces it, and a test has both its arms. -/
theorem scriptOf_braced {id : NodeId} {l : Listing}
    (ok : (g.scriptOf id).map EventScript.lines = .ok l) : l.Braced := by
  obtain ⟨script, -, rfl⟩ := Except.map_eq_ok.mp ok
  exact script.braced_lines

/-- An event that leads to a test. -/
def choosing : Graph :=
  (empty "Choose").run [.place (.event (FunctionDecl.callable "Actor" "Tick").asEvent),
    .place .branch, .connect ⟨0⟩ ⟨0⟩ .any]

/-- The counter is at one at the braces of the test. -/
theorem scriptOf_braced_choosing :
    ∃ l, (choosing.scriptOf ⟨0⟩).map EventScript.lines = .ok l ∧
      l.map Line.indent = [0, 0, 0, 1, 1, 1, 1, 1, 1, 0] ∧ l.Braced := by
  obtain ⟨l, ok, levels⟩ : ∃ l, (choosing.scriptOf ⟨0⟩).map EventScript.lines = .ok l ∧
      l.map Line.indent = [0, 0, 0, 1, 1, 1, 1, 1, 1, 0] := ⟨_, rfl, rfl⟩
  exact ⟨l, ok, levels, scriptOf_braced ok⟩

end Graph

end NodeScript
