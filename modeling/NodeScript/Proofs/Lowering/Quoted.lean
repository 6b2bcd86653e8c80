import NodeScript.Proofs.Lowering.CallLine
import NodeScript.Proofs.Lowering.Taken

/-!
# Which texts can be read back from a call

The inputs of a node for text that no edge goes to can be given any texts, by one edit each
(`Graph.fillIn`). In the line of a call such a text stands between quotes, as it is: nothing in it
is escaped. What else stands in the line does not depend on the texts, so the line is a list of
pieces, some of which are fixed and some of which are quoted texts (`Piece`).

If the texts hold as many quotes as before, input by input, then the closing quotes are found by
counting, and the texts can be read back. They cannot in general, because a text can imitate the end
of its argument and the beginning of the next one. As this moves quotes from one argument to
another, two inputs have to be given texts with other numbers of quotes for it
(`texts_read_back`).
-/

namespace NodeScript

/-! ### Pieces of a line -/

/-- A piece of a line: a fixed text, or the text of an input between quotes. -/
inductive Piece where
  | fixed (text : String)
  | quoted (i : InputId)
  deriving DecidableEq, Repr

/-- The piece, if the inputs have certain texts. -/
def Piece.text (x : InputId → String) : Piece → String
  | fixed text => text
  | quoted i => (Literal.string (x i)).code

/-- The line that consists of pieces. -/
def Piece.line (x : InputId → String) (pieces : List Piece) : List Char :=
  pieces.flatMap fun p => (p.text x).toList

/-- The number of quotes in a text. -/
def quotes (text : String) : Nat :=
  text.toList.count '"'

namespace Piece

variable {x y : InputId → String} {i : InputId} {p : Piece} {pieces : List Piece}

theorem toList_text_quoted : ((quoted i).text x).toList = '"' :: ((x i).toList ++ ['"']) := by
  have framed : (quoted i).text x = "\"" ++ x i ++ "\"" := rfl
  rw [framed, String.toList_append, String.toList_append]
  rfl

theorem quotes_text_quoted : quotes ((quoted i).text x) = quotes (x i) + 2 := by
  simp [quotes, toList_text_quoted]

@[simp] theorem line_nil : line x [] = [] := rfl

theorem line_cons : line x (p :: pieces) = (p.text x).toList ++ line x pieces :=
  List.flatMap_cons

theorem line_append {later : List Piece} :
    line x (pieces ++ later) = line x pieces ++ line x later :=
  List.flatMap_append

theorem toList_intercalate :
    (", ".intercalate (pieces.map (text x))).toList = line x (pieces.intersperse (fixed ", ")) := by
  rw [String.toList_intercalate]
  induction pieces with
  | nil => rfl
  | cons p pieces ih =>
    cases pieces with
    | nil => simp [line]
    | cons q pieces =>
      have later : ", ".toList.intercalate (((q :: pieces).map (text x)).map String.toList) =
          line x ((q :: pieces).intersperse (fixed ", ")) := ih
      simp only [List.map_cons] at later
      simp only [List.map_cons, List.intercalate_cons_cons, List.intersperse_cons_cons, later]
      simp [line, text]

theorem quoted_mem_intersperse :
    quoted i ∈ pieces.intersperse (fixed ", ") ↔ quoted i ∈ pieces := by
  induction pieces with
  | nil => rfl
  | cons p pieces ih =>
    cases pieces with
    | nil => rfl
    | cons q pieces => simp [List.intersperse_cons_cons, ih]

/-- What comes before a quote is known if the number of quotes in it is. -/
theorem append_quote_inj {a b rest rest' : List Char} (same : a ++ '"' :: rest = b ++ '"' :: rest')
    (count : a.count '"' = b.count '"') : a = b ∧ rest = rest' := by
  rcases List.append_eq_append_iff.mp same with ⟨c, rfl, hc⟩ | ⟨c, rfl, hc⟩
  -- the one that goes on would go on with a quote
  all_goals
    cases c with
    | nil =>
      obtain ⟨-, hrest⟩ := List.cons.inj hc
      simp [hrest]
    | cons q c =>
      obtain ⟨rfl, -⟩ := List.cons.inj hc
      simp at count

/-- **Reading a line.** If the texts have as many quotes, input by input, then equal lines have
equal texts. -/
theorem texts_of_line_eq (alike : ∀ i, quoted i ∈ pieces → quotes (x i) = quotes (y i))
    (same : line x pieces = line y pieces) : ∀ i, quoted i ∈ pieces → x i = y i := by
  induction pieces with
  | nil => simp
  | cons p pieces ih =>
    have later : ∀ i, quoted i ∈ pieces → quotes (x i) = quotes (y i) :=
      fun i hi => alike i (.tail _ hi)
    intro i hi
    cases p with
    | fixed text =>
      have rest : line x pieces = line y pieces := List.append_cancel_left same
      exact ih later rest i (by simpa using hi)
    | quoted j =>
      have here : (x j).toList ++ '"' :: line x pieces = (y j).toList ++ '"' :: line y pieces := by
        simpa [line, toList_text_quoted] using same
      obtain ⟨first, rest⟩ := append_quote_inj here (alike j (.head _))
      rcases List.mem_cons.mp hi with hij | hi
      · obtain rfl := quoted.inj hij
        exact String.toList_inj.mp first
      · exact ih later rest i hi

/-- A line with more quotes in its texts has more quotes. -/
theorem count_line_le (fewer : ∀ i, quoted i ∈ pieces → quotes (x i) ≤ quotes (y i)) :
    (line x pieces).count '"' ≤ (line y pieces).count '"' ∧
      ∀ i, quoted i ∈ pieces → quotes (x i) < quotes (y i) →
        (line x pieces).count '"' < (line y pieces).count '"' := by
  induction pieces with
  | nil => simp
  | cons p pieces ih =>
    obtain ⟨atMost, less⟩ := ih fun i hi => fewer i (.tail _ hi)
    have here : quotes (p.text x) ≤ quotes (p.text y) := by
      cases p with
      | fixed text => exact Nat.le_refl _
      | quoted j =>
        have first := fewer j (.head _)
        rw [quotes_text_quoted, quotes_text_quoted]
        omega
    rw [quotes, quotes] at here
    rw [line_cons, line_cons, List.count_append, List.count_append]
    refine ⟨by omega, fun i hi differ => ?_⟩
    rcases List.mem_cons.mp hi with rfl | hi
    · have first : quotes ((quoted i).text x) < quotes ((quoted i).text y) := by
        rw [quotes_text_quoted, quotes_text_quoted]
        omega
      rw [quotes, quotes] at first
      omega
    · have rest := less i hi differ
      omega

/-- If the lines are equal, then the numbers of quotes cannot differ in the texts of one input
only. -/
theorem alike_of_line_eq (same : line x pieces = line y pieces)
    (one : ∀ i j, quoted i ∈ pieces → quoted j ∈ pieces → quotes (x i) ≠ quotes (y i) →
      quotes (x j) ≠ quotes (y j) → i = j) :
    ∀ i, quoted i ∈ pieces → quotes (x i) = quotes (y i) := by
  -- otherwise one of the lines would have more quotes in this input, and as many elsewhere
  have fewer : ∀ {x y : InputId → String} {i}, line x pieces = line y pieces →
      (∀ j, quoted j ∈ pieces → quotes (x j) ≠ quotes (y j) → i = j) → quoted i ∈ pieces →
        ¬ quotes (x i) < quotes (y i) := by
    intro x y i same only hi less
    have atMost : ∀ j, quoted j ∈ pieces → quotes (x j) ≤ quotes (y j) := by
      intro j hj
      by_cases differ : quotes (x j) = quotes (y j)
      · exact Nat.le_of_eq differ
      · obtain rfl := only j hj differ
        exact Nat.le_of_lt less
    have more := (count_line_le atMost).2 i hi less
    rw [same] at more
    exact Nat.lt_irrefl _ more
  intro i hi
  by_contra differ
  rcases Nat.lt_or_gt_of_ne differ with less | more
  · exact fewer same (fun j hj hne => one i j hi hj differ hne) hi less
  · exact fewer same.symm (fun j hj hne => one i j hi hj differ hne.symm) hi more

end Piece

/-- The line of a call is what it evaluates, with what stands before and after. -/
theorem CallStatement.text_eq (st : CallStatement) :
    st.text = (st.result.elim "" (·.2 ++ " = ") ++ st.cast.elim "" (· ++ "( ")) ++ st.form.text ++
      st.cast.elim ";" fun _ => " );" := by
  cases h : st.cast <;> simp [text, h, String.append_assoc]

/-! ### Giving texts to inputs -/

/-- The input, with the text that was given to it if it is one of the listed ones. -/
def Input.filled (is : List InputId) (x : InputId → String) (input : Input) : Input :=
  if input.id ∈ is then { input with fallback := .string (x input.id) } else input

namespace Input

variable {is : List InputId} {x : InputId → String} {input : Input}

@[simp] theorem toConnector_filled : (input.filled is x).toConnector = input.toConnector := by
  unfold filled
  split <;> rfl

@[simp] theorem source_filled : (input.filled is x).source = input.source := by
  unfold filled
  split <;> rfl

theorem filled_of_notMem (h : input.id ∉ is) : input.filled is x = input :=
  if_neg h

theorem fallback_filled (h : input.id ∈ is) :
    (input.filled is x).fallback = .string (x input.id) := by
  rw [filled, if_pos h]

end Input

namespace Entry

/-- The entry, when inputs have been given texts. -/
def filled (is : List InputId) (x : InputId → String) : Entry → Entry
  | value input => value (input.filled is x)
  | e => e

/-- The input whose text the entry shows, if it is one of the listed ones. -/
def opened (is : List InputId) : Entry → Option InputId
  | value input => if input.id ∈ is then some input.id else none
  | archetype _ | empty | fresh _ _ => none

variable {is : List InputId} {x : InputId → String} {e : Entry}

@[simp] theorem request?_filled : (e.filled is x).request? = e.request? := by
  cases e <;> rfl

end Entry

namespace Graph

open Lowering

variable {g : Graph} {n m : NodeId} {node : Node} {f : FunctionDecl} {archetype : Option Archetype}
  {x y : InputId → String} {is : List InputId} {i j : InputId} {input : Input} {s s' t t' : Scope}
  {st st' : CallStatement} {e : Entry} {p : Parameter} {ps : List Parameter}

/-- The inputs of a node for text that no edge goes to. -/
def openTexts (g : Graph) (n : NodeId) : List InputId :=
  (g.node? n).elim [] fun node =>
    ((g.inputsOf node).filter fun input => input.signal = .string ∧ input.source = none).map (·.id)

/-- The graph in which these inputs are given texts. -/
def fillIn (g : Graph) (n : NodeId) (x : InputId → String) : Graph :=
  g.run ((g.openTexts n).map fun i => .setFallback i (x i))

theorem mem_openTexts (h : g.Housed) :
    i ∈ g.openTexts n ↔ ∃ input, g.input? i = some input ∧ input.owner = n ∧
      input.signal = .string ∧ input.source = none := by
  constructor
  · intro hi
    cases live : g.node? n with
    | none => simp [openTexts, live] at hi
    | some node =>
      simp only [openTexts, live, Option.elim_some, List.mem_map, List.mem_filter,
        decide_eq_true_eq] at hi
      obtain ⟨input, ⟨listed, text, unfed⟩, rfl⟩ := hi
      obtain ⟨hinput, owner⟩ := (h.mem_inputsOf live).mp listed
      exact ⟨input, hinput, owner, text, unfed⟩
  · rintro ⟨input, hinput, rfl, text, unfed⟩
    obtain ⟨node, live⟩ := h.inputs.owner_live hinput
    obtain rfl : input.id = i := h.inputs.ident_eq hinput
    have listed := (h.mem_inputsOf live).mpr ⟨hinput, rfl⟩
    simp only [openTexts, live, Option.elim_some, List.mem_map, List.mem_filter,
      decide_eq_true_eq]
    exact ⟨input, ⟨listed, text, unfed⟩, rfl⟩

/-- A text can be given to every input for text, and then the input has it. -/
theorem apply_setFallback_text (hi : g.input? i = some input) (text : input.signal = .string)
    (value : String) :
    (g.apply (.setFallback i value)).2 =
      g.modifyInput i ({ · with fallback := .string value }) := by
  have ok : g.setFallback i value = .ok (g.modifyInput i ({ · with fallback := .string value })) :=
    setFallback_eq_ok.mpr ⟨input, _, hi, by rw [text]; rfl, rfl⟩
  simp only [apply, ok]
  rfl

/-- Giving texts to inputs changes these texts only. -/
theorem run_setFallbacks
    (texts : ∀ i ∈ is, ∃ input, g.input? i = some input ∧ input.signal = .string) :
    let g' := g.run (is.map fun i => .setFallback i (x i))
    g'.nodes = g.nodes ∧ g'.outputs = g.outputs ∧ ∀ i, g'.input? i = (g.input? i).map fun input =>
      if i ∈ is then { input with fallback := .string (x i) } else input := by
  induction is generalizing g with
  | nil => exact ⟨rfl, rfl, fun i => by simp⟩
  | cons i is ih =>
    obtain ⟨input, hinput, text⟩ := texts i (.head _)
    have first := apply_setFallback_text hinput text (x i)
    have later : ∀ j ∈ is, ∃ input, (g.apply (.setFallback i (x i))).2.input? j = some input ∧
        input.signal = .string := by
      intro j hj
      obtain ⟨other, hother, text⟩ := texts j (.tail _ hj)
      rw [first, input?_modifyInput, hother]
      split
      exacts [⟨_, rfl, text⟩, ⟨other, rfl, text⟩]
    obtain ⟨nodes, outputs, inputs⟩ := ih later
    refine ⟨nodes.trans (by rw [first]; rfl), outputs.trans (by rw [first]; rfl), fun j => ?_⟩
    rw [List.map_cons, run_cons, inputs, first, input?_modifyInput]
    cases g.input? j with
    | none => simp
    | some input => by_cases hi : i = j <;> by_cases hj : j ∈ is <;> simp [hi, hj, eq_comm]

/-- What is found in the graph whose inputs are given texts. -/
structure FilledIn (g : Graph) (n : NodeId) (x : InputId → String) (g' : Graph) : Prop where
  nodes : g'.nodes = g.nodes
  outputs : g'.outputs = g.outputs
  input? : ∀ i, g'.input? i = (g.input? i).map (Input.filled (g.openTexts n) x)

theorem filledIn (h : g.Housed) : g.FilledIn n x (g.fillIn n x) := by
  have texts : ∀ i ∈ g.openTexts n, ∃ input, g.input? i = some input ∧ input.signal = .string := by
    intro i hi
    obtain ⟨input, hinput, -, text, -⟩ := (mem_openTexts h).mp hi
    exact ⟨input, hinput, text⟩
  obtain ⟨nodes, outputs, inputs⟩ := run_setFallbacks texts
  refine ⟨nodes, outputs, fun i => ?_⟩
  rw [fillIn, inputs]
  refine Option.map_congr fun input hinput => ?_
  obtain rfl : input.id = i := h.inputs.ident_eq hinput
  rfl

namespace FilledIn

variable {g' : Graph}

theorem node? (h : g.FilledIn n x g') : g'.node? = g.node? :=
  funext fun m => by rw [Graph.node?, h.nodes]; rfl

theorem output? (h : g.FilledIn n x g') : g'.output? = g.output? :=
  funext fun o => by rw [Graph.output?, h.outputs]; rfl

theorem outputNamed? (h : g.FilledIn n x g') : g'.outputNamed? = g.outputNamed? := by
  funext m name
  simp only [Graph.outputNamed?, outputsOf, h.node?, h.output?]

theorem inputNamed? (h : g.FilledIn n x g') (name : String) :
    g'.inputNamed? m name = (g.inputNamed? m name).map (Input.filled (g.openTexts n) x) := by
  simp only [Graph.inputNamed?, inputsOf, h.node?, h.input?, ← List.map_filterMap, List.find?_map,
    Option.map_bind, Function.comp_def, Input.toConnector_filled]

theorem callResult (h : g.FilledIn n x g') : g'.callResult node f = g.callResult node f := by
  simp only [Graph.callResult, h.outputNamed?]

/-- The value of an input that is not given a text is what it was. -/
theorem operand (h : g.FilledIn n x g') (other : input.id ∉ g.openTexts n) :
    g'.operand s node (input.filled (g.openTexts n) x) = g.operand s node input := by
  rw [Input.filled_of_notMem other]
  simp only [Graph.operand, sourceOf, nodeOrFail, h.node?, h.output?]

end FilledIn

/-- The value of an input that is given a text is this text. -/
theorem operand_filled (h : g.Housed) {g' : Graph} (hinput : g.input? input.id = some input)
    (hi : input.id ∈ g.openTexts n) :
    g'.operand s node (input.filled (g.openTexts n) x) =
      .ok (.literal (.string (x input.id))) := by
  obtain ⟨found, hfound, -, -, unfed⟩ := (mem_openTexts h).mp hi
  obtain rfl := Option.some.inj (hinput.symm.trans hfound)
  simp only [operand, sourceOf, Input.source_filled, unfed, Option.bind_none,
    Input.fallback_filled hi]

/-! ### The pieces of a call -/

theorem entry_eq_value :
    g.entry n archetype p = .value input ↔ ¬ (archetype.isSome ∧ p.name = archetypeParameter) ∧
      p.type.signal.isSupported = true ∧ p.out = false ∧
        g.inputNamed? n p.name = some input := by
  by_cases made : archetype.isSome ∧ p.name = archetypeParameter
  · obtain ⟨a, rfl⟩ := Option.isSome_iff_exists.mp made.1
    simp [entry, made.2, Option.filter]
  have hfilter : (archetype.filter fun _ => p.name = archetypeParameter) = none := by
    cases archetype <;> simp_all
  simp only [entry, hfilter, made, not_false_eq_true, true_and]
  cases p.type.signal.isSupported <;> cases p.out <;> cases g.inputNamed? n p.name <;>
    cases g.outputNamed? n p.name <;> simp

namespace FilledIn

variable {gx gy : Graph} {a b : Argument}

theorem entry (h : g.FilledIn n x gx) :
    gx.entry m archetype p = (g.entry m archetype p).filled (g.openTexts n) x := by
  simp only [Graph.entry, h.outputNamed?, h.inputNamed?]
  cases archetype.filter fun _ => p.name = archetypeParameter with
  | some a => rfl
  | none =>
    cases p.type.signal.isSupported <;> cases p.out <;> cases g.inputNamed? m p.name <;>
      cases g.outputNamed? m p.name <;> rfl

/-- What an entry shows is a text that was given to an input, or it does not depend on these. -/
theorem textOf (h : g.FilledIn n x gx) (housed : g.Housed) :
    gx.textOf node s (gx.entry m archetype p) =
      ((g.entry m archetype p).opened (g.openTexts n)).elim
        (g.textOf node s (g.entry m archetype p)) fun i => .ok (Literal.string (x i)).code := by
  rw [h.entry]
  cases he : g.entry m archetype p with
  | value input =>
    obtain ⟨-, -, -, found⟩ := entry_eq_value.mp he
    obtain ⟨live, -⟩ := housed.of_inputNamed? found
    by_cases hi : input.id ∈ g.openTexts n
    · simp only [Entry.opened, if_pos hi, Option.elim_some]
      exact congrArg (Operand.text <$> ·) (operand_filled housed live hi)
    · simp only [Entry.opened, if_neg hi, Option.elim_none]
      exact congrArg (Operand.text <$> ·) (h.operand hi)
  | archetype | empty | fresh => rfl

/-- An argument is one piece, whatever texts are given. -/
theorem piece_of_argument (hx : g.FilledIn n x gx) (hy : g.FilledIn n y gy) (housed : g.Housed)
    (ha : (gx.argument node archetype p).Returns s a t)
    (hb : (gy.argument node archetype p).Returns s b t') :
    t = t' ∧ ∃ piece : Piece, a.text = piece.text x ∧ b.text = piece.text y ∧
      ∀ i, piece = .quoted i ↔ (g.entry node.id archetype p).opened (g.openTexts n) = some i := by
  obtain ⟨texta, rfl⟩ := returns_fill (argument_eq ▸ ha)
  obtain ⟨textb, rfl⟩ := returns_fill (argument_eq ▸ hb)
  rw [hx.textOf housed] at texta
  rw [hy.textOf housed] at textb
  refine ⟨by rw [hx.entry, hy.entry, Entry.request?_filled, Entry.request?_filled], ?_⟩
  cases hopen : (g.entry node.id archetype p).opened (g.openTexts n) with
  | some i =>
    rw [hopen] at texta textb
    exact ⟨.quoted i, (Except.ok.inj texta).symm, (Except.ok.inj textb).symm, by simp⟩
  | none =>
    rw [hopen] at texta textb
    have same := Except.ok.inj (texta.symm.trans textb)
    exact ⟨.fixed a.text, rfl, same.symm, by simp⟩

/-- Arguments are pieces, one for each parameter, whatever texts are given. -/
theorem pieces_of_arguments (hx : g.FilledIn n x gx) (hy : g.FilledIn n y gy) (housed : g.Housed)
    {as bs : List Argument} (ha : Lowering.Returns (ps.mapM (gx.argument node archetype)) s as t)
    (hb : Lowering.Returns (ps.mapM (gy.argument node archetype)) s bs t') :
    t = t' ∧ ∃ pieces : List Piece, as.map Argument.text = pieces.map (Piece.text x) ∧
      bs.map Argument.text = pieces.map (Piece.text y) ∧ ∀ i, .quoted i ∈ pieces ↔
        ∃ p ∈ ps, (g.entry node.id archetype p).opened (g.openTexts n) = some i := by
  induction ps generalizing s as bs with
  | nil =>
    obtain ⟨rfl, rfl⟩ := returns_mapM_nil.mp ha
    obtain ⟨rfl, rfl⟩ := returns_mapM_nil.mp hb
    exact ⟨rfl, [], rfl, rfl, by simp⟩
  | cons p ps ih =>
    obtain ⟨a, u, as, first, has, rfl⟩ := returns_mapM_cons.mp ha
    obtain ⟨b, u', bs, first', hbs, rfl⟩ := returns_mapM_cons.mp hb
    obtain ⟨rfl, piece, hpa, hpb, hp⟩ := hx.piece_of_argument hy housed first first'
    obtain ⟨rfl, pieces, hpas, hpbs, hps⟩ := ih has hbs
    refine ⟨rfl, piece :: pieces, by simp [hpa, hpas], by simp [hpb, hpbs], fun i => ?_⟩
    rw [List.mem_cons, hps, eq_comm, hp]
    simp

/-- The object that a function is called on is what it was. -/
theorem connectedOperand (h : g.FilledIn n x gx) (housed : g.Housed) {name : String} :
    gx.connectedOperand s node name = g.connectedOperand s node name := by
  simp only [Graph.connectedOperand, h.inputNamed?]
  cases found : g.inputNamed? node.id name with
  | none => rfl
  | some input =>
    simp only [Option.map_some, Input.source_filled]
    split
    · rename_i fed
      have other : input.id ∉ g.openTexts n := by
        intro hi
        obtain ⟨same, hsame, -, -, unfed⟩ := (mem_openTexts housed).mp hi
        obtain rfl := Option.some.inj ((housed.of_inputNamed? found).1.symm.trans hsame)
        simp [unfed] at fed
      rw [h.operand other]
    · rfl

end FilledIn

/-- What a call evaluates is made of pieces: those of its arguments, and fixed ones. -/
theorem pieces_of_spelled {gx gy : Graph} {pieces : List Piece} {left right : String}
    (same : gx.connectedOperand t node Pin.target = gy.connectedOperand t node Pin.target)
    (hx : gx.Spelled node f t (pieces.map (Piece.text x)) left)
    (hy : gy.Spelled node f t (pieces.map (Piece.text y)) right) :
    ∃ all : List Piece, left.toList = Piece.line x all ∧ right.toList = Piece.line y all ∧
      ∀ i, .quoted i ∈ all ↔ .quoted i ∈ pieces := by
  cases hx with
  | operation operator two =>
    cases hy with
    | invocation plain => cases operator.symm.trans plain
    | operation _ two' =>
      obtain ⟨p, q, rfl⟩ : ∃ p q, pieces = [p, q] :=
        List.length_eq_two.mp (by simpa using congrArg List.length two)
      obtain ⟨rfl, rfl⟩ : p.text x = _ ∧ q.text x = _ := by simpa using two
      obtain ⟨rfl, rfl⟩ : p.text y = _ ∧ q.text y = _ := by simpa using two'
      refine ⟨[p, .fixed (" " ++ operatorSymbol f.name ++ " "), q], ?_, ?_, by simp⟩
      · simp [Piece.line, Piece.text]
      · simp [Piece.line, Piece.text]
  | @invocation target plain on =>
    cases hy with
    | operation operator => cases operator.symm.trans plain
    | @invocation target' _ on' =>
      obtain rfl : target = target' := Except.ok.inj (on.symm.trans (same.trans on'))
      let callee := target.elim "" (·.text ++ ".") ++ f.name
      cases pieces with
      | nil =>
        refine ⟨[.fixed (callee ++ "()")], ?_, ?_, by simp⟩
        · simp [Piece.line, Piece.text, callee]
        · simp [Piece.line, Piece.text, callee]
      | cons p pieces =>
        refine ⟨.fixed (callee ++ "( ") ::
          ((p :: pieces).intersperse (.fixed ", ") ++ [.fixed " )"]), ?_, ?_, fun i => ?_⟩
        · simp [Piece.line_cons, Piece.line_append, ← Piece.toList_intercalate, Piece.text, callee]
        · simp [Piece.line_cons, Piece.line_append, ← Piece.toList_intercalate, Piece.text, callee]
        · simp [Piece.quoted_mem_intersperse]

/-- One of the arguments of a call is the text of an input that no edge goes to. -/
def ShowsText (g : Graph) (n : NodeId) (i : InputId) : Prop :=
  ∃ k input, g.Takes n (.argument k) input ∧ input.id = i ∧ input.signal = .string ∧
    input.source = none

theorem showsText_iff (h : g.Housed) (live : g.node? n = some node)
    (calls : calleeOf node = .ok (f, archetype)) :
    g.ShowsText n i ↔
      ∃ p ∈ f.arguments, (g.entry n archetype p).opened (g.openTexts n) = some i := by
  constructor
  · rintro ⟨k, input, takes, rfl, text, unfed⟩
    cases takes with
    | argument live' calls' place value passed supported found =>
      obtain rfl := Option.some.inj (live.symm.trans live')
      obtain ⟨rfl, rfl⟩ := Prod.mk.inj (Except.ok.inj (calls.symm.trans calls'))
      obtain ⟨hinput, owner, -⟩ := h.of_inputNamed? found
      have hi := (mem_openTexts h).mpr ⟨input, hinput, owner, text, unfed⟩
      refine ⟨_, List.mem_of_getElem? place, ?_⟩
      rw [entry_eq_value.mpr ⟨value, supported, passed, found⟩]
      exact if_pos hi
  · rintro ⟨p, hp, hopen⟩
    obtain ⟨k, place⟩ := List.getElem?_of_mem hp
    cases he : g.entry n archetype p with
    | archetype | empty | fresh => simp [he, Entry.opened] at hopen
    | value input =>
      obtain ⟨value, supported, passed, found⟩ := entry_eq_value.mp he
      by_cases hi : input.id ∈ g.openTexts n
      · obtain rfl : input.id = i := by simpa [he, Entry.opened, hi] using hopen
        obtain ⟨other, hother, -, text, unfed⟩ := (mem_openTexts h).mp hi
        obtain rfl := Option.some.inj ((h.of_inputNamed? found).1.symm.trans hother)
        exact ⟨k, input, .argument live calls place value passed supported found, rfl, text, unfed⟩
      · simp [he, Entry.opened, hi] at hopen

/-- **The line of a call is made of pieces.** Whatever texts are given to the inputs, the line
consists of these texts between quotes, for the inputs that are arguments, and of fixed texts. -/
theorem pieces_of_callStatement (h : g.Housed)
    (ok : ((g.fillIn n x).callStatement n).Returns s st t)
    (ok' : ((g.fillIn n y).callStatement n).Returns s st' t') :
    ∃ pieces : List Piece, st.text.toList = Piece.line x pieces ∧
      st'.text.toList = Piece.line y pieces ∧ ∀ i, .quoted i ∈ pieces ↔ g.ShowsText n i := by
  have hx : g.FilledIn n x (g.fillIn n x) := filledIn h
  have hy : g.FilledIn n y (g.fillIn n y) := filledIn h
  obtain ⟨node, f, archetype, u, live, calls, hresult, harguments, hform⟩ :=
    parts_of_callStatement ok
  obtain ⟨node', f', archetype', u', live', calls', hresult', harguments', hform'⟩ :=
    parts_of_callStatement ok'
  rw [hx.node?] at live
  rw [hy.node?, live] at live'
  obtain rfl := Option.some.inj live'
  obtain ⟨rfl, rfl⟩ := Prod.mk.inj (Except.ok.inj (calls.symm.trans calls'))
  obtain rfl := h.node_id live
  rw [hx.callResult] at hresult
  rw [hy.callResult] at hresult'
  obtain ⟨results, rfl⟩ := hresult.unique hresult'
  obtain ⟨rfl, pieces, texts, texts', shown⟩ := hx.pieces_of_arguments hy h harguments harguments'
  have spelled := spelled_callForm hform
  have spelled' := spelled_callForm hform'
  rw [texts] at spelled
  rw [texts'] at spelled'
  have target : (g.fillIn node.id x).connectedOperand t node Pin.target =
      (g.fillIn node.id y).connectedOperand t node Pin.target :=
    (hx.connectedOperand h).trans (hy.connectedOperand h).symm
  obtain ⟨all, line, line', quoted⟩ := pieces_of_spelled target spelled spelled'
  obtain ⟨result, cast⟩ := Prod.mk.inj results
  rw [CallStatement.text_eq, CallStatement.text_eq, ← result, ← cast]
  generalize st.result.elim "" (·.2 ++ " = ") ++ st.cast.elim "" (· ++ "( ") = before
  generalize st.cast.elim ";" (fun _ => " );") = after
  refine ⟨.fixed before :: (all ++ [.fixed after]), ?_, ?_, fun i => ?_⟩
  · simp [Piece.line_cons, Piece.line_append, Piece.text, line]
  · simp [Piece.line_cons, Piece.line_append, Piece.text, line']
  · rw [showsText_iff h live calls, ← shown, ← quoted]
    simp

/-- **Which texts can be read back from the line of a call.** In a graph that edits have led to, let
the inputs of a call for text that no edge goes to be given texts, and then other texts, and let the
call have the same line both times, made in the same scope. Then the texts that its arguments show
are the same, input by input, exactly if there are no two inputs among them whose texts differ in
the number of quotes. -/
theorem texts_read_back (h : g.Reachable) (ok : ((g.fillIn n x).callStatement n).Returns s st t)
    (ok' : ((g.fillIn n y).callStatement n).Returns s st' t') (same : st.text = st'.text) :
    (∀ i, g.ShowsText n i → x i = y i) ↔
      ¬ ∃ i j, i ≠ j ∧ g.ShowsText n i ∧ g.ShowsText n j ∧ quotes (x i) ≠ quotes (y i) ∧
        quotes (x j) ≠ quotes (y j) := by
  obtain ⟨pieces, line, line', shown⟩ := pieces_of_callStatement h.housed ok ok'
  have lines : Piece.line x pieces = Piece.line y pieces := by rw [← line, ← line', same]
  constructor
  · rintro equal ⟨i, j, -, hi, -, differ, -⟩
    exact differ (congrArg quotes (equal i hi))
  · intro two i hi
    have alike := Piece.alike_of_line_eq lines fun i j hi hj differ differ' => by
      by_contra distinct
      exact two ⟨i, j, distinct, (shown i).mp hi, (shown j).mp hj, differ, differ'⟩
    exact Piece.texts_of_line_eq alike lines i ((shown i).mpr hi)

/-- A call with two parameters for text. -/
def titling : Graph :=
  let log := { FunctionDecl.callable "Actor" "Log" with
    params := [.input "Title" .string, .input "Message" .string] }
  (empty "Title").run [.place (.call log none)]

/-- Texts of which the first imitates the end of its argument and the beginning of another one. -/
def wideTitle (i : InputId) : String :=
  if i = ⟨2⟩ then "a\", \"b" else "c"

/-- Texts of which the second does. -/
def wideMessage (i : InputId) : String :=
  if i = ⟨2⟩ then "a" else "b\", \"c"

/-- Both texts of the call have other numbers of quotes the second time. -/
theorem texts_read_back_titling :
    titling.Reachable ∧ ∃ st t st' t',
      ((titling.fillIn ⟨0⟩ wideTitle).callStatement ⟨0⟩).Returns {} st t ∧
      ((titling.fillIn ⟨0⟩ wideMessage).callStatement ⟨0⟩).Returns {} st' t' ∧
      st.text = st'.text ∧ ∃ i j, i ≠ j ∧ titling.ShowsText ⟨0⟩ i ∧ titling.ShowsText ⟨0⟩ j ∧
        quotes (wideTitle i) ≠ quotes (wideMessage i) ∧
        quotes (wideTitle j) ≠ quotes (wideMessage j) := by
  have reach : titling.Reachable := ⟨_, _, rfl⟩
  obtain ⟨st, t, ok, st', t', ok', same⟩ : ∃ st t,
      ((titling.fillIn ⟨0⟩ wideTitle).callStatement ⟨0⟩).Returns {} st t ∧ ∃ st' t',
      ((titling.fillIn ⟨0⟩ wideMessage).callStatement ⟨0⟩).Returns {} st' t' ∧
        st.text = st'.text := ⟨_, _, rfl, _, _, rfl, by decide⟩
  have title : titling.ShowsText ⟨0⟩ ⟨2⟩ :=
    ⟨0, _, .argument rfl rfl rfl (by decide) rfl rfl rfl, rfl, rfl, rfl⟩
  refine ⟨reach, st, t, st', t', ok, ok', same, ?_⟩
  by_contra two
  have equal := (texts_read_back reach ok ok' same).mpr two ⟨2⟩ title
  exact absurd equal (by decide)

/-- The call has the same line for different texts. -/
theorem titling_ambiguous :
    titling.Reachable ∧ titling.ShowsText ⟨0⟩ ⟨2⟩ ∧ titling.ShowsText ⟨0⟩ ⟨3⟩ ∧ ∃ st t st' t',
      ((titling.fillIn ⟨0⟩ wideTitle).callStatement ⟨0⟩).Returns {} st t ∧
      ((titling.fillIn ⟨0⟩ wideMessage).callStatement ⟨0⟩).Returns {} st' t' ∧
      st.text = "Log( \"a\", \"b\", \"c\" );" ∧ st'.text = st.text ∧
      wideTitle ⟨2⟩ ≠ wideMessage ⟨2⟩ ∧ wideTitle ⟨3⟩ ≠ wideMessage ⟨3⟩ := by
  refine ⟨⟨_, _, rfl⟩, ⟨0, _, .argument rfl rfl rfl (by decide) rfl rfl rfl, rfl, rfl, rfl⟩,
    ⟨1, _, .argument rfl rfl rfl (by decide) rfl rfl rfl, rfl, rfl, rfl⟩, _, _, _, _, rfl, rfl, ?_⟩
  decide

end Graph

end NodeScript
