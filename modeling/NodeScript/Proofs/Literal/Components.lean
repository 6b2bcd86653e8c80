import NodeScript.Literal.Reader
import NodeScript.Proofs.Binary.Reading

/-!
# The components of vectors and rotations

The text of a vector or rotation is cut at its commas (`SplitsInto`), and each of the first three
pieces stands for a number: zero if there is nothing in it but blanks or the piece is missing, else
the number that it spells (`Component`). That is all that counts: such a literal is read exactly if
the first three pieces stand for numbers, and then it is made of these (`Literal.ofText_ok_iff`);
otherwise the error names the whole text.

So the literals that are read are those of at most three numbers (`Grammatical`), and besides them
the texts of which the first three pieces are numbers and others follow, whatever these are
(`Literal.reads_grammar_iff`).
-/

namespace NodeScript

/-! ### Pieces of a text -/

/-- The text is made of the pieces with commas between them, and the pieces have none. -/
structure SplitsInto (cs : List Char) (pieces : List (List Char)) : Prop where
  nonempty : pieces ≠ []
  separate : ∀ piece ∈ pieces, ',' ∉ piece
  joined : [','].intercalate pieces = cs

theorem commaPieces_eq (cs : List Char) : commaPieces cs = cs.splitOn ',' := by
  induction cs with
  | nil => rfl
  | cons c cs ih =>
    rw [commaPieces, ih, List.splitOn_eq_splitOnP, List.splitOn_eq_splitOnP, List.splitOnP_cons_eq_if_modifyHead]
    by_cases comma : c = ','
    · simp [comma]
    · cases pieces : cs.splitOnP (· == ',') with
      | nil => exact absurd pieces (List.splitOnP_ne_nil _ cs)
      | cons piece pieces => simp [comma]

/-- **The pieces between the commas.** -/
theorem splitsInto_commaPieces (cs : List Char) : SplitsInto cs (commaPieces cs) where
  nonempty := by
    rw [commaPieces_eq]
    exact List.splitOnP_ne_nil _ cs
  separate := by
    induction cs with
    | nil => simp [commaPieces]
    | cons c cs ih =>
      rw [commaPieces]
      split
      · simpa using ih
      · rename_i comma
        cases pieces : commaPieces cs with
        | nil => simpa using Ne.symm comma
        | cons piece pieces =>
          rw [pieces, List.forall_mem_cons] at ih
          simpa [Ne.symm comma] using ih
  joined := by rw [commaPieces_eq, List.intercalate_splitOn]

/-- A text is made of its pieces in one way. -/
theorem SplitsInto.eq_commaPieces {cs : List Char} {pieces : List (List Char)}
    (h : SplitsInto cs pieces) : commaPieces cs = pieces := by
  rw [commaPieces_eq, ← h.joined, List.splitOn_intercalate ',' h.separate h.nonempty]

/-! ### Numbers and blanks -/

/-- The number that a piece of text stands for. -/
def Component (piece : List Char) (x : Single) : Prop :=
  Text.trim piece = [] ∧ x = .zero ∨ Binary.Spells (Text.trim piece) x

/-- The piece stands for a number. -/
def IsComponent (piece : List Char) : Prop :=
  ∃ x, Component piece x

/-- **A piece is read as the number that it stands for.** -/
theorem Literal.readSingle?_eq_some_iff {piece : List Char} {x : Single} :
    readSingle? piece = some x ↔ Component piece x := by
  rw [readSingle?, Component]
  by_cases empty : Text.trim piece = []
  · simp [empty, Binary.not_spells_nil, eq_comm]
  · simp [empty, Binary.ofChars?_eq_some_iff]

theorem isComponent_nil : IsComponent [] :=
  ⟨.zero, .inl ⟨rfl, rfl⟩⟩

/-- At most three pieces, each of which stands for a number. -/
def Grammatical (pieces : List (List Char)) : Prop :=
  pieces.length ≤ 3 ∧ ∀ piece ∈ pieces, IsComponent piece

theorem forall_mem_take_three {α : Type} {p : α → Prop} {l : List α} {d : α} (hd : p d) :
    (∀ a ∈ l.take 3, p a) ↔ p (l.getD 0 d) ∧ p (l.getD 1 d) ∧ p (l.getD 2 d) := by
  match l with
  | [] => simp [hd]
  | [a] => simp [hd]
  | [a, b] => simp [hd]
  | a :: b :: c :: l => simp

namespace Literal

/-! ### Literals of three numbers -/

/-- The signals whose literals are made of three numbers, and how they are. -/
inductive Threefold : Signal → (Single → Single → Single → Literal) → Prop
  | vector : Threefold .vector vector
  | rotator : Threefold .rotator fun p y r =>
      rotator (Angle.ofDegrees p) (Angle.ofDegrees y) (Angle.ofDegrees r)

theorem readTriple?_eq_some_iff {cs : List Char} {x y z : Single} :
    readTriple? cs = some (x, y, z) ↔ Component ((commaPieces cs).getD 0 []) x ∧
      Component ((commaPieces cs).getD 1 []) y ∧ Component ((commaPieces cs).getD 2 []) z := by
  simp [readTriple?, Option.bind_eq_some_iff, ← readSingle?_eq_some_iff]

variable {signal : Signal} {make : Single → Single → Single → Literal} {text : String}
  {pieces : List (List Char)}

theorem Threefold.ofText_eq (h : Threefold signal make) (text : String) :
    ofText signal text = ((readTriple? text.toList).map fun (x, y, z) => make x y z).elim
      (.error (.invalid signal text)) .ok := by
  cases h <;> rfl

/-- **Such a literal is made of the numbers that the first three pieces stand for.** -/
theorem ofText_ok_iff (threefold : Threefold signal make) (split : SplitsInto text.toList pieces)
    {l : Literal} : ofText signal text = .ok l ↔
      ∃ x y z, Component (pieces.getD 0 []) x ∧ Component (pieces.getD 1 []) y ∧
        Component (pieces.getD 2 []) z ∧ l = make x y z := by
  rw [threefold.ofText_eq, ← split.eq_commaPieces]
  constructor
  · intro h
    cases read : readTriple? text.toList with
    | none => simp [read] at h
    | some t =>
      obtain ⟨x, y, z⟩ := t
      obtain ⟨hx, hy, hz⟩ := readTriple?_eq_some_iff.mp read
      rw [read] at h
      cases h
      exact ⟨x, y, z, hx, hy, hz, rfl⟩
  · rintro ⟨x, y, z, hx, hy, hz, rfl⟩
    simp [readTriple?_eq_some_iff.mpr ⟨hx, hy, hz⟩]

/-- Some literal is read exactly if the first three pieces stand for numbers. -/
theorem exists_ofText_ok_iff (threefold : Threefold signal make)
    (split : SplitsInto text.toList pieces) :
    (∃ l, ofText signal text = .ok l) ↔ ∀ piece ∈ pieces.take 3, IsComponent piece := by
  rw [forall_mem_take_three (p := IsComponent) isComponent_nil]
  simp only [ofText_ok_iff threefold split, IsComponent]
  constructor
  · rintro ⟨l, x, y, z, hx, hy, hz, rfl⟩
    exact ⟨⟨x, hx⟩, ⟨y, hy⟩, ⟨z, hz⟩⟩
  · rintro ⟨⟨x, hx⟩, ⟨y, hy⟩, ⟨z, hz⟩⟩
    exact ⟨_, x, y, z, hx, hy, hz, rfl⟩

/-- The error names the signal and the whole text, and comes exactly if no literal is read. -/
theorem Threefold.error_iff (threefold : Threefold signal make) {e : LiteralError} :
    ofText signal text = .error e ↔
      e = .invalid signal text ∧ ¬ ∃ l, ofText signal text = .ok l := by
  rw [threefold.ofText_eq]
  cases readTriple? text.toList with
  | none => simp [eq_comm]
  | some t => simp

/-- What is outside the grammar is refused with an error that names the whole text, and the rest is
read. -/
def ReadsGrammar (signal : Signal) (text : String) (pieces : List (List Char)) : Prop :=
  ((∃ l, ofText signal text = .ok l) ↔ Grammatical pieces) ∧
    (¬ Grammatical pieces → ofText signal text = .error (.invalid signal text))

/-- **Vectors and rotations are read from their first three pieces alone**: these have to stand for
numbers, and then the literal is made of them. So exactly the texts of at most three numbers are read
unless there are more pieces behind three numbers; such a text is read too, whatever follows. -/
theorem reads_grammar_iff (threefold : Threefold signal make) (text : String) :
    ∃ pieces, SplitsInto text.toList pieces ∧
      (∀ l, ofText signal text = .ok l ↔
        ∃ x y z, Component (pieces.getD 0 []) x ∧ Component (pieces.getD 1 []) y ∧
          Component (pieces.getD 2 []) z ∧ l = make x y z) ∧
      (∀ e, ofText signal text = .error e ↔
        e = .invalid signal text ∧ ∃ piece ∈ pieces.take 3, ¬ IsComponent piece) ∧
      (ReadsGrammar signal text pieces ↔
        pieces.length ≤ 3 ∨ ∃ piece ∈ pieces.take 3, ¬ IsComponent piece) := by
  have split := splitsInto_commaPieces text.toList
  obtain ⟨pieces, hp⟩ : ∃ pieces, pieces = commaPieces text.toList := ⟨_, rfl⟩
  rw [← hp] at split
  have read := exists_ofText_ok_iff threefold split
  have refused : (¬ ∃ l, ofText signal text = .ok l) ↔
      ∃ piece ∈ pieces.take 3, ¬ IsComponent piece := by
    rw [read]
    simp
  refine ⟨pieces, split, fun l => ofText_ok_iff threefold split, fun e => ?_, ?_⟩
  · rw [threefold.error_iff, refused]
  · rw [← refused]
    constructor
    · rintro ⟨grammar, -⟩
      by_cases ok : ∃ l, ofText signal text = .ok l
      · exact .inl (grammar.mp ok).1
      · exact .inr ok
    · intro h
      have grammar : (∃ l, ofText signal text = .ok l) ↔ Grammatical pieces := by
        rcases h with short | error
        · rw [read, List.take_of_length_le short, Grammatical, and_iff_right short]
        · refine iff_of_false error fun grammatical => error ?_
          exact read.mpr fun piece hm => grammatical.2 piece (List.mem_of_mem_take hm)
      exact ⟨grammar, fun not =>
        threefold.error_iff.mpr ⟨rfl, fun ok => not (grammar.mp ok)⟩⟩

/-- Blanks around a number and a missing one between two commas. -/
theorem reads_grammar_iff_blank :
    Threefold .rotator (fun p y r =>
      rotator (Angle.ofDegrees p) (Angle.ofDegrees y) (Angle.ofDegrees r)) ∧
    ∃ pieces, SplitsInto " 90 ,, -180".toList pieces ∧
      ReadsGrammar .rotator " 90 ,, -180" pieces := by
  obtain ⟨pieces, split, -, -, grammar⟩ := reads_grammar_iff .rotator " 90 ,, -180"
  refine ⟨.rotator, pieces, split, grammar.mpr (.inl ?_)⟩
  rw [← split.eq_commaPieces]
  decide +kernel

/-- A piece behind three numbers is not looked at. -/
theorem fourth_unread : ofText .vector "1,2,3,x" = .ok (vector (.ofInt 1) (.ofInt 2) (.ofInt 3)) ∧
    ¬ ∃ pieces, SplitsInto "1,2,3,x".toList pieces ∧ ReadsGrammar .vector "1,2,3,x" pieces := by
  have read : ofText .vector "1,2,3,x" = .ok (vector (.ofInt 1) (.ofInt 2) (.ofInt 3)) := by
    decide +kernel
  refine ⟨read, fun ⟨pieces, split, grammar, _⟩ => ?_⟩
  have short := (grammar.mp ⟨_, read⟩).1
  rw [← split.eq_commaPieces] at short
  exact absurd short (by decide +kernel)

end Literal

end NodeScript
