import NodeScript.Proofs.Literal.Written

/-!
# Numbers in scripts

What stands in a script for a number is a numeral of the script: digits for whole numbers, and four
decimal places for the others (`CodeNumeral`). The words for the infinities and for not-a-number are
none, but they are read as numbers, and so are decimals that are too large for single precision
(`Unbounded`). A float or vector with such a number is no numeral in a script (`codeNumeral_iff`).
Angles are whole numbers of units, whatever was read.

So the texts of numbers are read, written and refused as numerals exactly if none of their numbers is
unbounded, or if another of them is no number at all (`Literal.bounded_iff`).
-/

namespace NodeScript

-- powers are those of the core library, whichever other instances are in scope
attribute [local instance (high)] instPowNat

/-! ### Finite numbers in text -/

/-- The decimal is less than `2 ^ 128 - 2 ^ 103`, from where on single precision is left. -/
def Decimal.Bounded (d : Decimal) : Prop :=
  d.significand * 10 ^ d.exponent.toNat < (2 ^ 25 - 1) * 2 ^ 103 * 10 ^ (-d.exponent).toNat

/-- The text of a number that is not finite: a word, or a decimal that is too large. -/
inductive Unbounded : List Char → Prop
  | word {s w : List Char} {negative : Bool} (sign : Decimal.Sign s negative)
    (word : w.map Char.toLower ∈ Binary.nanWord :: Binary.infinityWords) : Unbounded (s ++ w)
  | large {cs : List Char} {d : Decimal} (numeral : Decimal.Numeral cs d) (large : ¬ d.Bounded) :
    Unbounded cs

/-- The text of a finite number: nothing at all, or a decimal that is not too large. -/
def Bounded (cs : List Char) : Prop :=
  cs = [] ∨ ∃ d, Decimal.Numeral cs d ∧ d.Bounded

theorem isFinite_ofDecimal_iff (d : Decimal) :
    (Binary.ofDecimal d : Single).IsFinite ↔ d.Bounded := by
  rw [Binary.isFinite_ofDecimal (by decide), Decimal.Bounded, Binary.numerator, Binary.denominator]
  show 2 * (_ * 2 ^ 149) < (2 ^ 25 - 1) * (_ * 2 ^ 253) ↔ _
  constructor
  · intro h
    omega
  · intro h
    omega

theorem Unbounded.spells {cs : List Char} (h : Unbounded cs) :
    ∃ x : Single, Binary.Spells cs x ∧ ¬ x.IsFinite := by
  cases h with
  | word sign word =>
    rcases List.mem_cons.mp word with nan | infinite
    · exact ⟨_, .nan sign nan, id⟩
    · exact ⟨_, .infinite sign infinite, id⟩
  | large numeral large => exact ⟨_, .numeral numeral, mt (isFinite_ofDecimal_iff _).mp large⟩

/-- **The number that a text spells is finite exactly if its text is that of a finite number**, and
infinite exactly if its text is that of an infinite one. -/
theorem isFinite_of_spells {cs : List Char} {x : Single} (h : Binary.Spells cs x) :
    (x.IsFinite ↔ Bounded cs) ∧ (x.IsFinite ↔ ¬ Unbounded cs) := by
  have bounded : Bounded cs → x.IsFinite := by
    rintro (rfl | ⟨d, numeral, bounded⟩)
    · exact absurd h (Binary.not_spells_nil x)
    · rw [h.unique (.numeral numeral)]
      exact (isFinite_ofDecimal_iff d).mpr bounded
  have unbounded : Unbounded cs → ¬ x.IsFinite := by
    intro unbounded
    obtain ⟨y, spelled, infinite⟩ := unbounded.spells
    rwa [h.unique spelled]
  cases h with
  | numeral numeral =>
    refine ⟨⟨fun finite => .inr ⟨_, numeral, (isFinite_ofDecimal_iff _).mp finite⟩, bounded⟩,
      fun finite infinite => unbounded infinite finite, fun not => ?_⟩
    refine (isFinite_ofDecimal_iff _).mpr (not_not.mp fun large => ?_)
    exact not (.large numeral large)
  | nan sign word =>
    exact ⟨iff_of_false id bounded, iff_of_false id fun not => not (.word sign (word ▸ .head _))⟩
  | infinite sign word =>
    exact ⟨iff_of_false id bounded, iff_of_false id fun not => not (.word sign (.tail _ word))⟩

/-- The same for a piece of a text, which may be blank. -/
theorem isFinite_of_component {piece : List Char} {x : Single} (h : Component piece x) :
    (x.IsFinite ↔ Bounded (Text.trim piece)) ∧ (x.IsFinite ↔ ¬ Unbounded (Text.trim piece)) := by
  rcases h with ⟨empty, rfl⟩ | spelled
  · rw [empty]
    refine ⟨iff_of_true trivial (.inl rfl), iff_of_true trivial fun unbounded => ?_⟩
    obtain ⟨x, spelled, -⟩ := unbounded.spells
    exact Binary.not_spells_nil x spelled
  · exact isFinite_of_spells spelled

/-! ### Numerals of a script -/

/-- The text of a whole number in a script. -/
inductive IntegerNumeral : List Char → Prop
  | mk {s ds : List Char} (sign : s = [] ∨ s = ['-']) (digits : Decimal.Digits ds)
    (nonempty : ds ≠ []) : IntegerNumeral (s ++ ds)

/-- What stands in a script for a number, or for three of them. -/
inductive CodeNumeral : Signal → List Char → Prop
  | int {cs : List Char} (numeral : IntegerNumeral cs) : CodeNumeral .int cs
  | float {cs : List Char} (numeral : Binary.FixedNumeral 4 cs) : CodeNumeral .float cs
  | vector {x y z : List Char} (hx : Binary.FixedNumeral 4 x) (hy : Binary.FixedNumeral 4 y)
    (hz : Binary.FixedNumeral 4 z) : CodeNumeral .vector
      ("vect(".toList ++ (x ++ ',' :: (' ' :: y ++ ',' :: (' ' :: z)) ++ [')']))
  | rotator {p y r : List Char} (hp : IntegerNumeral p) (hy : IntegerNumeral y)
    (hr : IntegerNumeral r) : CodeNumeral .rotator
      ("rot(".toList ++ (p ++ ',' :: (y ++ ',' :: r) ++ [')']))

theorem integerNumeral_toString (n : Int) : IntegerNumeral (toString n).toList := by
  rw [Decimal.toList_toString]
  refine .mk ?_ (Decimal.digits_toDigits _) Nat.toDigits_ne_nil
  by_cases negative : n < 0 <;> simp [negative]

/-- There is no comma in a numeral. -/
theorem comma_notMem_of_fixedNumeral {places : Nat} {cs : List Char}
    (h : Binary.FixedNumeral places cs) : ',' ∉ cs := by
  obtain ⟨sign, wholeDigits, -, fractionDigits, -⟩ := h
  have digit {ds : List Char} (digits : Decimal.Digits ds) : ',' ∉ ds :=
    fun hc => absurd (digits _ hc) (by decide)
  rcases sign with rfl | rfl <;> simp [digit wholeDigits, digit fractionDigits]

namespace Literal

/-- All numbers of the literal are finite. -/
def IsFinite : Literal → Prop
  | float x => x.IsFinite
  | vector x y z => x.IsFinite ∧ y.IsFinite ∧ z.IsFinite
  | _ => True

/-- The signals whose literals are numbers. -/
def numeric : List Signal :=
  [.int, .float, .vector, .rotator]

theorem codeNumeral_vector_iff {x y z : Single} :
    CodeNumeral .vector (vector x y z).code.toList ↔ x.IsFinite ∧ y.IsFinite ∧ z.IsFinite := by
  have finite (x : Single) : x.IsFinite ↔ Binary.FixedNumeral 4 (x.fixed 4).toList :=
    Binary.fixedNumeral_iff.symm
  rw [finite, finite, finite]
  constructor
  · intro h
    generalize text : (vector x y z).code.toList = cs at h
    cases h with
    | vector hx hy hz =>
      rw [toList_code_vector, List.append_cancel_left_eq, List.append_cancel_right_eq] at text
      obtain ⟨rfl, same, same'⟩ := three_inj (comma_notMem_fixed 4 x)
        (by simp [comma_notMem_fixed]) (by simp [comma_notMem_fixed])
        (comma_notMem_of_fixedNumeral hx) (by simp [comma_notMem_of_fixedNumeral hy])
        (by simp [comma_notMem_of_fixedNumeral hz]) text
      cases same
      cases same'
      exact ⟨hx, hy, hz⟩
  · rintro ⟨hx, hy, hz⟩
    rw [toList_code_vector]
    exact .vector hx hy hz

/-- **A number is a numeral of the script exactly if it is finite.** -/
theorem codeNumeral_iff {l : Literal} (h : l.signal ∈ numeric) :
    CodeNumeral l.signal l.code.toList ↔ l.IsFinite := by
  cases l with
  | int n => exact iff_of_true (.int (integerNumeral_toString _)) trivial
  | float x =>
    refine Iff.trans ⟨fun h => ?_, .float⟩ Binary.fixedNumeral_iff
    cases h with
    | float numeral => exact numeral
  | vector x y z => exact codeNumeral_vector_iff
  | rotator p y r =>
    refine iff_of_true ?_ trivial
    rw [toList_code_rotator]
    exact .rotator (integerNumeral_toString _) (integerNumeral_toString _)
      (integerNumeral_toString _)
  | bool b => simp [numeric, signal] at h
  | string s => simp [numeric, signal] at h
  | object => simp [numeric, signal] at h
  | execution => simp [numeric, signal] at h

/-! ### Texts of numbers -/

/-- The pieces of a text that are read as numbers. -/
def numbers : Signal → List Char → List (List Char)
  | .vector, cs | .rotator, cs => (commaPieces cs).take 3
  | _, cs => [cs]

/-- The piece stands for a finite number, or for a whole number if this is asked for. -/
def DenotesFinite : Signal → List Char → Prop
  | .int, piece => Text.trim piece = [] ∨ ∃ n, Decimal.Whole (Text.trim piece) n
  | _, piece => Bounded (Text.trim piece)

variable {s : Signal} {text : String} {l : Literal}

theorem ofText_int_ok (h : ofText .int text = .ok l) : DenotesFinite .int text.toList := by
  cases read : readInt? text.toList with
  | none => simp [ofText, read] at h
  | some n =>
    rw [readInt?] at read
    split at read
    · exact .inl ‹_›
    · obtain ⟨m, whole, -⟩ := Option.bind_eq_some_iff.mp read
      exact .inr ⟨m, Decimal.wholeNumber?_eq_some_iff.mp whole⟩

theorem ofText_float_ok_iff :
    ofText .float text = .ok l ↔ ∃ x, Component text.toList x ∧ l = float x := by
  simp only [ofText, ← readSingle?_eq_some_iff]
  cases readSingle? text.toList with
  | none => simp
  | some x => simp [eq_comm]

/-- A literal of numbers is read exactly if all its pieces stand for numbers. -/
theorem exists_ofText_iff (h : s ∈ numeric) (number : s ≠ .int) :
    (∃ l, ofText s text = .ok l) ↔ ∀ piece ∈ numbers s text.toList, IsComponent piece := by
  have split := splitsInto_commaPieces text.toList
  simp only [numeric, List.mem_cons, List.not_mem_nil, or_false] at h
  rcases h with rfl | rfl | rfl | rfl
  · exact absurd rfl number
  · simp [ofText_float_ok_iff, numbers, IsComponent]
  · exact exists_ofText_ok_iff .vector split
  · exact exists_ofText_ok_iff .rotator split

/-- What is not read is refused with an error that names the signal and the text. -/
theorem ofText_of_refused (h : s ∈ numeric) (refused : ¬ ∃ l, ofText s text = .ok l) :
    ofText s text = .error (.invalid s text) := by
  have elim (o : Option Literal)
      (none : ¬ ∃ m, (o.elim (.error (.invalid s text)) .ok : Except LiteralError _) = .ok m) :
      (o.elim (.error (.invalid s text)) .ok : Except LiteralError _) =
        .error (.invalid s text) := by
    cases o with
    | none => rfl
    | some m => exact absurd ⟨m, rfl⟩ none
  simp only [numeric, List.mem_cons, List.not_mem_nil, or_false] at h
  rcases h with rfl | rfl | rfl | rfl <;> exact elim _ refused

/-- A literal that is read is finite exactly if its pieces are. Angles are finite anyway. -/
theorem isFinite_of_ofText (h : ofText s text = .ok l) (numeric' : s ∈ numeric) :
    l.IsFinite ↔
      s = .int ∨ s = .rotator ∨ ∀ piece ∈ numbers s text.toList, DenotesFinite s piece := by
  have signal' := signal_of_ofText h
  simp only [numeric, List.mem_cons, List.not_mem_nil, or_false] at numeric'
  rcases numeric' with rfl | rfl | rfl | rfl
  · cases l <;> simp [signal] at signal'
    simp [IsFinite]
  · obtain ⟨x, hx, rfl⟩ := ofText_float_ok_iff.mp h
    simp [IsFinite, numbers, DenotesFinite, (isFinite_of_component hx).1]
  · obtain ⟨x, y, z, hx, hy, hz, rfl⟩ :=
      (ofText_ok_iff .vector (splitsInto_commaPieces _)).mp h
    have pieces := forall_mem_take_three (p := DenotesFinite .vector) (d := [])
      (l := commaPieces text.toList) (.inl rfl)
    rw [IsFinite, (isFinite_of_component hx).1, (isFinite_of_component hy).1,
      (isFinite_of_component hz).1, numbers, pieces]
    simp [DenotesFinite]
  · cases l <;> simp [signal] at signal'
    simp [IsFinite]

/-- What is read stands in a script as a numeral, and what denotes no finite number is refused. -/
def KeepsNumerals (s : Signal) (text : String) : Prop :=
  (∀ l, ofText s text = .ok l → CodeNumeral s l.code.toList) ∧
    ((∃ piece ∈ numbers s text.toList, ¬ DenotesFinite s piece) →
      ofText s text = .error (.invalid s text))

theorem keepsNumerals_int (text : String) : KeepsNumerals .int text := by
  constructor
  · intro l h
    have signal' := signal_of_ofText h
    have finite := (isFinite_of_ofText h (by decide)).mpr (.inl rfl)
    exact signal' ▸ (codeNumeral_iff (signal' ▸ by decide)).mpr finite
  · rintro ⟨piece, hm, not⟩
    obtain rfl : piece = text.toList := by simpa [numbers] using hm
    exact ofText_of_refused (by decide) fun ⟨l, h⟩ => not (ofText_int_ok h)

/-- What is read stands in a script as a numeral exactly if its numbers are finite. -/
theorem codeNumeral_iff_of_ofText (h : s ∈ numeric) (read : ofText s text = .ok l) :
    CodeNumeral s l.code.toList ↔
      s = .int ∨ s = .rotator ∨ ∀ piece ∈ numbers s text.toList, DenotesFinite s piece := by
  have signal' := signal_of_ofText read
  rw [← isFinite_of_ofText read h, ← codeNumeral_iff (signal' ▸ h), signal']

/-- **Texts of numbers become numerals of the script, or are refused, exactly if no number in them is
unbounded, or if something in them is no number at all.** What is read is a numeral of the script
exactly if its numbers are finite; angles always are. -/
theorem bounded_iff (h : s ∈ numeric) (text : String) :
    (∀ l, ofText s text = .ok l → (CodeNumeral s l.code.toList ↔
      s = .int ∨ s = .rotator ∨ ∀ piece ∈ numbers s text.toList, DenotesFinite s piece)) ∧
    (KeepsNumerals s text ↔ s = .int ∨
      (∃ piece ∈ numbers s text.toList, ¬ IsComponent piece) ∨
      ∀ piece ∈ numbers s text.toList, ¬ Unbounded (Text.trim piece)) := by
  refine ⟨fun l => codeNumeral_iff_of_ofText h, ?_⟩
  by_cases number : s = .int
  · subst number
    exact iff_of_true (keepsNumerals_int text) (.inl rfl)
  rw [or_iff_right number]
  have read : (∃ l, ofText s text = .ok l) ↔
      ∀ piece ∈ numbers s text.toList, IsComponent piece := exists_ofText_iff h number
  have denotes (piece : List Char) : DenotesFinite s piece ↔ Bounded (Text.trim piece) := by
    cases s <;> first | rfl | exact absurd rfl number
  constructor
  · rintro ⟨-, refuses⟩
    by_cases ok : ∃ l, ofText s text = .ok l
    · refine .inr fun piece hm unbounded => ?_
      obtain ⟨x, hx⟩ := read.mp ok piece hm
      obtain ⟨bounded, infinite⟩ := isFinite_of_component hx
      obtain ⟨l, hl⟩ := ok
      have error := refuses ⟨piece, hm, fun finite =>
        infinite.mp (bounded.mpr ((denotes piece).mp finite)) unbounded⟩
      cases hl.symm.trans error
    · rw [read] at ok
      exact .inl (by simpa using ok)
  · intro harmless
    have finite (ok : ∃ l, ofText s text = .ok l) :
        ∀ piece ∈ numbers s text.toList, DenotesFinite s piece := by
      intro piece hm
      obtain ⟨x, hx⟩ := read.mp ok piece hm
      obtain ⟨bounded, infinite⟩ := isFinite_of_component hx
      rcases harmless with ⟨other, ho, not⟩ | none
      · exact absurd (read.mp ok other ho) not
      · exact (denotes piece).mpr (bounded.mp (infinite.mpr (none piece hm)))
    exact ⟨fun l hl => (codeNumeral_iff_of_ofText h hl).mpr (.inr (.inr (finite ⟨l, hl⟩))),
      fun ⟨piece, hm, not⟩ => ofText_of_refused h fun ok => not (finite ok piece hm)⟩

/-- A piece that is no number lets a text be refused, whatever else is in it. -/
theorem bounded_iff_refused : Signal.vector ∈ numeric ∧ KeepsNumerals .vector "1,x,inf" := by
  have numeric' : Signal.vector ∈ numeric := by decide
  have pieces : numbers .vector "1,x,inf".toList = [['1'], ['x'], ['i', 'n', 'f']] := by
    decide +kernel
  have letter : ¬ IsComponent ['x'] := by
    rintro ⟨x, hx⟩
    have read := readSingle?_eq_some_iff.mpr hx
    rw [show readSingle? ['x'] = none by decide +kernel] at read
    cases read
  refine ⟨numeric', (bounded_iff numeric' _).2.mpr (.inr (.inl ⟨['x'], ?_, letter⟩))⟩
  rw [pieces]
  decide

/-- A word for infinity is read as a number and stands in a script as it is. -/
theorem infinity_unkept : ofText .float "inf" = .ok (float (.infinite false)) ∧
    (float (.infinite false)).code = "inf" ∧ ¬ KeepsNumerals .float "inf" := by
  have read : ofText .float "inf" = .ok (float (.infinite false)) := by decide +kernel
  have written : (float (.infinite false)).code = "inf" := by decide +kernel
  refine ⟨read, written, fun ⟨kept, _⟩ => ?_⟩
  have numeral := kept _ read
  rw [written] at numeral
  cases numeral with
  | float numeral => exact absurd numeral.point (by decide +kernel)

end Literal

end NodeScript
