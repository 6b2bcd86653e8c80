import NodeScript.Decimal

/-!
# The grammar of numerals

What text is a numeral, said without its reader: an optional sign, then digits
(`Decimal.Whole`), or digits with at most one point in or around them and an optional exponent
(`Decimal.Numeral`). The readers accept exactly these texts and give the number that the digits
denote (`Decimal.wholeNumber?_eq_some_iff`, `Decimal.ofChars?_eq_some_iff`).

The pieces of a numeral can be told apart by their first characters alone: a sign is no digit, and
neither the point nor the letter of the exponent is one.
-/

namespace NodeScript.Decimal

/-! ### Texts and what they denote -/

/-- An optional sign, and whether it is a minus. -/
inductive Sign : List Char → Bool → Prop
  | absent : Sign [] false
  | plus : Sign ['+'] false
  | minus : Sign ['-'] true

/-- All characters are decimal digits. -/
def Digits (cs : List Char) : Prop :=
  ∀ c ∈ cs, c.isDigit = true

/-- The text of a whole number. -/
inductive Whole : List Char → Int → Prop
  | mk {s ds : List Char} {negative : Bool} (sign : Sign s negative) (digits : Digits ds)
    (nonempty : ds ≠ []) : Whole (s ++ ds) (signed negative (digitsValue ds))

/-- What may follow the digits of a numeral, and the power of ten that it stands for. -/
inductive Exponent : List Char → Int → Prop
  | absent : Exponent [] 0
  | power {letter : Char} {cs : List Char} {e : Int} (scientific : letter = 'e' ∨ letter = 'E')
    (whole : Whole cs e) : Exponent (letter :: cs) e

/-- The text of a decimal. There may be no digit before the point or none behind it, but not both. -/
inductive Numeral : List Char → Decimal → Prop
  | mk {s whole x : List Char} {fraction : Option (List Char)} {negative : Bool} {e : Int}
    (sign : Sign s negative) (wholeDigits : Digits whole)
    (fractionDigits : Digits (fraction.getD [])) (nonempty : whole ++ fraction.getD [] ≠ [])
    (exponent : Exponent x e) :
    Numeral (s ++ (whole ++ (fraction.elim [] ('.' :: ·) ++ x)))
      ⟨negative, digitsValue (whole ++ fraction.getD []), e - (fraction.getD []).length⟩

/-! ### Signs and digits -/

theorem digits_nil : Digits [] :=
  List.forall_mem_nil _

theorem digits_append {cs ds : List Char} : Digits (cs ++ ds) ↔ Digits cs ∧ Digits ds :=
  List.forall_mem_append

/-- The text does not begin with a sign. -/
def Unsigned (cs : List Char) : Prop :=
  ∀ c ∈ cs.head?, c ≠ '-' ∧ c ≠ '+'

/-- The text does not begin with a digit. -/
def Ended (cs : List Char) : Prop :=
  ∀ c ∈ cs.head?, c.isDigit = false

theorem Digits.unsigned {ds : List Char} (h : Digits ds) : Unsigned ds := by
  intro c hc
  have digit := h c (List.mem_of_mem_head? hc)
  constructor <;> rintro rfl <;> exact absurd digit (by decide)

theorem splitSign_append {s body : List Char} {negative : Bool} (sign : Sign s negative)
    (h : Unsigned body) : splitSign (s ++ body) = (negative, body) := by
  cases sign with
  | plus => rfl
  | minus => rfl
  | absent =>
    cases body with
    | nil => rfl
    | cons c cs =>
      obtain ⟨minus, plus⟩ := h c rfl
      rw [List.nil_append, splitSign]
      · simpa using minus
      · simpa using plus

/-- What is split off is a sign. -/
theorem exists_sign (cs : List Char) :
    ∃ s, Sign s (splitSign cs).1 ∧ cs = s ++ (splitSign cs).2 := by
  unfold splitSign
  split
  · exact ⟨_, .minus, rfl⟩
  · exact ⟨_, .plus, rfl⟩
  · exact ⟨_, .absent, rfl⟩

theorem digits_splitDigits (cs : List Char) : Digits (splitDigits cs).1 :=
  List.all_eq_true.mp List.all_takeWhile

theorem splitDigits_of_append {ds rest : List Char} (digits : Digits ds) (ended : Ended rest) :
    splitDigits (ds ++ rest) = (ds, rest) := by
  rw [splitDigits, List.takeWhile_append_of_pos digits, List.dropWhile_append_of_pos digits]
  cases rest with
  | nil => simp
  | cons c cs => simp [ended c rfl]

/-! ### Whole numbers -/

/-- **The texts of whole numbers are read, and nothing else is.** -/
theorem wholeNumber?_eq_some_iff {cs : List Char} {n : Int} :
    wholeNumber? cs = some n ↔ Whole cs n := by
  constructor
  · intro h
    obtain ⟨s, sign, split⟩ := exists_sign cs
    simp only [wholeNumber?, Option.ite_none_right_eq_some, List.all_eq_true,
      Option.some.injEq] at h
    obtain ⟨⟨nonempty, digits⟩, rfl⟩ := h
    have whole := Whole.mk sign digits nonempty
    rwa [← split] at whole
  · rintro ⟨sign, digits, nonempty⟩
    rw [wholeNumber?, splitSign_append sign digits.unsigned]
    exact if_pos ⟨nonempty, List.all_eq_true.mpr digits⟩

theorem digits_toDigits (n : Nat) : Digits (Nat.toDigits 10 n) :=
  fun _ => Nat.isDigit_of_mem_toDigits (by decide) (by decide)

theorem toList_toString (n : Int) :
    (toString n).toList = (if n < 0 then ['-'] else []) ++ Nat.toDigits 10 n.natAbs := by
  cases n with
  | ofNat m => simp [toString, Int.repr]
  | negSucc m => simp [toString, Int.repr]

/-- The written form of a whole number is a text of it. -/
theorem whole_toString (n : Int) : Whole (toString n).toList n := by
  have value : signed (decide (n < 0)) (digitsValue (Nat.toDigits 10 n.natAbs)) = n := by
    rw [digitsValue, Nat.ofDigitChars_toDigits (by decide) (by decide), signed]
    by_cases negative : n < 0
    · rw [if_pos (decide_eq_true negative)]
      omega
    · rw [if_neg (by simpa using negative)]
      omega
  have sign : Sign (if n < 0 then ['-'] else []) (decide (n < 0)) := by
    by_cases negative : n < 0
    · simpa [negative] using Sign.minus
    · simpa [negative] using Sign.absent
  have whole := Whole.mk sign (digits_toDigits n.natAbs) Nat.toDigits_ne_nil
  rwa [value, ← toList_toString] at whole

/-- Whole numbers with one written form are equal. -/
theorem toString_injective {m n : Int} (h : toString m = toString n) : m = n := by
  have read := wholeNumber?_eq_some_iff.mpr (whole_toString m)
  rw [h, wholeNumber?_eq_some_iff.mpr (whole_toString n)] at read
  exact (Option.some.inj read).symm

/-- A whole number is written with digits and the minus sign. -/
theorem mem_toString {n : Int} {c : Char} (h : c ∈ (toString n).toList) :
    c.isDigit = true ∨ c = '-' := by
  rw [toList_toString, List.mem_append] at h
  rcases h with sign | digit
  · by_cases negative : n < 0
    · exact .inr (by simpa [negative] using sign)
    · simp [negative] at sign
  · exact .inl (digits_toDigits _ c digit)

theorem exponent?_eq_some_iff {cs : List Char} {e : Int} :
    exponent? cs = some e ↔ Exponent cs e := by
  constructor
  · intro h
    cases cs with
    | nil => cases h; exact .absent
    | cons c cs =>
      rw [exponent?, Option.ite_none_right_eq_some] at h
      exact .power h.1 (wholeNumber?_eq_some_iff.mp h.2)
  · rintro (_ | ⟨scientific, whole⟩)
    · rfl
    · rw [exponent?, if_pos scientific]
      exact wholeNumber?_eq_some_iff.mpr whole

/-! ### Decimals -/

/-- The letter of an exponent is neither a digit nor a point. -/
theorem Exponent.head {x : List Char} {e : Int} (h : Exponent x e) :
    ∀ c ∈ x.head?, c.isDigit = false ∧ c ≠ '.' := by
  rintro c hc
  cases h with
  | absent => cases hc
  | power scientific whole =>
    cases hc
    rcases scientific with rfl | rfl <;> decide

theorem Exponent.ended {x : List Char} {e : Int} (h : Exponent x e) : Ended x :=
  fun c hc => (h.head c hc).1

theorem point_ended (cs : List Char) : Ended ('.' :: cs) := by
  rintro c ⟨⟩
  decide

/-- Behind its sign a numeral begins with a digit or the point. -/
theorem exists_head {whole x : List Char} {fraction : Option (List Char)}
    (wholeDigits : Digits whole) (nonempty : whole ++ fraction.getD [] ≠ []) :
    ∃ c cs, whole ++ (fraction.elim [] ('.' :: ·) ++ x) = c :: cs ∧ (c.isDigit = true ∨ c = '.') := by
  cases whole with
  | cons c cs => exact ⟨c, _, rfl, .inl (wholeDigits c (.head _))⟩
  | nil =>
    cases fraction with
    | some ds => exact ⟨'.', _, rfl, .inr rfl⟩
    | none => exact absurd rfl nonempty

theorem unsigned_of_head {c : Char} {cs : List Char} (h : c.isDigit = true ∨ c = '.') :
    Unsigned (c :: cs) := by
  rintro d ⟨⟩
  rcases h with digit | rfl
  · have single : Digits [c] := by simpa [Digits] using digit
    exact single.unsigned c rfl
  · decide

/-- The point and the digits behind it. -/
def splitFraction : List Char → List Char × List Char
  | '.' :: rest => splitDigits rest
  | rest => ([], rest)

theorem ofChars?_eq (cs : List Char) : ofChars? cs =
    let whole := splitDigits (splitSign cs).2
    let fraction := splitFraction whole.2
    if whole.1 = [] ∧ fraction.1 = [] then none
    else (exponent? fraction.2).map fun e =>
      ⟨(splitSign cs).1, digitsValue (whole.1 ++ fraction.1), e - fraction.1.length⟩ := by
  rfl

theorem splitFraction_append {fraction : Option (List Char)} {x : List Char} {e : Int}
    (digits : Digits (fraction.getD [])) (exponent : Exponent x e) :
    splitFraction (fraction.elim [] ('.' :: ·) ++ x) = (fraction.getD [], x) := by
  cases fraction with
  | some ds => exact splitDigits_of_append digits exponent.ended
  | none =>
    cases x with
    | nil => rfl
    | cons c cs =>
      have := (exponent.head c rfl).2
      rw [Option.elim_none, List.nil_append, splitFraction]
      · rfl
      · simpa using this

theorem exists_fraction (cs : List Char) :
    ∃ fraction : Option (List Char), fraction.getD [] = (splitFraction cs).1 ∧
      Digits (fraction.getD []) ∧ cs = fraction.elim [] ('.' :: ·) ++ (splitFraction cs).2 := by
  unfold splitFraction
  split
  · rename_i rest
    exact ⟨some (splitDigits rest).1, rfl, digits_splitDigits rest,
      congrArg ('.' :: ·) (splitDigits_append rest).symm⟩
  · exact ⟨none, rfl, digits_nil, rfl⟩

/-- **The numerals are read, and nothing else is.** -/
theorem ofChars?_eq_some_iff {cs : List Char} {d : Decimal} :
    ofChars? cs = some d ↔ Numeral cs d := by
  constructor
  · intro h
    rw [ofChars?_eq] at h
    simp only [Option.ite_none_left_eq_some, Option.map_eq_some_iff] at h
    obtain ⟨nonempty, e, exponent, rfl⟩ := h
    obtain ⟨s, sign, split⟩ := exists_sign cs
    obtain ⟨fraction, same, digits, behind⟩ := exists_fraction (splitDigits (splitSign cs).2).2
    have text : cs = s ++ ((splitDigits (splitSign cs).2).1 ++
        (fraction.elim [] ('.' :: ·) ++ (splitFraction (splitDigits (splitSign cs).2).2).2)) := by
      rw [← behind, splitDigits_append, ← split]
    have numeral := Numeral.mk sign (digits_splitDigits _) digits
      (by rw [same]; simpa using nonempty) (exponent?_eq_some_iff.mp exponent)
    rw [← text, same] at numeral
    exact numeral
  · rintro ⟨sign, wholeDigits, fractionDigits, nonempty, exponent⟩
    rename_i x fraction _ _
    have ended : Ended (fraction.elim [] ('.' :: ·) ++ x) := by
      cases fraction with
      | some ds => exact point_ended _
      | none => exact exponent.ended
    obtain ⟨c, cs, body, head⟩ := exists_head (x := x) wholeDigits nonempty
    rw [ofChars?_eq, splitSign_append sign (body ▸ unsigned_of_head head)]
    simp only [splitDigits_of_append wholeDigits ended,
      splitFraction_append fractionDigits exponent, exponent?_eq_some_iff.mpr exponent,
      Option.map_some, ← List.append_eq_nil_iff, if_neg nonempty]

end NodeScript.Decimal
