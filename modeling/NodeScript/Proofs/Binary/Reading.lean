import NodeScript.Binary.Numeral
import NodeScript.Proofs.Binary.Rounding
import NodeScript.Proofs.Numerals

/-!
# Reading binary numbers

What text is a number, said without its reader: a numeral, or a word for a special value with an
optional sign (`Binary.Spells`). The reader accepts exactly these texts
(`Binary.ofChars?_eq_some_iff`).

A numeral gives the number nearest to the decimal, whatever its exponent: the cases that are decided
by the exponent alone only spare work (`Binary.ofDecimal_eq`). So a numeral gives a finite number
exactly if the decimal is small enough (`Binary.isFinite_ofDecimal`).
-/

namespace NodeScript.Binary

-- powers are those of the core library, whichever other instances are in scope
attribute [local instance (high)] instPowNat

variable {f : Format}

/-! ### What text is a number -/

/-- The words for infinity. -/
def infinityWords : List (List Char) :=
  [['i', 'n', 'f'], ['i', 'n', 'f', 'i', 'n', 'i', 't', 'y']]

/-- The word for what is no number. -/
def nanWord : List Char :=
  ['n', 'a', 'n']

/-- The text of a number: a numeral, or a signed word in any case. -/
inductive Spells : List Char → Binary f → Prop
  | numeral {cs : List Char} {d : Decimal} (h : Decimal.Numeral cs d) : Spells cs (ofDecimal d)
  | nan {s w : List Char} {negative : Bool} (sign : Decimal.Sign s negative)
    (word : w.map Char.toLower = nanWord) : Spells (s ++ w) nan
  | infinite {s w : List Char} {negative : Bool} (sign : Decimal.Sign s negative)
    (word : w.map Char.toLower ∈ infinityWords) : Spells (s ++ w) (infinite negative)

theorem ofWord?_eq_some_iff {negative : Bool} {w : List Char} {x : Binary f} :
    ofWord? negative w = some x ↔
      w.map Char.toLower = nanWord ∧ x = nan ∨
        w.map Char.toLower ∈ infinityWords ∧ x = infinite negative := by
  have infinity : w.map Char.toLower ∈ infinityWords ↔ w.map Char.toLower = ['i', 'n', 'f'] ∨
      w.map Char.toLower = ['i', 'n', 'f', 'i', 'n', 'i', 't', 'y'] := by
    simp [infinityWords]
  simp only [ofWord?, infinity]
  split
  · rename_i word
    constructor
    · rintro ⟨⟩
      exact .inl ⟨word, rfl⟩
    · rintro (⟨-, rfl⟩ | ⟨other, -⟩)
      · rfl
      · simp [word] at other
  · rename_i other
    split
    · rename_i word
      constructor
      · rintro ⟨⟩
        exact .inr ⟨word, rfl⟩
      · rintro (⟨word, -⟩ | ⟨-, rfl⟩)
        · exact absurd word other
        · rfl
    · rename_i none
      refine iff_of_false nofun ?_
      rintro (⟨word, -⟩ | ⟨word, -⟩)
      · exact other word
      · exact none word

/-- The first letter of a word, in lower case. -/
theorem head_of_word {w : List Char} (h : w.map Char.toLower ∈ nanWord :: infinityWords) :
    ∃ c cs, w = c :: cs ∧ (c.toLower = 'n' ∨ c.toLower = 'i') := by
  cases w with
  | nil => simp [nanWord, infinityWords] at h
  | cons c cs =>
    refine ⟨c, cs, rfl, ?_⟩
    simp only [nanWord, infinityWords, List.map_cons, List.mem_cons, List.cons.injEq,
      List.not_mem_nil, or_false] at h
    tauto

theorem unsigned_of_word {w : List Char} (h : w.map Char.toLower ∈ nanWord :: infinityWords) :
    Decimal.Unsigned w := by
  obtain ⟨c, cs, rfl, letter⟩ := head_of_word h
  rintro d ⟨⟩
  constructor <;> rintro rfl <;> exact absurd letter (by decide)

theorem toLower_of_isDigit {c : Char} (h : c.isDigit = true) : c.toLower = c := by
  have bounds : 48 ≤ c.toNat ∧ c.toNat ≤ 57 := by
    simpa [Char.isDigit, UInt32.le_iff_toNat_le] using h
  refine dif_neg fun upper => ?_
  have : 65 ≤ c.toNat := upper.1
  omega

/-- What begins like a numeral is no word. -/
theorem ofWord?_of_head {negative : Bool} {c : Char} {cs : List Char}
    (h : c.isDigit = true ∨ c = '.') : (ofWord? negative (c :: cs) : Option (Binary f)) = none := by
  refine Option.eq_none_iff_forall_ne_some.mpr fun x hx => ?_
  have word : (c :: cs).map Char.toLower ∈ nanWord :: infinityWords := by
    rcases ofWord?_eq_some_iff.mp hx with ⟨word, -⟩ | ⟨word, -⟩
    · exact word ▸ .head _
    · exact .tail _ word
  obtain ⟨d, ds, same, letter⟩ := head_of_word word
  cases same
  rcases h with digit | rfl
  · rw [toLower_of_isDigit digit] at letter
    rcases letter with rfl | rfl <;> exact absurd digit (by decide)
  · exact absurd letter (by decide)

theorem ofChars?_eq (cs : List Char) : (ofChars? cs : Option (Binary f)) =
    (ofWord? (Decimal.splitSign cs).1 (Decimal.splitSign cs).2).or
      ((Decimal.ofChars? cs).map ofDecimal) := by
  rcases hs : Decimal.splitSign cs with ⟨negative, body⟩
  simp only [ofChars?, hs]
  cases ofWord? negative body <;> rfl

theorem ofChars?_of_word {s w : List Char} {negative : Bool} {x : Binary f}
    (sign : Decimal.Sign s negative) (word : w.map Char.toLower ∈ nanWord :: infinityWords)
    (h : ofWord? negative w = some x) : ofChars? (s ++ w) = some x := by
  simp [ofChars?_eq, Decimal.splitSign_append sign (unsigned_of_word word), h]

/-- **The texts of numbers are read, and nothing else is.** -/
theorem ofChars?_eq_some_iff {cs : List Char} {x : Binary f} :
    ofChars? cs = some x ↔ Spells cs x := by
  constructor
  · intro h
    obtain ⟨s, sign, split⟩ := Decimal.exists_sign cs
    rw [ofChars?_eq] at h
    rcases Option.or_eq_some_iff.mp h with found | ⟨-, h⟩
    · rw [split]
      rcases ofWord?_eq_some_iff.mp found with ⟨word, rfl⟩ | ⟨word, rfl⟩
      · exact .nan sign word
      · exact .infinite sign word
    · obtain ⟨d, hd, rfl⟩ := Option.map_eq_some_iff.mp h
      exact .numeral (Decimal.ofChars?_eq_some_iff.mp hd)
  · rintro (numeral | ⟨sign, word⟩ | ⟨sign, word⟩)
    · have read := Decimal.ofChars?_eq_some_iff.mpr numeral
      obtain ⟨sign, wholeDigits, -, nonempty, -⟩ := numeral
      obtain ⟨c, cs, body, head⟩ := Decimal.exists_head wholeDigits nonempty
      rw [body] at read ⊢
      have unsigned : Decimal.Unsigned (c :: cs) := Decimal.unsigned_of_head head
      have split := Decimal.splitSign_append sign unsigned
      simp [ofChars?_eq, split, ofWord?_of_head head, read]
    · exact ofChars?_of_word sign (word ▸ .head _) (ofWord?_eq_some_iff.mpr (.inl ⟨word, rfl⟩))
    · exact ofChars?_of_word sign (.tail _ word) (ofWord?_eq_some_iff.mpr (.inr ⟨word, rfl⟩))

/-- A text spells one number. -/
theorem Spells.unique {cs : List Char} {x y : Binary f} (hx : Spells cs x) (hy : Spells cs y) :
    x = y := by
  rw [← ofChars?_eq_some_iff] at hx hy
  exact Option.some.inj (hx.symm.trans hy)

/-- The text of a number is not empty. -/
theorem not_spells_nil (x : Binary f) : ¬ Spells [] x := by
  rw [← ofChars?_eq_some_iff]
  nofun

/-! ### The number nearest to a decimal -/

/-- The power of ten that a decimal is multiplied with. -/
def numerator (d : Decimal) : Nat :=
  d.significand * 10 ^ d.exponent.toNat

/-- The power of ten that a decimal is divided by. -/
def denominator (d : Decimal) : Nat :=
  10 ^ (-d.exponent).toNat

theorem denominator_pos (d : Decimal) : 0 < denominator d :=
  Nat.pow_pos (by decide)

/-- A power of ten is at least as large as the power of eight. -/
theorem two_pow_le_ten_pow (n : Nat) : 2 ^ (3 * n) ≤ 10 ^ n := by
  rw [Nat.pow_mul]
  exact Nat.pow_le_pow_left (by decide) n

/-- A quotient less than half of the least positive number is rounded to zero. -/
theorem nearest_eq_zero {num den : Nat} (h : 2 * num < den) : f.nearest num den = 0 := by
  have at' : f.RoundsAt 0 num den := by
    refine ⟨.inl rfl, ?_⟩
    have : 1 * den ≤ 2 ^ (0 + f.fraction + 1) * den :=
      Nat.mul_le_mul_right _ (Nat.two_pow_pos _)
    omega
  simpa using at'.nearest_of_near (r := 0) (by simp; omega) (by simp; omega)

/-- A large power of ten is beyond the format on its own. -/
theorem not_nearest_lt_limit (exponents : 2 ≤ f.exponents) {m k : Nat} (positive : 1 ≤ m)
    (large : f.exponents + f.fraction ≤ 3 * k) :
    ¬ f.nearest (m * 10 ^ k * 2 ^ f.scale) 1 < f.limit := by
  have low : 2 ^ (f.exponents + f.fraction) ≤ 1 * 10 ^ k * 1 := by
    rw [Nat.one_mul, Nat.mul_one]
    exact Nat.le_trans (Nat.pow_le_pow_right (by decide) large) (two_pow_le_ten_pow _)
  have high : 1 * 10 ^ k * 1 ≤ m * 10 ^ k * 2 ^ f.scale :=
    Nat.mul_le_mul (Nat.mul_le_mul_right _ positive) (Nat.two_pow_pos _)
  rw [Format.nearest_lt_limit_iff exponents Nat.one_pos, Nat.one_mul, Nat.not_lt]
  calc (2 ^ (f.fraction + 2) - 1) * 2 ^ (f.exponents - 2)
      ≤ 2 ^ (f.fraction + 2) * 2 ^ (f.exponents - 2) := Nat.mul_le_mul_right _ (Nat.sub_le ..)
    _ = 2 ^ (f.exponents + f.fraction) := by
        rw [← Nat.pow_add]
        congr 1
        omega
    _ ≤ 2 * (m * 10 ^ k * 2 ^ f.scale) := by omega

/-- A small power of ten leaves less than half of the least positive number. -/
theorem two_mul_lt_ten_pow {m k scale : Nat} (small : m.log2 + scale + 2 ≤ 3 * k) :
    2 * (m * 2 ^ scale) < 10 ^ k :=
  calc 2 * (m * 2 ^ scale)
      < 2 * (2 ^ (m.log2 + 1) * 2 ^ scale) :=
        Nat.mul_lt_mul_of_pos_left
          (Nat.mul_lt_mul_of_pos_right Nat.lt_log2_self (Nat.two_pow_pos _)) (by decide)
    _ = 2 ^ (m.log2 + scale + 2) := by
        rw [← Nat.pow_add, Nat.mul_comm, ← Nat.pow_succ]
        congr 1
        omega
    _ ≤ 10 ^ k := Nat.le_trans (Nat.pow_le_pow_right (by decide) small) (two_pow_le_ten_pow _)

/-- **A decimal gives the number nearest to it**, whatever its exponent. -/
theorem ofDecimal_eq (exponents : 2 ≤ f.exponents) (d : Decimal) :
    (ofDecimal d : Binary f) = ofQuotient d.negative (numerator d) (denominator d) := by
  unfold ofDecimal
  by_cases zero : d.significand = 0
  · have nothing : f.nearest 0 (denominator d) = 0 := nearest_eq_zero (denominator_pos d)
    simp [zero, ofQuotient, numerator, nothing]
  have positive : 1 ≤ d.significand := Nat.pos_of_ne_zero zero
  rw [if_neg zero]
  -- the program gives the result for extreme exponents without the powers of ten
  by_cases sign : 0 ≤ d.exponent
  · have one : denominator d = 1 := by
      rw [denominator, Int.toNat_of_nonpos (by omega), Nat.pow_zero]
    have power : d.exponent.natAbs = d.exponent.toNat := by omega
    rw [if_pos sign, one, numerator, power]
    split
    · rename_i large
      rw [ofQuotient, ofCode, dif_neg (not_nearest_lt_limit exponents positive large)]
    · rfl
  · have one : 10 ^ d.exponent.toNat = 1 := by
      rw [Int.toNat_of_nonpos (by omega), Nat.pow_zero]
    have power : d.exponent.natAbs = (-d.exponent).toNat := by omega
    rw [if_neg sign, numerator, one, Nat.mul_one, denominator, power]
    split
    · rename_i small
      rw [ofQuotient, nearest_eq_zero (two_mul_lt_ten_pow small)]
    · rfl

/-! ### Finite numbers -/

/-- The number is neither infinite nor not-a-number. -/
def IsFinite : Binary f → Prop
  | finite _ _ => True
  | nan | infinite _ => False

theorem isFinite_ofCode {s : Bool} {code : Nat} :
    (ofCode s code : Binary f).IsFinite ↔ code < f.limit := by
  by_cases h : code < f.limit
  · simp [ofCode, h, IsFinite]
  · simp [ofCode, h, IsFinite]

/-- **A decimal gives a finite number exactly below the middle between the largest of them and the
next power of two.** -/
theorem isFinite_ofDecimal (exponents : 2 ≤ f.exponents) (d : Decimal) :
    (ofDecimal d : Binary f).IsFinite ↔ 2 * (numerator d * 2 ^ f.scale) <
      (2 ^ (f.fraction + 2) - 1) * (denominator d * 2 ^ (f.exponents - 2)) := by
  rw [ofDecimal_eq exponents, ofQuotient, isFinite_ofCode,
    Format.nearest_lt_limit_iff exponents (denominator_pos d)]

end NodeScript.Binary
