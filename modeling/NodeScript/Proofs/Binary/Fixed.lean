import NodeScript.Proofs.Binary.Reading

/-!
# Writing binary numbers with fixed decimal places

A finite number is written as a numeral (`Binary.fixedNumeral_iff`, `Binary.spells_fixed`), so what is
written can be read. The number that is read is in general another one: it is nearest to the decimal
that was written, which is itself only near the first number (`Binary.reread`).

With four places a single precision number that was written, read and written again gives the same
text (`Binary.fixed_reread`). From 1024 on its own steps are wider than a ten-thousandth, and reading
gives the number itself (`reread_large`); below that they are narrower, and what is read is so near
the decimal that it is rounded to it again (`reread_small`).
-/

namespace NodeScript.Binary

-- powers are those of the core library, whichever other instances are in scope
attribute [local instance (high)] instPowNat

variable {f : Format}

/-! ### The written form -/

/-- The text of a number with so many decimal places: at least one digit before the point, and as
many behind it as there are places. -/
inductive FixedNumeral (places : Nat) : List Char → Prop
  | mk {s whole fraction : List Char} (sign : s = [] ∨ s = ['-']) (wholeDigits : Decimal.Digits whole)
    (nonempty : whole ≠ []) (fractionDigits : Decimal.Digits fraction)
    (length : fraction.length = places) : FixedNumeral places (s ++ (whole ++ '.' :: fraction))

theorem digits_replicate (k : Nat) : Decimal.Digits (List.replicate k '0') := by
  intro c hc
  rw [List.eq_of_mem_replicate hc]
  decide

theorem ofDigitChars_replicate (k : Nat) (ds : List Char) :
    Nat.ofDigitChars 10 (List.replicate k '0' ++ ds) 0 = Nat.ofDigitChars 10 ds 0 := by
  induction k with
  | zero => rfl
  | succ k ih => exact ih

/-- The digits before and behind the point, which together denote the number of units. -/
theorem exists_pointed (places n : Nat) :
    ∃ whole fraction, pointed places n = whole ++ '.' :: fraction ∧ Decimal.Digits whole ∧
      whole ≠ [] ∧ Decimal.Digits fraction ∧ fraction.length = places ∧
      Decimal.digitsValue (whole ++ fraction) = n := by
  obtain ⟨padded, hp⟩ : ∃ padded, padded =
      List.replicate (places + 1 - (Nat.toDigits 10 n).length) '0' ++ Nat.toDigits 10 n := ⟨_, rfl⟩
  have digits : Decimal.Digits padded :=
    hp ▸ Decimal.digits_append.mpr ⟨digits_replicate _, Decimal.digits_toDigits n⟩
  have length : places + 1 ≤ padded.length := by
    rw [hp, List.length_append, List.length_replicate]
    omega
  have value : Decimal.digitsValue padded = n := by
    rw [hp, Decimal.digitsValue, ofDigitChars_replicate,
      Nat.ofDigitChars_toDigits (by decide) (by decide)]
  refine ⟨padded.take (padded.length - places), padded.drop (padded.length - places), ?_,
    fun c hc => digits c (List.mem_of_mem_take hc), ?_,
    fun c hc => digits c (List.mem_of_mem_drop hc), ?_, ?_⟩
  · simp only [pointed, ← hp]
  · rw [ne_eq, List.take_eq_nil_iff]
    rintro (none | rfl)
    · omega
    · simp at length
  · rw [List.length_drop]
    omega
  · rw [List.take_append_drop, value]

/-- A finite number in units of the last of some decimal places. -/
def lastPlaces (places : Nat) (c : Fin f.limit) : Nat :=
  roundEven (units c * 10 ^ places) (2 ^ f.scale)

theorem toList_fixed (places : Nat) (s : Bool) (c : Fin f.limit) :
    ((finite s c : Binary f).fixed places).toList =
      (if s then ['-'] else []) ++ pointed places (lastPlaces places c) := by
  cases s <;> simp [fixed, lastPlaces]

theorem toList_fixed_nan (places : Nat) : ((nan : Binary f).fixed places).toList = ['N', 'a', 'N'] := by
  simp [fixed]

theorem toList_fixed_infinite (places : Nat) (s : Bool) :
    ((infinite s : Binary f).fixed places).toList = (if s then ['-'] else []) ++ ['i', 'n', 'f'] := by
  cases s <;> simp [fixed]

theorem sign_minus (s : Bool) : Decimal.Sign (if s then ['-'] else []) s := by
  cases s
  · exact .absent
  · exact .minus

/-- Numbers are written with digits, the point, the minus sign, and the letters of three words. -/
theorem mem_fixed {places : Nat} {x : Binary f} {c : Char} (h : c ∈ (x.fixed places).toList) :
    c.isDigit = true ∨ c ∈ ['.', '-', 'N', 'a', 'i', 'n', 'f'] := by
  cases x with
  | nan =>
    rw [toList_fixed_nan] at h
    have letters : ['N', 'a', 'N'] ⊆ ['.', '-', 'N', 'a', 'i', 'n', 'f'] := by decide
    exact .inr (letters h)
  | infinite s =>
    rw [toList_fixed_infinite] at h
    have letters : (if s then ['-'] else []) ++ ['i', 'n', 'f'] ⊆
        ['.', '-', 'N', 'a', 'i', 'n', 'f'] := by
      cases s <;> decide
    exact .inr (letters h)
  | finite s k =>
    obtain ⟨whole, fraction, text, wholeDigits, -, fractionDigits, -⟩ :=
      exists_pointed places (lastPlaces places k)
    rw [toList_fixed, text] at h
    simp only [List.mem_append, List.mem_cons] at h
    rcases h with sign | whole | rfl | fraction
    · cases s <;> simp_all
    · exact .inl (wholeDigits c whole)
    · simp
    · exact .inl (fractionDigits c fraction)

theorem FixedNumeral.point {places : Nat} {cs : List Char} (h : FixedNumeral places cs) :
    '.' ∈ cs := by
  cases h
  simp

/-- **Exactly the finite numbers are written as numerals with all their places.** -/
theorem fixedNumeral_iff {places : Nat} {x : Binary f} :
    FixedNumeral places (x.fixed places).toList ↔ x.IsFinite := by
  cases x with
  | finite s c =>
    refine iff_of_true ?_ trivial
    obtain ⟨whole, fraction, text, wholeDigits, nonempty, fractionDigits, length, -⟩ :=
      exists_pointed places (lastPlaces places c)
    rw [toList_fixed, text]
    exact .mk (by cases s <;> simp) wholeDigits nonempty fractionDigits length
  | nan =>
    rw [toList_fixed_nan]
    exact iff_of_false (fun h => absurd h.point (by decide)) id
  | infinite s =>
    rw [toList_fixed_infinite]
    exact iff_of_false (fun h => absurd h.point (by cases s <;> decide)) id

/-! ### Reading what is written -/

/-- The number that is read from the written form. -/
def reread (places : Nat) : Binary f → Binary f
  | nan => nan
  | infinite s => infinite s
  | finite s c => ofQuotient s (lastPlaces places c) (10 ^ places)

/-- **What is written is the text of a number.** -/
theorem spells_fixed (exponents : 2 ≤ f.exponents) (places : Nat) (x : Binary f) :
    Spells (x.fixed places).toList (reread places x) := by
  cases x with
  | nan =>
    rw [toList_fixed_nan]
    exact .nan .absent (by decide)
  | infinite s =>
    rw [toList_fixed_infinite]
    exact .infinite (sign_minus s) (by decide)
  | finite s c =>
    obtain ⟨whole, fraction, text, wholeDigits, nonempty, fractionDigits, length, value⟩ :=
      exists_pointed places (lastPlaces places c)
    have numeral : Decimal.Numeral
        ((if s then ['-'] else []) ++ (whole ++ ((some fraction).elim [] ('.' :: ·) ++ []))) _ :=
      .mk (sign_minus s) wholeDigits fractionDigits (by simp [nonempty]) .absent
    have number := Spells.numeral (f := f) numeral
    rw [ofDecimal_eq exponents] at number
    simpa [toList_fixed, text, reread, numerator, denominator, value, length] using number

/-! ### Four places -/

section Single

variable {s : Bool} {c : Fin Format.single.limit}

/-- The written form is near the number: not more than half a ten-thousandth away. -/
theorem lastPlaces_near (c : Fin Format.single.limit) :
    2 * (lastPlaces 4 c * 2 ^ 149) ≤ 2 * (units c * 10 ^ 4) + 2 ^ 149 ∧
      2 * (units c * 10 ^ 4) ≤ 2 * (lastPlaces 4 c * 2 ^ 149) + 2 ^ 149 :=
  roundEven_near _ (by decide)

/-- Below 1024 the number that is read is near the decimal. -/
theorem reread_small (small : units c < 2 ^ 159) :
    ∃ c', reread 4 (finite s c : Single) = finite s c' ∧
      Format.Near 135 (units c') (lastPlaces 4 c * 2 ^ 149) (10 ^ 4) := by
  have bound : lastPlaces 4 c ≤ 1024 * 10 ^ 4 :=
    roundEven_le (by decide) (by show _ ≤ 1024 * 10 ^ 4 * 2 ^ 149; omega)
  refine ofQuotient_near (by decide) (by decide) rfl (by decide) ?_
  show _ ≤ 2 ^ 159 * 10 ^ 4
  omega

/-- A power of two from one on is a whole number, which is written exactly. -/
theorem lastPlaces_power {e : Nat} (exponent : 126 ≤ e) (value : units c = 2 ^ 23 * 2 ^ e) :
    lastPlaces 4 c * 2 ^ 149 = units c * 10 ^ 4 := by
  have split : 2 ^ e = 2 ^ (e - 126) * 2 ^ 126 := by
    rw [← Nat.pow_add, Nat.sub_add_cancel exponent]
  have whole : units c * 10 ^ 4 = 2 ^ (e - 126) * 10 ^ 4 * 2 ^ 149 := by
    rw [value, split]
    ring
  show roundEven (units c * 10 ^ 4) (2 ^ 149) * 2 ^ 149 = _
  rw [whole, roundEven_mul _ (by decide)]

/-- From 1024 on the decimal is rounded at the exponent of the number. -/
theorem roundsAt_lastPlaces {e r : Nat} (normal : Format.single.Normal e r)
    (value : units c = r * 2 ^ e) (exponent : 136 ≤ e) :
    Format.single.RoundsAt e (lastPlaces 4 c * 2 ^ 149) (10 ^ 4) := by
  have width : r < 2 ^ 24 := normal.width
  have leading : 2 ^ 23 ≤ r := normal.leading.resolve_left (by omega)
  have step : 2 ^ 136 ≤ 2 ^ e := Nat.pow_le_pow_right (by decide) exponent
  obtain ⟨above, below⟩ := lastPlaces_near c
  constructor
  · refine .inr ?_
    show 2 ^ (e + 23) * 10 ^ 4 ≤ _
    rw [Nat.pow_add]
    -- the written form can be below the number, which must not cross a power of two
    rcases Nat.lt_or_eq_of_le leading with more | rfl
    · have : (2 ^ 23 + 1) * 2 ^ e ≤ r * 2 ^ e := Nat.mul_le_mul_right _ more
      omega
    · rw [lastPlaces_power (by omega) value, value]
      omega
  · show _ < 2 ^ (e + 23 + 1) * 10 ^ 4
    rw [Nat.add_assoc, Nat.pow_add]
    have : (r + 1) * 2 ^ e ≤ 2 ^ 24 * 2 ^ e := Nat.mul_le_mul_right _ width
    rw [Nat.add_mul] at this
    omega

/-- From 1024 on the number itself is read. -/
theorem reread_large (large : 2 ^ 159 ≤ units c) :
    reread 4 (finite s c : Single) = finite s c := by
  obtain ⟨e, r, normal, code⟩ := Format.single.exists_normal c
  have value : units c = r * 2 ^ e := by rw [units, code, normal.units]
  have exponent : 136 ≤ e := by
    have width : r < 2 ^ 24 := normal.width
    by_contra less
    have : r * 2 ^ e ≤ (2 ^ 24 - 1) * 2 ^ 135 :=
      Nat.mul_le_mul (by omega) (Nat.pow_le_pow_right (by decide) (by omega))
    omega
  have step : 2 ^ 136 ≤ 2 ^ e := Nat.pow_le_pow_right (by decide) exponent
  obtain ⟨above, below⟩ := lastPlaces_near c
  have same := (roundsAt_lastPlaces normal value exponent).nearest_of_near (r := r) (by omega)
    (by omega)
  show ofCode s (Format.single.nearest (lastPlaces 4 c * 2 ^ 149) (10 ^ 4)) = _
  rw [same, ← code, ofCode_of_lt c.isLt]

/-- **A number that was written with four places, read and written again gives the same text.** -/
theorem fixed_reread (x : Single) : (reread 4 x).fixed 4 = x.fixed 4 := by
  cases x with
  | nan => rfl
  | infinite s => rfl
  | finite s c =>
    rcases Nat.lt_or_ge (units c) (2 ^ 159) with small | large
    · obtain ⟨c', read, above, below⟩ := reread_small (s := s) small
      -- what is read is less than half a ten-thousandth away from the decimal
      have same : lastPlaces 4 c' = lastPlaces 4 c := by
        show roundEven (units c' * 10 ^ 4) (2 ^ 149) = _
        exact roundEven_eq_of_near (by omega) (by omega)
      have text : ((finite s c' : Single).fixed 4).toList = ((finite s c).fixed 4).toList := by
        rw [toList_fixed, toList_fixed, same]
      rw [read, String.toList_injective text]
    · rw [reread_large large]

end Single

end NodeScript.Binary
