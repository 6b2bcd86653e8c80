import NodeScript.Literal.Angle
import NodeScript.Proofs.Binary.Fixed

/-!
# Angles that keep their units

An angle of whole units is shown in degrees, with four places, and the units of what is shown need not
be the same: degrees are single precision numbers, and so are the turns that they are divided into.

Up to 91 turns this does no harm (`Angle.kept_of_le`). Degrees up to 32768 are within a quarter of a
unit of the exact ones, and so is what is read after four places were written; and degrees within a
quarter of a unit of a whole number of units become this number (`Angle.ofDegrees_near`), as the
rounding of the turns moves them by a quarter at most.

From there on some angles are kept and others are not. The text does not matter for that: 1024 degrees
and more are read from their text as they are, so an angle survives being written and read exactly if
it survives being converted to degrees and back (`Angle.ofDegrees_reread_iff`).
-/

namespace NodeScript.Angle

open Binary

-- powers are those of the core library, whichever other instances are in scope
attribute [local instance (high)] instPowNat

/-- The angle survives being converted to degrees and back. -/
def Kept (units : Int32) : Prop :=
  ofDegrees (toDegrees units) = units

instance (units : Int32) : Decidable (Kept units) :=
  inferInstanceAs (Decidable (_ = _))

/-! ### The constants -/

theorem exists_unitsPerTurn :
    ∃ c, unitsPerTurn = finite false c ∧ units c = 2 ^ 16 * 2 ^ 149 :=
  ofInt_exact (f := .single) (n := 65536) (by decide) (by decide)

theorem exists_degreesPerTurn :
    ∃ c, degreesPerTurn = finite false c ∧ units c = 360 * 2 ^ 149 :=
  ofInt_exact (f := .single) (n := 360) (by decide) (by decide)

/-! ### From degrees to units -/

/-- Degrees as turns. -/
theorem turns_near {s : Bool} {y : Fin Format.single.limit} (h : units y ≤ 2 ^ 156 * 360) :
    ∃ t, (finite s y / degreesPerTurn : Single) = finite s t ∧
      Format.Near 132 (units t) (units y) 360 := by
  obtain ⟨c, hc, full⟩ := exists_degreesPerTurn
  have near := div_near (f := .single) (s := s) (t := false) (by decide) full (by decide) h
  rwa [← hc, Bool.bne_false] at near

/-- Turns as units, with the fraction of a unit that is left. -/
theorem units_exact {s : Bool} {t : Fin Format.single.limit} (h : units t < 2 ^ 159) :
    ∃ p, (unitsPerTurn * finite s t : Single) = finite s p ∧ units p = units t * 2 ^ 16 := by
  obtain ⟨c, hc, full⟩ := exists_unitsPerTurn
  obtain ⟨e, r, normal, code⟩ := Format.single.exists_normal t
  have value : units t = r * 2 ^ e := by rw [units, code, normal.units]
  have exponent : e ≤ 136 := by
    by_contra more
    have leading : 2 ^ 23 ≤ r := normal.leading.resolve_left (by omega)
    have : 2 ^ 23 * 2 ^ 137 ≤ r * 2 ^ e :=
      Nat.mul_le_mul leading (Nat.pow_le_pow_right (by decide) (by omega))
    omega
  have shifted : r * 2 ^ (e + 16) = units t * 2 ^ 16 := by
    rw [value, Nat.pow_add, Nat.mul_assoc]
  have same : units c * units t = r * 2 ^ (e + 16) * 2 ^ 149 := by
    rw [full, shifted]
    ring
  have product := mul_exact (f := .single) (s := false) (t := s) same normal.width
    (by show e + 16 + 2 < 255; omega)
  rwa [← hc, Bool.false_bne, shifted] at product

/-- A whole number of units is found if the fraction left is less than a half. -/
theorem toInt32_near {s : Bool} {p : Fin Format.single.limit} {m : Nat} (small : m < 2 ^ 31)
    (low : 2 * (m * 2 ^ 149) < 2 * units p + 2 ^ 149)
    (high : 2 * units p < 2 * (m * 2 ^ 149) + 2 ^ 149) :
    (finite s p : Single).toInt32 = Int32.ofInt (Decimal.signed s m) := by
  have rounded : (2 * units p + 2 ^ Format.single.scale) / 2 ^ (Format.single.scale + 1) = m := by
    show (2 * units p + 2 ^ 149) / 2 ^ 150 = m
    omega
  have least : Int32.minValue.toInt = -2 ^ 31 := rfl
  have greatest : Int32.maxValue.toInt = 2 ^ 31 - 1 := rfl
  simp only [toInt32, rounded, Decimal.signed]
  cases s with
  | false =>
    rw [if_neg (by decide), if_neg (by decide)]
    congr 1
    omega
  | true =>
    rw [if_pos rfl, if_pos rfl]
    congr 1
    omega

/-- **Degrees within a quarter of a unit of a whole number of units become this number.** -/
theorem ofDegrees_near {s : Bool} {y : Fin Format.single.limit} {m : Nat} (small : m < 2 ^ 23)
    (low : m * 360 * 2 ^ 133 < units y + 360 * 2 ^ 131)
    (high : units y < m * 360 * 2 ^ 133 + 360 * 2 ^ 131) :
    ofDegrees (finite s y) = Int32.ofInt (Decimal.signed s m) := by
  obtain ⟨t, turns, above, below⟩ := turns_near (s := s) (y := y) (by omega)
  obtain ⟨p, product, exact'⟩ := units_exact (s := s) (t := t) (by omega)
  rw [ofDegrees, turns, product]
  exact toInt32_near (by omega) (by omega) (by omega)

/-! ### From units to degrees -/

variable {u : Int32}

/-- The sign and the magnitude of an angle. -/
theorem signed_natAbs (u : Int32) :
    Int32.ofInt (Decimal.signed (decide (u.toInt < 0)) u.toInt.natAbs) = u := by
  have same : Decimal.signed (decide (u.toInt < 0)) u.toInt.natAbs = u.toInt := by
    by_cases negative : u.toInt < 0
    · simp only [Decimal.signed, negative, decide_true, if_true]
      omega
    · simp only [Decimal.signed, negative, decide_false]
      rw [if_neg (by decide)]
      omega
  rw [same, Int32.ofInt_toInt]

theorem natAbs_le (u : Int32) : u.toInt.natAbs ≤ 2 ^ 31 := by
  have low := Int32.le_toInt u
  have high := Int32.toInt_lt u
  omega

/-- The degrees of a number of turns. -/
theorem degrees_near {s : Bool} {q : Fin Format.single.limit} {k : Nat} (within : k + 2 < 255)
    (h : 360 * units q ≤ 2 ^ (k + 23 + 1) * 1) :
    ∃ d, (degreesPerTurn * finite s q : Single) = finite s d ∧
      Format.Near k (units d) (360 * units q) 1 := by
  obtain ⟨c, hc, full⟩ := exists_degreesPerTurn
  have same : units c * units q = 360 * units q * 2 ^ 149 := by
    rw [full]
    ring
  have product := mul_near (f := .single) (s := false) (t := s) same within h
  rwa [← hc, Bool.false_bne] at product

/-- The degrees of an angle up to 91 turns are within a quarter of a unit of the exact ones. -/
theorem toDegrees_near (small : u.toInt.natAbs ≤ 5965232) :
    ∃ d, toDegrees u = finite (u.toInt < 0) d ∧
      Format.Near 140 (units d) (u.toInt.natAbs * 360 * 2 ^ 133) 1 := by
  obtain ⟨c, hc, full⟩ := exists_unitsPerTurn
  obtain ⟨a, ha, magnitude⟩ : ∃ a, (.ofInt u.toInt : Single) = finite (u.toInt < 0) a ∧
      units a = u.toInt.natAbs * 2 ^ 149 :=
    ofInt_exact (by show _ < 2 ^ 24; omega) (by decide)
  obtain ⟨q, hq, turns⟩ : ∃ q, (.ofInt u.toInt / unitsPerTurn : Single) =
      finite (u.toInt < 0) q ∧ units q = u.toInt.natAbs * 2 ^ 133 := by
    have same : units a = u.toInt.natAbs * 2 ^ 133 * 2 ^ 16 := by
      rw [magnitude, Nat.mul_assoc, ← Nat.pow_add]
    have turns := div_exact (f := .single) (s := decide (u.toInt < 0)) (t := false) (by decide) full
      same (by show _ < 2 ^ 24; omega) (by decide)
    rwa [← ha, ← hc, Bool.bne_false] at turns
  obtain ⟨d, hd, near⟩ := degrees_near (s := decide (u.toInt < 0)) (q := q) (k := 140) (by decide)
    (by show _ ≤ 2 ^ 164 * 1; omega)
  have same : 360 * units q = u.toInt.natAbs * 360 * 2 ^ 133 := by omega
  exact ⟨d, by rw [toDegrees, hq, hd], same ▸ near⟩

/-- Larger angles have at least 1024 degrees. -/
theorem toDegrees_large (large : 5965232 < u.toInt.natAbs) :
    ∃ d, toDegrees u = finite (u.toInt < 0) d ∧ 2 ^ 159 ≤ units d := by
  have bound := natAbs_le u
  obtain ⟨c, hc, full⟩ := exists_unitsPerTurn
  obtain ⟨a, ha, above, below⟩ : ∃ a, (.ofInt u.toInt : Single) = finite (u.toInt < 0) a ∧
      Format.Near 156 (units a) (u.toInt.natAbs * 2 ^ 149) 1 :=
    ofQuotient_near Nat.one_pos Nat.one_pos rfl (by decide) (by show _ ≤ 2 ^ 180 * 1; omega)
  obtain ⟨q, hq, turnsAbove, turnsBelow⟩ : ∃ q, (.ofInt u.toInt / unitsPerTurn : Single) =
      finite (u.toInt < 0) q ∧ Format.Near 141 (units q) (units a) (2 ^ 16) := by
    have near := div_near (f := .single) (s := decide (u.toInt < 0)) (t := false) (a := a) (k := 141)
      (by decide) full (by decide) (by show _ ≤ 2 ^ 165 * 2 ^ 16; omega)
    rwa [← ha, ← hc, Bool.bne_false] at near
  obtain ⟨d, hd, -, degreesBelow⟩ := degrees_near (s := decide (u.toInt < 0)) (q := q) (k := 150)
    (by decide) (by show _ ≤ 2 ^ 174 * 1; omega)
  exact ⟨d, by rw [toDegrees, hq, hd], by omega⟩

/-! ### Angles that survive -/

/-- Up to 91 turns, an angle whose degrees were written with four places and read again is the same,
and also one whose degrees were not written. -/
theorem ofDegrees_of_small (small : u.toInt.natAbs ≤ 5965232) :
    ofDegrees (reread 4 (toDegrees u)) = u ∧ Kept u := by
  obtain ⟨d, hd, above, below⟩ := toDegrees_near small
  have kept : Kept u := by
    rw [Kept, hd, ofDegrees_near (m := u.toInt.natAbs) (by omega) (by omega) (by omega),
      signed_natAbs]
  refine ⟨?_, kept⟩
  rcases Nat.lt_or_ge (units d) (2 ^ 159) with less | more
  · obtain ⟨d', read, readAbove, readBelow⟩ := reread_small (s := decide (u.toInt < 0)) less
    obtain ⟨writtenAbove, writtenBelow⟩ := lastPlaces_near d
    rw [hd, read, ofDegrees_near (m := u.toInt.natAbs) (by omega) (by omega) (by omega),
      signed_natAbs]
  · rw [hd, reread_large more, ← hd]
    exact kept

/-- **Writing the degrees of an angle and reading them loses nothing that the degrees themselves have
not lost.** -/
theorem ofDegrees_reread_iff (u : Int32) : ofDegrees (reread 4 (toDegrees u)) = u ↔ Kept u := by
  rcases Nat.lt_or_ge 5965232 u.toInt.natAbs with large | small
  · obtain ⟨d, hd, more⟩ := toDegrees_large large
    rw [Kept, hd, reread_large more]
  · obtain ⟨read, kept⟩ := ofDegrees_of_small small
    exact iff_of_true read kept

/-- The first angles with more than 32768 degrees. -/
theorem kept_first : ∀ n ∈ [5965233, 5965234, 5965235, 5965236], ∀ s ∈ [false, true],
    Kept (Int32.ofInt (Decimal.signed s n)) := by
  decide +kernel

/-- **Angles up to 91 turns are kept**: exactly, up to 5965236 units. -/
theorem kept_of_le (h : u.toInt.natAbs ≤ 5965236) : Kept u := by
  rcases Nat.lt_or_ge 5965232 u.toInt.natAbs with large | small
  · have first : u.toInt.natAbs ∈ [5965233, 5965234, 5965235, 5965236] := by
      simp only [List.mem_cons, List.not_mem_nil, or_false]
      omega
    have kept := kept_first _ first (decide (u.toInt < 0)) (by cases decide (u.toInt < 0) <;> decide)
    rwa [signed_natAbs] at kept
  · exact (ofDegrees_of_small small).2

end NodeScript.Angle
