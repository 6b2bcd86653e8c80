import Mathlib.Tactic.Ring
import NodeScript.Binary.Basic

/-!
# Rounding to a binary format

A code is an exponent `e` and a significand `r` of at most `fraction + 1` bits, which has its leading
bit unless the exponent is zero (`Format.exists_normal`); it stands for `r * 2 ^ e` units
(`Format.units_code`). A quotient between `2 ^ (e + fraction)` and `2 ^ (e + fraction + 1)` is rounded
to a multiple of `2 ^ e` (`Format.RoundsAt.nearest_eq`).

Three facts about rounding follow, and no proof about the arithmetic unfolds it any further. A
quotient up to `2 ^ (k + fraction + 1)` is moved by at most half of `2 ^ k` (`Format.nearest_near`,
`Binary.ofQuotient_near`); a significand that fits the format is not moved
(`Format.units_nearest_exact`, `Binary.ofQuotient_exact`); and rounding leaves the finite numbers
exactly from half a step above the largest of them on (`Format.nearest_lt_limit_iff`).
-/

namespace NodeScript

-- powers are those of the core library, whichever other instances are in scope
attribute [local instance (high)] instPowNat

/-! ### Rounding a quotient to a whole number -/

section RoundEven

variable {num den n : Nat}

/-- Multiples of a number less than one of them apart are in order. -/
theorem le_of_mul_lt_add {m : Nat} (d : Nat) (h : m * d < n * d + d) : m ≤ n := by
  rw [← Nat.succ_mul] at h
  exact Nat.le_of_lt_succ (Nat.lt_of_mul_lt_mul_right h)

/-- A bound of the exact quotient bounds the rounded one. -/
theorem roundEven_le (h : 0 < den) (bound : num ≤ n * den) : roundEven num den ≤ n := by
  have near := (roundEven_near num h).1
  exact le_of_mul_lt_add den (by omega)

theorem le_roundEven (h : 0 < den) (bound : n * den ≤ num) : n ≤ roundEven num den := by
  have near := (roundEven_near num h).2
  exact le_of_mul_lt_add den (by omega)

/-- A quotient less than a half away from a whole number is rounded to it. -/
theorem roundEven_eq_of_near (low : 2 * (n * den) < 2 * num + den)
    (high : 2 * num < 2 * (n * den) + den) : roundEven num den = n := by
  obtain ⟨above, below⟩ := roundEven_near num (show 0 < den by omega)
  exact Nat.le_antisymm (le_of_mul_lt_add den (by omega)) (le_of_mul_lt_add den (by omega))

/-- An even number is reached from half a step below on, as the tie goes to it. -/
theorem roundEven_lt_iff (h : 0 < den) (even : n % 2 = 0) (pos : 0 < n) :
    roundEven num den < n ↔ 2 * num < (2 * n - 1) * den := by
  obtain ⟨above, below⟩ := roundEven_near num h
  have bound : (2 * n - 1) * den + den = 2 * (n * den) := by
    rw [← Nat.succ_mul, Nat.succ_eq_add_one, Nat.sub_add_cancel (by omega), Nat.mul_assoc]
  constructor
  · intro lt
    by_contra ge
    -- the rounded quotient is the number before, so the exact one is the tie between the two
    have scaled : (roundEven num den + 1) * den ≤ n * den := Nat.mul_le_mul_right _ lt
    rw [Nat.add_mul] at scaled
    have last : (roundEven num den + 1) * den = n * den := by
      rw [Nat.add_mul]
      omega
    have step := Nat.eq_of_mul_eq_mul_right h last
    rw [Nat.add_mul] at last
    have tie : 2 * num = 2 * (roundEven num den * den) + den := by omega
    have split : den * (num / den) + num % den = num := Nat.div_add_mod num den
    have rest : num % den < den := Nat.mod_lt _ h
    rw [Nat.mul_comm] at split
    have quotient : num / den = roundEven num den :=
      Nat.le_antisymm (le_of_mul_lt_add den (by omega)) (le_of_mul_lt_add den (by omega))
    rw [quotient] at split
    have := roundEven_tie (show 2 * (num % den) = den by omega)
    omega
  · intro lt
    have scaled : roundEven num den * den < n * den := by omega
    exact Nat.lt_of_mul_lt_mul_right scaled

/-- Rounding depends on the quotient alone. -/
theorem roundEven_mul_mul {m : Nat} (pos : 0 < m) :
    roundEven (num * m) (den * m) = roundEven num den := by
  simp only [roundEven, Nat.mul_div_mul_right _ _ pos, Nat.mul_mod_mul_right]
  have below : 2 * (num % den * m) < den * m ↔ 2 * (num % den) < den := by
    rw [← Nat.mul_assoc]
    exact Nat.mul_lt_mul_right pos
  have above : den * m < 2 * (num % den * m) ↔ den < 2 * (num % den) := by
    rw [← Nat.mul_assoc]
    exact Nat.mul_lt_mul_right pos
  simp only [below, above]

end RoundEven

namespace Format

variable {f : Format} {e r num den : Nat}

/-! ### Exponents and significands -/

/-- The significand fits the format, and has its leading bit if it can be made smaller. -/
structure Normal (f : Format) (e r : Nat) : Prop where
  leading : e = 0 ∨ 2 ^ f.fraction ≤ r
  width : r < 2 ^ (f.fraction + 1)

/-- Every code is an exponent and a significand. -/
theorem exists_normal (f : Format) (c : Nat) :
    ∃ e r, f.Normal e r ∧ c = e * 2 ^ f.fraction + r := by
  have pow : 2 ^ (f.fraction + 1) = 2 ^ f.fraction * 2 := Nat.pow_succ ..
  have pos : 0 < 2 ^ f.fraction := Nat.two_pow_pos _
  by_cases small : c < 2 ^ (f.fraction + 1)
  · exact ⟨0, c, ⟨.inl rfl, small⟩, by simp⟩
  · have split := Nat.div_add_mod c (2 ^ f.fraction)
    have rest := Nat.mod_lt c pos
    have two : 2 ≤ c / 2 ^ f.fraction := (Nat.le_div_iff_mul_le pos).mpr (by omega)
    refine ⟨c / 2 ^ f.fraction - 1, 2 ^ f.fraction + c % 2 ^ f.fraction,
      ⟨.inr (by omega), by omega⟩, ?_⟩
    rw [Nat.sub_mul, Nat.mul_comm, Nat.one_mul]
    have : 2 ^ f.fraction * 2 ≤ 2 ^ f.fraction * (c / 2 ^ f.fraction) := Nat.mul_le_mul_left _ two
    omega

/-- The number that an exponent and a significand make. The first significand that is too wide makes
the number after the last of this exponent. -/
theorem units_code (leading : e = 0 ∨ 2 ^ f.fraction ≤ r) (width : r ≤ 2 ^ (f.fraction + 1)) :
    f.units (e * 2 ^ f.fraction + r) = r * 2 ^ e := by
  have pow : 2 ^ (f.fraction + 1) = 2 ^ f.fraction * 2 := Nat.pow_succ ..
  have pos : 0 < 2 ^ f.fraction := Nat.two_pow_pos _
  by_cases small : e * 2 ^ f.fraction + r < 2 ^ (f.fraction + 1)
  · have zero : e = 0 := by
      by_contra ne
      have : 1 * 2 ^ f.fraction ≤ e * 2 ^ f.fraction := Nat.mul_le_mul_right _ (by omega)
      omega
    subst zero
    simp only [Nat.zero_mul, Nat.zero_add] at small
    simp [units, small]
  have lower : 2 ^ f.fraction ≤ r := by
    rcases leading with rfl | lower <;> omega
  obtain ⟨m, rfl⟩ := Nat.exists_eq_add_of_le lower
  have code : e * 2 ^ f.fraction + (2 ^ f.fraction + m) = m + (e + 1) * 2 ^ f.fraction := by ring
  rw [units, if_neg small, code, Nat.add_mul_mod_self_right, Nat.add_mul_div_right _ _ pos]
  by_cases last : m < 2 ^ f.fraction
  · rw [Nat.mod_eq_of_lt last, Nat.div_eq_of_lt last, Nat.zero_add, Nat.add_sub_cancel]
  · obtain rfl : m = 2 ^ f.fraction := by omega
    rw [Nat.mod_self, Nat.div_self pos, Nat.add_zero, Nat.add_comm 1, Nat.add_sub_cancel,
      Nat.pow_succ]
    ring

theorem Normal.units (h : f.Normal e r) : f.units (e * 2 ^ f.fraction + r) = r * 2 ^ e :=
  units_code h.leading (Nat.le_of_lt h.width)

/-! ### The exponent of a quotient -/

/-- The exponent to which a quotient is rounded. -/
structure RoundsAt (f : Format) (e num den : Nat) : Prop where
  low : e = 0 ∨ 2 ^ (e + f.fraction) * den ≤ num
  high : num < 2 ^ (e + f.fraction + 1) * den

/-- A quotient between two powers of two is rounded to a multiple of the step between them. -/
theorem RoundsAt.nearest_eq (h : f.RoundsAt e num den) :
    f.nearest num den = e * 2 ^ f.fraction + roundEven num (den * 2 ^ e) := by
  have pos : 0 < den := by
    refine Nat.pos_of_ne_zero fun zero => ?_
    have := h.high
    simp [zero] at this
  have upper : num / den < 2 ^ (e + f.fraction + 1) := (Nat.div_lt_iff_lt_mul pos).mpr h.high
  have shift : (num / den).log2 - f.fraction = e := by
    by_cases zero : num / den = 0
    · have : e = 0 := h.low.resolve_right fun low => by
        have := (Nat.le_div_iff_mul_le pos).mpr low
        have := Nat.two_pow_pos (e + f.fraction)
        omega
      simp [zero, this]
    · have below := (Nat.log2_lt zero).mpr upper
      rcases h.low with rfl | low
      · omega
      · have := (Nat.le_log2 zero).mpr ((Nat.le_div_iff_mul_le pos).mpr low)
        omega
  simp only [nearest, shift]

/-- Every quotient has an exponent. -/
theorem exists_roundsAt (f : Format) (num : Nat) (pos : 0 < den) : ∃ e, f.RoundsAt e num den := by
  refine ⟨(num / den).log2 - f.fraction, ?_, ?_⟩
  · refine (Nat.eq_zero_or_pos _).imp id fun positive => ?_
    rw [Nat.sub_add_cancel (by omega)]
    have nonzero : num / den ≠ 0 := fun zero => by simp [zero] at positive
    exact (Nat.le_div_iff_mul_le pos).mp (Nat.log2_self_le nonzero)
  · have upper : num / den < 2 ^ ((num / den).log2 + 1) := Nat.lt_log2_self
    have wider : 2 ^ ((num / den).log2 + 1) ≤ 2 ^ ((num / den).log2 - f.fraction + f.fraction + 1) :=
      Nat.pow_le_pow_right (by decide) (by omega)
    exact (Nat.div_lt_iff_lt_mul pos).mp (Nat.lt_of_lt_of_le upper wider)

namespace RoundsAt

theorem pos (h : f.RoundsAt e num den) : 0 < den :=
  Nat.pos_of_ne_zero fun zero => by simpa [zero] using h.high

theorem step_pos (h : f.RoundsAt e num den) : 0 < den * 2 ^ e :=
  Nat.mul_pos h.pos (Nat.two_pow_pos e)

/-- The significand of the rounded quotient has its leading bit if it has to. -/
theorem leading (h : f.RoundsAt e num den) :
    e = 0 ∨ 2 ^ f.fraction ≤ roundEven num (den * 2 ^ e) :=
  h.low.imp id fun low => le_roundEven h.step_pos (by
    calc 2 ^ f.fraction * (den * 2 ^ e) = 2 ^ (e + f.fraction) * den := by rw [Nat.pow_add]; ring
      _ ≤ num := low)

theorem width (h : f.RoundsAt e num den) :
    roundEven num (den * 2 ^ e) ≤ 2 ^ (f.fraction + 1) :=
  roundEven_le h.step_pos (by
    calc num ≤ 2 ^ (e + f.fraction + 1) * den := Nat.le_of_lt h.high
      _ = 2 ^ (f.fraction + 1) * (den * 2 ^ e) := by rw [Nat.add_assoc, Nat.pow_add]; ring)

/-- The number that the quotient is rounded to. -/
theorem units_nearest (h : f.RoundsAt e num den) :
    f.units (f.nearest num den) = roundEven num (den * 2 ^ e) * 2 ^ e := by
  rw [h.nearest_eq, units_code h.leading h.width]

/-- A whole multiple of the step is not moved. -/
theorem nearest_of_eq (h : f.RoundsAt e num den) (exact' : num = r * (den * 2 ^ e)) :
    f.nearest num den = e * 2 ^ f.fraction + r ∧ f.units (f.nearest num den) = r * 2 ^ e := by
  have rounded : roundEven num (den * 2 ^ e) = r := by rw [exact', roundEven_mul _ h.step_pos]
  rw [h.units_nearest, h.nearest_eq, rounded]
  exact ⟨rfl, rfl⟩

end RoundsAt

/-! ### What rounding does -/

/-- A number is near a quotient: not more than half of `2 ^ k` away. -/
structure Near (k units num den : Nat) : Prop where
  above : 2 * (units * den) ≤ 2 * num + den * 2 ^ k
  below : 2 * num ≤ 2 * (units * den) + den * 2 ^ k

/-- **A quotient up to `2 ^ (k + fraction + 1)` is moved by at most half of `2 ^ k`**, and its code is
bounded. -/
theorem nearest_near {k : Nat} (pos : 0 < den) (h : num ≤ 2 ^ (k + f.fraction + 1) * den) :
    Near k (f.units (f.nearest num den)) num den ∧
      f.nearest num den ≤ (k + 2) * 2 ^ f.fraction := by
  obtain ⟨e, at'⟩ := f.exists_roundsAt num pos
  have width := at'.width
  rw [Nat.pow_succ] at width
  by_cases small : e ≤ k
  · obtain ⟨above, below⟩ := roundEven_near num at'.step_pos
    have step : den * 2 ^ e ≤ den * 2 ^ k :=
      Nat.mul_le_mul_left _ (Nat.pow_le_pow_right (by decide) small)
    have product : roundEven num (den * 2 ^ e) * 2 ^ e * den =
        roundEven num (den * 2 ^ e) * (den * 2 ^ e) := by ring
    refine ⟨⟨?_, ?_⟩, ?_⟩
    · rw [at'.units_nearest, product]
      omega
    · rw [at'.units_nearest, product]
      omega
    · rw [at'.nearest_eq, Nat.add_mul]
      have := Nat.mul_le_mul_right (2 ^ f.fraction) small
      omega
  · -- only the bound itself has a greater exponent, and it is a number of the format
    have low : 2 ^ (e + f.fraction) * den ≤ num := at'.low.resolve_left (by omega)
    have last : e = k + 1 := by
      have le := Nat.le_of_mul_le_mul_right (Nat.le_trans low h) pos
      have := (Nat.pow_le_pow_iff_right (by decide)).mp le
      omega
    subst last
    have exact' : num = 2 ^ f.fraction * (den * 2 ^ (k + 1)) := by
      have same : k + 1 + f.fraction = k + f.fraction + 1 := by omega
      rw [same] at low
      rw [Nat.le_antisymm h low, Nat.add_right_comm, Nat.pow_add]
      ring
    obtain ⟨code, number⟩ := at'.nearest_of_eq exact'
    have value : 2 ^ f.fraction * 2 ^ (k + 1) * den = num := by
      rw [exact']
      ring
    refine ⟨⟨?_, ?_⟩, ?_⟩
    · rw [number, value]
      omega
    · rw [number, value]
      omega
    · rw [code]
      exact Nat.le_of_eq (by ring)

/-- A quotient near a significand of its exponent is rounded to it. -/
theorem RoundsAt.nearest_of_near (h : f.RoundsAt e num den)
    (low : 2 * (r * 2 ^ e * den) < 2 * num + den * 2 ^ e)
    (high : 2 * num < 2 * (r * 2 ^ e * den) + den * 2 ^ e) :
    f.nearest num den = e * 2 ^ f.fraction + r := by
  have product : r * 2 ^ e * den = r * (den * 2 ^ e) := by ring
  rw [product] at low high
  rw [h.nearest_eq, roundEven_eq_of_near low high]

/-- **A significand that fits the format is not moved**, whatever its exponent. -/
theorem units_nearest_exact (width : r < 2 ^ (f.fraction + 1)) :
    f.units (f.nearest (r * 2 ^ e) 1) = r * 2 ^ e := by
  obtain ⟨k, at'⟩ := f.exists_roundsAt (r * 2 ^ e) Nat.one_pos
  have le : k ≤ e := by
    rcases at'.low with rfl | low
    · exact Nat.zero_le _
    · have : 2 ^ (k + f.fraction) < 2 ^ (e + f.fraction + 1) := by
        calc 2 ^ (k + f.fraction) ≤ r * 2 ^ e := by simpa using low
          _ < 2 ^ (f.fraction + 1) * 2 ^ e := Nat.mul_lt_mul_of_pos_right width (Nat.two_pow_pos e)
          _ = 2 ^ (e + f.fraction + 1) := by rw [← Nat.pow_add, Nat.add_comm, Nat.add_assoc]
      have := (Nat.pow_lt_pow_iff_right (by decide)).mp this
      omega
  have split : r * 2 ^ e = r * 2 ^ (e - k) * (1 * 2 ^ k) := by
    rw [Nat.one_mul, Nat.mul_assoc, ← Nat.pow_add, Nat.sub_add_cancel le]
  rw [at'.units_nearest, split, roundEven_mul _ at'.step_pos, Nat.one_mul]

/-- Rounding depends on the quotient alone. -/
theorem nearest_congr {num' den' : Nat} (pos : 0 < den) (pos' : 0 < den')
    (same : num * den' = num' * den) : f.nearest num den = f.nearest num' den' := by
  have scaled {a b m : Nat} (h : 0 < m) : f.nearest (a * m) (b * m) = f.nearest a b := by
    simp only [nearest, Nat.mul_div_mul_right _ _ h]
    rw [Nat.mul_right_comm b m, roundEven_mul_mul h]
  rw [← scaled pos', ← scaled (a := num') (b := den') pos, same, Nat.mul_comm den]

/-- **A quotient is rounded to a finite number exactly below the middle between the largest of them
and the next power of two.** -/
theorem nearest_lt_limit_iff (exponents : 2 ≤ f.exponents) (pos : 0 < den) :
    f.nearest num den < f.limit ↔
      2 * num < (2 ^ (f.fraction + 2) - 1) * (den * 2 ^ (f.exponents - 2)) := by
  obtain ⟨k, hk⟩ := Nat.exists_eq_add_of_le' exponents
  have limit : f.limit = k * 2 ^ f.fraction + 2 ^ (f.fraction + 1) := by
    rw [Format.limit, hk, Nat.pow_succ]
    ring
  rw [limit, show f.exponents - 2 = k by omega]
  obtain ⟨e, at'⟩ := f.exists_roundsAt num pos
  have two : 2 ^ (f.fraction + 2) = 2 * 2 ^ (f.fraction + 1) := by rw [Nat.pow_succ, Nat.mul_comm]
  have one : 2 ^ (f.fraction + 1) = 2 * 2 ^ f.fraction := by rw [Nat.pow_succ, Nat.mul_comm]
  have some' : 0 < 2 ^ f.fraction := Nat.two_pow_pos _
  rcases Nat.lt_trichotomy e k with less | rfl | greater
  · refine iff_of_true ?_ ?_
    · have := at'.width
      have : (e + 1) * 2 ^ f.fraction ≤ k * 2 ^ f.fraction := Nat.mul_le_mul_right _ less
      rw [Nat.add_mul] at this
      rw [at'.nearest_eq]
      omega
    · calc 2 * num < 2 * (2 ^ (e + f.fraction + 1) * den) := by have := at'.high; omega
        _ ≤ 2 * (2 ^ (k + f.fraction) * den) :=
          Nat.mul_le_mul_left _ (Nat.mul_le_mul_right _ (Nat.pow_le_pow_right (by decide) (by omega)))
        _ = 2 ^ (f.fraction + 1) * (den * 2 ^ k) := by rw [Nat.pow_add, Nat.pow_succ]; ring
        _ ≤ _ := Nat.mul_le_mul_right _ (by omega)
  · rw [at'.nearest_eq, Nat.add_lt_add_iff_left,
      roundEven_lt_iff at'.step_pos (by omega) (by omega), two]
  · refine iff_of_false (fun lt => ?_) (fun lt => ?_)
    · have := at'.leading.resolve_left (by omega)
      have : (k + 1) * 2 ^ f.fraction ≤ e * 2 ^ f.fraction := Nat.mul_le_mul_right _ greater
      rw [Nat.add_mul] at this
      rw [at'.nearest_eq] at lt
      omega
    · have low := at'.low.resolve_left (by omega)
      have : 2 ^ (k + 1 + f.fraction) * den ≤ 2 ^ (e + f.fraction) * den :=
        Nat.mul_le_mul_right _ (Nat.pow_le_pow_right (by decide) (by omega))
      have whole : 2 * (2 ^ (k + 1 + f.fraction) * den) = 2 ^ (f.fraction + 2) * (den * 2 ^ k) := by
        rw [Nat.pow_add, Nat.pow_succ 2 k, Nat.pow_add 2 f.fraction]
        ring
      have : (2 ^ (f.fraction + 2) - 1) * (den * 2 ^ k) ≤ 2 ^ (f.fraction + 2) * (den * 2 ^ k) :=
        Nat.mul_le_mul_right _ (Nat.sub_le ..)
      omega

end Format

namespace Binary

variable {f : Format} {num den num' den' k : Nat}

/-- The number of a code within the format. -/
theorem ofCode_of_lt {s : Bool} {code : Nat} (h : code < f.limit) :
    (ofCode s code : Binary f) = finite s ⟨code, h⟩ :=
  dif_pos h

/-- **A quotient that is well within the format is rounded to a finite number near it.** The quotient
may be given as another fraction of the least positive number. -/
theorem ofQuotient_near {s : Bool} (pos : 0 < den) (pos' : 0 < den')
    (same : num * 2 ^ f.scale * den' = num' * den) (within : k + 2 < f.exponents)
    (h : num' ≤ 2 ^ (k + f.fraction + 1) * den') :
    ∃ c, (ofQuotient s num den : Binary f) = finite s c ∧ Format.Near k (units c) num' den' := by
  obtain ⟨near, bound⟩ := Format.nearest_near (f := f) pos' h
  have finite' : f.nearest num' den' < f.limit :=
    Nat.lt_of_le_of_lt bound (Nat.mul_lt_mul_of_pos_right within (Nat.two_pow_pos _))
  refine ⟨⟨_, finite'⟩, ?_, near⟩
  rw [ofQuotient, Format.nearest_congr pos pos' same, ofCode_of_lt]

/-- **A quotient with a significand that fits the format is that number.** -/
theorem ofQuotient_exact {s : Bool} {r e : Nat} (pos : 0 < den)
    (same : num * 2 ^ f.scale = r * 2 ^ e * den) (width : r < 2 ^ (f.fraction + 1))
    (within : e + 2 < f.exponents) :
    ∃ c, (ofQuotient s num den : Binary f) = finite s c ∧ units c = r * 2 ^ e := by
  have bound : r * 2 ^ e ≤ 2 ^ (e + f.fraction + 1) * 1 := by
    rw [Nat.mul_one, Nat.add_assoc, Nat.add_comm, Nat.pow_add]
    exact Nat.mul_le_mul_right _ (Nat.le_of_lt width)
  have finite' : f.nearest (r * 2 ^ e) 1 < f.limit :=
    Nat.lt_of_le_of_lt (Format.nearest_near Nat.one_pos bound).2
      (Nat.mul_lt_mul_of_pos_right within (Nat.two_pow_pos _))
  have quotient : f.nearest (num * 2 ^ f.scale) den = f.nearest (r * 2 ^ e) 1 :=
    Format.nearest_congr pos Nat.one_pos (by rw [Nat.mul_one, same])
  refine ⟨⟨_, finite'⟩, ?_, Format.units_nearest_exact width⟩
  rw [ofQuotient, quotient, ofCode_of_lt]

/-! ### Arithmetic -/

variable {s t : Bool} {a b : Fin f.limit} {r e n m : Nat}

/-- A product is rounded to a finite number near it. -/
theorem mul_near (same : units a * units b = n * 2 ^ f.scale) (within : k + 2 < f.exponents)
    (h : n ≤ 2 ^ (k + f.fraction + 1) * 1) :
    ∃ c, (finite s a * finite t b : Binary f) = finite (s != t) c ∧ Format.Near k (units c) n 1 := by
  refine ofQuotient_near (Nat.two_pow_pos _) Nat.one_pos ?_ within h
  rw [same, Nat.two_mul, Nat.pow_add, Nat.mul_one, Nat.mul_assoc]

theorem mul_exact (same : units a * units b = r * 2 ^ e * 2 ^ f.scale)
    (width : r < 2 ^ (f.fraction + 1)) (within : e + 2 < f.exponents) :
    ∃ c, (finite s a * finite t b : Binary f) = finite (s != t) c ∧ units c = r * 2 ^ e := by
  refine ofQuotient_exact (Nat.two_pow_pos _) ?_ width within
  rw [same, Nat.two_mul, Nat.pow_add, Nat.mul_assoc]

theorem div_finite (s t : Bool) (a : Fin f.limit) (h : 0 < units b) :
    (finite s a / finite t b : Binary f) = ofQuotient (s != t) (units a) (units b) := by
  have nonzero : b.val ≠ 0 := fun zero => by
    have : 0 < 2 ^ (f.fraction + 1) := Nat.two_pow_pos _
    simp [units, Format.units, zero] at h
  show div _ _ = _
  simp [div, nonzero]

/-- A quotient by a whole number `m` is rounded to a finite number near it. -/
theorem div_near (pos : 0 < m) (whole : units b = m * 2 ^ f.scale) (within : k + 2 < f.exponents)
    (h : units a ≤ 2 ^ (k + f.fraction + 1) * m) :
    ∃ c, (finite s a / finite t b : Binary f) = finite (s != t) c ∧
      Format.Near k (units c) (units a) m := by
  have positive : 0 < units b := whole ▸ Nat.mul_pos pos (Nat.two_pow_pos _)
  rw [div_finite s t a positive]
  refine ofQuotient_near positive pos ?_ within h
  rw [whole]
  ring

theorem div_exact (pos : 0 < m) (whole : units b = m * 2 ^ f.scale)
    (same : units a = r * 2 ^ e * m) (width : r < 2 ^ (f.fraction + 1))
    (within : e + 2 < f.exponents) :
    ∃ c, (finite s a / finite t b : Binary f) = finite (s != t) c ∧ units c = r * 2 ^ e := by
  have positive : 0 < units b := whole ▸ Nat.mul_pos pos (Nat.two_pow_pos _)
  rw [div_finite s t a positive]
  refine ofQuotient_exact positive ?_ width within
  rw [whole, same, Nat.mul_assoc]

/-- A whole number that fits the format is that number. -/
theorem ofInt_exact {n : Int} (width : n.natAbs < 2 ^ (f.fraction + 1))
    (within : f.scale + 2 < f.exponents) :
    ∃ c, (ofInt n : Binary f) = finite (n < 0) c ∧ units c = n.natAbs * 2 ^ f.scale :=
  ofQuotient_exact Nat.one_pos (Nat.mul_one _).symm width within

end Binary

end NodeScript
