/-!
# Binary floating point numbers

Numbers with a sign, a significand of bounded width and a bounded exponent, as interchange formats
hold them, together with the infinities and one not-a-number. The library works in single
precision; double precision is needed where JSON numbers pass through it.

The non-negative finite numbers of a format, in increasing order, are numbered `0, 1, 2, …` by
their *codes*. Every one of them is a whole multiple of the least positive number, and
`Format.units` says which multiple the code stands for. All arithmetic is exact arithmetic on such
multiples followed by one rounding (`Format.nearest`), to the nearest number and, halfway between
two, to the one with an even code.
-/

namespace NodeScript

-- powers are those of the core library, whichever other instances are in scope
attribute [local instance (high)] instPowNat

/-- A binary interchange format. -/
structure Format where
  /-- The number of significand bits after the leading one. -/
  fraction : Nat
  /-- The least positive number is `2 ^ -scale`. -/
  scale : Nat
  /-- The number of finite exponents. -/
  exponents : Nat
  deriving DecidableEq, Repr

namespace Format

/-- Single precision: 32 bits. -/
def single : Format := ⟨23, 149, 255⟩

/-- Double precision: 64 bits. -/
def double : Format := ⟨52, 1074, 2047⟩

/-- The first code that no finite number has. -/
def limit (f : Format) : Nat :=
  f.exponents * 2 ^ f.fraction

/-- The number with a given code, as a multiple of the least positive number. -/
def units (f : Format) (code : Nat) : Nat :=
  if code < 2 ^ (f.fraction + 1) then code
  else (2 ^ f.fraction + code % 2 ^ f.fraction) * 2 ^ (code / 2 ^ f.fraction - 1)

end Format

/-- The whole number nearest to `num / den`, the even one if two are equally near. -/
def roundEven (num den : Nat) : Nat :=
  let q := num / den
  let r := num % den
  if 2 * r < den then q else if den < 2 * r then q + 1 else q + q % 2

/-- The rounded quotient is within half a unit of the exact one. -/
theorem roundEven_near (num : Nat) {den : Nat} (h : 0 < den) :
    2 * (roundEven num den * den) ≤ 2 * num + den ∧ 2 * num ≤ 2 * (roundEven num den * den) + den := by
  have e : den * (num / den) + num % den = num := Nat.div_add_mod num den
  have l : num % den < den := Nat.mod_lt _ h
  simp only [roundEven]
  generalize num / den = q at *
  generalize num % den = r at *
  have h1 : (q + 1) * den = den * q + den := by rw [Nat.add_mul, Nat.mul_comm]; simp
  have h0 : q * den = den * q := Nat.mul_comm ..
  have hm : q % 2 = 0 ∨ q % 2 = 1 := by omega
  generalize den * q = p at *
  split
  · omega
  · split
    · omega
    · rcases hm with hm | hm
      · simp only [hm, Nat.add_zero]; omega
      · simp only [hm]; omega

/-- Exactly halfway, the even neighbour is taken. -/
theorem roundEven_tie {num den : Nat} (h : 2 * (num % den) = den) : roundEven num den % 2 = 0 := by
  simp only [roundEven, h, Nat.lt_irrefl, if_false]
  omega

/-- A whole quotient is not changed by rounding. -/
theorem roundEven_mul (n : Nat) {den : Nat} (h : 0 < den) : roundEven (n * den) den = n := by
  simp [roundEven, Nat.mul_div_cancel _ h, h]

/-- The code of the number nearest to `num / den` times the least positive number. Beyond the
largest finite number it is `limit` or more. -/
def Format.nearest (f : Format) (num den : Nat) : Nat :=
  let shift := (num / den).log2 - f.fraction
  shift * 2 ^ f.fraction + roundEven num (den * 2 ^ shift)

/-- A number of the format `f`. Not-a-number has no sign and no payload. -/
inductive Binary (f : Format) where
  | nan
  | infinite (negative : Bool)
  | finite (negative : Bool) (code : Fin f.limit)
  deriving DecidableEq, Repr

/-- A single precision number. -/
abbrev Single := Binary .single

/-- A double precision number. -/
abbrev Double := Binary .double

namespace Binary

variable {f : Format}

/-- The number with the given sign and code, infinite if the code is too large for a finite one. -/
def ofCode (negative : Bool) (code : Nat) : Binary f :=
  if h : code < f.limit then finite negative ⟨code, h⟩ else infinite negative

/-- The number nearest to `±num / den`. -/
def ofQuotient (negative : Bool) (num den : Nat) : Binary f :=
  ofCode negative (f.nearest (num * 2 ^ f.scale) den)

/-- The number nearest to a whole number. -/
def ofInt (n : Int) : Binary f :=
  ofQuotient (n < 0) n.natAbs 1

/-- Positive zero. -/
def zero : Binary f :=
  ofCode false 0

/-- A finite number's distance from zero, in units of the least positive number. -/
def units (code : Fin f.limit) : Nat :=
  f.units code

/-! ### Arithmetic -/

/-- The product, rounded once. -/
def mul : Binary f → Binary f → Binary f
  | nan, _ | _, nan => nan
  | infinite s, infinite t => infinite (s != t)
  | infinite s, finite t c | finite t c, infinite s => if c.val = 0 then nan else infinite (s != t)
  | finite s a, finite t b => ofQuotient (s != t) (units a * units b) (2 ^ (2 * f.scale))

/-- The quotient, rounded once. -/
def div : Binary f → Binary f → Binary f
  | nan, _ | _, nan => nan
  | infinite _, infinite _ => nan
  | infinite s, finite t _ => infinite (s != t)
  | finite s _, infinite t => ofCode (s != t) 0
  | finite s a, finite t b =>
    if b.val = 0 then if a.val = 0 then nan else infinite (s != t)
    else ofQuotient (s != t) (units a) (units b)

/-- The number with the opposite sign. -/
def neg : Binary f → Binary f
  | nan => nan
  | infinite s => infinite !s
  | finite s c => finite (!s) c

instance : Neg (Binary f) := ⟨neg⟩
instance : Mul (Binary f) := ⟨mul⟩
instance : Div (Binary f) := ⟨div⟩

/-- The nearest number of another format. -/
def convert {g : Format} : Binary f → Binary g
  | nan => nan
  | infinite s => infinite s
  | finite s c => ofQuotient s (units c) (2 ^ f.scale)

/-- The nearest whole number that 32 bits can hold. A half goes away from zero, not-a-number to
zero. -/
def toInt32 : Binary f → Int32
  | nan => 0
  | infinite s => if s then Int32.minValue else Int32.maxValue
  | finite s c =>
    let n := (2 * units c + 2 ^ f.scale) / 2 ^ (f.scale + 1)
    if s then Int32.ofInt (max (-n) Int32.minValue.toInt)
    else Int32.ofInt (min n Int32.maxValue.toInt)

/-- The bits of the interchange format: sign, exponent, fraction. -/
def toBits : Binary f → Nat
  | nan => f.limit + 2 ^ (f.fraction - 1)
  | infinite s => s.toNat * (f.exponents + 1) * 2 ^ f.fraction + f.limit
  | finite s c => s.toNat * (f.exponents + 1) * 2 ^ f.fraction + c

end Binary

end NodeScript
