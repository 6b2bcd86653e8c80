import NodeScript.Binary.Numeral

/-!
# JSON numbers

A JSON number is kept as it is written: sign, whole digits, and where present a fraction and an
exponent. It is read in one of two ways. A number without fraction and exponent is a whole number,
except that `-0` is none. Every number within range is also a binary number.

The binary reading keeps as many leading digits as fit 64 bits, drops the others, and then scales
by a power of ten in double precision. So it is close to the exact value but not always the nearest
number, and a number whose scaling overflows is refused.
-/

namespace NodeScript.Json

/-- A number as it is written. The digits are the characters `0` to `9`. -/
structure Number where
  negative : Bool := false
  whole : List Char
  fraction : Option (List Char) := none
  exponent : Option Int := none
  deriving DecidableEq, Repr

namespace Number

/-! ### Text -/

/-- A whole number in its written form. -/
def ofInt (n : Int) : Number :=
  { negative := n < 0, whole := Nat.toDigits 10 n.natAbs }

/-- The characters of a number. -/
def chars (n : Number) : List Char :=
  (if n.negative then ['-'] else []) ++ n.whole
    ++ n.fraction.elim [] ('.' :: ·)
    ++ n.exponent.elim [] fun e => 'e' :: (toString e).toList

/-- Splits off the digits of the whole part: a zero, or a run of digits that starts with no zero. -/
def splitWhole : List Char → List Char × List Char
  | '0' :: rest => (['0'], rest)
  | cs => Decimal.splitDigits cs

/-- Splits off a fraction, if a point is next. At least one digit has to follow the point. -/
def splitFraction? : List Char → Option (Option (List Char) × List Char)
  | '.' :: rest =>
    let (ds, rest) := Decimal.splitDigits rest
    if ds = [] then none else some (some ds, rest)
  | cs => some (none, cs)

/-- Splits off an exponent, if its letter is next. At least one digit has to follow. -/
def splitExponent? : List Char → Option (Option Int × List Char)
  | [] => some (none, [])
  | c :: rest =>
    if c = 'e' ∨ c = 'E' then
      let (negative, rest) := Decimal.splitSign rest
      let (ds, rest) := Decimal.splitDigits rest
      if ds = [] then none
      else some (some (Decimal.signed negative (Decimal.digitsValue ds)), rest)
    else some (none, c :: rest)

/-- Splits off a number. -/
def scan? (cs : List Char) : Option (Number × List Char) := do
  let (negative, rest) := match cs with
    | '-' :: rest => (true, rest)
    | cs => (false, cs)
  let (whole, rest) := splitWhole rest
  if whole = [] then none
  let (fraction, rest) ← splitFraction? rest
  let (exponent, rest) ← splitExponent? rest
  return (⟨negative, whole, fraction, exponent⟩, rest)

/-! ### As a whole number -/

/-- The value of a number written without fraction and exponent. -/
def toInt? (n : Number) : Option Int :=
  let value := Decimal.digitsValue n.whole
  if n.fraction.isSome ∨ n.exponent.isSome ∨ (n.negative ∧ value = 0) then none
  else some (Decimal.signed n.negative value)

/-! ### As a binary number -/

/-- Takes digits into a significand of 64 bits for as long as they fit, and counts those taken. -/
def takeDigits (significand taken : Nat) : List Char → Nat × Nat
  | [] => (significand, taken)
  | d :: ds =>
    let next := 10 * significand + (d.toNat - '0'.toNat)
    if next < UInt64.size then takeDigits next (taken + 1) ds else (significand, taken)

/-- The greatest power of ten that scales a number in one step. -/
def stepExponent : Nat :=
  308

/-- The double nearest to a power of ten. -/
def powerOfTen (n : Nat) : Double :=
  .ofQuotient false (Nat.pow 10 n) 1

/-- Divides by a power of ten, at most `10 ^ 308` at a time. -/
def scaleDown (x : Double) (n : Nat) : Double :=
  if n ≤ stepExponent then x / powerOfTen n
  else scaleDown (x / powerOfTen stepExponent) (n - stepExponent)
termination_by n
decreasing_by simp only [stepExponent] at *; omega

/-- A significand times a power of ten, unless it overflows. -/
def scale? (significand : Nat) (exponent : Int) : Option Double :=
  let x : Double := .ofInt significand
  if significand = 0 then some .zero
  else if exponent < 0 then
    -- below `10 ^ -1000` nothing is left of 64 bits
    some (scaleDown x (min exponent.natAbs 1000))
  else if exponent ≤ stepExponent then
    match x * powerOfTen exponent.natAbs with
    | .infinite _ => none
    | y => some y
  else none

/-- The number in double precision, unless it is too large. -/
def toDouble? (n : Number) : Option Double :=
  let (significand, kept) := takeDigits 0 0 n.whole
  let (significand, taken) := takeDigits significand 0 (n.fraction.getD [])
  let exponent := (n.whole.length - kept : Nat) - (taken : Int) + n.exponent.getD 0
  (scale? significand exponent).map fun x => if n.negative then -x else x

/-- The number in single precision, unless it is too large. Whole numbers of 64 bits are rounded
once; all others pass through double precision. -/
def toSingle? (n : Number) : Option Single :=
  match n.toInt? with
  | some i =>
    if Int64.minValue.toInt ≤ i ∧ i < UInt64.size then some (.ofInt i) else n.toDouble?.map .convert
  | none => n.toDouble?.map .convert

end Number

end NodeScript.Json
