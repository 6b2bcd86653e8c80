import NodeScript.Binary.Basic
import NodeScript.Decimal

/-!
# Binary numbers as text

Reading rounds the exact value of a decimal numeral once, to the nearest number. Writing gives a
fixed number of decimal places, rounding the exact binary value with halves going to the even last
digit; a minus sign stays in front of a result that rounds to zero.

The words for the special values are `nan`, `inf` and `infinity`, read in any case.
-/

namespace NodeScript

namespace Binary

-- powers are those of the core library, whichever other instances are in scope
attribute [local instance (high)] instPowNat

variable {f : Format}

/-! ### Reading -/

/-- The number nearest to a decimal. The first two cases spare the powers of ten that are far
beyond the format: `10 ^ n` is at least `8 ^ n`. -/
def ofDecimal (d : Decimal) : Binary f :=
  let m := d.significand
  let n := d.exponent.natAbs
  if m = 0 then ofCode d.negative 0
  else if 0 ≤ d.exponent then
    if f.exponents + f.fraction ≤ 3 * n then infinite d.negative
    else ofQuotient d.negative (m * 10 ^ n) 1
  else
    if m.log2 + f.scale + 2 ≤ 3 * n then ofCode d.negative 0
    else ofQuotient d.negative m (10 ^ n)

/-- The special value that a word without a sign stands for. -/
def ofWord? (negative : Bool) (cs : List Char) : Option (Binary f) :=
  let word := cs.map Char.toLower
  if word = ['n', 'a', 'n'] then some nan
  else if word = ['i', 'n', 'f'] ∨ word = ['i', 'n', 'f', 'i', 'n', 'i', 't', 'y'] then
    some (infinite negative)
  else none

/-- The number that a numeral or a signed special word stands for. -/
def ofChars? (cs : List Char) : Option (Binary f) :=
  let (negative, body) := Decimal.splitSign cs
  match ofWord? negative body with
  | some x => some x
  | none => (Decimal.ofChars? cs).map ofDecimal

/-! ### Writing -/

/-- A whole number of units of the last place, with the point set `places` digits from the right. -/
def pointed (places n : Nat) : List Char :=
  let ds := Nat.toDigits 10 n
  let padded := List.replicate (places + 1 - ds.length) '0' ++ ds
  let whole := padded.length - places
  padded.take whole ++ '.' :: padded.drop whole

/-- The number with a fixed count of decimal places. -/
def fixed (places : Nat) : Binary f → String
  | nan => "NaN"
  | infinite s => if s then "-inf" else "inf"
  | finite s c =>
    let digits := pointed places (roundEven (units c * 10 ^ places) (2 ^ f.scale))
    String.ofList (if s then '-' :: digits else digits)

end Binary

end NodeScript
