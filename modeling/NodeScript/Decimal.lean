/-!
# Decimal numerals

The numerals of input text: whole numbers, and decimals in positional or scientific notation. A
numeral starts with at most one sign. A decimal has a digit on at least one side of its point
(`.5` and `5.` are numerals, `.` is not) and may end in an exponent.

A decimal is kept exactly, as a whole significand and a power of ten; rounding it to a binary
number is the business of `NodeScript.Binary`.
-/

namespace NodeScript

/-- The number `±significand · 10 ^ exponent`. -/
structure Decimal where
  negative : Bool
  significand : Nat
  exponent : Int
  deriving DecidableEq, Repr

namespace Decimal

/-- The value of a string of digits, the most significant first. -/
def digitsValue (ds : List Char) : Nat :=
  Nat.ofDigitChars 10 ds 0

/-- Splits off a leading sign and tells whether it was a minus. -/
def splitSign : List Char → Bool × List Char
  | '-' :: rest => (true, rest)
  | '+' :: rest => (false, rest)
  | cs => (false, cs)

/-- Splits off the longest run of leading digits. -/
def splitDigits (cs : List Char) : List Char × List Char :=
  (cs.takeWhile Char.isDigit, cs.dropWhile Char.isDigit)

/-- Nothing is lost: the digits and the rest make up the text. -/
theorem splitDigits_append (cs : List Char) : (splitDigits cs).1 ++ (splitDigits cs).2 = cs := by
  simp [splitDigits]

/-- The number `value` with the given sign. -/
def signed (negative : Bool) (value : Nat) : Int :=
  if negative then -value else value

/-- A whole number: an optional sign and at least one digit, with nothing after them. -/
def wholeNumber? (cs : List Char) : Option Int :=
  let (negative, body) := splitSign cs
  if body ≠ [] ∧ body.all Char.isDigit then some (signed negative (digitsValue body)) else none

/-- What may follow the digits of a decimal: nothing, or the letter `e` and a whole number. -/
def exponent? : List Char → Option Int
  | [] => some 0
  | c :: rest => if c = 'e' ∨ c = 'E' then wholeNumber? rest else none

/-- A decimal numeral in positional or scientific notation. -/
def ofChars? (cs : List Char) : Option Decimal :=
  let (negative, body) := splitSign cs
  let (whole, rest) := splitDigits body
  let (fraction, rest) := match rest with
    | '.' :: rest => splitDigits rest
    | rest => ([], rest)
  if whole = [] ∧ fraction = [] then none
  else (exponent? rest).map fun e =>
    ⟨negative, digitsValue (whole ++ fraction), e - fraction.length⟩

end Decimal

end NodeScript
