/-!
# JSON strings

A JSON string may name code points by escapes, and those of a surrogate pair one by one. A string
with a surrogate that is not part of a pair is well-formed JSON but denotes no text, so the meaning
of a string is an `Option String`.
-/

namespace NodeScript.Json

/-- What a JSON string denotes: `none` if it holds an unpaired surrogate. -/
abbrev Text := Option String

namespace Text

/-! ### Writing -/

/-- The digit of a value below 16. -/
def hexDigit (n : Nat) : Char :=
  if n < 10 then Char.ofNat ('0'.toNat + n) else Char.ofNat ('a'.toNat + (n - 10))

/-- A character between quotes. Quotes, backslashes and control characters are escaped. -/
def escape (c : Char) : List Char :=
  if c = '"' then ['\\', '"']
  else if c = '\\' then ['\\', '\\']
  else if c.toNat < 0x20 then ['\\', 'u', '0', '0', hexDigit (c.toNat / 16), hexDigit (c.toNat % 16)]
  else [c]

/-- A string between its quotes. What denotes no text is written as a lone surrogate. -/
def chars : Text → List Char
  | some s => '"' :: (s.toList.flatMap escape ++ ['"'])
  | none => ['"', '\\', 'u', 'd', '8', '0', '0', '"']

/-! ### Reading -/

/-- The value of a hexadecimal digit. -/
def hexValue? (c : Char) : Option Nat :=
  if '0' ≤ c ∧ c ≤ '9' then some (c.toNat - '0'.toNat)
  else if 'a' ≤ c ∧ c ≤ 'f' then some (c.toNat - 'a'.toNat + 10)
  else if 'A' ≤ c ∧ c ≤ 'F' then some (c.toNat - 'A'.toNat + 10)
  else none

/-- The value of four hexadecimal digits. -/
def hexValue4? (a b c d : Char) : Option Nat := do
  return (← hexValue? a) * 4096 + (← hexValue? b) * 256 + (← hexValue? c) * 16 + (← hexValue? d)

/-- The character that a backslash and a letter stand for. -/
def unescape? (c : Char) : Option Char :=
  if c = '"' ∨ c = '\\' ∨ c = '/' then some c
  else if c = 'b' then some '\x08'
  else if c = 'f' then some '\x0c'
  else if c = 'n' then some '\n'
  else if c = 'r' then some '\r'
  else if c = 't' then some '\t'
  else none

/-- The code points of a string, surrogates among them, up to its closing quote, and what comes
after that. `done` holds the code points read so far, the last first. -/
def scan? (done : List Nat) : List Char → Option (List Nat × List Char)
  | [] => none
  | '"' :: rest => some (done.reverse, rest)
  | '\\' :: 'u' :: a :: b :: c :: d :: rest => do scan? ((← hexValue4? a b c d) :: done) rest
  | '\\' :: c :: rest => do scan? ((← unescape? c).toNat :: done) rest
  | c :: rest => if c = '\\' ∨ c.toNat < 0x20 then none else scan? (c.toNat :: done) rest

/-- The first half of a surrogate pair. -/
def isHigh (u : Nat) : Bool :=
  0xD800 ≤ u && u < 0xDC00

/-- The second half of a surrogate pair. -/
def isLow (u : Nat) : Bool :=
  0xDC00 ≤ u && u < 0xE000

/-- Joins surrogate pairs; a surrogate without its partner denotes no text. -/
def joinPairs? : List Nat → Option (List Char)
  | [] => some []
  | [u] => if isHigh u ∨ isLow u then none else some [Char.ofNat u]
  | u :: v :: rest =>
    if isHigh u then
      if isLow v then
        (joinPairs? rest).map (Char.ofNat (0x10000 + (u - 0xD800) * 0x400 + (v - 0xDC00)) :: ·)
      else none
    else if isLow u then none
    else (joinPairs? (v :: rest)).map (Char.ofNat u :: ·)

/-- What a list of code points denotes. -/
def ofCodePoints (us : List Nat) : Text :=
  (joinPairs? us).map String.ofList

end Text

end NodeScript.Json
