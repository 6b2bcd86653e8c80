/-!
# Blank characters

Input text is read with the blanks around it dropped. A blank is a character with the Unicode
property `White_Space`: the ASCII controls from tab to carriage return, the space, and nineteen
characters beyond ASCII. The zero width space, the byte order mark and the unit separator are not
among them.

Trimming leaves text without blank ends alone (`trim_eq_self`).
-/

namespace NodeScript.Text

/-- The characters with the Unicode property `White_Space`. -/
def isBlank (c : Char) : Bool :=
  let n := c.toNat
  (9 ≤ n && n ≤ 13) || n == 0x20 || n == 0x85 || n == 0xA0 || n == 0x1680
    || (0x2000 ≤ n && n ≤ 0x200A) || n == 0x2028 || n == 0x2029 || n == 0x202F || n == 0x205F
    || n == 0x3000

/-- Text without its leading blanks. -/
def trimStart (cs : List Char) : List Char :=
  cs.dropWhile isBlank

/-- Text without its trailing blanks. -/
def trimEnd (cs : List Char) : List Char :=
  (cs.reverse.dropWhile isBlank).reverse

/-- Text without the blanks at either end. -/
def trim (cs : List Char) : List Char :=
  trimEnd (trimStart cs)

/-! ### What trimming leaves -/

theorem trimStart_eq_self {cs : List Char} (h : ∀ c ∈ cs.head?, isBlank c = false) :
    trimStart cs = cs := by
  cases cs with
  | nil => rfl
  | cons c cs => simp [trimStart, h c (by simp)]

theorem trimEnd_eq_self {cs : List Char} (h : ∀ c ∈ cs.getLast?, isBlank c = false) :
    trimEnd cs = cs := by
  have : cs.reverse.dropWhile isBlank = cs.reverse :=
    trimStart_eq_self (by simpa [List.head?_reverse] using h)
  simp [trimEnd, this]

/-- Text whose two ends are not blank is left alone. -/
theorem trim_eq_self {cs : List Char} (hs : ∀ c ∈ cs.head?, isBlank c = false)
    (he : ∀ c ∈ cs.getLast?, isBlank c = false) : trim cs = cs := by
  rw [trim, trimStart_eq_self hs, trimEnd_eq_self he]

end NodeScript.Text
