import Mathlib.Tactic.SplitIfs

/-!
# The byte order of texts

Texts are compared character by character, and a text stands in memory as its bytes in UTF-8. The
encoding was made to keep the order: of two different characters the lower one has the lower first
byte, or the same number of bytes and a lower digit at the first place where they differ. No encoding
is the beginning of another, so what follows in the texts does not matter (`Text.encode_lt`).

* `Text.lt_iff_utf8_lt`: the order of texts is the byte order of UTF-8.
-/

namespace NodeScript.Text

/-- The bytes of a text in UTF-8. -/
def utf8 (s : String) : List UInt8 :=
  s.toUTF8.data.toList

theorem utf8_eq (s : String) : utf8 s = s.toList.flatMap String.utf8EncodeChar := by
  rw [utf8, String.toUTF8_eq_toByteArray, ← String.utf8Encode_toList, List.utf8Encode,
    List.data_toByteArray]

/-- The lower of two characters has the lower bytes, whatever follows. -/
theorem encode_lt {c d : Char} (h : c < d) (k l : List UInt8) :
    String.utf8EncodeChar c ++ k < String.utf8EncodeChar d ++ l := by
  have less : c.val.toNat < d.val.toNat := h
  have bound : d.val.toNat < 0x110000 := by
    rcases d.valid with h | h
    · exact Nat.lt_trans h (by decide)
    · exact h.2
  -- The places of an encoding are the digits of the code in base 64.
  have third (n : Nat) : n / 262144 = n / 4096 / 64 := (Nat.div_div_eq_div_mul n 4096 64).symm
  have second (n : Nat) : n / 4096 = n / 64 / 64 := (Nat.div_div_eq_div_mul n 64 64).symm
  unfold String.utf8EncodeChar
  dsimp only
  split_ifs <;>
    simp (disch := omega) only [List.cons_append, List.nil_append, List.cons_lt_cons_iff,
      UInt8.lt_iff_toNat_lt, ← UInt8.toNat_inj, UInt8.toNat_ofNat', Nat.reducePow,
      Nat.mod_eq_of_lt, third, second] <;>
    omega

theorem flatMap_encode_lt {l m : List Char} (h : l < m) :
    l.flatMap String.utf8EncodeChar < m.flatMap String.utf8EncodeChar := by
  induction h with
  | nil =>
    rename_i c m
    rw [List.flatMap_nil, List.flatMap_cons]
    cases hc : String.utf8EncodeChar c with
    | nil => exact absurd hc String.utf8EncodeChar_ne_nil
    | cons b bs => exact List.nil_lt_cons _ _
  | cons _ ih => exact List.append_left_lt ih
  | rel less => exact encode_lt less _ _

/-- **The order of texts is the order of their bytes.** -/
theorem lt_iff_utf8_lt {s t : String} : s < t ↔ utf8 s < utf8 t := by
  have forward {s t : String} (h : s < t) : utf8 s < utf8 t := by
    rw [utf8_eq, utf8_eq]
    exact flatMap_encode_lt (String.lt_iff.mp h)
  refine ⟨forward, fun less => Decidable.byContradiction fun not => ?_⟩
  rcases Decidable.em (s = t) with rfl | ne
  · exact List.lt_irrefl _ less
  · have back : t < s := Decidable.byContradiction fun h =>
      ne (String.le_antisymm (String.not_lt.mp h) (String.not_lt.mp not))
    exact List.lt_asymm less (forward back)

end NodeScript.Text
