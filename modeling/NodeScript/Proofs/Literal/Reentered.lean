import NodeScript.Proofs.Literal.Angle
import NodeScript.Proofs.Literal.Written

/-!
# Literals that are entered as they are shown

An editor shows a literal, and what it shows can be entered again. That is always a literal of the
same signal, and it mostly looks the same, although a number may be another one than before: only four
of its decimal places are shown.

Rotations are the exception. They are shown in single precision degrees, which hold whole units only
up to 91 turns; beyond that an angle may come back as another. A rotation is the same exactly if the
degrees keep each of its angles (`Literal.Kept`), and then it is the same in the script too
(`Literal.reentered_iff`).
-/

namespace NodeScript.Literal

/-- Entering what is shown gives the same literal again, as far as it can be seen. Only the angles of a
rotation can be lost. -/
def Kept : Literal → Prop
  | rotator p y r => Angle.Kept p ∧ Angle.Kept y ∧ Angle.Kept r
  | _ => True

/-- The literal has the same two written forms as the other. -/
def LooksLike (l' l : Literal) : Prop :=
  l'.code = l.code ∧ l'.display = l.display

theorem looksLike_refl (l : Literal) : l.LooksLike l :=
  ⟨rfl, rfl⟩

theorem looksLike_float (x : Single) : (float (x.reread 4)).LooksLike (float x) :=
  ⟨Binary.fixed_reread x, Binary.fixed_reread x⟩

theorem looksLike_vector (x y z : Single) :
    (vector (x.reread 4) (y.reread 4) (z.reread 4)).LooksLike (vector x y z) := by
  have same : displayTriple (x.reread 4) (y.reread 4) (z.reread 4) = displayTriple x y z := by
    simp only [displayTriple, Binary.fixed_reread]
  exact ⟨congrArg (fun shown => s!"vect({shown})") same, same⟩

/-- A rotation looks like another only if it is the same. -/
theorem looksLike_rotator_iff {p y r p' y' r' : Int32} :
    (rotator p' y' r').LooksLike (rotator p y r) ↔ p' = p ∧ y' = y ∧ r' = r := by
  constructor
  · rintro ⟨code, -⟩
    exact code_rotator_injective code
  · rintro ⟨rfl, rfl, rfl⟩
    exact looksLike_refl _

/-- **What an editor shows can be entered again, and this changes nothing that can be seen, exactly if
single precision degrees keep the angles of a rotation.** They do up to 5965236 units, which is a
little more than 91 turns. -/
theorem reentered_iff (l : Literal) :
    (∃ l', ofText l.signal l.display = .ok l' ∧ (l'.LooksLike l ↔ l.Kept)) ∧
      ∀ u : Int32, u.toInt.natAbs ≤ 5965236 → Angle.Kept u := by
  refine ⟨?_, fun u => Angle.kept_of_le⟩
  cases l with
  | bool b => cases b <;> exact ⟨_, rfl, iff_of_true (looksLike_refl _) trivial⟩
  | int n => exact ⟨_, ofText_toString n, iff_of_true (looksLike_refl _) trivial⟩
  | float x =>
    have read : readSingle? (x.fixed 4).toList = some (x.reread 4) :=
      readSingle?_eq_some_iff.mpr (component_fixed x)
    refine ⟨_, ?_, iff_of_true (looksLike_float x) trivial⟩
    show ((readSingle? (x.fixed 4).toList).map float).elim _ _ = _
    rw [read]
    rfl
  | vector x y z =>
    exact ⟨_, ofText_displayTriple .vector x y z, iff_of_true (looksLike_vector x y z) trivial⟩
  | rotator p y r =>
    refine ⟨_, ofText_displayTriple .rotator _ _ _, ?_⟩
    rw [looksLike_rotator_iff, Angle.ofDegrees_reread_iff, Angle.ofDegrees_reread_iff,
      Angle.ofDegrees_reread_iff, Kept]
  | string s => exact ⟨_, rfl, iff_of_true (looksLike_refl _) trivial⟩
  | object => exact ⟨_, rfl, iff_of_true (looksLike_refl _) trivial⟩
  | execution => exact ⟨_, rfl, iff_of_true (looksLike_refl _) trivial⟩

/-- The first angle that is not kept: it is shown as 32768.0273 degrees, and this is the next one. -/
theorem reentered_turns : ¬ ∀ l : Literal,
    ∃ l', ofText l.signal l.display = .ok l' ∧ l'.code = l.code ∧ l'.display = l.display := by
  intro same
  obtain ⟨l', read, code, -⟩ := same (rotator 5965237 0 0)
  have next : ofText .rotator (rotator 5965237 0 0).display = .ok (rotator 5965238 0 0) := by
    decide +kernel
  obtain rfl : rotator 5965238 0 0 = l' := Except.ok.inj (next.symm.trans read)
  exact absurd code (by decide +kernel)

end NodeScript.Literal
