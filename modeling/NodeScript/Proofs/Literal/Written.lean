import NodeScript.Proofs.Binary.Fixed
import NodeScript.Proofs.Literal.Components

/-!
# Written literals

The numbers of a literal are written without blanks and commas, so where a comma stands is where one
number ends: three numbers that an editor shows are the pieces of their text
(`Literal.splitsInto_displayTriple`), and two rotations that stand in a script as one text are equal
(`Literal.code_rotator_injective`).

A whole number that is shown is read as itself (`Literal.ofText_toString`), and three numbers that are
shown are read as what is read of each (`Literal.ofText_displayTriple`).
-/

namespace NodeScript

/-! ### Blanks and commas in numbers -/

theorem Text.trim_of_forall {cs : List Char} (h : ∀ c ∈ cs, isBlank c = false) : trim cs = cs :=
  trim_eq_self (fun _ hc => h _ (List.mem_of_mem_head? hc))
    (fun _ hc => h _ (List.mem_of_mem_getLast? hc))

theorem Text.trim_space (cs : List Char) : trim (' ' :: cs) = trim cs := by
  simp [trim, trimStart, isBlank]

/-- A digit is neither blank nor a comma. -/
theorem plain_of_isDigit {c : Char} (h : c.isDigit = true) : Text.isBlank c = false ∧ c ≠ ',' := by
  have bounds : 48 ≤ c.toNat ∧ c.toNat ≤ 57 := by
    simpa [Char.isDigit, UInt32.le_iff_toNat_le] using h
  constructor
  · simp only [Text.isBlank, Bool.or_eq_false_iff, Bool.and_eq_false_iff, decide_eq_false_iff_not,
      beq_eq_false_iff_ne]
    omega
  · rintro rfl
    exact absurd h (by decide)

theorem plain_fixed {places : Nat} {x : Single} {c : Char} (h : c ∈ (x.fixed places).toList) :
    Text.isBlank c = false ∧ c ≠ ',' := by
  have others : ['.', '-', 'N', 'a', 'i', 'n', 'f'].all fun c =>
      !Text.isBlank c && decide (c ≠ ',') := by
    decide
  rcases Binary.mem_fixed h with digit | other
  · exact plain_of_isDigit digit
  · simpa using List.all_eq_true.mp others c other

theorem comma_notMem_fixed (places : Nat) (x : Single) : ',' ∉ (x.fixed places).toList :=
  fun h => (plain_fixed h).2 rfl

theorem plain_toString {n : Int} {c : Char} (h : c ∈ (toString n).toList) :
    Text.isBlank c = false ∧ c ≠ ',' := by
  rcases Decimal.mem_toString h with digit | rfl
  · exact plain_of_isDigit digit
  · decide

theorem comma_notMem_toString (n : Int) : ',' ∉ (toString n).toList :=
  fun h => (plain_toString h).2 rfl

/-! ### Three pieces -/

theorem SplitsInto.three {a b c : List Char} (ha : ',' ∉ a) (hb : ',' ∉ b) (hc : ',' ∉ c) :
    SplitsInto (a ++ ',' :: (b ++ ',' :: c)) [a, b, c] where
  nonempty := by simp
  separate := by simp [ha, hb, hc]
  joined := by simp [List.intercalate]

/-- Pieces without commas can be told apart when they are joined. -/
theorem three_inj {a b c a' b' c' : List Char} (ha : ',' ∉ a) (hb : ',' ∉ b) (hc : ',' ∉ c)
    (ha' : ',' ∉ a') (hb' : ',' ∉ b') (hc' : ',' ∉ c')
    (h : a ++ ',' :: (b ++ ',' :: c) = a' ++ ',' :: (b' ++ ',' :: c')) :
    a = a' ∧ b = b' ∧ c = c' := by
  have pieces := (SplitsInto.three ha hb hc).eq_commaPieces
  rw [h, (SplitsInto.three ha' hb' hc').eq_commaPieces] at pieces
  simp_all

namespace Literal

theorem splitsInto_displayTriple (x y z : Single) : SplitsInto (displayTriple x y z).toList
    [(x.fixed 4).toList, ' ' :: (y.fixed 4).toList, ' ' :: (z.fixed 4).toList] := by
  have text : (displayTriple x y z).toList = (x.fixed 4).toList ++
      ',' :: (' ' :: (y.fixed 4).toList ++ ',' :: (' ' :: (z.fixed 4).toList)) := by
    simp [displayTriple]
  rw [text]
  exact .three (comma_notMem_fixed 4 x) (by simp [comma_notMem_fixed])
    (by simp [comma_notMem_fixed])

theorem toList_code_vector (x y z : Single) :
    (vector x y z).code.toList = "vect(".toList ++ ((x.fixed 4).toList ++
      ',' :: (' ' :: (y.fixed 4).toList ++ ',' :: (' ' :: (z.fixed 4).toList)) ++ [')']) := by
  show ("vect(" ++ displayTriple x y z ++ ")").toList = _
  simp [displayTriple]

theorem toList_code_rotator (p y r : Int32) :
    (rotator p y r).code.toList = "rot(".toList ++ ((toString p.toInt).toList ++
      ',' :: ((toString y.toInt).toList ++ ',' :: (toString r.toInt).toList) ++ [')']) := by
  show ("rot(" ++ toString p.toInt ++ "," ++ toString y.toInt ++ "," ++ toString r.toInt ++
    ")").toList = _
  simp

/-- **A rotation can be read off its code.** -/
theorem code_rotator_injective {p y r p' y' r' : Int32}
    (h : (rotator p y r).code = (rotator p' y' r').code) : p = p' ∧ y = y' ∧ r = r' := by
  have text := congrArg String.toList h
  rw [toList_code_rotator, toList_code_rotator, List.append_cancel_left_eq,
    List.append_cancel_right_eq] at text
  have same {m n : Int32} (h : (toString m.toInt).toList = (toString n.toInt).toList) : m = n :=
    Int32.toInt_inj.mp (Decimal.toString_injective (String.toList_injective h))
  obtain ⟨hp, hy, hr⟩ := three_inj (comma_notMem_toString _) (comma_notMem_toString _)
    (comma_notMem_toString _) (comma_notMem_toString _) (comma_notMem_toString _)
    (comma_notMem_toString _) text
  exact ⟨same hp, same hy, same hr⟩

/-! ### Reading what is written -/

/-- A number that is shown stands for the number that is read from it. -/
theorem component_fixed (x : Single) : Component (x.fixed 4).toList (x.reread 4) := by
  refine .inr ?_
  rw [Text.trim_of_forall fun c hc => (plain_fixed hc).1]
  exact Binary.spells_fixed (by decide) 4 x

theorem component_space {piece : List Char} {x : Single} (h : Component piece x) :
    Component (' ' :: piece) x := by
  rwa [Component, Text.trim_space]

/-- **Three numbers that are shown are read as what is read from each of them.** -/
theorem ofText_displayTriple {signal : Signal} {make : Single → Single → Single → Literal}
    (threefold : Threefold signal make) (x y z : Single) :
    ofText signal (displayTriple x y z) =
      .ok (make (x.reread 4) (y.reread 4) (z.reread 4)) :=
  (ofText_ok_iff threefold (splitsInto_displayTriple x y z)).mpr
    ⟨_, _, _, component_fixed x, component_space (component_fixed y),
      component_space (component_fixed z), rfl⟩

/-- **A whole number that is shown is read as itself.** -/
theorem ofText_toString (n : Int32) : ofText .int (toString n.toInt) = .ok (int n) := by
  have trimmed : Text.trim (toString n.toInt).toList = (toString n.toInt).toList :=
    Text.trim_of_forall fun c hc => (plain_toString hc).1
  have nonempty : (toString n.toInt).toList ≠ [] := by
    rw [Decimal.toList_toString]
    simp [Nat.toDigits_ne_nil]
  have number := Decimal.wholeNumber?_eq_some_iff.mpr (Decimal.whole_toString n.toInt)
  have read : readInt? (toString n.toInt).toList = some n := by
    rw [readInt?, trimmed, if_neg nonempty, number, Option.bind_some,
      if_pos ⟨Int32.le_toInt n, Int32.toInt_le n⟩, Int32.ofInt_toInt]
  show ((readInt? (toString n.toInt).toList).map int).elim _ _ = _
  rw [read]
  rfl

end Literal

end NodeScript
