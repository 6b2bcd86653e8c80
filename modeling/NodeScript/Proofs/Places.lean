import Mathlib.Logic.Basic

/-!
# Places in lists

A place in a list, written as what is before it, what is there, and what is behind it, or as a
number.
-/

namespace NodeScript

variable {α : Type} {l₁ l₂ pre post : List α} {a : α}

/-- A place in two lists one after the other is in the first or in the second. -/
theorem place_in_append (h : l₁ ++ l₂ = pre ++ a :: post) :
    (∃ rest, l₁ = pre ++ a :: rest) ∨ ∃ rest, pre = l₁ ++ rest ∧ l₂ = rest ++ a :: post := by
  rcases List.append_eq_append_iff.mp h with ⟨rest, rfl, hrest⟩ | ⟨rest, rfl, hrest⟩
  · exact .inr ⟨rest, rfl, hrest⟩
  · cases rest with
    | nil => exact .inr ⟨[], by simp, by simpa using hrest.symm⟩
    | cons b rest =>
      obtain ⟨rfl, -⟩ : a = b ∧ _ := by simpa using hrest
      exact .inl ⟨rest, rfl⟩

/-- A value that an element has under a function has a last place. -/
theorem exists_last_of_mem_map {β : Type} {f : α → β} {b : β} {l : List α} (h : b ∈ l.map f) :
    ∃ pre a post, l = pre ++ a :: post ∧ f a = b ∧ b ∉ post.map f := by
  induction l with
  | nil => cases h
  | cons a l ih =>
    by_cases hl : b ∈ l.map f
    · obtain ⟨pre, c, post, rfl, hc, last⟩ := ih hl
      exact ⟨a :: pre, c, post, rfl, hc, last⟩
    · have here : f a = b := by
        rcases List.mem_cons.mp h with hb | hb
        · exact hb.symm
        · exact absurd hb hl
      exact ⟨[], a, l, rfl, here, hl⟩

/-! ### Numbered places -/

variable {β : Type} {l : List α} {i j : Nat} {b : α}

/-- What is found at a place is found behind what is found before it. -/
theorem filterMap_place {f : α → Option β} {x : β} (hi : l[i]? = some a) (ha : f a = some x) :
    ∃ later, l.filterMap f = (l.take i).filterMap f ++ x :: later := by
  obtain ⟨hl, rfl⟩ := List.getElem?_eq_some_iff.mp hi
  refine ⟨(l.drop (i + 1)).filterMap f, ?_⟩
  have split : l = l.take i ++ l[i] :: l.drop (i + 1) := by
    rw [← List.drop_eq_getElem_cons hl, List.take_append_drop]
  calc l.filterMap f = (l.take i ++ l[i] :: l.drop (i + 1)).filterMap f := congrArg _ split
    _ = _ := by rw [List.filterMap_append, List.filterMap_cons_some ha]

/-- What is found before a place has a place before it. -/
theorem exists_place_of_mem_take {f : α → Option β} {x : β} (h : x ∈ (l.take i).filterMap f) :
    ∃ j < i, ∃ a, l[j]? = some a ∧ f a = some x := by
  obtain ⟨a, hmem, ha⟩ := List.mem_filterMap.mp h
  obtain ⟨j, hj⟩ := List.mem_iff_getElem?.mp hmem
  rw [List.getElem?_take] at hj
  split at hj
  · exact ⟨j, ‹j < i›, a, hj, ha⟩
  · cases hj

/-- A list without gaps in another one begins at a place of it. -/
theorem exists_place_of_infix {w : List α} (h : w <:+: l) :
    ∃ i, ∀ (k : Nat) (a : α), w[k]? = some a → l[i + k]? = some a := by
  obtain ⟨pre, post, rfl⟩ := h
  refine ⟨pre.length, fun k a ha => ?_⟩
  obtain ⟨hk, -⟩ := List.getElem?_eq_some_iff.mp ha
  rw [List.append_assoc, List.getElem?_append_right (Nat.le_add_right _ _),
    Nat.add_sub_cancel_left, List.getElem?_append_left hk, ha]

/-- If what is found is apart from what is found later, then what is not apart has one place. -/
theorem place_unique {f : α → Option β} {R : β → β → Prop} {x y : β}
    (apart : (l.filterMap f).Pairwise R) (hi : l[i]? = some a) (ha : f a = some x)
    (hj : l[j]? = some b) (hb : f b = some y) (hxy : ¬ R x y) (hyx : ¬ R y x) : i = j := by
  have ordered := List.pairwise_iff_getElem.mp (List.pairwise_filterMap.mp apart)
  obtain ⟨hil, rfl⟩ := List.getElem?_eq_some_iff.mp hi
  obtain ⟨hjl, rfl⟩ := List.getElem?_eq_some_iff.mp hj
  rcases Nat.lt_trichotomy i j with lt | eq | lt
  · exact absurd (ordered i j hil hjl lt x ha y hb) hxy
  · exact eq
  · exact absurd (ordered j i hjl hil lt y hb x ha) hyx

end NodeScript
