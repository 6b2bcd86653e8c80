/-!
# Slot tables

Tables whose rows are found by the number of their slot. A new row takes the next slot; the slot of
an erased row stays empty for ever, so a number never comes to mean another row. The live rows are
listed in the order in which they were added.

Each operation is described by what it does to `Table.get?`.
-/

namespace NodeScript

/-- Rows by slot number. -/
structure Table (α : Type) where
  slots : Array (Option α) := #[]
  deriving DecidableEq, Repr

namespace Table

variable {α : Type}

/-- The number of slots ever taken, which is the slot of the next row. -/
def size (t : Table α) : Nat :=
  t.slots.size

/-- The live row in a slot. -/
def get? (t : Table α) (i : Nat) : Option α :=
  t.slots[i]?.join

/-- Adds a row in the next slot. -/
def push (t : Table α) (a : α) : Table α :=
  ⟨t.slots.push (some a)⟩

/-- Empties a slot. -/
def erase (t : Table α) (i : Nat) : Table α :=
  ⟨t.slots.setIfInBounds i none⟩

/-- Changes the row in a slot, if it is live. -/
def modify (t : Table α) (i : Nat) (change : α → α) : Table α :=
  ⟨t.slots.modify i (Option.map change)⟩

/-- The live rows. -/
def live (t : Table α) : List α :=
  t.slots.toList.filterMap id

/-! ### The view by slot number -/

@[simp] theorem size_empty : (({} : Table α)).size = 0 := rfl

@[simp] theorem get?_empty (i : Nat) : (({} : Table α)).get? i = none := rfl

@[simp] theorem size_push (t : Table α) (a : α) : (t.push a).size = t.size + 1 := by
  simp [size, push]

@[simp] theorem size_erase (t : Table α) (i : Nat) : (t.erase i).size = t.size := by
  simp [size, erase]

@[simp] theorem size_modify (t : Table α) (i : Nat) (f : α → α) : (t.modify i f).size = t.size := by
  simp [size, modify]

/-- Only slots that were taken hold rows. -/
theorem lt_size_of_get? {t : Table α} {i : Nat} {a : α} (h : t.get? i = some a) : i < t.size := by
  unfold get? at h
  by_cases hi : i < t.slots.size
  · exact hi
  · simp [Array.getElem?_eq_none (Nat.le_of_not_lt hi)] at h

theorem get?_push (t : Table α) (a : α) (i : Nat) :
    (t.push a).get? i = if i = t.size then some a else t.get? i := by
  simp only [get?, push, size, Array.getElem?_push]
  split <;> simp_all

theorem get?_erase (t : Table α) (i j : Nat) :
    (t.erase i).get? j = if i = j then none else t.get? j := by
  simp only [get?, erase, Array.getElem?_setIfInBounds]
  split
  · split <;> rfl
  · rfl

theorem get?_modify (t : Table α) (i j : Nat) (f : α → α) :
    (t.modify i f).get? j = if i = j then (t.get? j).map f else t.get? j := by
  simp only [get?, modify, Array.getElem?_modify]
  split
  · rename_i h
    subst h
    cases t.slots[i]? with
    | none => rfl
    | some o => cases o <;> rfl
  · rfl

/-- The live rows are those in some slot. -/
theorem mem_live {t : Table α} {a : α} : a ∈ t.live ↔ ∃ i, t.get? i = some a := by
  simp only [live, get?, List.mem_filterMap, id]
  constructor
  · rintro ⟨o, ho, rfl⟩
    obtain ⟨i, hi⟩ := List.mem_iff_getElem?.1 ho
    exact ⟨i, by rw [← Array.getElem?_toList, hi]; rfl⟩
  · rintro ⟨i, hi⟩
    cases h : t.slots[i]? with
    | none => simp [h] at hi
    | some o =>
      refine ⟨o, ?_, by simpa [h] using hi⟩
      rw [List.mem_iff_getElem?]
      exact ⟨i, by rw [Array.getElem?_toList, h]⟩

@[simp] theorem live_push (t : Table α) (a : α) : (t.push a).live = t.live ++ [a] := by
  simp [live, push]

end Table

end NodeScript
