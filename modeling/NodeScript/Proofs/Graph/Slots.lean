import NodeScript.Proofs.Graph.Steps

/-!
# Slots are used once

A table only ever takes new slots and empties old ones. A slot that is empty is not filled again
(`Table.Ages`), so an identifier under which nothing is found, although its slot was taken, leads to
nothing for ever (`Ages.run`). What a table holds, and in which order, is determined by what is
found in its slots (`Table.live_congr`).
-/

namespace NodeScript

namespace Table

variable {α ι : Type} {t u v : Table α}

/-! ### Live rows by their slots -/

theorem live_eq_range (t : Table α) : t.live = (List.range t.size).filterMap t.get? := by
  have slots : t.slots.toList = (List.range t.size).map fun i => t.slots[i]?.join := by
    refine List.ext_getElem (by simp [size]) fun i hi hi' => ?_
    simp only [Array.length_toList] at hi
    simp [hi]
  rw [live, slots, List.filterMap_map]
  rfl

/-- Slots beyond the last one that was taken hold nothing. -/
theorem live_eq_range_of_le {k : Nat} (h : t.size ≤ k) :
    t.live = (List.range k).filterMap t.get? := by
  obtain ⟨d, rfl⟩ := Nat.exists_eq_add_of_le h
  have beyond : ∀ i, t.get? (t.size + i) = none := fun i => by
    cases hi : t.get? (t.size + i) with
    | none => rfl
    | some a => exact absurd (lt_size_of_get? hi) (by omega)
  have rest : (List.range d).filterMap (fun i => t.get? (t.size + i)) = [] := by
    simp [beyond]
  rw [List.range_add, List.filterMap_append, List.filterMap_map, ← live_eq_range]
  simpa [Function.comp_def] using rest

/-- Tables whose rows have the same parts in the same slots list these parts in the same order. -/
theorem map_live_congr {β : Type} {part : α → β}
    (h : ∀ i, (t.get? i).map part = (u.get? i).map part) : t.live.map part = u.live.map part := by
  rw [live_eq_range_of_le (Nat.le_max_left t.size u.size),
    live_eq_range_of_le (Nat.le_max_right t.size u.size), List.map_filterMap, List.map_filterMap]
  exact congrArg (List.filterMap · _) (funext h)

/-- Tables with the same rows in the same slots list the same rows, in the same order. -/
theorem live_congr (h : t.get? = u.get?) : t.live = u.live := by
  have rows : t.live.map id = u.live.map id := map_live_congr fun i => by rw [h]
  simpa using rows

/-! ### Tables that grow older -/

/-- The second table has the slots of the first, and those that were empty still are. -/
structure Ages (t u : Table α) : Prop where
  size_le : t.size ≤ u.size
  empty : ∀ {i}, i < t.size → t.get? i = none → u.get? i = none

namespace Ages

theorem refl (t : Table α) : Ages t t :=
  ⟨Nat.le_refl _, fun _ h => h⟩

theorem trans (h : Ages t u) (h' : Ages u v) : Ages t v :=
  ⟨Nat.le_trans h.size_le h'.size_le,
    fun hi none => h'.empty (Nat.lt_of_lt_of_le hi h.size_le) (h.empty hi none)⟩

theorem push (t : Table α) (a : α) : Ages t (t.push a) := by
  refine ⟨by simp, fun hi none => ?_⟩
  rw [get?_push, if_neg (Nat.ne_of_lt hi), none]

theorem erase (t : Table α) (i : Nat) : Ages t (t.erase i) := by
  refine ⟨by simp, fun _ none => ?_⟩
  rw [get?_erase, none, ite_self]

theorem modify (t : Table α) (i : Nat) (change : α → α) : Ages t (t.modify i change) := by
  refine ⟨by simp, fun _ none => ?_⟩
  rw [get?_modify, none, Option.map_none, ite_self]

theorem foldl_erase (index : ι → Nat) (l : List ι) (t : Table α) :
    Ages t (l.foldl (fun t i => t.erase (index i)) t) := by
  induction l generalizing t with
  | nil => exact refl t
  | cons i l ih => exact (erase t _).trans (ih _)

end Ages

end Table

namespace Graph

variable {g g' k : Graph}

/-- Each table of the second graph is an older one of the first. -/
structure Ages (g g' : Graph) : Prop where
  nodes : g.nodes.Ages g'.nodes
  inputs : g.inputs.Ages g'.inputs
  outputs : g.outputs.Ages g'.outputs

namespace Ages

theorem refl (g : Graph) : Ages g g :=
  ⟨.refl _, .refl _, .refl _⟩

theorem trans (h : Ages g k) (h' : Ages k g') : Ages g g' :=
  ⟨h.nodes.trans h'.nodes, h.inputs.trans h'.inputs, h.outputs.trans h'.outputs⟩

theorem modifyNode (g : Graph) (n : NodeId) (change : Node → Node) :
    Ages g (g.modifyNode n change) :=
  ⟨.modify .., .refl _, .refl _⟩

theorem modifyInput (g : Graph) (i : InputId) (change : Input → Input) :
    Ages g (g.modifyInput i change) :=
  ⟨.refl _, .modify .., .refl _⟩

theorem modifyOutput (g : Graph) (o : OutputId) (change : Output → Output) :
    Ages g (g.modifyOutput o change) :=
  ⟨.refl _, .refl _, .modify ..⟩

theorem foldl_unplug (l : List InputId) (g : Graph) : Ages g (l.foldl unplug g) := by
  induction l generalizing g with
  | nil => exact refl g
  | cons i l ih => exact (modifyInput g i _).trans (ih _)

/-- An elementary step takes new slots and empties old ones. -/
theorem step (h : Step g g') : Ages g g' := by
  cases h with
  | @sever i input hi =>
    have unplugged : Ages g (g.unplug i) := modifyInput ..
    cases input.source with
    | none => exact unplugged
    | some o => exact unplugged.trans (modifyOutput ..)
  | clear ho => exact (modifyOutput ..).trans (foldl_unplug ..)
  | link => exact (modifyOutput ..).trans (modifyInput ..)
  | addNode kind => exact ⟨.push .., .refl _, .refl _⟩
  | addInput => exact ⟨.modify .., .push .., .refl _⟩
  | addOutput => exact ⟨.modify .., .refl _, .push ..⟩
  | discard => exact ⟨.erase .., .foldl_erase .., .foldl_erase ..⟩
  | setFallback => exact modifyInput ..
  | rename => exact modifyNode ..
  | setCallee => exact modifyNode ..

/-- Any edits, accepted or refused, take new slots and empty old ones. -/
theorem run (g : Graph) (edits : List Edit) : Ages g (g.run edits) := by
  have steps : ∀ {g g'}, Steps g g' → Ages g g' := fun h => by
    induction h with
    | refl => exact refl _
    | tail _ hstep ih => exact ih.trans (step hstep)
  induction edits generalizing g with
  | nil => exact refl g
  | cons e edits ih => exact (steps (steps_apply g e)).trans (ih _)

end Ages

end Graph

end NodeScript
