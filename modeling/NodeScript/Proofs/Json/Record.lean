import Mathlib.Data.List.Forall2
import NodeScript.Proofs.Json.Written

/-!
# Records that are written are read back

What the readers of records, lists and tagged values make of the values that are written for them.
The depth of a value is the number of containers that are open at once in it (`Value.depth`). All of
a value that is made of texts, truth values and nulls only can be read if its depth is allowed
(`IsPlain.fits`); this matters for tagged values, which are read before their kind is known.

Whether data is read back is said by one property of a reader, the data and what was written for it
(`Restores`). Lists, records and directories of texts have it if their parts do.
-/

namespace NodeScript.Json

open List (Forall₂)

/-! ### Fields -/

namespace Fields

variable {α : Type} {k name : String} {v : Value} {ms : List (String × Value)}

theorem find?_cons : (mk ((k, v) :: ms)).find? name =
    if name = k then some v else (mk ms).find? name := by
  by_cases h : name = k
  · simp [find?, h]
  · simp [find?, List.lookup_cons, beq_eq_false_iff_ne.mpr h, h]

@[simp] theorem required_cons {read : Value → Option α} : (mk ((k, v) :: ms)).required name read =
    if name = k then read v else (mk ms).required name read := by
  by_cases h : name = k <;> simp [required, find?_cons, h]

@[simp] theorem optional_cons {missing : α} {read : Value → Option α} :
    (mk ((k, v) :: ms)).optional name missing read =
      if name = k then read v else (mk ms).optional name missing read := by
  by_cases h : name = k <;> simp [optional, find?_cons, h]

end Fields

namespace Value

@[simp] theorem toText?_ofText (s : String) : (ofText s).toText? = some s := rfl

@[simp] theorem toBool?_bool (b : Bool) : (bool b).toBool? = some b := rfl

attribute [simp] IsPlain.null IsPlain.bool

@[simp] theorem isPlain_ofText (s : String) : (ofText s).IsPlain := .text s

/-! ### Depth -/

mutual

/-- How many containers are open at once, at most. -/
def depth : Value → Nat
  | array items => itemsDepth items + 1
  | object members => membersDepth members + 1
  | _ => 0

/-- The greatest depth of an item. -/
def itemsDepth : List Value → Nat
  | [] => 0
  | v :: vs => max v.depth (itemsDepth vs)

/-- The greatest depth of a member. -/
def membersDepth : List (Text × Value) → Nat
  | [] => 0
  | (_, v) :: ms => max v.depth (membersDepth ms)

end

variable {α : Type} {items : List Value} {members : List (Text × Value)}
  {ms : List (String × Value)} {names : List String} {d : Nat}

theorem itemsDepth_le : itemsDepth items ≤ d ↔ ∀ v ∈ items, v.depth ≤ d := by
  induction items with
  | nil => simp [itemsDepth]
  | cons v items ih => rw [itemsDepth, Nat.max_le, ih, List.forall_mem_cons]

theorem membersDepth_le : membersDepth members ≤ d ↔ ∀ m ∈ members, m.2.depth ≤ d := by
  induction members with
  | nil => simp [membersDepth]
  | cons m members ih => rw [membersDepth, Nat.max_le, ih, List.forall_mem_cons]

theorem depth_array_le :
    (array items).depth ≤ d ↔ ∃ inside, d = inside + 1 ∧ ∀ v ∈ items, v.depth ≤ inside := by
  cases d <;> simp [depth, itemsDepth_le]

theorem depth_object_le :
    (object members).depth ≤ d ↔ ∃ inside, d = inside + 1 ∧ ∀ m ∈ members, m.2.depth ≤ inside := by
  cases d <;> simp [depth, membersDepth_le]

theorem depth_ofMembers_le :
    (ofMembers ms).depth ≤ d ↔ ∃ inside, d = inside + 1 ∧ ∀ m ∈ ms, m.2.depth ≤ inside := by
  simp only [ofMembers, depth_object_le, List.forall_mem_map]

/-! ### What fits -/

theorem itemsFit_eq_true : itemsFit d items = true ↔ ∀ v ∈ items, v.fits d = true := by
  induction items with
  | nil => simp [itemsFit]
  | cons v items ih => simp [itemsFit, ih]

theorem membersFit_eq_true :
    membersFit d members = true ↔ ∀ m ∈ members, m.1.isSome ∧ m.2.fits d = true := by
  induction members with
  | nil => simp [membersFit]
  | cons m members ih => simp [membersFit, ih, and_assoc]

/-- Nothing but depth keeps a value without numbers from being read. -/
theorem IsPlain.fits {v : Value} (h : v.IsPlain) (deep : v.depth ≤ d) : v.fits d = true := by
  induction h generalizing d with
  | null => rfl
  | bool b => rfl
  | text s => rfl
  | array h ih =>
    obtain ⟨inside, rfl, within⟩ := depth_array_le.mp deep
    have all := itemsFit_eq_true.mpr fun v hv => ih v hv (within v hv)
    simpa [Value.fits] using all
  | object names values ih =>
    obtain ⟨inside, rfl, within⟩ := depth_object_le.mp deep
    have all := membersFit_eq_true.mpr fun m hm => ⟨names m hm, ih m hm (within m hm)⟩
    simpa [Value.fits] using all

theorem isPlain_ofMembers : (ofMembers ms).IsPlain ↔ ∀ m ∈ ms, m.2.IsPlain := by
  refine ⟨fun h m hm => ?_, fun h => .object (List.forall_mem_map.mpr fun _ _ => rfl)
    (List.forall_mem_map.mpr h)⟩
  cases h with
  | object names values => exact values _ (List.mem_map_of_mem hm)

/-! ### Readers -/

/-- A list is read if each of its elements is. -/
theorem mapM_of_forall₂ {β : Type} {read : β → Option α} {ys : List β} {xs : List α}
    (h : Forall₂ (fun x y => read y = some x) xs ys) : ys.mapM read = some xs := by
  induction h with
  | nil => rfl
  | cons hx _ ih =>
    rw [List.mapM_cons, hx, ih]
    rfl

/-- A list is read back if each of its elements is. -/
theorem mapM_map {β : Type} {write : α → β} {read : β → Option α} {xs : List α}
    (h : ∀ x ∈ xs, read (write x) = some x) : (xs.map write).mapM read = some xs :=
  mapM_of_forall₂ (List.forall₂_map_right_iff.mpr (List.forall₂_same.mpr h))

theorem namedMembers?_map (ms : List (String × Value)) :
    namedMembers? (ms.map fun (k, v) => (some k, v)) = some ms :=
  mapM_map fun _ _ => rfl

/-- The members that are not of known names. -/
theorem filter_not_known (names : List String) (ms : List (String × Value)) :
    (ms.map fun (k, v) => ((some k : Text), v)).filter
        (fun m => !(m.1.elim false names.contains)) =
      (ms.filter fun m => !names.contains m.1).map fun (k, v) => (some k, v) := by
  rw [List.filter_map]
  rfl

/-- The fields of a record are the members of known names. -/
theorem fields?_ofMembers (distinct : ((ms.filter fun m => names.contains m.1).map (·.1)).Nodup) :
    (ofMembers ms).fields? names = some ⟨ms.filter fun m => names.contains m.1⟩ := by
  simp only [ofMembers, fields?, namedMembers?_map]
  exact if_pos distinct

/-- An object that was written with these fields has these fields. -/
theorem fields?_written (written : ms.map (·.1) = names) (distinct : names.Nodup) :
    (ofMembers ms).fields? names = some ⟨ms⟩ := by
  have known : ms.filter (fun m => names.contains m.1) = ms := by
    refine List.filter_eq_self.mpr fun m hm => ?_
    simpa [← written] using ⟨m.2, hm⟩
  rw [fields?_ofMembers (by rwa [known, written]), known]

/-- A record that was written with all its fields is opened. -/
theorem record?_written (written : ms.map (·.1) = names) (distinct : names.Nodup) :
    (ofMembers ms).record? names (d + 1) = some (⟨ms⟩, d) := by
  rw [record?, fields?_written written distinct]
  rfl

/-- A tagged value that was written with its tag first is taken apart. -/
theorem tagged?_written {key tag : String} {tags : List String} {place : TagPlace}
    (known : tag ∈ tags) (other : key ∉ ms.map (·.1))
    (plain : (ofMembers ((key, ofText tag) :: ms)).IsPlain)
    (deep : (ofMembers ((key, ofText tag) :: ms)).depth ≤ d) :
    tagged? key tags place d (ofMembers ((key, ofText tag) :: ms)) = some (tag, ofMembers ms) := by
  have first :
      (((key, ofText tag) :: ms).map fun (k, v) => ((some k : Text), v)).partition
        (fun m => m.1 == some key) =
      ([(some key, ofText tag)], ms.map fun (k, v) => (some k, v)) := by
    have others : ∀ m ∈ ms.map fun (k, v) => ((some k : Text), v), m.1 ≠ some key := by
      rw [List.forall_mem_map]
      intro m hm same
      exact other (List.mem_map.mpr ⟨m, hm, Option.some.inj same⟩)
    rw [List.partition_eq_filter_filter, List.map_cons, List.filter_cons_of_pos (by simp),
      List.filter_cons_of_neg (by simp), List.filter_eq_nil_iff.mpr, List.filter_eq_self.mpr]
    · simpa using others
    · simpa using others
  have htag : tag? tags place (ofText tag) = some tag := by
    simp [tag?, ofText, known]
  rw [ofMembers, tagged?, first]
  simp only [htag, Option.bind_eq_bind, Option.bind_some]
  rw [isPlain_ofMembers, List.forall_mem_cons] at plain
  simp only [depth_ofMembers_le, List.forall_mem_cons] at deep
  obtain ⟨inside, rfl, -, deep⟩ := deep
  exact if_pos ((isPlain_ofMembers.mpr plain.2).fits (depth_ofMembers_le.mpr ⟨inside, rfl, deep⟩))

/-! ### Reading back -/

/-- The value holds no number, its strings denote texts, and it is read as the data at every depth
that allows it. -/
structure Restores (read : Nat → Value → Option α) (a : α) (v : Value) : Prop where
  plain : v.IsPlain
  read : ∀ {d}, v.depth ≤ d → read d v = some a

variable {read : Nat → Value → Option α} {xs : List α}

/-- What is written with members is read back if it can be once the members are allowed their
depths. -/
theorem Restores.ofMembers {a : α} (plain : ∀ m ∈ ms, m.2.IsPlain)
    (reads : ∀ {d}, (∀ m ∈ ms, m.2.depth ≤ d) → read (d + 1) (ofMembers ms) = some a) :
    Restores read a (ofMembers ms) := by
  refine ⟨isPlain_ofMembers.mpr plain, fun deep => ?_⟩
  obtain ⟨inside, rfl, within⟩ := depth_ofMembers_le.mp deep
  exact reads within

/-- A list is read back if each of its elements is. -/
theorem Restores.list (h : Forall₂ (Restores read) xs items) :
    Restores (list? read) xs (array items) := by
  have plain : ∀ v ∈ items, v.IsPlain :=
    ((List.forall₂_and_left _ _).mp (h.flip.imp fun v x hx => ⟨hx.plain, hx⟩)).1
  refine ⟨.array plain, fun deep => ?_⟩
  obtain ⟨inside, rfl, within⟩ := depth_array_le.mp deep
  exact mapM_of_forall₂ (((List.forall₂_and_left _ _).mpr ⟨within, h.flip⟩).flip.imp
    fun x v hx => hx.2.read hx.1)

theorem Restores.list_map {toJson : α → Value} (h : ∀ x, Restores read x (toJson x))
    (xs : List α) : Restores (list? read) xs (array (xs.map toJson)) :=
  .list (List.forall₂_map_right_iff.mpr (List.forall₂_same.mpr fun x _ => h x))

/-- A directory of texts is read back, in whatever order its entries are written. -/
theorem restores_texts? {dir : Directory String} {entries : List (String × String)}
    (h : entries.Perm dir.entries) :
    Restores texts? dir (ofMembers (entries.map fun (k, v) => (k, ofText v))) := by
  have read : (entries.map fun (k, v) => (k, ofText v)).mapM
      (fun m => m.2.toText?.map (m.1, ·)) = some entries := mapM_map fun _ _ => rfl
  refine .ofMembers (List.forall_mem_map.mpr fun e _ => isPlain_ofText e.2) fun _ => ?_
  rw [Value.ofMembers, texts?, namedMembers?_map, Option.bind_eq_bind, Option.bind_some]
  simp only [read, Option.bind_eq_bind, Option.bind_some, Directory.ofList_eq h]
  rfl

end Value

end NodeScript.Json
