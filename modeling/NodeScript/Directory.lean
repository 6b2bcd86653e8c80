/-!
# Directories

Finite maps from names to values that list themselves in the order of their names. The order is
that of the code points, which is also the byte order of UTF-8.

The entries are kept strictly ascending, so a directory is determined by what it holds under each
name (`Directory.ext_find?`). Its entries make it again, in whatever order they are entered
(`Directory.ofList_eq`).
-/

namespace NodeScript

/-- A finite map from names to values, with its entries in ascending order of their names. -/
structure Directory (α : Type) where
  entries : List (String × α)
  ascending : entries.Pairwise (·.1 < ·.1)
  deriving DecidableEq, Repr

namespace Directory

variable {α : Type}

/-- The directory without entries. -/
def empty : Directory α :=
  ⟨[], .nil⟩

/-- What a list of entries holds under a name. -/
def findIn (name : String) : List (String × α) → Option α
  | [] => none
  | (n, v) :: rest => if n = name then some v else findIn name rest

/-- Puts an entry in its place, instead of an entry of that name if there is one. -/
def insertIn (name : String) (value : α) : List (String × α) → List (String × α)
  | [] => [(name, value)]
  | (n, v) :: rest =>
    if name < n then (name, value) :: (n, v) :: rest
    else if name = n then (name, value) :: rest
    else (n, v) :: insertIn name value rest

theorem mem_insertIn {name : String} {value : α} {e : String × α} {l : List (String × α)}
    (h : e ∈ insertIn name value l) : e = (name, value) ∨ e ∈ l := by
  induction l with
  | nil => simpa [insertIn] using h
  | cons d l ih =>
    obtain ⟨n, v⟩ := d
    simp only [insertIn] at h
    split at h
    · simpa using h
    · split at h
      · rcases List.mem_cons.1 h with h | h
        · exact .inl h
        · exact .inr (.tail _ h)
      · rcases List.mem_cons.1 h with h | h
        · exact .inr (h ▸ .head _)
        · exact (ih h).imp id (.tail _)

theorem ascending_insertIn (name : String) (value : α) {l : List (String × α)}
    (h : l.Pairwise (·.1 < ·.1)) : (insertIn name value l).Pairwise (·.1 < ·.1) := by
  induction l with
  | nil => simp [insertIn]
  | cons d l ih =>
    obtain ⟨n, v⟩ := d
    have hd := List.pairwise_cons.1 h
    simp only [insertIn]
    split
    · rename_i hlt
      refine List.pairwise_cons.2 ⟨fun e he => ?_, h⟩
      rcases List.mem_cons.1 he with rfl | he
      · exact hlt
      · exact String.lt_trans hlt (hd.1 e he)
    · split
      · rename_i heq
        exact List.pairwise_cons.2 ⟨fun e he => heq ▸ hd.1 e he, hd.2⟩
      · rename_i hlt hne
        refine List.pairwise_cons.2 ⟨fun e he => ?_, ih hd.2⟩
        rcases mem_insertIn he with rfl | he
        · have hle : n ≤ name := String.not_lt.1 hlt
          exact Decidable.byContradiction fun hn =>
            hne (String.le_antisymm (String.not_lt.1 hn) hle)
        · exact hd.1 e he

/-- What the directory holds under a name. -/
def find? (d : Directory α) (name : String) : Option α :=
  findIn name d.entries

/-- Enters a value under a name, instead of what was there. -/
def insert (d : Directory α) (name : String) (value : α) : Directory α :=
  ⟨insertIn name value d.entries, ascending_insertIn name value d.ascending⟩

/-- The directory of a list of entries; the last of several entries of one name counts. -/
def ofList (l : List (String × α)) : Directory α :=
  l.foldl (fun d e => d.insert e.1 e.2) empty

/-- The names, ascending. -/
def names (d : Directory α) : List String :=
  d.entries.map (·.1)

/-- The values, in the order of their names. -/
def values (d : Directory α) : List α :=
  d.entries.map (·.2)

/-- Is there an entry of this name? -/
def contains (d : Directory α) (name : String) : Bool :=
  (d.find? name).isSome

/-! ### What is found -/

@[simp] theorem find?_empty (name : String) : (empty : Directory α).find? name = none := rfl

theorem findIn_insertIn (name other : String) (value : α) (l : List (String × α)) :
    findIn other (insertIn name value l) = if name = other then some value else findIn other l := by
  induction l with
  | nil => rfl
  | cons d l ih =>
    obtain ⟨n, v⟩ := d
    simp only [insertIn]
    split
    · rfl
    · split
      · rename_i heq
        subst heq
        simp only [findIn]
        split <;> simp_all
      · rename_i hne
        simp only [findIn, ih]
        split
        · rename_i hn
          subst hn
          simp [hne]
        · rfl

/-- After an entry its value is found under its name, and other names find what they did. -/
theorem find?_insert (d : Directory α) (name other : String) (value : α) :
    (d.insert name value).find? other = if name = other then some value else d.find? other :=
  findIn_insertIn name other value d.entries

theorem findIn_eq_none {name : String} {l : List (String × α)} (h : ∀ e ∈ l, name < e.1) :
    findIn name l = none := by
  induction l with
  | nil => rfl
  | cons d l ih =>
    have hlt := h d (.head _)
    have hne : d.1 ≠ name := fun he => String.lt_irrefl _ (he ▸ hlt)
    simp only [findIn, if_neg hne]
    exact ih fun e he => h e (.tail _ he)

theorem eq_of_findIn_eq {l m : List (String × α)} (hl : l.Pairwise (·.1 < ·.1))
    (hm : m.Pairwise (·.1 < ·.1)) (h : ∀ n, findIn n l = findIn n m) : l = m := by
  induction l generalizing m with
  | nil =>
    cases m with
    | nil => rfl
    | cons d m => simpa [findIn] using h d.1
  | cons c l ih =>
    cases m with
    | nil => simpa [findIn] using h c.1
    | cons d m =>
      have hc := List.pairwise_cons.1 hl
      have hd := List.pairwise_cons.1 hm
      have hnot : ¬ c.1 < d.1 := fun hlt => by
        have hn : findIn c.1 (d :: m) = none := findIn_eq_none fun e he => by
          rcases List.mem_cons.1 he with rfl | he
          · exact hlt
          · exact String.lt_trans hlt (hd.1 e he)
        have := h c.1
        rw [hn] at this
        simp [findIn] at this
      have hnot' : ¬ d.1 < c.1 := fun hlt => by
        have hn : findIn d.1 (c :: l) = none := findIn_eq_none fun e he => by
          rcases List.mem_cons.1 he with rfl | he
          · exact hlt
          · exact String.lt_trans hlt (hc.1 e he)
        have := h d.1
        rw [hn] at this
        simp [findIn] at this
      have hname : c.1 = d.1 := String.le_antisymm (String.not_lt.1 hnot') (String.not_lt.1 hnot)
      have hvalue : c.2 = d.2 := by simpa [findIn, hname] using h c.1
      have hcd : c = d := Prod.ext hname hvalue
      subst hcd
      rw [ih hc.2 hd.2 fun n => ?_]
      by_cases hn : c.1 = n
      · rw [findIn_eq_none fun e he => hn ▸ hc.1 e he, findIn_eq_none fun e he => hn ▸ hd.1 e he]
      · simpa [findIn, hn] using h n

/-- Directories that hold the same under every name are equal. -/
theorem ext_find? {d e : Directory α} (h : ∀ name, d.find? name = e.find? name) : d = e := by
  cases d with | mk l hl =>
  cases e with | mk m hm =>
  have : l = m := eq_of_findIn_eq hl hm h
  subst this
  rfl

/-- In a list of entries of different names, each is found. -/
theorem findIn_eq_some_iff {l : List (String × α)} (distinct : (l.map (·.1)).Nodup)
    {name : String} {value : α} : findIn name l = some value ↔ (name, value) ∈ l := by
  induction l with
  | nil => simp [findIn]
  | cons c l ih =>
    obtain ⟨n, v⟩ := c
    rw [List.map_cons, List.nodup_cons] at distinct
    simp only [findIn, List.mem_cons, Prod.mk.injEq]
    by_cases hn : n = name
    · subst n
      have absent : (name, value) ∉ l := fun hmem =>
        distinct.1 (List.mem_map_of_mem (f := (·.1)) hmem)
      simp [absent, eq_comm]
    · simpa [hn, Ne.symm hn] using ih distinct.2

/-- The entries have different names. -/
theorem nodup_names (d : Directory α) : (d.entries.map (·.1)).Nodup :=
  List.pairwise_map.mpr (d.ascending.imp fun h => String.ne_of_lt h)

/-- The entries are exactly the names found with their values. -/
theorem mem_entries_iff {d : Directory α} {name : String} {value : α} :
    (name, value) ∈ d.entries ↔ d.find? name = some value :=
  (findIn_eq_some_iff d.nodup_names).symm

/-! ### Entering a list -/

/-- Entries of different names are found after they were entered, and names that they do not have
find what they did. -/
theorem find?_foldl_insert {l : List (String × α)} (distinct : (l.map (·.1)).Nodup)
    (d : Directory α) (name : String) :
    (l.foldl (fun d e => d.insert e.1 e.2) d).find? name = (findIn name l <|> d.find? name) := by
  induction l generalizing d with
  | nil => rfl
  | cons c l ih =>
    obtain ⟨n, v⟩ := c
    rw [List.map_cons, List.nodup_cons] at distinct
    rw [List.foldl_cons, ih distinct.2, find?_insert]
    by_cases hn : n = name
    · subst n
      have absent : findIn name l = none := by
        refine Option.eq_none_iff_forall_ne_some.mpr fun w hw => distinct.1 ?_
        exact List.mem_map_of_mem (f := (·.1)) ((findIn_eq_some_iff distinct.2).mp hw)
      simp [findIn, absent]
    · simp [findIn, hn]

/-- **The entries of a directory make it**, in whatever order they are listed. -/
theorem ofList_eq {d : Directory α} {l : List (String × α)} (h : l.Perm d.entries) :
    ofList l = d := by
  have distinct : (l.map (·.1)).Nodup := (h.map _).nodup_iff.mpr d.nodup_names
  refine ext_find? fun name => Option.ext fun value => ?_
  rw [ofList, find?_foldl_insert distinct, find?_empty, ← mem_entries_iff, ← h.mem_iff,
    ← findIn_eq_some_iff distinct]
  simp

end Directory

end NodeScript
