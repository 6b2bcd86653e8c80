import Mathlib.Data.Option.Basic
import NodeScript.Catalogue.Json
import NodeScript.Proofs.Text.Bytes

/-!
# What a catalogue shows of its history

A catalogue is filled by entries of functions, of properties and of whole classes, in any order and
with repetitions. It keeps two tables of members for each class, under names that are written beside
the members. This module says what can be seen of such a history (`Catalogue.Records`).

* Each entry writes functions and properties, and mentions one class. A function that is written with
  a class has that class as its owner, and so does every other function
  (`Entry.owner_of_mem_functions`).
* What is found under a class and a name was written last for them (`function?_enterAll`,
  `property?_enterAll`), and the catalogue holds nothing else: histories with the same last writings
  and the same classes make the same catalogue (`enterAll_eq`).
* The members that are found have the name that they are found under. So the listings, which follow
  the names in the tables, follow the names of the members (`Shows`): they are what sorting the members
  by their names makes of them (`Shows.mergeSort_eq`).

Entries that write different members commute (`enterAll_comm`).
-/

namespace NodeScript

variable {α : Type}

/-! ### Listings of a directory -/

namespace Directory

theorem mem_names_iff {d : Directory α} {name : String} :
    name ∈ d.names ↔ ∃ a, d.find? name = some a := by
  simp only [names, List.mem_map, Prod.exists, mem_entries_iff]
  exact ⟨fun ⟨_, a, ha, hn⟩ => ⟨a, hn ▸ ha⟩, fun ⟨a, ha⟩ => ⟨_, a, ha, rfl⟩⟩

theorem mem_values_iff {d : Directory α} {a : α} : a ∈ d.values ↔ ∃ n, d.find? n = some a := by
  simp [values, mem_entries_iff]

/-- A listing shows exactly those of the current members that qualify, each once, in strictly
ascending byte order of their names. -/
structure Shows (name : α → String) (current : String → Option α) (qualifies : α → Prop)
    (listing : List α) : Prop where
  mem_iff : ∀ a, a ∈ listing ↔ current (name a) = some a ∧ qualifies a
  ascending : listing.Pairwise fun a b => Text.utf8 (name a) < Text.utf8 (name b)
  once : listing.Nodup

/-- **Sorting what qualifies by names makes the listing**, in whatever order it is found. -/
theorem Shows.mergeSort_eq {name : α → String} {current : String → Option α}
    {qualifies : α → Prop} {listing found : List α} (shown : Shows name current qualifies listing)
    (same : found.Perm listing) :
    found.mergeSort (fun a b => decide (name a ≤ name b)) = listing := by
  have perm := (List.mergeSort_perm found fun a b => decide (name a ≤ name b)).trans same
  have sorted : (found.mergeSort fun a b => decide (name a ≤ name b)).Pairwise
      fun a b => decide (name a ≤ name b) = true := by
    refine List.pairwise_mergeSort (fun a b c => ?_) (fun a b => ?_) found
    · simpa using String.le_trans
    · simpa using String.le_total (name a) (name b)
  refine List.Perm.eq_of_pairwise (fun a b ha hb le ge => ?_) sorted
    (shown.ascending.imp fun less => ?_) perm
  · -- Members of one name are the one that is found under it.
    have current := ((shown.mem_iff a).mp (perm.mem_iff.mp ha)).1
    rw [String.le_antisymm (of_decide_eq_true le) (of_decide_eq_true ge),
      ((shown.mem_iff b).mp hb).1] at current
    exact (Option.some.inj current).symm
  · have less := Text.lt_iff_utf8_lt.mpr less
    exact decide_eq_true fun greater => String.lt_irrefl _ (String.lt_trans less greater)

/-- If the entries have the names that they are found under, the values that qualify are listed by
these names. -/
theorem shows_values {d : Directory α} {name : α → String}
    (named : ∀ n a, d.find? n = some a → name a = n) {p : α → Bool} :
    Shows name d.find? (p · = true) (d.values.filter p) := by
  have ascending : (d.values.filter p).Pairwise fun a b => name a < name b := by
    refine List.Pairwise.filter _ (List.pairwise_map.mpr ?_)
    refine d.ascending.imp_of_mem fun {v w} hv hw less => ?_
    rwa [named _ _ (mem_entries_iff.mp hv), named _ _ (mem_entries_iff.mp hw)]
  refine ⟨fun a => ?_, ascending.imp Text.lt_iff_utf8_lt.mp, ascending.imp ?_⟩
  · rw [List.mem_filter, mem_values_iff]
    refine and_congr_left fun _ => ⟨fun ⟨n, h⟩ => ?_, fun h => ⟨_, h⟩⟩
    rwa [named n a h]
  · rintro a b less rfl
    exact String.lt_irrefl _ less

end Directory

namespace Catalogue

open Directory (Shows)

/-! ### Histories -/

/-- One way to enter something into a catalogue. -/
inductive Entry
  | function (f : FunctionDecl)
  | property (className : String) (p : PropertyDecl)
  | ofClass (d : ClassDecl)

/-- Enters something. -/
def enter (c : Catalogue) : Entry → Catalogue
  | .function f => c.addFunction f
  | .property className p => c.addProperty className p
  | .ofClass d => c.addClass d

/-- The catalogue that a history makes of nothing. -/
def enterAll (es : List Entry) : Catalogue :=
  es.foldl enter {}

namespace Entry

/-- The class that an entry mentions. -/
def className : Entry → String
  | .function f => f.owner
  | .property className _ => className
  | .ofClass d => d.name

/-- The functions that an entry writes, each with its class. -/
def functions : Entry → List (String × FunctionDecl)
  | .function f => [(f.owner, f)]
  | .property _ _ => []
  | .ofClass d => d.functions.map fun f => (d.name, { f with owner := d.name })

/-- The properties that an entry writes, each with its class. -/
def properties : Entry → List (String × PropertyDecl)
  | .function _ => []
  | .property className p => [(className, p)]
  | .ofClass d => d.properties.map fun p => (d.name, p)

theorem owner_of_mem_functions {e : Entry} {w : String × FunctionDecl} (h : w ∈ e.functions) :
    w.2.owner = w.1 := by
  cases e with
  | function f =>
    obtain rfl : w = (f.owner, f) := by simpa [functions] using h
    rfl
  | property => exact absurd h List.not_mem_nil
  | ofClass d =>
    obtain ⟨f, -, rfl⟩ := List.mem_map.mp h
    rfl

/-- The two entries write different members: no function of one has the class and the name of a
function of the other, and no property those of a property. -/
def Apart (e₁ e₂ : Entry) : Prop :=
  (∀ v ∈ e₁.functions, ∀ w ∈ e₂.functions, ¬ (v.1 = w.1 ∧ v.2.name = w.2.name)) ∧
    ∀ v ∈ e₁.properties, ∀ w ∈ e₂.properties, ¬ (v.1 = w.1 ∧ v.2.name = w.2.name)

end Entry

/-! ### The last writing -/

section Last

variable {name : α → String} {writes writes' : List (String × α)} {className n : String} {a : α}

/-- The last member that was written for a class under a name. -/
def last? (name : α → String) (writes : List (String × α)) (className n : String) : Option α :=
  ((writes.filter fun w => w.1 = className ∧ name w.2 = n).getLast?).map (·.2)

theorem last?_singleton (w : String × α) : last? name [w] className n =
    if w.1 = className ∧ name w.2 = n then some w.2 else none := by
  by_cases h : w.1 = className ∧ name w.2 = n <;> simp [last?, h]

theorem last?_append : last? name (writes ++ writes') className n =
    (last? name writes' className n).or (last? name writes className n) := by
  rw [last?, List.filter_append, List.getLast?_append, Option.map_or, last?, last?]

theorem last?_cons (w : String × α) : last? name (w :: writes) className n =
    (last? name writes className n).or
      (if w.1 = className ∧ name w.2 = n then some w.2 else none) := by
  rw [← last?_singleton, ← last?_append, List.singleton_append]

/-- What was written last was written for the class and under the name. -/
theorem mem_of_last?_eq_some (h : last? name writes className n = some a) :
    (className, a) ∈ writes ∧ name a = n := by
  obtain ⟨w, hw, rfl⟩ := Option.map_eq_some_iff.mp h
  obtain ⟨hm, rfl, hn⟩ : w ∈ writes ∧ w.1 = className ∧ name w.2 = n := by
    simpa using List.mem_of_getLast? hw
  exact ⟨hm, hn⟩

/-- Writings of different members do not hide each other. -/
theorem last?_or_comm
    (apart : ∀ v ∈ writes, ∀ w ∈ writes', ¬ (v.1 = w.1 ∧ name v.2 = name w.2)) :
    (last? name writes className n).or (last? name writes' className n) =
      (last? name writes' className n).or (last? name writes className n) := by
  cases h : last? name writes className n with
  | none => simp
  | some a =>
    cases h' : last? name writes' className n with
    | none => rfl
    | some a' =>
      obtain ⟨hm, rfl⟩ := mem_of_last?_eq_some h
      obtain ⟨hm', hn⟩ := mem_of_last?_eq_some h'
      exact absurd ⟨rfl, hn.symm⟩ (apart _ hm _ hm')

/-- Writings of different members can be made in either order. -/
theorem last?_swap (before after : List (String × α))
    (apart : ∀ v ∈ writes, ∀ w ∈ writes', ¬ (v.1 = w.1 ∧ name v.2 = name w.2)) :
    last? name (before ++ (writes ++ (writes' ++ after))) className n =
      last? name (before ++ (writes' ++ (writes ++ after))) className n := by
  simp only [last?_append, Option.or_assoc]
  congr 1
  rw [← Option.or_assoc, ← last?_or_comm apart, Option.or_assoc]

end Last

/-! ### What an entry does -/

section Step

variable {c : Catalogue} {className n : String}

theorem mem_classNames_modify {owner : String} {change : Members → Members} :
    className ∈ (c.modify owner change).classNames ↔
      owner = className ∨ className ∈ c.classNames := by
  simp only [classNames, Directory.mem_names_iff, modify, Directory.find?_insert]
  split <;> simp_all

theorem mem_classNames_foldl {β : Type} {step : Catalogue → β → Catalogue} {owner : String}
    (mentions : ∀ c b, className ∈ (step c b).classNames ↔
      owner = className ∨ className ∈ c.classNames) (bs : List β) :
    (owner = className ∨ className ∈ (bs.foldl step c).classNames) ↔
      owner = className ∨ className ∈ c.classNames := by
  induction bs generalizing c with
  | nil => rfl
  | cons b bs ih => rw [List.foldl_cons, ih, mentions, ← or_assoc, or_self]

/-- An entry mentions its class and no other. -/
theorem mem_classNames_enter {e : Entry} :
    className ∈ (c.enter e).classNames ↔ e.className = className ∨ className ∈ c.classNames := by
  cases e with
  | function f => exact mem_classNames_modify
  | property owner p => exact mem_classNames_modify
  | ofClass d =>
    show className ∈ (c.addClass d).classNames ↔ d.name = className ∨ _
    rw [addClass, mem_classNames_modify,
      mem_classNames_foldl fun c p => by rw [addProperty, mem_classNames_modify],
      mem_classNames_foldl fun c f => by rw [addFunction, mem_classNames_modify]]

@[simp] theorem function?_addProperty (owner : String) (p : PropertyDecl) :
    (c.addProperty owner p).function? className n = c.function? className n := by
  simp only [function?, addProperty, members_modify]
  split
  · next h => rw [h]
  · rfl

@[simp] theorem property?_addFunction (f : FunctionDecl) :
    (c.addFunction f).property? className n = c.property? className n := by
  simp only [property?, addFunction, members_modify]
  split
  · next h => rw [h]
  · rfl

@[simp] theorem members_modify_id (owner : String) :
    (c.modify owner id).members className = c.members className := by
  rw [members_modify]
  split
  · next h => rw [h, id]
  · rfl

theorem function?_foldl_addFunction (owner : String) (fs : List FunctionDecl) :
    (fs.foldl (fun c f => c.addFunction { f with owner }) c).function? className n =
      (last? (·.name) (fs.map fun f => (owner, { f with owner })) className n).or
        (c.function? className n) := by
  induction fs generalizing c with
  | nil => rfl
  | cons f fs ih =>
    rw [List.foldl_cons, ih, List.map_cons, last?_cons, Option.or_assoc, function?_addFunction]
    congr 1
    split <;> rfl

theorem property?_foldl_addProperty (owner : String) (ps : List PropertyDecl) :
    (ps.foldl (fun c p => c.addProperty owner p) c).property? className n =
      (last? (·.name) (ps.map fun p => (owner, p)) className n).or (c.property? className n) := by
  induction ps generalizing c with
  | nil => rfl
  | cons p ps ih =>
    rw [List.foldl_cons, ih, List.map_cons, last?_cons, Option.or_assoc, property?_addProperty]
    congr 1
    split <;> rfl

theorem function?_foldl_addProperty (owner : String) (ps : List PropertyDecl) :
    (ps.foldl (fun c p => c.addProperty owner p) c).function? className n =
      c.function? className n := by
  induction ps generalizing c with
  | nil => rfl
  | cons p ps ih => rw [List.foldl_cons, ih, function?_addProperty]

theorem property?_foldl_addFunction (owner : String) (fs : List FunctionDecl) :
    (fs.foldl (fun c f => c.addFunction { f with owner }) c).property? className n =
      c.property? className n := by
  induction fs generalizing c with
  | nil => rfl
  | cons f fs ih => rw [List.foldl_cons, ih, property?_addFunction]

/-- The functions of an entry are found instead of earlier ones. -/
theorem function?_enter (e : Entry) : (c.enter e).function? className n =
    (last? (·.name) e.functions className n).or (c.function? className n) := by
  cases e with
  | function f =>
    rw [enter, function?_addFunction, Entry.functions, last?_singleton]
    split <;> rfl
  | property owner p => exact function?_addProperty owner p
  | ofClass d =>
    rw [enter, addClass, function?, members_modify_id, ← function?, function?_foldl_addProperty,
      function?_foldl_addFunction, Entry.functions]

/-- The properties of an entry are found instead of earlier ones. -/
theorem property?_enter (e : Entry) : (c.enter e).property? className n =
    (last? (·.name) e.properties className n).or (c.property? className n) := by
  cases e with
  | function f => exact property?_addFunction f
  | property owner p =>
    rw [enter, property?_addProperty, Entry.properties, last?_singleton]
    split <;> rfl
  | ofClass d =>
    rw [enter, addClass, property?, members_modify_id, ← property?, property?_foldl_addProperty,
      property?_foldl_addFunction, Entry.properties]

end Step

/-! ### What a history does -/

section Run

variable (es : List Entry) (className n : String)

theorem mem_classNames_foldl_enter {c : Catalogue} :
    className ∈ (es.foldl enter c).classNames ↔
      (∃ e ∈ es, e.className = className) ∨ className ∈ c.classNames := by
  induction es generalizing c with
  | nil => simp
  | cons e es ih =>
    simp only [List.foldl_cons, ih, mem_classNames_enter, List.mem_cons, exists_eq_or_imp]
    rw [or_left_comm, or_assoc]

theorem function?_foldl_enter {c : Catalogue} : (es.foldl enter c).function? className n =
    (last? (·.name) (es.flatMap Entry.functions) className n).or (c.function? className n) := by
  induction es generalizing c with
  | nil => rfl
  | cons e es ih =>
    rw [List.foldl_cons, ih, function?_enter, List.flatMap_cons, last?_append, Option.or_assoc]

theorem property?_foldl_enter {c : Catalogue} : (es.foldl enter c).property? className n =
    (last? (·.name) (es.flatMap Entry.properties) className n).or
      (c.property? className n) := by
  induction es generalizing c with
  | nil => rfl
  | cons e es ih =>
    rw [List.foldl_cons, ih, property?_enter, List.flatMap_cons, last?_append, Option.or_assoc]

/-- The classes are those that were mentioned. -/
theorem mem_classNames_enterAll :
    className ∈ (enterAll es).classNames ↔ ∃ e ∈ es, e.className = className := by
  have unmentioned : className ∉ ({} : Catalogue).classNames := List.not_mem_nil
  rw [enterAll, mem_classNames_foldl_enter, or_iff_left unmentioned]

/-- The function that was written last is found. -/
theorem function?_enterAll : (enterAll es).function? className n =
    last? (·.name) (es.flatMap Entry.functions) className n :=
  (function?_foldl_enter es className n).trans Option.or_none

/-- The property that was written last is found. -/
theorem property?_enterAll : (enterAll es).property? className n =
    last? (·.name) (es.flatMap Entry.properties) className n :=
  (property?_foldl_enter es className n).trans Option.or_none

end Run

/-- Catalogues with the same classes in which the same is found are equal. -/
theorem ext_found {c c' : Catalogue}
    (mentioned : ∀ className, className ∈ c.classNames ↔ className ∈ c'.classNames)
    (functions : ∀ className n, c.function? className n = c'.function? className n)
    (properties : ∀ className n, c.property? className n = c'.property? className n) : c = c' := by
  have members (className : String) : c.members className = c'.members className := by
    have hf : (c.members className).functions = (c'.members className).functions :=
      Directory.ext_find? (functions className)
    have hp : (c.members className).properties = (c'.members className).properties :=
      Directory.ext_find? (properties className)
    show Members.mk (c.members className).functions (c.members className).properties = _
    rw [hf, hp]
  refine congrArg Catalogue.mk (Directory.ext_find? fun className => ?_)
  have same := members className
  have present := mentioned className
  simp only [classNames, Directory.mem_names_iff] at present
  simp only [Catalogue.members] at same
  cases h : c.classes.find? className <;> cases h' : c'.classes.find? className <;> simp_all

/-- **Histories make the same catalogue if they mention the same classes and wrote the same last.** -/
theorem enterAll_eq {es es' : List Entry}
    (mentioned : ∀ className, (∃ e ∈ es, e.className = className) ↔ ∃ e ∈ es', e.className = className)
    (functions : ∀ className n, last? (·.name) (es.flatMap Entry.functions) className n =
      last? (·.name) (es'.flatMap Entry.functions) className n)
    (properties : ∀ className n, last? (·.name) (es.flatMap Entry.properties) className n =
      last? (·.name) (es'.flatMap Entry.properties) className n) :
    enterAll es = enterAll es' := by
  refine ext_found (fun className => ?_) (fun className n => ?_) fun className n => ?_
  · rw [mem_classNames_enterAll, mem_classNames_enterAll, mentioned]
  · rw [function?_enterAll, function?_enterAll, functions]
  · rw [property?_enterAll, property?_enterAll, properties]

/-- Entries that write different members commute. -/
theorem enterAll_comm (before after : List Entry) {e₁ e₂ : Entry} (apart : e₁.Apart e₂) :
    enterAll (before ++ e₁ :: e₂ :: after) = enterAll (before ++ e₂ :: e₁ :: after) := by
  refine enterAll_eq (fun className => ?_) (fun className n => ?_) fun className n => ?_
  · have perm : (before ++ e₁ :: e₂ :: after).Perm (before ++ e₂ :: e₁ :: after) :=
      (List.Perm.swap _ _ _).append_left _
    simp only [perm.mem_iff]
  · simpa only [List.flatMap_append, List.flatMap_cons] using last?_swap _ _ apart.1
  · simpa only [List.flatMap_append, List.flatMap_cons] using last?_swap _ _ apart.2

/-! ### What can be seen -/

/-- The catalogue shows the history: what was written last is found, with the class and the name that
it is found under, and every listing shows exactly what there is, in ascending byte order. -/
structure Records (c : Catalogue) (es : List Entry) : Prop where
  function?_eq : ∀ className n,
    c.function? className n = last? (·.name) (es.flatMap Entry.functions) className n
  property?_eq : ∀ className n,
    c.property? className n = last? (·.name) (es.flatMap Entry.properties) className n
  function_keys : ∀ className n f, c.function? className n = some f →
    f.owner = className ∧ f.name = n
  property_name : ∀ className n p, c.property? className n = some p → p.name = n
  mem_classNames : ∀ className, className ∈ c.classNames ↔ ∃ e ∈ es, e.className = className
  classNames_ascending : c.classNames.Pairwise (Text.utf8 · < Text.utf8 ·)
  callables : ∀ className, Shows FunctionDecl.name (c.function? className)
    (fun f => f.flags.callable ∧ ¬ f.flags.event) (c.callables className)
  events : ∀ className, Shows FunctionDecl.name (c.function? className)
    (fun f => f.flags.event) (c.events className)
  editableProperties : ∀ className, Shows PropertyDecl.name (c.property? className)
    (fun p => p.editable) (c.editableProperties className)
  apart : ∀ className, ∀ f ∈ c.callables className, ∀ g ∈ c.events className, f.name ≠ g.name

theorem records_enterAll (es : List Entry) : Records (enterAll es) es := by
  have keys (className n : String) (f : FunctionDecl)
      (h : (enterAll es).function? className n = some f) : f.owner = className ∧ f.name = n := by
    rw [function?_enterAll] at h
    obtain ⟨written, hn⟩ := mem_of_last?_eq_some h
    obtain ⟨e, -, he⟩ := List.mem_flatMap.mp written
    exact ⟨Entry.owner_of_mem_functions he, hn⟩
  have property (className n : String) (p : PropertyDecl)
      (h : (enterAll es).property? className n = some p) : p.name = n :=
    (mem_of_last?_eq_some (property?_enterAll es className n ▸ h)).2
  have named (className n : String) (f : FunctionDecl)
      (h : (enterAll es).function? className n = some f) : f.name = n := (keys className n f h).2
  have callables (className : String) : Shows FunctionDecl.name ((enterAll es).function? className)
      (fun f => f.flags.callable ∧ ¬ f.flags.event) ((enterAll es).callables className) := by
    have shown := Directory.shows_values (named className)
      (p := fun f => f.flags.callable && !f.flags.event)
    exact ⟨fun f => (shown.mem_iff f).trans (and_congr_right fun _ => by simp), shown.ascending,
      shown.once⟩
  have events (className : String) : Shows FunctionDecl.name ((enterAll es).function? className)
      (fun f => f.flags.event) ((enterAll es).events className) :=
    Directory.shows_values (named className)
  refine ⟨function?_enterAll es, property?_enterAll es, keys, property, mem_classNames_enterAll es,
    ?_, callables, events, fun className => Directory.shows_values (property className), ?_⟩
  · exact List.pairwise_map.mpr ((enterAll es).classes.ascending.imp Text.lt_iff_utf8_lt.mp)
  · intro className f hf g hg same
    obtain ⟨current, -, noEvent⟩ := ((callables className).mem_iff f).mp hf
    obtain ⟨current', event⟩ := ((events className).mem_iff g).mp hg
    rw [← same, current] at current'
    cases current'
    exact noEvent event

/-! ### Catalogues that are read -/

/-- The classes that a record lists, in their order. -/
def listed? (v : Json.Value) : Option (List ClassDecl) := do
  let (fields, depth) ← v.record? ["classes"] Json.maxDepth
  fields.optional "classes" [] (Json.Value.list? ClassDecl.ofJson? depth)

theorem ofClasses_eq (ds : List ClassDecl) : ofClasses ds = enterAll (ds.map .ofClass) := by
  rw [ofClasses, enterAll, List.foldl_map]
  rfl

/-- A catalogue is read by entering the classes that are listed. -/
theorem ofJson?_eq (v : Json.Value) :
    ofJson? v = (listed? v).map fun ds => enterAll (ds.map .ofClass) := by
  simp only [← ofClasses_eq]
  rw [ofJson?, listed?]
  cases v.record? ["classes"] Json.maxDepth with
  | none => rfl
  | some fields => exact (Option.map_eq_bind ..).symm

/-- **A catalogue shows the last of everything that was entered**, whether it is filled step by step
or read from a list of classes, and entries that write different members commute. -/
theorem shows_last_entries :
    (∀ es : List Entry, Records (enterAll es) es) ∧
    (∀ text, parse? text = ((Json.Value.parse? text).bind listed?).map fun ds =>
      enterAll (ds.map .ofClass)) ∧
    ∀ before after (e₁ e₂ : Entry), e₁.Apart e₂ →
      enterAll (before ++ e₁ :: e₂ :: after) = enterAll (before ++ e₂ :: e₁ :: after) := by
  refine ⟨records_enterAll, fun text => ?_, fun before after _ _ => enterAll_comm before after⟩
  rw [parse?, Option.map_bind]
  exact congrArg _ (funext ofJson?_eq)

end Catalogue

end NodeScript
