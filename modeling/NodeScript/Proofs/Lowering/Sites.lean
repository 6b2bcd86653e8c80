import NodeScript.Proofs.Lowering.Declared
import NodeScript.Proofs.Script.Printed

/-!
# Where assignments stand

A block may set member variables right behind a call, and at the start of the body of a loop. The
sites of a block are its calls and loops, in the order of the text, each with the assignments that
stand there (`Block.sites`). In the text, the lines of a site follow each other without a gap
(`Block.infix_of_mem_sites`), so that those of the assignments are at known places
(`EventScript.exists_siteAt`).
-/

namespace NodeScript

/-- What the lines of a site are: that of a call or those that open a loop, and then those of the
assignments, in the body of the loop one level further in. -/
def Setter.marksWith (k : Nat) (l : List Assignment) : Setter → List (Nat × Mark)
  | .call st => (k, .statement (.call st)) :: l.map fun a => (k, .assignment a)
  | .loop header =>
    (k, .statement (.loop header)) :: (k, .opening) :: l.map fun a => (k + 1, .assignment a)

namespace Block

/-- The assignments that a block starts with, before it does anything else. -/
def leading : Block → List Assignment
  | assign a rest => a :: rest.leading
  | done | call _ _ | branch _ _ _ _ _ | loop _ _ _ => []

/-- The calls and loops of a block in the order of its text, each with the assignments right behind
the call or at the start of the body. -/
def sites : Block → List (Setter × List Assignment)
  | done => []
  | call st rest => (.call st, rest.leading) :: rest.sites
  | assign _ rest => rest.sites
  | branch _ _ t f rest => t.sites ++ (f.sites ++ rest.sites)
  | loop header body rest => (.loop header, body.leading) :: (body.sites ++ rest.sites)

variable {a b : Block} {x : Setter} {l : List Assignment}

/-! ### Laws -/

@[simp] theorem assignments_append (a b : Block) :
    (a ++ b).assignments = a.assignments ++ b.assignments := by
  show (a.append b).assignments = a.assignments ++ b.assignments
  induction a <;> simp_all [append, assignments]

@[simp] theorem assignments_calls (ss : List CallStatement) : (calls ss).assignments = [] := by
  induction ss with
  | nil => rfl
  | cons s ss ih => simpa [calls, assignments] using ih

@[simp] theorem assignments_assigns (l : List Assignment) : (assigns l).assignments = l := by
  induction l with
  | nil => rfl
  | cons a l ih => simpa [assigns, assignments] using ih

@[simp] theorem leading_calls (ss : List CallStatement) : (calls ss).leading = [] := by
  cases ss <;> rfl

/-- What comes behind assignments may start with more of them. -/
theorem leading_assigns_append (l : List Assignment) (b : Block) :
    (assigns l ++ b).leading = l ++ b.leading := by
  induction l with
  | nil => rfl
  | cons a l ih => exact congrArg (a :: ·) ih

/-- What comes behind a block adds no leading assignments, if it starts with none. -/
theorem leading_append (hb : b.leading = []) (a : Block) : (a ++ b).leading = a.leading := by
  show (a.append b).leading = a.leading
  induction a with
  | done => exact hb
  | assign a rest ih => exact congrArg (a :: ·) ih
  | call | branch | loop => rfl

/-- The sites of one block after the other, if the second starts with no assignments. -/
theorem sites_append (hb : b.leading = []) (a : Block) : (a ++ b).sites = a.sites ++ b.sites := by
  have leading := leading_append hb
  change ∀ a : Block, (a.append b).leading = a.leading at leading
  show (a.append b).sites = a.sites ++ b.sites
  induction a <;> simp_all [append, sites]

@[simp] theorem sites_calls (ss : List CallStatement) :
    (calls ss).sites = ss.map fun st => (.call st, []) := by
  induction ss with
  | nil => rfl
  | cons st ss ih =>
    show (Setter.call st, (calls ss).leading) :: (calls ss).sites = _
    rw [leading_calls, ih, List.map_cons]

@[simp] theorem sites_assigns_append (l : List Assignment) (b : Block) :
    (assigns l ++ b).sites = b.sites := by
  induction l with
  | nil => rfl
  | cons a l ih => exact ih

/-- Every call and every loop is a site. -/
theorem map_fst_sites (b : Block) : b.sites.map (·.1) = b.setters := by
  induction b <;> simp_all [sites, setters]

/-! ### The lines of a site -/

/-- The lines of the leading assignments come first. -/
theorem marks_leading (b : Block) (k : Nat) :
    (b.leading.map fun a => (k, Mark.assignment a)) <+: b.marks k := by
  induction b with
  | assign a rest ih => exact (List.prefix_cons_inj _).mpr ih
  | done | call | branch | loop => exact List.nil_prefix

open List in
/-- **The lines of a site follow each other.** For every site of a block, the line of its call or
the lines that open its loop, and then those of its assignments, stand in the text without a gap. -/
theorem infix_of_mem_sites (h : (x, l) ∈ b.sites) (k : Nat) :
    ∃ level, x.marksWith level l <:+: b.marks k := by
  induction b generalizing k with
  | done => cases h
  | call st rest ih =>
    rcases List.mem_cons.mp h with heq | h
    · obtain ⟨rfl, rfl⟩ := Prod.mk.inj heq
      exact ⟨k, ((List.prefix_cons_inj _).mpr (rest.marks_leading k)).isInfix⟩
    · obtain ⟨level, inside⟩ := ih h k
      exact ⟨level, infix_cons inside⟩
  | assign a rest ih =>
    obtain ⟨level, inside⟩ := ih h k
    exact ⟨level, infix_cons inside⟩
  | branch n c t f rest iht ihf ih =>
    simp only [sites, List.mem_append] at h
    rcases h with h | h | h
    · obtain ⟨level, inside⟩ := iht h (k + 1)
      exact ⟨level, infix_cons (infix_cons (infix_append_of_infix_left inside))⟩
    · obtain ⟨level, inside⟩ := ihf h (k + 1)
      refine ⟨level, infix_cons (infix_cons (infix_append_of_infix_right ?_))⟩
      exact infix_cons (infix_cons (infix_cons (infix_append_of_infix_left inside)))
    · obtain ⟨level, inside⟩ := ih h k
      refine ⟨level, infix_cons (infix_cons (infix_append_of_infix_right ?_))⟩
      refine infix_cons (infix_cons (infix_cons (infix_append_of_infix_right ?_)))
      exact infix_cons inside
  | loop header body rest ihb ih =>
    simp only [sites, List.mem_cons, List.mem_append] at h
    rcases h with heq | h | h
    · obtain ⟨rfl, rfl⟩ := Prod.mk.inj heq
      refine ⟨k, ((List.prefix_append_right_inj [_, _]).mpr ?_).isInfix⟩
      exact (body.marks_leading (k + 1)).trans (List.prefix_append _ _)
    · obtain ⟨level, inside⟩ := ihb h (k + 1)
      exact ⟨level, infix_cons (infix_cons (infix_append_of_infix_left inside))⟩
    · obtain ⟨level, inside⟩ := ih h k
      refine ⟨level, infix_cons (infix_cons (infix_append_of_infix_right ?_))⟩
      exact infix_cons (infix_cons inside)

/-- The calls and loops of a block are all that is emitted, apart from branches. -/
theorem exists_setter_of_emitted {form : Form} {n : NodeId} (h : (form, n) ∈ b.emitted)
    (other : form ≠ .branch) : ∃ x ∈ b.setters, x.node = n := by
  induction b with
  | done => cases h
  | call st rest ih =>
    rcases List.mem_cons.mp h with heq | h
    · exact ⟨_, .head _, (Prod.mk.inj heq).2.symm⟩
    · obtain ⟨x, hx, hn⟩ := ih h
      exact ⟨x, .tail _ hx, hn⟩
  | assign a rest ih => exact ih h
  | branch m c t f rest iht ihf ih =>
    simp only [emitted, List.append_assoc, List.mem_cons, List.mem_append] at h
    simp only [setters, List.mem_append]
    rcases h with heq | h | h | h
    · exact absurd (Prod.mk.inj heq).1 other
    · exact (iht h).imp fun x => .imp_left .inl
    · exact (ihf h).imp fun x => .imp_left (.inr ∘ .inl)
    · exact (ih h).imp fun x => .imp_left (.inr ∘ .inr)
  | loop header body rest ihb ih =>
    simp only [emitted, List.mem_cons, List.mem_append] at h
    simp only [setters, List.mem_cons, List.mem_append]
    rcases h with heq | h | h
    · exact ⟨_, .inl rfl, (Prod.mk.inj heq).2.symm⟩
    · exact (ihb h).imp fun x => .imp_left (.inr ∘ .inl)
    · exact (ih h).imp fun x => .imp_left (.inr ∘ .inr)

end Block

namespace EventScript

variable {script : EventScript} {x : Setter} {l : List Assignment}

/-- The lines of a site begin at a place of a script: the line of a call with those of the
assignments right behind it, or the line that opens a loop, the brace, and right behind this the
lines of the assignments. -/
inductive SiteAt (script : EventScript) (i : Nat) (line : String) :
    Setter → List Assignment → Prop
  | call {st : CallStatement} {l : List Assignment}
    (first : script.LineAt i (.statement (.call st)) line)
    (behind : ∀ (k : Nat) (a : Assignment), l[k]? = some a →
      script.LineAt (i + 1 + k) (.assignment a) (a.name ++ " = " ++ a.value ++ ";")) :
    SiteAt script i line (.call st) l
  | loop {header : LoopHeader} {l : List Assignment}
    (first : script.LineAt i (.statement (.loop header)) line)
    (opened : script.LineAt (i + 1) .opening "\x7b")
    (behind : ∀ (k : Nat) (a : Assignment), l[k]? = some a →
      script.LineAt (i + 2 + k) (.assignment a) (a.name ++ " = " ++ a.value ++ ";")) :
    SiteAt script i line (.loop header) l

/-- Every site of a script begins at a place. -/
theorem exists_siteAt (h : (x, l) ∈ script.statements.sites) :
    ∃ i, script.SiteAt i x.head.text x l := by
  obtain ⟨level, inside⟩ := Block.infix_of_mem_sites h 1
  obtain ⟨i, place⟩ := exists_place_of_infix (inside.trans script.infix_statements)
  cases x with
  | call st =>
    refine ⟨i, .call (lineAt (place 0 _ rfl)) fun k a ha => ?_⟩
    have behind : script.marks[i + 1 + k]? = some (level, .assignment a) := by
      rw [Nat.add_assoc, Nat.add_comm 1 k]
      exact place (k + 1) _ (by simp [Setter.marksWith, ha])
    exact lineAt behind
  | loop header =>
    refine ⟨i, .loop (lineAt (place 0 _ rfl)) (lineAt (place 1 _ rfl)) fun k a ha => ?_⟩
    have behind : script.marks[i + 2 + k]? = some (level + 1, .assignment a) := by
      rw [Nat.add_assoc, Nat.add_comm 2 k]
      exact place (k + 2) _ (by simp [Setter.marksWith, ha])
    exact lineAt behind

end EventScript

end NodeScript
