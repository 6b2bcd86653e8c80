import NodeScript.Lowering.Call
import NodeScript.Proofs.Graph.Housed
import NodeScript.Proofs.Lowering.Outcome
import NodeScript.Proofs.Script.Paths

/-!
# What making a call does to the scope

Making the statement of a call gives variables to outputs of the call, and the statement sets each
of them (`Binds`). It marks no node. What the statement reads had its variable before, or belongs
to the call itself (`Makes`).
-/

namespace NodeScript.Graph

open NodeScript.Lowering
open NodeScript.Except (bind_eq_ok)

variable {g : Graph} {n : NodeId} {s s' t : Scope} {l l' : List Variable}

/-- The node that a live output is on. -/
def ownerOf? (g : Graph) (o : OutputId) : Option NodeId :=
  (g.output? o).map (·.owner)

theorem ownerOf?_of_mem_outputsOf (h : g.Housed) {node : Node} {output : Output}
    (hn : g.node? n = some node) (ho : output ∈ g.outputsOf node) :
    g.ownerOf? output.id = some n := by
  obtain ⟨live, owner⟩ := (h.mem_outputsOf hn).mp ho
  simp [ownerOf?, live, owner]

/-- What is found by name is on the node. -/
theorem ownerOf?_outputNamed? (h : g.Housed) {name : String} {output : Output}
    (ho : g.outputNamed? n name = some output) : g.ownerOf? output.id = some n := by
  obtain ⟨live, owner, -⟩ := h.of_outputNamed? ho
  simp [ownerOf?, live, owner]

/-- Between two scopes, outputs of a node got the listed variables, and nothing else happened but
that names were used up. -/
structure Binds (g : Graph) (n : NodeId) (s : Scope) (l : List Variable) (s' : Scope) : Prop where
  visited : s'.visited = s.visited
  owned : ∀ v ∈ l, g.ownerOf? v.1 = some n
  bound : ∀ v : Variable, s'.nameOf? v.1 = some v.2 → s.nameOf? v.1 = some v.2 ∨ v ∈ l

namespace Binds

theorem refl (g : Graph) (n : NodeId) (s : Scope) : g.Binds n s [] s :=
  ⟨rfl, by simp, fun _ => .inl⟩

theorem trans (h : g.Binds n s l t) (h' : g.Binds n t l' s') : g.Binds n s (l ++ l') s' where
  visited := h'.visited.trans h.visited
  owned v hv := (List.mem_append.mp hv).elim (h.owned v) (h'.owned v)
  bound v hv := by
    rw [List.mem_append]
    rcases h'.bound v hv with hv | hv
    · exact (h.bound v hv).imp_right .inl
    · exact .inr (.inr hv)

theorem of_names (names : FreshNames) : g.Binds n s [] { s with names } :=
  ⟨rfl, by simp, fun _ => .inl⟩

/-- An output of the node gets a variable, and names may be used up. -/
theorem of_bind {o : OutputId} {name : String} {names : FreshNames}
    (ho : g.ownerOf? o = some n) : g.Binds n s [(o, name)] ({ s with names }.bind o name) := by
  refine ⟨rfl, by simpa using ho, ?_⟩
  rintro ⟨p, x⟩ hv
  rw [Scope.nameOf?_bind] at hv
  split at hv
  · subst_vars
    exact .inr (by simpa [eq_comm] using hv)
  · exact .inl hv

theorem of_bindFresh {o : OutputId} {base name : String} (ho : g.ownerOf? o = some n)
    (h : (bindFresh o base).Returns s name s') : g.Binds n s [(o, name)] s' := by
  obtain ⟨rfl, rfl⟩ := returns_bindFresh.mp h
  exact of_bind ho

end Binds

/-! ### Operands -/

/-- A value that stands for a variable of an output stands for the variable the output has. -/
theorem nameOf?_of_operand {consumer : Node} {input : Input} {operand : Operand} {v : Variable}
    (h : g.operand s consumer input = .ok operand) (hv : operand.held? = some v) :
    s.nameOf? v.1 = some v.2 := by
  unfold Graph.operand at h
  split at h
  · cases h
    simp [Operand.held?] at hv
  · rename_i o _
    obtain ⟨source, -, h⟩ := bind_eq_ok.mp h
    split at h
    · cases h
      simp [Operand.held?] at hv
    · split at h
      · rename_i name hname
        cases h
        cases hv
        exact hname
      · cases h

/-- What a step that may look at an input reads had its variable before. -/
theorem nameOf?_of_connectedOperand {node : Node} {name : String} {operand : Option Operand}
    {v : Variable} (h : g.connectedOperand s node name = .ok operand)
    (hv : operand.bind Operand.held? = some v) : s.nameOf? v.1 = some v.2 := by
  unfold connectedOperand at h
  split at h
  · split at h
    · cases ho : g.operand s node ‹_› with
      | error e => simp [ho] at h
      | ok found =>
        obtain rfl : some found = operand := by simpa [ho] using h
        exact nameOf?_of_operand ho hv
    · cases h
      simp at hv
  · cases h
    simp at hv

theorem nameOf?_of_operandNamed {node : Node} {name : String} {operand : Option Operand}
    {v : Variable} (h : g.operandNamed s node name = .ok operand)
    (hv : operand.bind Operand.held? = some v) : s.nameOf? v.1 = some v.2 := by
  unfold operandNamed at h
  split at h
  · cases ho : g.operand s node ‹_› with
    | error e => simp [ho] at h
    | ok found =>
      obtain rfl : some found = operand := by simpa [ho] using h
      exact nameOf?_of_operand ho hv
  · cases h
    simp at hv

/-! ### The parts of a call -/

theorem binds_callResult (h : g.Housed) {node : Node} {f : FunctionDecl}
    {r : Option Variable × Option String} (hr : (g.callResult node f).Returns s r s') :
    g.Binds node.id s r.1.toList s' := by
  unfold callResult at hr
  split at hr
  · obtain ⟨rfl, rfl⟩ := returns_pure.mp hr
    exact .refl ..
  · rename_i output ho
    split at hr
    · obtain ⟨rfl, rfl⟩ := returns_pure.mp hr
      exact .refl ..
    · obtain ⟨name, t, hname, hr⟩ := returns_bind.mp hr
      obtain ⟨rfl, rfl⟩ := returns_pure.mp hr
      exact .of_bindFresh (ownerOf?_outputNamed? h ho) hname

/-- The argument for a parameter that is not given the archetype. -/
def passed (g : Graph) (node : Node) (p : Parameter) : Lowering Argument := do
  if !p.type.signal.isSupported then
    return .absent
  if p.out then
    match g.outputNamed? node.id p.name with
    | some output => return .result output.id (← bindFresh output.id p.name)
    | none => return .absent
  match g.inputNamed? node.id p.name with
  | some input => return .value (← reading fun s => g.operand s node input)
  | none => return .absent

theorem argument_cases (g : Graph) (node : Node) (archetype : Option Archetype) (p : Parameter) :
    (∃ c, g.argument node archetype p = pure (.archetype c)) ∨
      g.argument node archetype p = g.passed node p := by
  cases archetype with
  | none => exact .inr rfl
  | some c =>
    by_cases hp : p.name = archetypeParameter
    · exact .inl ⟨c, by simp [argument, hp]⟩
    · exact .inr ((if_neg hp).trans rfl)

theorem binds_argument (h : g.Housed) {node : Node} {archetype : Option Archetype}
    {p : Parameter} {a : Argument} (ha : (g.argument node archetype p).Returns s a s') :
    g.Binds node.id s a.set?.toList s' ∧ ∀ v, a.read? = some v → s.nameOf? v.1 = some v.2 := by
  rcases g.argument_cases node archetype p with ⟨c, hc⟩ | hc
  · obtain ⟨rfl, rfl⟩ := returns_pure.mp (hc ▸ ha)
    exact ⟨.refl .., by simp [Argument.read?]⟩
  rw [hc] at ha
  unfold passed at ha
  split at ha
  · obtain ⟨rfl, rfl⟩ := returns_pure.mp ha
    exact ⟨.refl .., by simp [Argument.read?]⟩
  split at ha
  · split at ha
    · rename_i output ho
      obtain ⟨name, t, hname, ha⟩ := returns_bind.mp ha
      obtain ⟨rfl, rfl⟩ := returns_pure.mp ha
      exact ⟨.of_bindFresh (ownerOf?_outputNamed? h ho) hname, by simp [Argument.read?]⟩
    · obtain ⟨rfl, rfl⟩ := returns_pure.mp ha
      exact ⟨.refl .., by simp [Argument.read?]⟩
  · split at ha
    · obtain ⟨operand, t, hread, ha⟩ := returns_bind.mp ha
      obtain ⟨hop, rfl⟩ := returns_reading.mp hread
      obtain ⟨rfl, rfl⟩ := returns_pure.mp ha
      exact ⟨.refl .., fun v hv => nameOf?_of_operand hop hv⟩
    · obtain ⟨rfl, rfl⟩ := returns_pure.mp ha
      exact ⟨.refl .., by simp [Argument.read?]⟩

/-- The arguments are made from the left: what one of them reads had its variable before, or got it
as an earlier argument of the same call. -/
theorem binds_arguments (h : g.Housed) {node : Node} {archetype : Option Archetype}
    {ps : List Parameter} {as : List Argument}
    (ha : Lowering.Returns (ps.mapM (g.argument node archetype)) s as s') :
    g.Binds node.id s (as.filterMap Argument.set?) s' ∧
      ∀ v ∈ as.filterMap Argument.read?,
        s.nameOf? v.1 = some v.2 ∨ g.ownerOf? v.1 = some node.id := by
  induction ps generalizing s as with
  | nil =>
    obtain ⟨rfl, rfl⟩ := returns_mapM_nil.mp ha
    exact ⟨.refl .., by simp⟩
  | cons p ps ih =>
    obtain ⟨a, t, as, hp, hps, rfl⟩ := returns_mapM_cons.mp ha
    obtain ⟨first, firstReads⟩ := binds_argument h hp
    obtain ⟨later, laterReads⟩ := ih hps
    constructor
    · have := first.trans later
      cases hset : a.set? <;> simpa [hset] using this
    · intro v hv
      rcases List.mem_filterMap.mp hv with ⟨b, hb, hread⟩
      rcases List.mem_cons.mp hb with rfl | hb
      · exact .inl (firstReads v hread)
      · rcases laterReads v (List.mem_filterMap.mpr ⟨b, hb, hread⟩) with hbound | howned
        · exact (first.bound v hbound).imp_right (first.owned v)
        · exact .inr howned

theorem arguments_callForm {node : Node} {f : FunctionDecl} {as : List Argument} {form : CallForm}
    (hf : (g.callForm node f as).Returns s form s') :
    s' = s ∧ form.arguments = as ∧ ∀ v, form.target? = some v → s.nameOf? v.1 = some v.2 := by
  unfold callForm at hf
  split at hf
  · split at hf
    · obtain ⟨rfl, rfl⟩ := returns_pure.mp hf
      exact ⟨rfl, rfl, by simp [CallForm.target?]⟩
    · exact absurd hf returns_throw
  · obtain ⟨target, t, hread, hf⟩ := returns_bind.mp hf
    obtain ⟨htarget, rfl⟩ := returns_reading.mp hread
    obtain ⟨rfl, rfl⟩ := returns_pure.mp hf
    exact ⟨rfl, rfl, fun v hv => nameOf?_of_connectedOperand htarget hv⟩

/-! ### The statement -/

/-- What making the statement of a call does: the statement is that of the node, its outputs get
the variables that the statement sets, and what the statement reads of other nodes had its variable
before. -/
structure Makes (g : Graph) (n : NodeId) (s : Scope) (st : CallStatement) (s' : Scope) :
    Prop where
  node : st.node = n
  binds : ∀ v : Variable, s'.nameOf? v.1 = some v.2 → s.nameOf? v.1 = some v.2 ∨ v ∈ st.sets
  visited : s'.visited = s.visited
  owned : ∀ v ∈ st.sets, g.ownerOf? v.1 = some n
  reads : ∀ v ∈ st.form.reads, s.nameOf? v.1 = some v.2 ∨ g.ownerOf? v.1 = some n
  returns : (g.callStatement n).Returns s st s'

theorem makes_callStatement (h : g.Housed) {st : CallStatement}
    (hst : (g.callStatement n).Returns s st s') : g.Makes n s st s' := by
  have returns := hst
  obtain ⟨node, t, hlookup, hst⟩ := returns_bind.mp hst
  obtain ⟨hnode, rfl⟩ := returns_ofExcept.mp hlookup
  obtain ⟨⟨f, archetype⟩, t, hcallee, hst⟩ := returns_bind.mp hst
  obtain ⟨-, rfl⟩ := returns_ofExcept.mp hcallee
  obtain ⟨⟨result, cast⟩, t₁, hresult, hst⟩ := returns_bind.mp hst
  obtain ⟨as, t₂, harguments, hst⟩ := returns_bind.mp hst
  obtain ⟨form, t₃, hform, hst⟩ := returns_bind.mp hst
  obtain ⟨rfl, rfl⟩ := returns_pure.mp hst
  obtain rfl : node.id = n := h.node_id (nodeOrFail_eq_ok.mp hnode)
  -- the result is bound before the arguments, so these may read it
  have first : g.Binds node.id s result.toList t₁ := binds_callResult h hresult
  obtain ⟨later, reads⟩ := binds_arguments h harguments
  obtain ⟨rfl, rfl, target⟩ := arguments_callForm hform
  have all := first.trans later
  have before : ∀ v : Variable, t₁.nameOf? v.1 = some v.2 →
      s.nameOf? v.1 = some v.2 ∨ g.ownerOf? v.1 = some node.id := fun v hv =>
    (first.bound v hv).imp_right (first.owned v)
  refine ⟨rfl, fun v hv => ?_, all.visited, fun v hv => ?_, fun v hv => ?_, returns⟩
  · exact (all.bound v hv).imp_right fun hmem => List.mem_append.mpr (List.mem_append.mp hmem).symm
  · exact all.owned v (List.mem_append.mpr (List.mem_append.mp hv).symm)
  · rcases List.mem_append.mp hv with hv | hv
    · have hbound := target v (Option.mem_toList.mp hv)
      exact (all.bound v hbound).imp_right (all.owned v)
    · exact (reads v hv).elim (before v) .inr

/-- The statements of calls, made one after the other. -/
inductive MakesAll (g : Graph) : Scope → List NodeId → List CallStatement → Scope → Prop
  | nil {s : Scope} : MakesAll g s [] [] s
  | cons {n : NodeId} {ns : List NodeId} {st : CallStatement} {sts : List CallStatement}
    {s t s' : Scope} : g.Makes n s st t → MakesAll g t ns sts s' →
    MakesAll g s (n :: ns) (st :: sts) s'

theorem makesAll_mapM (h : g.Housed) {ns : List NodeId} {sts : List CallStatement}
    (hsts : Lowering.Returns (ns.mapM g.callStatement) s sts s') : g.MakesAll s ns sts s' := by
  induction ns generalizing s sts with
  | nil =>
    obtain ⟨rfl, rfl⟩ := returns_mapM_nil.mp hsts
    exact .nil
  | cons n ns ih =>
    obtain ⟨st, t, sts, hst, hrest, rfl⟩ := returns_mapM_cons.mp hsts
    exact .cons (makes_callStatement h hst) (ih hrest)

namespace MakesAll

variable {ns : List NodeId} {sts : List CallStatement}

theorem nodes (h : g.MakesAll s ns sts s') : sts.map (·.node) = ns := by
  induction h with
  | nil => rfl
  | cons hst _ ih => simp [hst.node, ih]

theorem visited (h : g.MakesAll s ns sts s') : s'.visited = s.visited := by
  induction h with
  | nil => rfl
  | cons hst _ ih => exact ih.trans hst.visited

end MakesAll

end NodeScript.Graph
