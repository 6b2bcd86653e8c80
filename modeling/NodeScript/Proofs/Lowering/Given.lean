import NodeScript.Proofs.FreshNames
import NodeScript.Proofs.Graph.Placed
import NodeScript.Proofs.Lowering.CallStatement

/-!
# The variables that a call is given

Outputs get fresh variables one after the other (`Gives`). The names are all different, and an
output keeps the last name that it got. Making the statement of a call gives variables to its
outputs in the order result, arguments (`gives_callStatement`), each output once, unless the call
returns by parameter: then the output for the result has got another name as an argument
(`ReturnsByParameter`).
-/

namespace NodeScript

namespace Scope

variable {s : Scope} {o : OutputId} {v : Variable}

/-- The scope in which an output has got a fresh variable. -/
def give (s : Scope) (o : OutputId) (base : String) : Scope :=
  { s with names := (s.names.next base).2 }.bind o (s.names.next base).1

/-- Each output has one variable at most. -/
def Single (s : Scope) : Prop :=
  (s.bindings.map (·.1)).Nodup

theorem keys_bindIn (o : OutputId) (name : String) (l : List Variable) :
    (bindIn o name l).map (·.1) = if o ∈ l.map (·.1) then l.map (·.1) else l.map (·.1) ++ [o] := by
  induction l with
  | nil => rfl
  | cons w l ih =>
    obtain ⟨p, y⟩ := w
    by_cases hp : p = o
    · simp [bindIn, hp]
    · simp only [bindIn, if_neg hp, List.map_cons, ih, List.mem_cons, Ne.symm hp, false_or]
      split <;> rfl

theorem Single.bind (h : s.Single) (o : OutputId) (name : String) : (s.bind o name).Single := by
  unfold Single Scope.bind
  rw [keys_bindIn]
  split
  · exact h
  · rename_i ho
    exact List.concat_eq_append ▸ List.Nodup.concat ho h

/-- What is listed for an output is the variable that the output has. -/
theorem Single.mem_bindings (h : s.Single) : v ∈ s.bindings ↔ s.nameOf? v.1 = some v.2 := by
  rw [nameOf?, List.lookup_eq_some_iff]
  constructor
  · intro hv
    obtain ⟨l₁, l₂, hl⟩ := List.append_of_mem hv
    refine ⟨l₁, l₂, hl, fun w hw => ?_⟩
    have distinct := h
    rw [Single, hl, List.map_append, List.map_cons] at distinct
    have apart := (List.nodup_append.mp distinct).2.2 w.1 (List.mem_map_of_mem hw) v.1 (.head _)
    simpa using Ne.symm apart
  · rintro ⟨l₁, l₂, hl, -⟩
    simp [hl]

end Scope

variable {g : Graph} {n : NodeId} {node : Node} {f : FunctionDecl} {archetype : Option Archetype}
  {s s' : Scope} {st : CallStatement}

/-- Between two scopes, outputs got the listed variables, one after the other. -/
inductive Gives : Scope → List Variable → Scope → Prop
  | nil {s : Scope} : Gives s [] s
  | cons {s s' : Scope} {o : OutputId} {base : String} {l : List Variable} :
    Gives (s.give o base) l s' → Gives s ((o, (s.names.next base).1) :: l) s'
  /-- No output gets a variable, and no name can be given again. -/
  | pass {s t s' : Scope} {l : List Variable} : t.bindings = s.bindings →
    (∀ x, s.names.Taken x → t.names.Taken x) → Gives t l s' → Gives s l s'

namespace Gives

variable {s t s' : Scope} {l l' : List Variable} {o : OutputId} {x : String} {v : Variable}

theorem append (h : Gives s l t) (h' : Gives t l' s') : Gives s (l ++ l') s' := by
  induction h with
  | nil => exact h'
  | cons _ ih => exact .cons (ih h')
  | pass hb hx _ ih => exact .pass hb hx (ih h')

theorem of_bindFresh {base : String} (h : (Lowering.bindFresh o base).Returns s x s') :
    Gives s [(o, x)] s' := by
  obtain ⟨rfl, rfl⟩ := Lowering.returns_bindFresh.mp h
  exact .cons .nil

theorem of_fresh {base : String} (h : (Lowering.fresh base).Returns s x s') : Gives s [] s' := by
  obtain ⟨-, rfl⟩ := Lowering.returns_fresh.mp h
  exact .pass (t := { s with names := (s.names.next base).2 }) rfl
    (fun _ hx => FreshNames.taken_next.mpr (.inr hx)) .nil

/-- Marking nodes gives nothing. -/
theorem of_visited {nodes : List NodeId} (h : Gives { s with visited := nodes } l s') :
    Gives s l s' :=
  .pass (t := { s with visited := nodes }) rfl (fun _ => id) h

/-! ### Names -/

/-- The names that were given were not taken before. -/
theorem not_taken (h : Gives s l s') (hv : v ∈ l) : ¬ s.names.Taken v.2 := by
  induction h with
  | nil => cases hv
  | cons _ ih =>
    rcases List.mem_cons.mp hv with rfl | hv
    · exact FreshNames.not_taken_next _ _
    · exact fun hx => ih hv (FreshNames.taken_next.mpr (.inr hx))
  | pass _ keep _ ih => exact fun hx => ih hv (keep _ hx)

/-- No name is given twice. -/
theorem names_nodup (h : Gives s l s') : (l.map (·.2)).Nodup := by
  induction h with
  | nil => exact .nil
  | @cons s s' o base l hrest ih =>
    refine List.nodup_cons.mpr ⟨fun hmem => ?_, ih⟩
    obtain ⟨v, hv, hname⟩ := List.mem_map.mp hmem
    exact hrest.not_taken hv (FreshNames.taken_next.mpr (.inl hname))
  | pass _ _ _ ih => exact ih

/-! ### Outputs -/

/-- An output that got nothing keeps what it had. -/
theorem nameOf?_of_notMem (h : Gives s l s') (ho : o ∉ l.map (·.1)) :
    s'.nameOf? o = s.nameOf? o := by
  induction h with
  | nil => rfl
  | cons _ ih =>
    obtain ⟨hne, hrest⟩ := not_or.mp (List.mem_cons.not.mp ho)
    rw [ih hrest, Scope.give, Scope.nameOf?_bind, if_neg (Ne.symm hne)]
    rfl
  | pass hb _ _ ih => rw [ih ho, Scope.nameOf?, hb, Scope.nameOf?]

/-- An output has the variable that it got, if it got no other after it. -/
theorem nameOf?_append (h : Gives s (l ++ (o, x) :: l') s') (ho : o ∉ l'.map (·.1)) :
    s'.nameOf? o = some x := by
  generalize hl : l ++ (o, x) :: l' = all at h
  induction h generalizing l with
  | nil => simp at hl
  | cons hrest ih =>
    cases l with
    | nil =>
      obtain ⟨hhead, rfl⟩ := List.cons.inj hl
      obtain ⟨rfl, rfl⟩ := Prod.mk.inj hhead
      rw [hrest.nameOf?_of_notMem ho, Scope.give, Scope.nameOf?_bind, if_pos rfl]
    | cons w l => exact ih (List.cons.inj hl).2
  | pass _ _ _ ih => exact ih hl

theorem single (h : Gives s l s') (hs : s.Single) : s'.Single := by
  induction h with
  | nil => exact hs
  | @cons s _ o base _ _ ih => exact ih (Scope.Single.bind (s := { s with names := _ }) hs o _)
  | pass hb _ _ ih =>
    refine ih ?_
    rwa [Scope.Single, hb]

/-- What an output has afterwards it had before, or got in between. -/
theorem mem_of_nameOf? (h : Gives s l s') (hv : s'.nameOf? v.1 = some v.2) :
    s.nameOf? v.1 = some v.2 ∨ v ∈ l := by
  induction h with
  | nil => exact .inl hv
  | cons _ ih =>
    rcases ih hv with hv | hv
    · rw [Scope.give, Scope.nameOf?_bind] at hv
      split at hv
      · rename_i ho
        exact .inr (List.mem_cons.mpr (.inl (Prod.ext ho.symm (Option.some.inj hv).symm)))
      · exact .inl hv
    · exact .inr (.tail _ hv)
  | pass hb _ _ ih =>
    have before := ih hv
    rwa [Scope.nameOf?, hb] at before

end Gives

namespace Graph

open Lowering

/-! ### The parts of a call -/

/-- What making the statement of a call consists of. -/
theorem parts_of_callStatement (h : (g.callStatement n).Returns s st s') :
    ∃ node f archetype t, g.node? n = some node ∧ calleeOf node = .ok (f, archetype) ∧
      (g.callResult node f).Returns s (st.result, st.cast) t ∧
      Lowering.Returns (f.arguments.mapM (g.argument node archetype)) t st.form.arguments s' ∧
      (g.callForm node f st.form.arguments).Returns s' st.form s' := by
  obtain ⟨node, t, hlookup, h⟩ := returns_bind.mp h
  obtain ⟨hnode, rfl⟩ := returns_ofExcept.mp hlookup
  obtain ⟨⟨f, archetype⟩, t, hcallee, h⟩ := returns_bind.mp h
  obtain ⟨hfound, rfl⟩ := returns_ofExcept.mp hcallee
  obtain ⟨⟨result, cast⟩, t, hresult, h⟩ := returns_bind.mp h
  obtain ⟨as, t', harguments, h⟩ := returns_bind.mp h
  obtain ⟨form, t'', hform, h⟩ := returns_bind.mp h
  obtain ⟨rfl, rfl⟩ := returns_pure.mp h
  obtain ⟨rfl, rfl, -⟩ := arguments_callForm hform
  exact ⟨node, f, archetype, _, nodeOrFail_eq_ok.mp hnode, hfound, hresult, harguments, hform⟩

theorem callee?_of_calleeOf (h : calleeOf node = .ok (f, archetype)) :
    node.kind.callee? = some ⟨some f, archetype⟩ := by
  unfold calleeOf at h
  split at h
  · rename_i hcallee
    cases h
    exact hcallee
  · cases h

/-- The output for the return value, if something reads it. -/
def resultOutput? (g : Graph) (n : NodeId) : Option OutputId :=
  ((g.outputNamed? n Pin.result).filter (·.targets ≠ [])).map (·.id)

/-- The output for a parameter that a call passes out. The parameter that is given the archetype is
not passed out. -/
def passedOutput? (g : Graph) (n : NodeId) (archetype : Option Archetype) (p : Parameter) :
    Option OutputId :=
  if (archetype.isSome ∧ p.name = archetypeParameter) ∨ p.yields = false then none
  else (g.outputNamed? n p.name).map (·.id)

/-- Between two scopes, an output asks for a variable of a base and gets it. Nothing happens if
there is no output. -/
inductive Asks (base : String) : Option OutputId → Scope → Option Variable → Scope → Prop
  | nothing {s : Scope} : Asks base none s none s
  | fresh {s s' : Scope} {o : OutputId} {x : String} : (bindFresh o base).Returns s x s' →
    Asks base (some o) s (some (o, x)) s'

theorem Asks.gives {base : String} {o? : Option OutputId} {v? : Option Variable}
    (h : Asks base o? s v? s') : Gives s v?.toList s' ∧ v?.map (·.1) = o? := by
  cases h with
  | nothing => exact ⟨.nil, rfl⟩
  | fresh hx => exact ⟨.of_bindFresh hx, rfl⟩

/-- The output for the return value asks for a variable. -/
theorem asks_callResult {r : Option Variable × Option String}
    (hr : (g.callResult node f).Returns s r s') :
    Asks (f.name ++ "Ret") (g.resultOutput? node.id) s r.1 s' := by
  unfold callResult at hr
  unfold resultOutput?
  split at hr
  · rename_i hnone
    obtain ⟨rfl, rfl⟩ := returns_pure.mp hr
    simpa [hnone] using Asks.nothing
  · rename_i output houtput
    split at hr
    · rename_i unread
      obtain ⟨rfl, rfl⟩ := returns_pure.mp hr
      simpa [houtput, Option.filter, unread] using Asks.nothing
    · rename_i read
      obtain ⟨name, t, hname, hr⟩ := returns_bind.mp hr
      obtain ⟨rfl, rfl⟩ := returns_pure.mp hr
      simpa [houtput, Option.filter, read] using Asks.fresh hname

/-- The output for a parameter that is passed out asks for a variable. -/
theorem asks_argument {p : Parameter} {a : Argument}
    (ha : (g.argument node archetype p).Returns s a s') :
    Asks p.name (g.passedOutput? node.id archetype p) s a.set? s' := by
  by_cases hmade : archetype.isSome ∧ p.name = archetypeParameter
  · obtain ⟨c, rfl⟩ := Option.isSome_iff_exists.mp hmade.1
    have harchetype : g.argument node (some c) p = pure (.archetype c) := by
      simp [argument, hmade.2]
    obtain ⟨rfl, rfl⟩ := returns_pure.mp (harchetype ▸ ha)
    simpa [passedOutput?, hmade, Argument.set?] using Asks.nothing
  have hpassed : g.argument node archetype p = g.passed node p := by
    cases archetype with
    | none => rfl
    | some c => exact (if_neg (by simpa using hmade)).trans rfl
  rw [hpassed] at ha
  unfold passed at ha
  simp only [passedOutput?, hmade, false_or]
  split at ha
  · rename_i unsupported
    obtain ⟨rfl, rfl⟩ := returns_pure.mp ha
    have yields : p.yields = false := by simp_all [Parameter.yields]
    simpa [yields, Argument.set?] using Asks.nothing
  rename_i supported
  split at ha
  · rename_i hout
    have yields : p.yields = true := by simp_all [Parameter.yields]
    split at ha
    · rename_i output houtput
      obtain ⟨name, t, hname, ha⟩ := returns_bind.mp ha
      obtain ⟨rfl, rfl⟩ := returns_pure.mp ha
      simpa [yields, houtput, Argument.set?] using Asks.fresh hname
    · rename_i houtput
      obtain ⟨rfl, rfl⟩ := returns_pure.mp ha
      simpa [yields, houtput, Argument.set?] using Asks.nothing
  · rename_i hout
    have yields : p.yields = false := by simp_all [Parameter.yields]
    split at ha
    · obtain ⟨operand, t, hread, ha⟩ := returns_bind.mp ha
      obtain ⟨-, rfl⟩ := returns_reading.mp hread
      obtain ⟨rfl, rfl⟩ := returns_pure.mp ha
      simpa [yields, Argument.set?] using Asks.nothing
    · obtain ⟨rfl, rfl⟩ := returns_pure.mp ha
      simpa [yields, Argument.set?] using Asks.nothing

theorem gives_arguments {ps : List Parameter} {as : List Argument}
    (ha : Lowering.Returns (ps.mapM (g.argument node archetype)) s as s') :
    Gives s (as.filterMap Argument.set?) s' ∧
      (as.filterMap Argument.set?).map (·.1) =
        ps.filterMap (g.passedOutput? node.id archetype) := by
  induction ps generalizing s as with
  | nil =>
    obtain ⟨rfl, rfl⟩ := returns_mapM_nil.mp ha
    exact ⟨.nil, rfl⟩
  | cons p ps ih =>
    obtain ⟨a, t, as, hp, hps, rfl⟩ := returns_mapM_cons.mp ha
    obtain ⟨first, hfirst⟩ := (asks_argument hp).gives
    obtain ⟨later, hlater⟩ := ih hps
    have all := first.append later
    cases hset : a.set? with
    | none =>
      rw [hset] at all hfirst
      exact ⟨by simpa [hset] using all, by simp [hset, ← hfirst, hlater]⟩
    | some v =>
      rw [hset] at all hfirst
      exact ⟨by simpa [hset] using all, by simp [hset, ← hfirst, hlater]⟩

end Graph

/-- The variables that a call is given, in the order in which it gets them. -/
def CallStatement.given (st : CallStatement) : List Variable :=
  st.result.toList ++ st.form.arguments.filterMap Argument.set?

namespace Graph

/-- **A call is given a variable for the result, if something reads it, and one for each parameter
that it passes out.** -/
theorem gives_callStatement (h : g.Housed) (hst : (g.callStatement n).Returns s st s') :
    Gives s st.given s' ∧ ∃ node f archetype, g.node? n = some node ∧
      calleeOf node = .ok (f, archetype) ∧ st.result.map (·.1) = g.resultOutput? n ∧
        (st.form.arguments.filterMap Argument.set?).map (·.1) =
          f.arguments.filterMap (g.passedOutput? n archetype) := by
  obtain ⟨node, f, archetype, t, live, hcallee, hresult, harguments, -⟩ :=
    parts_of_callStatement hst
  obtain rfl := h.node_id live
  obtain ⟨first, hfirst⟩ := (asks_callResult hresult).gives
  obtain ⟨later, hlater⟩ := gives_arguments harguments
  exact ⟨first.append later, node, f, archetype, live, hcallee, hfirst, hlater⟩

/-! ### Outputs that get two variables -/

/-- Outputs that are found under two names are two outputs. -/
theorem outputNamed?_inj (h : g.Housed) {x y : String} {a b : Output}
    (ha : g.outputNamed? n x = some a) (hb : g.outputNamed? n y = some b) (hid : a.id = b.id) :
    x = y := by
  obtain ⟨hlive, -, rfl⟩ := h.of_outputNamed? ha
  obtain ⟨hlive', -, rfl⟩ := h.of_outputNamed? hb
  rw [hid] at hlive
  rw [Option.some.inj (hlive.symm.trans hlive')]

theorem passedOutput?_eq_some {p : Parameter} {o : OutputId}
    (h : g.passedOutput? n archetype p = some o) :
    p.yields ∧ ∃ output, g.outputNamed? n p.name = some output ∧ output.id = o := by
  unfold passedOutput? at h
  split at h
  · cases h
  · rename_i hpassed
    exact ⟨by simpa using (not_or.mp hpassed).2, Option.map_eq_some_iff.mp h⟩

/-- No output is passed out twice if no two parameters have outputs of one name. -/
theorem passed_nodup (h : g.Housed) {ps : List Parameter}
    (distinct : ((ps.filter (·.yields)).map (·.name)).Nodup) :
    (ps.filterMap (g.passedOutput? n archetype)).Nodup := by
  induction ps with
  | nil => exact .nil
  | cons p ps ih =>
    have rest : ((ps.filter (·.yields)).map (·.name)).Nodup :=
      (((List.sublist_cons_self p ps).filter _).map _).nodup distinct
    cases hp : g.passedOutput? n archetype p with
    | none => simpa [hp] using ih rest
    | some o =>
      rw [List.filterMap_cons_some hp]
      refine List.nodup_cons.mpr ⟨fun hmem => ?_, ih rest⟩
      obtain ⟨q, hq, hqo⟩ := List.mem_filterMap.mp hmem
      obtain ⟨hyields, output, houtput, hid⟩ := passedOutput?_eq_some hp
      obtain ⟨hyields', output', houtput', hid'⟩ := passedOutput?_eq_some hqo
      have same := outputNamed?_inj h houtput houtput' (hid.trans hid'.symm)
      rw [List.filter_cons_of_pos hyields, List.map_cons] at distinct
      refine (List.nodup_cons.mp distinct).1 (same ▸ ?_)
      exact List.mem_map_of_mem (List.mem_filter.mpr ⟨hq, hyields'⟩)

/-- The call passes a parameter out under the name of the output for the result. -/
def ReturnsByParameter (g : Graph) (n : NodeId) : Prop :=
  ∃ node f archetype, g.node? n = some node ∧ calleeOf node = .ok (f, archetype) ∧
    ∃ p ∈ f.arguments, p.yields ∧ p.name = Pin.result

/-- The output for the result is passed out once more exactly if the call returns by parameter. -/
theorem mem_passed_iff (h : g.Housed) (live : g.node? n = some node)
    (hcallee : calleeOf node = .ok (f, archetype)) {o : OutputId}
    (ho : g.resultOutput? n = some o) :
    o ∈ f.arguments.filterMap (g.passedOutput? n archetype) ↔ g.ReturnsByParameter n := by
  obtain ⟨output, hfilter, rfl⟩ := Option.map_eq_some_iff.mp ho
  have houtput := (Option.filter_eq_some_iff.mp hfilter).1
  constructor
  · intro hmem
    obtain ⟨p, hp, hpo⟩ := List.mem_filterMap.mp hmem
    obtain ⟨hyields, other, hother, hid⟩ := passedOutput?_eq_some hpo
    exact ⟨node, f, archetype, live, hcallee, p, hp, hyields, outputNamed?_inj h hother houtput hid⟩
  · rintro ⟨node', f', archetype', live', hcallee', p, hp, hyields, hname⟩
    obtain rfl : node = node' := Option.some.inj (live.symm.trans live')
    obtain ⟨rfl, rfl⟩ := Prod.mk.inj (Except.ok.inj (hcallee.symm.trans hcallee'))
    refine List.mem_filterMap.mpr ⟨p, hp, ?_⟩
    have plain : Pin.result ≠ archetypeParameter := by decide
    simp [passedOutput?, hname, hyields, houtput, plain]

end Graph

end NodeScript
