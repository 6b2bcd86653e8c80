import NodeScript.Compilation
import NodeScript.Proofs.Lowering.Mirrors
import NodeScript.Proofs.Lowering.Termination

/-!
# The numbering of a graph does not show

Events of one name in twin graphs have scripts of one text, or fail with one error
(`Twins.compileEvent_eq`): each part of lowering goes in step with its counterpart, and what it
returns has the same text.

The order of edges is looked at in two places only, when an output is followed and when the
variables are collected that the value of an output is written to (`settings`). There no output has
more than one edge that matters, because the graph is `Narrow`.
-/

namespace NodeScript

open List (Forall₂)

/-- Two values have the same text, or whatever else `part` takes from them. -/
abbrev Same {α γ : Type} (part : α → γ) (a b : α) : Prop :=
  part b = part a

namespace Except

variable {ε α β : Type}

/-- Elements for which a computation returns nothing can be left out. -/
theorem mapM_filterMap_id {f : α → Except ε (Option β)} {p : α → Bool} {l : List α}
    (h : ∀ a ∈ l, p a = false → f a = .ok none) :
    List.filterMap id <$> l.mapM f = List.filterMap id <$> (l.filter p).mapM f := by
  induction l with
  | nil => rfl
  | cons a l ih =>
    have rest := ih fun x hx => h x (.tail _ hx)
    have first : ∀ r : Except ε (List (Option β)), (List.filterMap id <$> do
        let b ← f a
        let bs ← r
        return b :: bs) = do
          let b ← f a
          let bs ← List.filterMap id <$> r
          return b.toList ++ bs := by
      intro r
      cases f a with
      | error e => rfl
      | ok b => cases r with
        | error e => rfl
        | ok bs => cases b <;> rfl
    rw [List.mapM_cons, first, rest]
    cases hp : p a with
    | true => rw [List.filter_cons_of_pos hp, List.mapM_cons, first]
    | false =>
      rw [List.filter_cons_of_neg (by simp [hp]), h a (.head _) hp]
      cases (l.filter p).mapM f <;> rfl

end Except

theorem map_eq_of_forall₂ {α β γ : Type} {f : α → γ} {f' : β → γ} {l : List α} {l' : List β}
    (h : Forall₂ (fun a b => f' b = f a) l l') : l'.map f' = l.map f := by
  induction h with
  | nil => rfl
  | cons hab _ ih => rw [List.map_cons, List.map_cons, hab, ih]

/-- Lists of one member at most are related if a member of either has its counterpart. -/
theorem forall₂_of_subsingleton {α β : Type} {R : α → β → Prop} {l : List α} {l' : List β}
    (distinct : l.Nodup) (single : ∀ a ∈ l, ∀ b ∈ l, a = b) (distinct' : l'.Nodup)
    (single' : ∀ a ∈ l', ∀ b ∈ l', a = b) (left : ∀ a ∈ l, ∃ b ∈ l', R a b)
    (right : ∀ b ∈ l', ∃ a, a ∈ l) : Forall₂ R l l' := by
  have short : ∀ {γ : Type} {k : List γ}, k.Nodup → (∀ a ∈ k, ∀ b ∈ k, a = b) →
      k = [] ∨ ∃ a, k = [a] := by
    intro γ k nodup same
    rcases k with _ | ⟨a, _ | ⟨b, k⟩⟩
    · exact .inl rfl
    · exact .inr ⟨a, rfl⟩
    · have hab := same a (.head _) b (.tail _ (.head _))
      exact absurd (.head _) (hab ▸ (List.nodup_cons.mp nodup).1)
  rcases short distinct single with rfl | ⟨a, rfl⟩
  · obtain rfl : l' = [] :=
      List.eq_nil_iff_forall_not_mem.mpr fun b hb => by simpa using right b hb
    exact .nil
  · obtain ⟨b, hb, hab⟩ := left a (.head _)
    rcases short distinct' single' with rfl | ⟨c, rfl⟩
    · cases hb
    · rw [← List.mem_singleton.mp hb]
      exact .cons hab .nil

namespace Graph

open Lowering

variable {g g' : Graph} {n n' : NodeId} {node node' : Node} {o o' : Output} {i i' : Input}
  {s s' : Scope}

namespace Twins

/-! ### Operands -/

theorem nodeOrFail (h : Twins g g') (hn : TwinNodes g g' n n') :
    Except.Rel (TwinRows g g') (g.nodeOrFail n) (g'.nodeOrFail n') := by
  obtain ⟨node, node', hnode, hnode', -, -, hr⟩ := h.exists_rows hn
  rw [nodeOrFail_eq_ok.mpr hnode, nodeOrFail_eq_ok.mpr hnode']
  exact .ok hr

theorem operand (h : Twins g g') (hs : TwinScopes g g' s s') (hr : TwinRows g g' node node')
    (hi : TwinInputs g g' i i') :
    Except.Rel (Same Operand.text) (g.operand s node i) (g'.operand s' node' i') := by
  have sources := h.sourceOf hi
  unfold Graph.operand
  revert sources
  generalize g.sourceOf i = x, g'.sourceOf i' = y
  rintro (ho | -)
  · refine (h.nodeOrFail ho.owners).bind fun source source' hsource => ?_
    rw [hsource.kind, hsource.name, hs.nameOf? h ho.ids, ho.name, hr.name]
    cases source.kind.member? with
    | some v => exact .ok rfl
    | none =>
      cases s.nameOf? _ with
      | some name => exact .ok rfl
      | none => exact .error _
  · exact .ok (congrArg Literal.code (h.fallback hi))

theorem operandNamed (h : Twins g g') (hs : TwinScopes g g' s s') (hr : TwinRows g g' node node')
    (name : String) : Except.Rel (Same (Option.map Operand.text)) (g.operandNamed s node name)
      (g'.operandNamed s' node' name) := by
  have found := h.inputNamed? hr.nodes name
  unfold Graph.operandNamed
  revert found
  generalize g.inputNamed? node.id name = x, g'.inputNamed? node'.id name = y
  rintro (hi | -)
  · exact (h.operand hs hr hi).map fun _ _ htext => congrArg some htext
  · exact .ok rfl

theorem connectedOperand (h : Twins g g') (hs : TwinScopes g g' s s')
    (hr : TwinRows g g' node node') (name : String) :
    Except.Rel (Same (Option.map Operand.text)) (g.connectedOperand s node name)
      (g'.connectedOperand s' node' name) := by
  have found := h.inputNamed? hr.nodes name
  unfold Graph.connectedOperand
  revert found
  generalize g.inputNamed? node.id name = x, g'.inputNamed? node'.id name = y
  rintro (hi | -)
  · simp only [h.isSome_source hi]
    split
    · exact (h.operand hs hr hi).map fun _ _ htext => congrArg some htext
    · exact .ok rfl
  · exact .ok rfl

/-! ### Assignments -/

theorem assignmentTo (h : Twins g g') (hs : TwinScopes g g' s s') (hr : TwinRows g g' node node')
    (ho : TwinOutputs g g' o o') (hi : TwinInputs g g' i i') :
    Except.Rel (Same (Option.map Assignment.text)) (g.assignmentTo s node o i)
      (g'.assignmentTo s' node' o' i') := by
  refine (h.nodeOrFail hi.owners).bind fun target target' htarget => ?_
  rw [htarget.kind, htarget.name, hs.nameOf? h ho.ids, ho.name, hi.name, hr.name]
  cases target.kind.member? with
  | none => exact .ok rfl
  | some v =>
    simp only
    split
    · exact .ok rfl
    · cases s.nameOf? o.id with
      | some name => exact .ok rfl
      | none => exact .error _

end Twins

/-- Does the input set a member variable? -/
def sets (g : Graph) (i : Input) : Bool :=
  ((g.node? i.owner).bind (·.kind.member?)).isSome && i.name == Pin.set

/-- The inputs that an output has edges to and that set member variables. -/
def settingsOf (g : Graph) (o : Output) : List Input :=
  (o.targets.filterMap g.input?).filter g.sets

/-- The edges from the data outputs of a node to inputs that set member variables. -/
def settings (g : Graph) (node : Node) : List (Output × Input) :=
  ((g.outputsOf node).filter (!·.signal.isExecution)).flatMap fun o => (g.settingsOf o).map (o, ·)

theorem settings_eq (g : Graph) (node : Node) :
    g.settings node = (g.dataEdges node).filter fun e => g.sets e.2 := by
  rw [dataEdges, List.filter_flatMap]
  refine List.flatMap_congr fun o _ => ?_
  rw [settingsOf, List.filter_map]
  rfl

theorem sets_eq_true : g.sets i = true ↔
    ∃ target, g.node? i.owner = some target ∧ target.kind.member?.isSome ∧ i.name = Pin.set := by
  cases ht : g.node? i.owner <;> simp [sets, ht]

theorem mem_settingsOf (h : g.Housed) :
    i ∈ g.settingsOf o ↔ g.input? i.id = some i ∧ i.id ∈ o.targets ∧ g.sets i = true := by
  simp only [settingsOf, List.mem_filter, List.mem_filterMap]
  constructor
  · rintro ⟨⟨j, hj, hi⟩, hsets⟩
    obtain rfl : i.id = j := h.inputs.ident_eq hi
    exact ⟨hi, hj, hsets⟩
  · rintro ⟨hi, hj, hsets⟩
    exact ⟨⟨i.id, hj, hi⟩, hsets⟩

theorem nodup_settingsOf (h : g.Reachable) (ho : g.output? o.id = some o) :
    (g.settingsOf o).Nodup := by
  refine ((h.consistent.nodup ho).filterMap fun j k i hj hk => ?_).filter _
  exact (h.housed.inputs.ident_eq hj).symm.trans (h.housed.inputs.ident_eq hk)

/-- In a graph without forks, an output has one edge at most that calls for an assignment. -/
theorem Narrow.settingsOf_unique (h : g.Narrow) (named : g.Named) (ho : g.output? o.id = some o)
    {j : Input} (hi : i ∈ g.settingsOf o) (hj : j ∈ g.settingsOf o) : i = j := by
  have reach := named.assembled.reachable
  obtain ⟨t, ht⟩ := reach.housed.exists_at_output ho
  have edge : ∀ {i}, i ∈ g.settingsOf o → g.input? i.id = some i ∧ ∃ n node,
      g.node? n = some node ∧ node.kind.member?.isSome ∧
        g.At i.toConnector ⟨node.name, Pin.set⟩ ∧ g.Wired t ⟨node.name, Pin.set⟩ := by
    intro i hi
    obtain ⟨live, listed, hsets⟩ := (mem_settingsOf reach.housed).mp hi
    obtain ⟨node, hn, hkind, hname⟩ := sets_eq_true.mp hsets
    obtain ⟨_, hlive, -, wired⟩ := reach.wired_of_mem ho listed
    obtain rfl := Option.some.inj (live.symm.trans hlive)
    have hat : g.At i.toConnector ⟨node.name, Pin.set⟩ :=
      ⟨nodeName?_eq_some.mpr ⟨node, hn, rfl⟩, hname⟩
    exact ⟨live, i.owner, node, hn, hkind, hat, wired ht hat⟩
  obtain ⟨hlive, n, node, hn, hkind, hat, wired⟩ := edge hi
  obtain ⟨hlive', m, other, hm, hkind', hat', wired'⟩ := edge hj
  rw [← h.setting hn hm hkind hkind' wired wired'] at hat'
  exact named.input_unique hlive hlive' hat hat'

/-- Only edges to inputs that set member variables call for assignments. -/
theorem assignmentTo_of_not_sets {target : Node} (ht : g.node? i.owner = some target)
    (other : g.sets i = false) : g.assignmentTo s node o i = .ok none := by
  refine Except.bind_eq_ok.mpr ⟨target, nodeOrFail_eq_ok.mpr ht, ?_⟩
  cases hkind : target.kind.member? with
  | none => rfl
  | some v =>
    have hname : i.name ≠ Pin.set := by simpa [sets, ht, hkind] using other
    exact if_pos hname

theorem assignments_eq (h : g.Housed) : g.assignments s node =
    List.filterMap id <$> (g.settings node).mapM fun (o, i) => g.assignmentTo s node o i := by
  have all : g.assignments s node =
      List.filterMap id <$> (g.dataEdges node).mapM fun (o, i) => g.assignmentTo s node o i :=
    bind_pure_comp _ _
  rw [all, settings_eq]
  refine Except.mapM_filterMap_id fun e he other => ?_
  obtain ⟨o, -, he⟩ := List.mem_flatMap.mp he
  obtain ⟨i, hi, rfl⟩ := List.mem_map.mp he
  obtain ⟨j, -, hi⟩ := List.mem_filterMap.mp hi
  obtain ⟨target, ht⟩ := h.inputs.owner_live hi
  exact assignmentTo_of_not_sets ht other

namespace Twins

theorem sets (h : Twins g g') (hi : TwinInputs g g' i i') : g'.sets i' = g.sets i := by
  obtain ⟨target, target', ht, ht', -, -, hr⟩ := h.exists_rows hi.owners
  simp [Graph.sets, ht, ht', hr.kind, hi.name]

/-- A setting has its counterpart. -/
theorem exists_setting (h : Twins g g') (ho : TwinOutputs g g' o o') (hi : i ∈ g.settingsOf o) :
    ∃ i' ∈ g'.settingsOf o', TwinInputs g g' i i' := by
  obtain ⟨live, listed, hsets⟩ := (mem_settingsOf h.left.assembled.reachable.housed).mp hi
  obtain ⟨_, i', hlive, -, listed', twins⟩ := h.exists_target ho listed
  obtain rfl := Option.some.inj (live.symm.trans hlive)
  refine ⟨i', (mem_settingsOf h.right.assembled.reachable.housed).mpr ?_, twins⟩
  exact ⟨twins.live', listed', h.sets twins ▸ hsets⟩

theorem settingsOf (h : Twins g g') (narrow : g.Narrow) (ho : TwinOutputs g g' o o') :
    Forall₂ (TwinInputs g g') (g.settingsOf o) (g'.settingsOf o') := by
  refine forall₂_of_subsingleton (nodup_settingsOf h.left.assembled.reachable ho.live)
    (fun _ hi _ hj => narrow.settingsOf_unique h.left ho.live hi hj)
    (nodup_settingsOf h.right.assembled.reachable ho.live')
    (fun _ hi _ hj => (h.narrow narrow).settingsOf_unique h.right ho.live' hi hj)
    (fun i hi => h.exists_setting ho hi) fun i' hi' => ?_
  obtain ⟨i, hi, -⟩ := h.symm.exists_setting ho.symm hi'
  exact ⟨i, hi⟩

theorem dataOutputs (h : Twins g g') (hr : TwinRows g g' node node') :
    Forall₂ (TwinOutputs g g') ((g.outputsOf node).filter (!·.signal.isExecution))
      ((g'.outputsOf node').filter (!·.signal.isExecution)) :=
  List.rel_filter (fun o o' ho => by simp [ho.signal]) (h.outputsOf hr)

theorem assignments (h : Twins g g') (narrow : g.Narrow) (hs : TwinScopes g g' s s')
    (hr : TwinRows g g' node node') :
    Except.Rel (Same (List.map Assignment.text)) (g.assignments s node)
      (g'.assignments s' node') := by
  rw [assignments_eq h.left.assembled.reachable.housed,
    assignments_eq h.right.assembled.reachable.housed]
  have edges : Forall₂ (fun e e' => TwinOutputs g g' e.1 e'.1 ∧ TwinInputs g g' e.2 e'.2)
      (g.settings node) (g'.settings node') :=
    List.rel_flatMap (h.dataOutputs hr) fun o o' ho =>
      List.rel_map (fun i i' hi => ⟨ho, hi⟩) (h.settingsOf narrow ho)
  refine (Except.Rel.mapM edges fun e e' ⟨ho, hi⟩ => h.assignmentTo hs hr ho hi).map
    fun found found' hfound => ?_
  have collected : ∀ l : List (Option Assignment), (l.filterMap id).map Assignment.text =
      (l.map (Option.map Assignment.text)).filterMap id := fun l => by
    rw [List.map_filterMap, List.filterMap_map]
    rfl
  rw [Same, collected, collected, map_eq_of_forall₂ hfound]

end Twins

/-! ### Calls -/

namespace Twins

theorem calleeOf (hr : TwinRows g g' node node') :
    Graph.calleeOf node' = Graph.calleeOf node := by
  simp only [Graph.calleeOf, hr.kind, hr.name]

theorem castOf (ho : TwinOutputs g g' o o') (f : FunctionDecl) :
    Graph.castOf f o' = Graph.castOf f o := by
  simp only [Graph.castOf, ho.signal, ho.className]

theorem callResult (h : Twins g g') (hr : TwinRows g g' node node') (f : FunctionDecl) :
    Mirrors g g' (Same fun r => (r.1.map Prod.snd, r.2)) (g.callResult node f)
      (g'.callResult node' f) := by
  have found := h.outputNamed? hr.nodes Pin.result
  unfold Graph.callResult
  revert found
  generalize g.outputNamed? node.id Pin.result = x, g'.outputNamed? node'.id Pin.result = y
  rintro (@⟨o, o', ho⟩ | -)
  · simp only [h.targets_eq_nil_iff ho, castOf ho]
    split
    · exact .pure rfl
    · exact (Mirrors.bindFresh h ho _).bind fun name _ hname => .pure (hname ▸ rfl)
  · exact .pure rfl

theorem argument (h : Twins g g') (hr : TwinRows g g' node node') (archetype : Option Archetype)
    (p : Parameter) : Mirrors g g' (Same Argument.text) (g.argument node archetype p)
      (g'.argument node' archetype p) := by
  have passed : Mirrors g g' (Same Argument.text) (g.argument node none p)
      (g'.argument node' none p) := by
    unfold Graph.argument
    simp only
    split
    · exact .pure rfl
    split
    · have found := h.outputNamed? hr.nodes p.name
      revert found
      generalize g.outputNamed? node.id p.name = x, g'.outputNamed? node'.id p.name = y
      rintro (ho | -)
      · exact (Mirrors.bindFresh h ho _).bind fun name name' hname => .pure hname.symm
      · exact .pure rfl
    · have found := h.inputNamed? hr.nodes p.name
      revert found
      generalize g.inputNamed? node.id p.name = x, g'.inputNamed? node'.id p.name = y
      rintro (hi | -)
      · exact (Mirrors.reading fun s s' hs => h.operand hs hr hi).bind fun _ _ htext => .pure htext
      · exact .pure rfl
  cases archetype with
  | none => exact passed
  | some a =>
    by_cases hp : p.name = archetypeParameter
    · have given : Mirrors g g' (Same Argument.text) (pure (.archetype a))
          (pure (.archetype a)) := .pure rfl
      simpa [Graph.argument, hp] using given
    · simpa [Graph.argument, hp] using passed

theorem callForm (h : Twins g g') (hr : TwinRows g g' node node') (f : FunctionDecl)
    {as as' : List Argument} (has : Forall₂ (Same Argument.text) as as') :
    Mirrors g g' (Same CallForm.text) (g.callForm node f as) (g'.callForm node' f as') := by
  have texts := map_eq_of_forall₂ has
  have empty : as' = [] ↔ as = [] := by
    rw [← List.map_eq_nil_iff (f := Argument.text), texts, List.map_eq_nil_iff]
  unfold Graph.callForm
  split
  · -- an operator that is not given two arguments is refused, with their number
    rw [hr.name, ← has.length_eq]
    obtain _ | @⟨a, a', _, _, ha, _ | @⟨b, b', _, _, hb, _ | _⟩⟩ := has
    · exact .throw _
    · exact .throw _
    · exact .pure (by simp only [Same, CallForm.text, ha, hb])
    · exact .throw _
  · refine (Mirrors.reading fun s s' hs => h.connectedOperand hs hr Pin.target).bind
      fun target target' htarget => .pure ?_
    have prefixed : ∀ t : Option Operand,
        t.elim "" (·.text ++ ".") = (t.map Operand.text).elim "" (· ++ ".") := fun t => by
      cases t <;> rfl
    simp only [Same, CallForm.text, empty, texts, prefixed, htarget]

theorem callStatement (h : Twins g g') (hn : TwinNodes g g' n n') :
    Mirrors g g' (Same CallStatement.text) (g.callStatement n) (g'.callStatement n') := by
  refine (Mirrors.ofExcept (h.nodeOrFail hn)).bind fun node node' hr => ?_
  rw [calleeOf hr]
  cases Graph.calleeOf node with
  | error e => exact .throw e
  | ok callee =>
    obtain ⟨f, archetype⟩ := callee
    refine (h.callResult hr f).bind fun result result' hresult => ?_
    have arguments : Mirrors g g' (Forall₂ (Same Argument.text))
        (f.arguments.mapM (g.argument node archetype))
        (f.arguments.mapM (g'.argument node' archetype)) :=
      .mapM (List.forall₂_same.mpr fun p _ => rfl) fun p _ hp => hp ▸ h.argument hr archetype p
    refine arguments.bind fun as as' has => ?_
    refine (h.callForm hr f has).bind fun form form' hform => .pure ?_
    have assigned : ∀ r : Option (OutputId × String),
        r.elim "" (·.2 ++ " = ") = (r.map Prod.snd).elim "" (· ++ " = ") := fun r => by
      cases r <;> rfl
    obtain ⟨hvariable, hcast⟩ := Prod.mk.inj hresult
    simp only [Same, CallStatement.text, assigned, hvariable, hcast, hform]

/-! ### Calls without effects -/

section Search

variable {search search' : List NodeId → NodeId → Lowering (List NodeId)}

theorem consult (h : Twins g g')
    (below : ∀ on on' q q', Forall₂ (TwinNodes g g') on on' → TwinNodes g g' q q' →
      Mirrors g g' (Forall₂ (TwinNodes g g')) (search on q) (search' on' q'))
    {on on' order order' : List NodeId} (hon : Forall₂ (TwinNodes g g') on on')
    (horder : Forall₂ (TwinNodes g g') order order') (hn : TwinNodes g g' n n') :
    Mirrors g g' (Forall₂ (TwinNodes g g')) (g.consult search on order n)
      (g'.consult search' on' order' n') := by
  have same : on'.contains n' = on.contains n := by
    rw [Bool.eq_iff_iff, List.contains_iff_mem, List.contains_iff_mem]
    exact (List.rel_mem h.biUnique_nodes hn hon).symm
  refine (Mirrors.ofExcept (h.nodeOrFail hn)).bind fun node node' hr => ?_
  rw [hr.kind, hr.name, same]
  split
  · exact .pure horder
  split
  · exact .throw _
  refine (Mirrors.isVisited h hn).bind fun seen _ hseen => ?_
  subst hseen
  split
  · exact .pure horder
  refine (below _ _ _ _ (.cons hn hon) hn).bind fun before before' hbefore => ?_
  refine (Mirrors.visit hn).bind fun _ _ _ => .pure ?_
  exact List.rel_append (List.rel_append horder hbefore) (.cons hn .nil)

theorem neededCalls_of_fuel (h : Twins g g') (fuel : Nat) {on on' : List NodeId}
    (hon : Forall₂ (TwinNodes g g') on on') (hn : TwinNodes g g' n n') :
    Mirrors g g' (Forall₂ (TwinNodes g g')) (g.neededCalls fuel on n)
      (g'.neededCalls fuel on' n') := by
  induction fuel generalizing on on' n n' with
  | zero =>
    exact (Mirrors.ofExcept (h.nodeOrFail hn)).bind fun node node' hr => hr.name ▸ .throw _
  | succ fuel ih =>
    refine (Mirrors.ofExcept (h.nodeOrFail hn)).bind fun node node' hr => ?_
    exact .foldlM (h.dataSources hr) (fun order order' q q' horder hq =>
      h.consult (fun _ _ _ _ hon hq => ih hon hq) hon horder hq) .nil

/-- The searches go in step, although each has the fuel for its own graph. -/
theorem neededCalls (h : Twins g g') (hn : TwinNodes g g' n n') :
    Mirrors g g' (Forall₂ (TwinNodes g g')) (g.neededCalls (g.nodeCount + 1) [] n)
      (g'.neededCalls (g'.nodeCount + 1) [] n') := by
  have more := h.neededCalls_of_fuel (g.nodeCount + g'.nodeCount + 1) .nil hn
  rwa [neededCalls_of_lt h.left.assembled.reachable.housed (by omega),
    neededCalls_of_lt h.right.assembled.reachable.housed (by omega)] at more

end Search

theorem pureCalls (h : Twins g g') (hn : TwinNodes g g' n n') :
    Mirrors g g' (Same Block.lines) (g.pureCalls n) (g'.pureCalls n') := by
  refine (h.neededCalls hn).bind fun order order' horder => ?_
  refine (Mirrors.mapM horder fun q q' hq => h.callStatement hq).bind fun sts sts' hsts => .pure ?_
  have texts := congrArg (List.map Line.flat) (map_eq_of_forall₂ hsts)
  simpa [Same, Function.comp_def] using texts

/-! ### The flow of control -/

section Flow

variable {lower lower' : NodeId → Lowering Block}

/-- The texts of assignments are all that shows of them. -/
theorem lines_assigns_eq (l : List Assignment) :
    (Block.assigns l).lines = (l.map Assignment.text).map .flat := by
  simp [Function.comp_def]

theorem textOrNone_eq (o : Option Operand) :
    Operand.textOrNone o = (o.map Operand.text).getD "" := by
  cases o <;> rfl

/-- The line that opens a loop shows the counter and the text of the bound. -/
theorem text_congr {l l' : LoopHeader} (hcounter : l'.counter = l.counter)
    (hbound : Same (Option.map Operand.text) l.bound l'.bound) : l'.text = l.text := by
  have same : Operand.textOrNone l'.bound = Operand.textOrNone l.bound := by
    rw [textOrNone_eq, textOrNone_eq, hbound]
  delta LoopHeader.text
  rw [hcounter, same]

/-- What the lowering of nodes of one name does, as far as it goes. -/
def Lowers (g g' : Graph) (lower lower' : NodeId → Lowering Block) : Prop :=
  ∀ n n', TwinNodes g g' n n' → Mirrors g g' (Same Block.lines) (lower n) (lower' n')

theorem lowerBehind (h : Twins g g') (narrow : g.Narrow) (below : Lowers g g' lower lower')
    (hn : TwinNodes g g' n n') {pin : String} (exit : g.Exit (n, pin)) (blame : Blame) :
    Mirrors g g' (Same Block.lines) (g.lowerBehind lower n pin blame)
      (g'.lowerBehind lower' n' pin blame) := by
  have found := h.successor? narrow hn exit
  unfold Graph.lowerBehind
  revert found
  generalize g.successor? n pin = x, g'.successor? n' pin = y
  rintro (@⟨next, next', hnext⟩ | -)
  · refine (Mirrors.isVisited h hnext).bind fun seen _ hseen => ?_
    subst hseen
    split
    · have culprit : TwinNodes g g' (if blame = .source then n else next)
          (if blame = .source then n' else next') := by
        split
        exacts [hn, hnext]
      refine (Mirrors.ofExcept (h.nodeOrFail culprit)).bind fun node node' hr => ?_
      rw [hr.name]
      exact (Mirrors.throw (R := Same id) _).bind fun _ _ _ => below next next' hnext
    · exact below next next' hnext
  · exact .pure rfl

theorem lowerKind (h : Twins g g') (narrow : g.Narrow) (below : Lowers g g' lower lower')
    (hr : TwinRows g g' node node') :
    Mirrors g g' (Same Block.lines) (g.lowerKind lower node) (g'.lowerKind lower' node') := by
  have hn := hr.nodes
  have behind : ∀ pin blame, pin ∈ node.kind.followed →
      Mirrors g g' (Same Block.lines) (g.lowerBehind lower node.id pin blame)
        (g'.lowerBehind lower' node'.id pin blame) := fun pin blame hpin =>
    h.lowerBehind narrow below hn ⟨node, hr.live, hpin⟩ blame
  unfold Graph.lowerKind
  rw [hr.kind, hr.name]
  cases hkind : node.kind with
  | call callee =>
    rw [hkind] at behind
    refine (h.pureCalls hn).bind fun needed needed' hneeded => ?_
    refine (h.callStatement hn).bind fun st st' hst => ?_
    refine (Mirrors.ofExcept (h.nodeOrFail hn)).bind fun row row' hrow => ?_
    refine (Mirrors.reading fun s s' hs => h.assignments narrow hs hrow).bind
      fun assigned assigned' hassigned => ?_
    refine (behind _ _ (by simp [NodeKind.followed])).bind fun after after' hafter => .pure ?_
    simp only [Same, Block.lines_append, Block.lines, lines_assigns_eq, hneeded, hst, hassigned,
      hafter]
  | branch =>
    rw [hkind] at behind
    refine (h.pureCalls hn).bind fun needed needed' hneeded => ?_
    refine (Mirrors.ofExcept (h.nodeOrFail hn)).bind fun row row' hrow => ?_
    refine (Mirrors.reading fun s s' hs => h.operandNamed hs hrow _).bind
      fun condition condition' hcondition => ?_
    refine (behind _ _ (by simp [NodeKind.followed])).bind fun onTrue onTrue' htrue => ?_
    refine (behind _ _ (by simp [NodeKind.followed])).bind fun onFalse onFalse' hfalse => .pure ?_
    simp only [Same, Block.lines_append, Block.lines, textOrNone_eq, hneeded, hcondition, htrue,
      hfalse]
  | loop =>
    rw [hkind] at behind
    refine (h.pureCalls hn).bind fun needed needed' hneeded => ?_
    refine (Mirrors.ofExcept (h.nodeOrFail hn)).bind fun row row' hrow => ?_
    refine (Mirrors.reading fun s s' hs => h.operandNamed hs hrow _).bind
      fun bound bound' hbound => ?_
    refine (Mirrors.fresh _).bind fun counter _ hcounter => ?_
    subst hcounter
    have rest : Mirrors g g' (Same Block.lines) (do
        let assigned ← reading fun s => g.assignments s row
        let body ← g.lowerBehind lower node.id Pin.body .target
        let after ← g.lowerBehind lower node.id Pin.afterLoop .target
        return needed ++ .loop ⟨node.id, counter, bound⟩ (.assigns assigned ++ body) after) (do
        let assigned ← reading fun s => g'.assignments s row'
        let body ← g'.lowerBehind lower' node'.id Pin.body .target
        let after ← g'.lowerBehind lower' node'.id Pin.afterLoop .target
        return needed' ++ .loop ⟨node'.id, counter, bound'⟩ (.assigns assigned ++ body)
          after) := by
      refine (Mirrors.reading fun s s' hs => h.assignments narrow hs hrow).bind
        fun assigned assigned' hassigned => ?_
      refine (behind _ _ (by simp [NodeKind.followed])).bind fun body body' hbody => ?_
      refine (behind _ _ (by simp [NodeKind.followed])).bind fun after after' hafter => .pure ?_
      have header : LoopHeader.text ⟨node'.id, counter, bound'⟩ =
          LoopHeader.text ⟨node.id, counter, bound⟩ := text_congr rfl hbound
      simp only [Same, Block.lines_append, Block.lines, lines_assigns_eq, header, hneeded,
        hassigned, hbody, hafter]
    have found := h.outputNamed? hn Pin.counter
    revert found
    generalize g.outputNamed? node.id Pin.counter = x, g'.outputNamed? node'.id Pin.counter = y
    rintro (ho | -)
    · exact (Mirrors.modify fun s s' hs => hs.bind h ho.ids counter).bind fun _ _ _ => rest
    · exact rest
  | event _ _ | pureCall _ | member _ => exact .throw _

theorem lowers_of_fuel (h : Twins g g') (narrow : g.Narrow) (fuel : Nat) :
    Lowers g g' (g.lowerUpTo fuel) (g'.lowerUpTo fuel) := by
  induction fuel with
  | zero =>
    exact fun n n' hn =>
      (Mirrors.ofExcept (h.nodeOrFail hn)).bind fun node node' hr => hr.name ▸ .throw _
  | succ fuel ih =>
    intro n n' hn
    refine (Mirrors.visit hn).bind fun _ _ _ => ?_
    exact (Mirrors.ofExcept (h.nodeOrFail hn)).bind fun node node' hr => h.lowerKind narrow ih hr

/-- Lowering goes in step, although each graph has fuel for its own nodes. -/
theorem lowers (h : Twins g g') (narrow : g.Narrow) : Lowers g g' g.lower g'.lower := by
  have more := h.lowers_of_fuel narrow (g.nodeCount + g'.nodeCount + 1)
  rwa [lowerUpTo_of_lt h.left.assembled.reachable.housed (by omega),
    lowerUpTo_of_lt h.right.assembled.reachable.housed (by omega)] at more

end Flow

/-! ### Events -/

theorem typeCode (ho : TwinOutputs g g' o o') : o'.typeCode = o.typeCode := by
  simp only [Connector.typeCode, ho.signal, ho.className]

theorem localOf (h : Twins g g') {v v' : OutputId × String}
    (hv : TwinOutputIds g g' v.1 v'.1 ∧ v'.2 = v.2) :
    Except.Rel (· = ·) (g.localOf v) (g'.localOf v') := by
  obtain ⟨⟨o, o', ho, hid, hid'⟩, hname⟩ := hv
  simp only [Graph.localOf, ← hid, ← hid', ho.live, ho.live']
  refine (h.nodeOrFail ho.owners).bind fun owner owner' hr => ?_
  rw [hr.kind, typeCode ho, hname]
  split
  · exact .ok rfl
  · exact .ok rfl

theorem locals (h : Twins g g') (hs : TwinScopes g g' s s') :
    Except.Rel (· = ·) (g.locals s) (g'.locals s') := by
  have locals := Except.Rel.mapM hs.bindings fun v v' hv => h.localOf hv
  refine locals.bind fun found found' hfound => ?_
  rw [List.forall₂_eq_eq_eq] at hfound
  exact .ok (hfound ▸ rfl)

theorem eventName (hr : TwinRows g g' node node') :
    Graph.eventName node' = Graph.eventName node := by
  simp only [Graph.eventName, hr.kind, hr.name]

/-- Event scripts of one text have one header and one body, or none. -/
theorem lines_congr {script script' : EventScript} (hheader : script'.header = script.header)
    (hlocals : script'.locals = script.locals)
    (hbody : script'.body.map Block.lines = script.body.map Block.lines) :
    script'.lines = script.lines := by
  have inner : ∀ script : EventScript, script.bodyLines =
      (script.body.map Block.lines).elim [] fun lines =>
        script.locals.map (fun d => ⟨1, "local " ++ d.text ++ ";"⟩) ++ [.flat ""] ++
          lines.indented := fun script => by
    unfold EventScript.bodyLines
    cases script.body <;> rfl
  rw [EventScript.lines, EventScript.lines, hheader, inner, inner, hlocals, hbody]

theorem exit_of_eventName (hr : TwinRows g g' node node') {name : String}
    (hname : Graph.eventName node = .ok name) : g.Exit (node.id, Pin.done) := by
  refine ⟨node, hr.live, ?_⟩
  unfold Graph.eventName at hname
  split at hname
  · rename_i hkind
    simp [hkind, NodeKind.followed]
  · cases hname
  · cases hname

theorem lowerEvent (h : Twins g g') (narrow : g.Narrow) (hn : TwinNodes g g' n n') :
    Mirrors g g' (Same EventScript.lines) (g.lowerEvent n) (g'.lowerEvent n') := by
  obtain ⟨node, node', hnode, hnode', rfl, rfl, hr⟩ := h.exists_rows hn
  unfold Graph.lowerEvent lowerEventBy
  rw [nodeOrFail_eq_ok.mpr hnode, nodeOrFail_eq_ok.mpr hnode', ofExcept_ok_bind, ofExcept_ok_bind,
    eventName hr]
  cases hevent : Graph.eventName node with
  | error e => exact .throw e
  | ok name =>
    have exit := exit_of_eventName hr hevent
    have parameters := h.dataOutputs hr
    rw [ofExcept_ok_bind, ofExcept_ok_bind]
    refine (Mirrors.visit hn).bind fun _ _ _ => ?_
    refine (Mirrors.forM parameters fun o o' ho => ?_).bind fun _ _ _ => ?_
    · rw [ho.name]
      exact .modify fun s s' hs => hs.bind h ho.ids o.name
    have declared := map_eq_of_forall₂ (parameters.imp fun o o' ho =>
      show (⟨o'.typeCode, o'.name⟩ : VariableDecl) = ⟨o.typeCode, o.name⟩ by
        rw [typeCode ho, ho.name])
    have leads : (g'.successor? node'.id Pin.done).isNone =
        (g.successor? node.id Pin.done).isNone := by
      have found := h.successor? narrow hn exit
      revert found
      generalize g.successor? node.id Pin.done = x, g'.successor? node'.id Pin.done = y
      rintro (_ | -) <;> rfl
    simp only [declared, leads]
    split
    · exact .pure rfl
    · refine (h.lowerBehind narrow (h.lowers narrow) hn exit .source).bind
        fun body body' hbody => ?_
      refine (Mirrors.reading fun s s' hs => h.locals hs).bind fun locals _ hlocals => .pure ?_
      subst hlocals
      exact lines_congr rfl rfl (congrArg some hbody)

theorem scriptOf (h : Twins g g') (narrow : g.Narrow) (hn : TwinNodes g g' n n') :
    Except.Rel (Same EventScript.lines) (g.scriptOf n) (g'.scriptOf n') := by
  refine (h.nodeOrFail hn).bind fun node node' hr => ?_
  rw [hr.kind, hr.name]
  split
  · exact .error _
  · exact (h.lowerEvent narrow hn {} {} ⟨rfl, .nil, .nil⟩).1

/-- **The numbering of a graph does not show.** In twin graphs without forks, nodes of one name
compile to one text, or fail with one error. -/
theorem compileEvent_eq (h : Twins g g') (narrow : g.Narrow) (hn : TwinNodes g g' n n')
    (style : Style) : g'.compileEvent style n' = g.compileEvent style n := by
  unfold compileEvent
  have scripts := h.scriptOf narrow hn
  revert scripts
  generalize g.scriptOf n = x, g'.scriptOf n' = y
  rintro (@⟨script, script', hlines⟩ | e)
  · exact congrArg (fun lines => Except.ok (lines.render style.indent)) hlines
  · rfl

end Twins

end Graph

end NodeScript
