import NodeScript.Proofs.Lowering.Coverage
import NodeScript.Proofs.Lowering.Given

/-!
# Which variables are declared

The variables that the calls and loops of a script are given all have different names
(`Lowered.gives`), and a script declares the variables that the outputs have in the end. So a
variable is declared exactly if its output got no other later. In an assembled graph this fails for
one kind of call only: if a call without a return value passes a parameter out under the name of the
output for the result, then this output gets a variable twice, and the first of them, which takes
what the call returns, is not declared (`declared_iff`).
-/

namespace NodeScript

/-! ### What a block gives variables to -/

/-- A statement that variables are given to. -/
inductive Setter where
  | call (statement : CallStatement)
  | loop (header : LoopHeader)

/-- The node that the statement comes from. -/
def Setter.node : Setter → NodeId
  | call st => st.node
  | loop header => header.node

/-- The line of the statement is that of this head. -/
def Setter.head : Setter → Head
  | call st => .call st
  | loop header => .loop header

/-- The form of the statement. -/
def Setter.form : Setter → Form
  | call _ => .call
  | loop _ => .loop

namespace Block

/-- The calls and loops of a block in the order of its text. -/
def setters : Block → List Setter
  | done => []
  | call s rest => .call s :: rest.setters
  | assign _ rest => rest.setters
  | branch _ _ t f rest => t.setters ++ (f.setters ++ rest.setters)
  | loop h body rest => .loop h :: (body.setters ++ rest.setters)

@[simp] theorem setters_append (a b : Block) : (a ++ b).setters = a.setters ++ b.setters := by
  show (a.append b).setters = a.setters ++ b.setters
  induction a <;> simp_all [append, setters]

@[simp] theorem setters_calls (ss : List CallStatement) : (calls ss).setters = ss.map .call := by
  induction ss with
  | nil => rfl
  | cons s ss ih => simpa [calls, setters] using ih

@[simp] theorem setters_assigns (ss : List Assignment) : (assigns ss).setters = [] := by
  induction ss with
  | nil => rfl
  | cons s ss ih => simpa [assigns, setters] using ih

/-- The statements that variables are given to are among those of the block. -/
theorem setters_sublist (b : Block) :
    (b.setters.map fun x => (x.form, x.node)).Sublist b.emitted := by
  induction b with
  | done => exact .slnil
  | call s rest ih => exact ih.cons_cons _
  | assign s rest ih => exact ih
  | branch n c t f rest iht ihf ih =>
    simpa [setters, emitted] using ((iht.append (ihf.append ih)).cons (Form.branch, n))
  | loop h body rest ihb ih =>
    have below := ihb.append ih
    rw [← List.map_append] at below
    exact below.cons_cons _

end Block

namespace Graph

open Lowering

variable {g : Graph} {m n : NodeId} {node : Node} {pin : String} {s s' : Scope} {b : Block}
  {x : Setter} {v : Variable}

/-- The variables that a statement is given: a loop is given its counter, for the output that shows
it. -/
def givenTo (g : Graph) : Setter → List Variable
  | .call st => st.given
  | .loop header =>
    ((g.outputNamed? header.node Pin.counter).map fun output => (output.id, header.counter)).toList

/-- The line of a statement sets the variables that the statement is given. -/
theorem sets_of_givenTo (hv : v ∈ g.givenTo x) : x.head.Sets v x.head.text := by
  cases x with
  | call st =>
    rcases List.mem_append.mp hv with hv | hv
    · exact Head.sets_of_result (Option.mem_toList.mp hv)
    · exact Head.sets_of_argument hv
  | loop header =>
    obtain ⟨output, -, rfl⟩ := Option.map_eq_some_iff.mp (Option.mem_toList.mp hv)
    exact .counter output.id header (Operand.textOrNone header.bound)

/-- The statement was made for its node. -/
inductive Made (g : Graph) : Setter → Prop
  | call {st t t'} (makes : g.Makes st.node t st t') : Made g (.call st)
  | loop {header node t t'} (live : g.node? header.node = some node) (kind : node.kind = .loop)
    (counts : g.Counts header.node t header.counter t') : Made g (.loop header)

theorem MakesAll.made {ns : List NodeId} {sts : List CallStatement}
    (hsts : g.MakesAll s ns sts s') (hx : x ∈ sts.map Setter.call) : g.Made x := by
  induction hsts with
  | nil => cases hx
  | cons hst _ ih =>
    rcases List.mem_cons.mp hx with rfl | hx
    · exact .call (hst.node ▸ hst)
    · exact ih hx

theorem Counts.gives {header : LoopHeader} (h : g.Counts header.node s header.counter s') :
    Gives s (g.givenTo (.loop header)) s' := by
  cases hc : g.outputNamed? header.node Pin.counter with
  | none => simpa [givenTo, hc] using Gives.of_fresh (h.hidden hc)
  | some output => simpa [givenTo, hc] using Gives.of_bindFresh (h.shown output hc)

theorem MakesAll.gives (h : g.Housed) {ns : List NodeId} {sts : List CallStatement}
    (hsts : g.MakesAll s ns sts s') : Gives s ((sts.map .call).flatMap g.givenTo) s' := by
  induction hsts with
  | nil => exact .nil
  | cons hst _ ih => exact (gives_callStatement h hst.returns).1.append ih

theorem Enters.gives (h : g.Housed) {order : List NodeId} {calls : List CallStatement}
    (he : g.Enters n node s order calls s') :
    Gives s ((Block.calls calls).setters.flatMap g.givenTo) s' := by
  rw [Block.setters_calls]
  exact .of_visited (he.makes.gives h)

namespace Lowered

/-- **Lowering gives variables to the calls and loops of the block, in the order of its text.** -/
theorem gives (h : g.Lowered m pin s b s') (housed : g.Housed) :
    Gives s (b.setters.flatMap g.givenTo) s' := by
  induction h with
  | nothing => exact .nil
  | @call _ _ _ _ _ _ _ _ _ st _ _ _ _ _ _ enters makes _ _ ih =>
    have called : Gives _ (g.givenTo (.call st)) _ :=
      (gives_callStatement housed makes.returns).1
    have all := (enters.gives housed).append (called.append ih)
    simpa only [Block.setters_append, Block.setters, Block.setters_assigns, List.nil_append,
      List.flatMap_append, List.flatMap_cons] using all
  | branch _ _ enters _ _ _ ihTrue ihFalse =>
    have all := (enters.gives housed).append (ihTrue.append ihFalse)
    simpa only [Block.setters_append, Block.setters, List.append_nil, List.flatMap_append]
      using all
  | @loop _ _ n _ _ _ _ _ bound counter _ _ _ _ _ _ _ _ enters _ counts _ _ _ ihBody ihRest =>
    have counted : Gives _ (g.givenTo (.loop ⟨n, counter, bound⟩)) _ := Counts.gives counts
    have all := (enters.gives housed).append (counted.append (ihBody.append ihRest))
    simpa only [Block.setters_append, Block.setters, Block.setters_assigns, List.nil_append,
      List.flatMap_append, List.flatMap_cons] using all

theorem eq_done (h : g.Lowered m pin s b s') (next : g.successor? m pin = none) : b = .done := by
  cases h with
  | nothing => rfl
  | call hnext | branch hnext | loop hnext => cases next.symm.trans hnext

/-- Every call and loop of a block was made for its node. -/
theorem made (h : g.Lowered m pin s b s') (hx : x ∈ b.setters) : g.Made x := by
  induction h with
  | nothing => cases hx
  | call _ _ enters makes _ _ ih =>
    simp only [Block.setters_append, Block.setters, Block.setters_assigns, List.nil_append,
      Block.setters_calls, List.mem_append, List.mem_cons] at hx
    rcases hx with hx | rfl | hx
    · exact enters.makes.made hx
    · exact .call (makes.node ▸ makes)
    · exact ih hx
  | branch _ _ enters _ _ _ ihTrue ihFalse =>
    simp only [Block.setters_append, Block.setters, List.append_nil, Block.setters_calls,
      List.mem_append] at hx
    rcases hx with hx | hx | hx
    · exact enters.makes.made hx
    · exact ihTrue hx
    · exact ihFalse hx
  | loop _ kind enters _ counts _ _ _ ihBody ihRest =>
    simp only [Block.setters_append, Block.setters, Block.setters_assigns, List.nil_append,
      Block.setters_calls, List.mem_append, List.mem_cons] at hx
    rcases hx with hx | rfl | hx | hx
    · exact enters.makes.made hx
    · exact .loop enters.live kind counts
    · exact ihBody hx
    · exact ihRest hx

/-- A statement is given variables for outputs of its own node. -/
theorem owned_givenTo (h : g.Lowered m pin s b s') (housed : g.Housed) (hx : x ∈ b.setters)
    (hv : v ∈ g.givenTo x) : g.ownerOf? v.1 = some x.node := by
  cases h.made hx with
  | call makes => exact makes.owned v (List.mem_append.mpr (List.mem_append.mp hv).symm)
  | loop _ _ _ =>
    obtain ⟨output, houtput, rfl⟩ := Option.map_eq_some_iff.mp (Option.mem_toList.mp hv)
    exact ownerOf?_outputNamed? housed houtput

/-- No two calls or loops come from one node. -/
theorem nodup_setters (h : g.Lowered m pin s b s') (hs : s.visited.Nodup) :
    (b.setters.map Setter.node).Nodup := by
  have distinct := (List.nodup_append'.mp (h.emitted_nodup hs)).1
  have part := b.setters_sublist.map Prod.snd
  rw [List.map_map] at part
  exact part.nodup distinct

/-- An output keeps the last variable that its own statement is given for it. -/
theorem nameOf?_of_last (h : g.Lowered m pin s b s') (housed : g.Housed) (hs : s.visited.Nodup)
    (hx : x ∈ b.setters) {l l' : List Variable} (hgiven : g.givenTo x = l ++ v :: l')
    (last : v.1 ∉ l'.map (·.1)) : s'.nameOf? v.1 = some v.2 := by
  obtain ⟨pre, post, hsetters⟩ := List.append_of_mem hx
  have gives := h.gives housed
  have distinct := h.nodup_setters hs
  have hv := h.owned_givenTo housed hx (v := v) (by simp [hgiven])
  have later : v.1 ∉ (post.flatMap g.givenTo).map (·.1) := by
    intro hmem
    obtain ⟨w, hw, hwv⟩ := List.mem_map.mp hmem
    obtain ⟨y, hy, hw⟩ := List.mem_flatMap.mp hw
    have hyb : y ∈ b.setters := by simp [hsetters, hy]
    -- what comes later is given to outputs of other nodes
    have hother := h.owned_givenTo housed hyb hw
    rw [hwv, hv] at hother
    rw [hsetters, List.map_append, List.map_cons] at distinct
    refine (List.nodup_cons.mp (List.nodup_append'.mp distinct).2.1).1 ?_
    exact Option.some.inj hother ▸ List.mem_map_of_mem hy
  rw [hsetters, List.flatMap_append, List.flatMap_cons, hgiven, List.append_assoc,
    List.cons_append, ← List.append_assoc] at gives
  refine gives.nameOf?_append ?_
  rw [List.map_append, List.mem_append]
  exact not_or.mpr ⟨last, later⟩

end Lowered

/-! ### Declarations -/

/-- The declaration of a variable, unless it is a parameter. -/
def declarationOf (g : Graph) (v : Variable) : Option VariableDecl :=
  (g.output? v.1).bind fun output => (g.node? output.owner).bind fun owner =>
    if owner.kind.isEvent then none else some ⟨output.typeCode, v.2⟩

theorem localOf_eq (h : g.Housed) (v : Variable) : g.localOf v = .ok (g.declarationOf v) := by
  unfold localOf declarationOf
  cases ho : g.output? v.1 with
  | none => rfl
  | some output =>
    obtain ⟨owner, howner⟩ := h.output_owner ho
    simp only [nodeOrFail_eq_ok.mpr howner, Option.bind_some, howner]
    show (if owner.kind.isEvent then Except.ok none else Except.ok (some _)) = _
    split <;> rfl

/-- The variables of a scope are declared in the order of the scope. -/
theorem locals_eq (h : g.Housed) (s : Scope) :
    g.locals s = .ok (s.bindings.filterMap g.declarationOf) := by
  have all : s.bindings.mapM g.localOf = .ok (s.bindings.map g.declarationOf) := by
    rw [funext (localOf_eq h)]
    exact List.mapM_pure
  unfold locals
  rw [all]
  show Except.ok _ = _
  rw [List.filterMap_map]
  rfl

theorem name_of_declarationOf {d : VariableDecl} (h : g.declarationOf v = some d) :
    d.name = v.2 := by
  obtain ⟨output, -, h⟩ := Option.bind_eq_some_iff.mp h
  obtain ⟨owner, -, h⟩ := Option.bind_eq_some_iff.mp h
  split at h
  · cases h
  · exact Option.some.inj h ▸ rfl

/-- There is one declaration of a variable if no other variable of its name is declared. -/
theorem filter_declarations (hs : s.Single) (hv : s.nameOf? v.1 = some v.2) {d : VariableDecl}
    (hd : g.declarationOf v = some d)
    (only : ∀ w d, s.nameOf? w.1 = some w.2 → g.declarationOf w = some d → w.2 = v.2 → w = v) :
    (s.bindings.filterMap g.declarationOf).filter (·.name = v.2) = [d] := by
  have listed := hs.mem_bindings.mpr hv
  obtain ⟨l, l', hl⟩ := List.append_of_mem listed
  have distinct : s.bindings.Nodup := List.Nodup.of_map _ hs
  have others : ∀ k : List Variable, (∀ w ∈ k, w ∈ s.bindings ∧ w ≠ v) →
      (k.filterMap g.declarationOf).filter (·.name = v.2) = [] := by
    intro k hk
    refine List.filter_eq_nil_iff.mpr fun c hc => ?_
    obtain ⟨w, hw, hwc⟩ := List.mem_filterMap.mp hc
    obtain ⟨hmem, hne⟩ := hk w hw
    have hname := name_of_declarationOf hwc
    simpa [hname] using fun heq => hne (only w c (hs.mem_bindings.mp hmem) hwc heq)
  rw [hl] at distinct
  have apart := List.nodup_append.mp distinct
  have before := others l fun w hw => ⟨by simp [hl, hw], apart.2.2 w hw v (.head _)⟩
  have after := others l' fun w hw =>
    ⟨by simp [hl, hw], fun heq => (List.nodup_cons.mp apart.2.1).1 (heq ▸ hw)⟩
  rw [hl, List.filterMap_append, List.filterMap_cons_some hd, List.filter_append, before,
    List.filter_cons_of_pos (by simpa using name_of_declarationOf hd), after]
  rfl

/-! ### The script of an event -/

/-- Exactly one local line of the script declares the variable, with the type of its output. -/
def Declares (g : Graph) (script : EventScript) (v : Variable) : Prop :=
  ∃ output, g.output? v.1 = some output ∧
    script.locals.filter (·.name = v.2) = [⟨output.typeCode, v.2⟩]

theorem single_entryScope (g : Graph) (node : Node) : (g.entryScope node).Single := by
  have all : ∀ (outputs : List Output) (s : Scope), s.Single →
      (outputs.foldl (fun s o => s.bind o.id o.name) s).Single := by
    intro outputs
    induction outputs with
    | nil => exact fun _ hs => hs
    | cons o outputs ih => exact fun s hs => ih _ (hs.bind o.id o.name)
  exact all _ _ List.nodup_nil

/-- What an output has in the end is a parameter, or was given to a statement. -/
theorem Lowered.parameter_or_given (h : g.Lowered m pin (g.entryScope node) b s')
    (housed : g.Housed) (live : g.node? n = some node) (hv : s'.nameOf? v.1 = some v.2) :
    g.ownerOf? v.1 = some n ∨ v ∈ b.setters.flatMap g.givenTo := by
  refine ((h.gives housed).mem_of_nameOf? hv).imp_left fun hv => ?_
  obtain ⟨l, binds⟩ := binds_entryScope housed live
  rcases binds.bound v hv with hv | hv
  · cases hv
  · exact binds.owned v hv

/-- Only outputs of marked nodes have variables in the end. -/
theorem Lowered.owner_visited (h : g.Lowered m pin (g.entryScope node) b s') (housed : g.Housed)
    (live : g.node? n = some node) (hv : v ∈ s'.bindings) :
    ∃ p ∈ s'.visited, g.ownerOf? v.1 = some p := by
  have hname := ((h.gives housed).single (g.single_entryScope node)).mem_bindings.mp hv
  rcases h.parameter_or_given housed live hname with howner | hgiven
  · refine ⟨n, h.visited_perm.mem_iff.mpr (List.mem_append_right _ ?_), howner⟩
    rw [visited_entryScope housed live]
    exact .head _
  · obtain ⟨x, hx, hvx⟩ := List.mem_flatMap.mp hgiven
    refine ⟨x.node, h.visited_perm.mem_iff.mpr (List.mem_append_left _ ?_),
      h.owned_givenTo housed hx hvx⟩
    have emitted := b.setters_sublist.subset (List.mem_map_of_mem hx)
    exact List.mem_map_of_mem emitted

namespace Written

variable {e : NodeId} {script : EventScript}

/-- Variables of an event are not declared. -/
theorem event_owned (h : g.Written e script node s') (hv : g.ownerOf? v.1 = some e) :
    g.declarationOf v = none := by
  obtain ⟨output, ho, howner⟩ := Option.map_eq_some_iff.mp hv
  obtain ⟨name, f, kind⟩ := h.event
  simp [declarationOf, ho, howner, h.live, kind, NodeKind.isEvent]

/-- A variable that a statement is given has a type. -/
theorem declarationOf_given (h : g.Written e script node s') (housed : g.Housed)
    (hx : x ∈ script.statements.setters) (hv : v ∈ g.givenTo x) :
    ∃ output, g.output? v.1 = some output ∧
      g.declarationOf v = some ⟨output.typeCode, v.2⟩ := by
  obtain ⟨output, ho, howner⟩ :=
    Option.map_eq_some_iff.mp (h.lowered.owned_givenTo housed hx hv)
  have emitted := script.statements.setters_sublist.subset (List.mem_map_of_mem hx)
  obtain ⟨owner, live, form⟩ := h.lowered.form_emitted emitted
  have plain : owner.kind.isEvent = false := by
    cases hkind : owner.kind <;> simp_all [NodeKind.form?, NodeKind.isEvent]
  exact ⟨output, ho, by simp [declarationOf, ho, howner, live, plain]⟩

/-- The locals of a script with a statement are the declarations for its last scope. -/
theorem locals_of_mem (h : g.Written e script node s') (housed : g.Housed)
    (hx : x ∈ script.statements.setters) :
    script.locals = s'.bindings.filterMap g.declarationOf := by
  rcases h.declared with ⟨next, -⟩ | hlocals
  · rw [h.lowered.eq_done next] at hx
    cases hx
  · exact Except.ok.inj (hlocals.symm.trans (locals_eq housed s'))

/-- **What an output has in the end is declared once.** -/
theorem declares (h : g.Written e script node s') (housed : g.Housed)
    (hx : x ∈ script.statements.setters) (hv : v ∈ g.givenTo x)
    (hlast : s'.nameOf? v.1 = some v.2) : g.Declares script v := by
  obtain ⟨output, ho, hd⟩ := h.declarationOf_given housed hx hv
  have gives := h.lowered.gives housed
  refine ⟨output, ho, ?_⟩
  rw [h.locals_of_mem housed hx]
  refine filter_declarations (gives.single (g.single_entryScope node)) hlast hd ?_
  intro w d hw hwd hname
  rcases h.lowered.parameter_or_given housed h.live hw with howner | hgiven
  · rw [h.event_owned howner] at hwd
    cases hwd
  · exact List.inj_on_of_nodup_map gives.names_nodup hgiven
      (List.mem_flatMap.mpr ⟨x, hx, hv⟩) hname

/-- **What is declared is what an output has in the end.** -/
theorem given_of_local (h : g.Written e script node s') (housed : g.Housed) {d : VariableDecl}
    (hd : d ∈ script.locals) : ∃ x ∈ script.statements.setters, ∃ v ∈ g.givenTo x,
      s'.nameOf? v.1 = some v.2 ∧ v.2 = d.name := by
  rcases h.declared with ⟨-, hnone⟩ | hlocals
  · rw [hnone] at hd
    cases hd
  · rw [Except.ok.inj (hlocals.symm.trans (locals_eq housed s'))] at hd
    obtain ⟨v, hv, hvd⟩ := List.mem_filterMap.mp hd
    have single := (h.lowered.gives housed).single (g.single_entryScope node)
    have hlast := single.mem_bindings.mp hv
    rcases h.lowered.parameter_or_given housed h.live hlast with howner | hgiven
    · rw [h.event_owned howner] at hvd
      cases hvd
    · obtain ⟨x, hx, hvx⟩ := List.mem_flatMap.mp hgiven
      exact ⟨x, hx, v, hvx, hlast, (name_of_declarationOf hvd).symm⟩

/-! ### The calls of a script -/

variable {st : CallStatement}

/-- An output keeps the variable that it got as an argument. -/
theorem nameOf?_of_argument (h : g.Written e script node s') (assembled : g.Assembled)
    (hx : .call st ∈ script.statements.setters)
    (hv : v ∈ st.form.arguments.filterMap Argument.set?) :
    s'.nameOf? v.1 = some v.2 := by
  have housed := assembled.reachable.housed
  cases h.lowered.made hx with
  | call makes =>
    obtain ⟨-, caller, f, archetype, live, hcallee, -, keys⟩ :=
      gives_callStatement housed makes.returns
    obtain ⟨f', hf, distinct⟩ := assembled.nodup_yields live (callee?_of_calleeOf hcallee)
    obtain rfl : f = f' := Option.some.inj hf
    have apart := keys ▸ passed_nodup housed distinct
    obtain ⟨l, l', hl⟩ := List.append_of_mem hv
    have hgiven : g.givenTo (.call st) = st.result.toList ++ l ++ v :: l' := by
      simp [givenTo, CallStatement.given, hl]
    refine h.lowered.nameOf?_of_last housed (h.visited_nodup housed) hx hgiven ?_
    rw [hl, List.map_append, List.map_cons] at apart
    exact (List.nodup_cons.mp (List.nodup_append'.mp apart).2.1).1

/-- The output for the result is passed out again exactly if the call returns by parameter. -/
theorem result_mem_iff (h : g.Written e script node s') (housed : g.Housed)
    (hx : .call st ∈ script.statements.setters) (hv : st.result = some v) :
    v.1 ∈ (st.form.arguments.filterMap Argument.set?).map (·.1) ↔
      g.ReturnsByParameter st.node := by
  cases h.lowered.made hx with
  | call makes =>
    obtain ⟨-, caller, f, archetype, live, hcallee, hresult, keys⟩ :=
      gives_callStatement housed makes.returns
    rw [keys]
    exact mem_passed_iff housed live hcallee (by rw [← hresult, hv]; rfl)

/-- The output for the result keeps its variable if the call does not return by parameter. -/
theorem nameOf?_of_result (h : g.Written e script node s') (housed : g.Housed)
    (hx : .call st ∈ script.statements.setters) (hv : st.result = some v)
    (plain : ¬ g.ReturnsByParameter st.node) : s'.nameOf? v.1 = some v.2 :=
  h.lowered.nameOf?_of_last housed (h.visited_nodup housed) hx (l := [])
    (by simp [givenTo, CallStatement.given, hv]) fun hmem =>
      plain ((h.result_mem_iff housed hx hv).mp hmem)

/-- The variable for the result of a call that returns by parameter is not declared. -/
theorem undeclared_result (h : g.Written e script node s') (assembled : g.Assembled)
    (hx : .call st ∈ script.statements.setters) (hv : st.result = some v)
    (returning : g.ReturnsByParameter st.node) {d : VariableDecl} (hd : d ∈ script.locals) :
    d.name ≠ v.2 := by
  intro hname
  have housed := assembled.reachable.housed
  have names := (h.lowered.gives housed).names_nodup
  have hvx : v ∈ g.givenTo (.call st) := by simp [givenTo, CallStatement.given, hv]
  -- a variable of this name would be the one for the result
  obtain ⟨y, hy, u, hu, hlast, huname⟩ := h.given_of_local housed hd
  obtain rfl : u = v := List.inj_on_of_nodup_map names (List.mem_flatMap.mpr ⟨y, hy, hu⟩)
    (List.mem_flatMap.mpr ⟨_, hx, hvx⟩) (huname.trans hname)
  -- but the output has the one that it got as an argument
  obtain ⟨w, hw, hwu⟩ := List.mem_map.mp ((h.result_mem_iff housed hx hv).mpr returning)
  have hkept := h.nameOf?_of_argument assembled hx hw
  rw [hwu, hlast] at hkept
  obtain rfl : w = u := Prod.ext hwu (Option.some.inj hkept).symm
  have own := (List.nodup_flatMap.mp (List.Nodup.of_map _ names)).1 _ hx
  simp only [givenTo, CallStatement.given, hv, Option.toList_some, List.singleton_append,
    List.nodup_cons] at own
  exact own.1 hw

end Written

/-- **Everything but the results of calls that return by parameter is declared.** In an assembled
graph, let an event have a script. Each variable for an argument that a call of the script passes
out, and each counter of a loop, is declared by exactly one local line, with the type of its output.
The variable that takes the result of a call is declared so too, unless the call passes another
parameter out under the name of the output for the result; then no local line declares it. And every
local line declares a variable that a call of the script sets, or that a loop counts with. The local
lines and those of the statements are the lines of the script, and a local line says the type and
then the name. -/
theorem declared_iff (h : g.Assembled) {e : NodeId} {script : EventScript}
    (ok : g.scriptOf e = .ok script) :
    (∀ st, .call st ∈ script.statements.setters →
      (∀ a ∈ st.form.arguments, ∀ v, a.set? = some v → g.Declares script v) ∧
        ∀ v, st.result = some v → (¬ g.ReturnsByParameter st.node → g.Declares script v) ∧
          (g.ReturnsByParameter st.node → ∀ d ∈ script.locals, d.name ≠ v.2)) ∧
    (∀ header, .loop header ∈ script.statements.setters → ∃ output,
      g.outputNamed? header.node Pin.counter = some output ∧
        g.Declares script (output.id, header.counter)) ∧
    (∀ d ∈ script.locals,
      (∃ st, .call st ∈ script.statements.setters ∧ ∃ v ∈ st.sets, v.2 = d.name) ∨
        ∃ header, .loop header ∈ script.statements.setters ∧ header.counter = d.name) ∧
    script.Printed ∧ ∀ d, d ∈ script.locals ↔
      ∃ i, script.LineAt i (.declaration d) ("local " ++ d.type ++ " " ++ d.name ++ ";") := by
  have housed := h.reachable.housed
  obtain ⟨node, s', written⟩ := written_of_scriptOf housed ok
  refine ⟨fun st hst => ⟨fun a ha v hv => ?_, fun v hv =>
    ⟨fun plain => ?_, fun returning d hd => ?_⟩⟩, fun header hheader => ?_, fun d hd => ?_,
    written.printed, fun d => written.printed.mem_locals_iff⟩
  · have hmem : v ∈ st.form.arguments.filterMap Argument.set? := List.mem_filterMap.mpr ⟨a, ha, hv⟩
    exact written.declares housed hst (List.mem_append_right _ hmem)
      (written.nameOf?_of_argument h hst hmem)
  · exact written.declares housed hst (by simp [givenTo, CallStatement.given, hv])
      (written.nameOf?_of_result housed hst hv plain)
  · exact written.undeclared_result h hst hv returning hd
  · cases written.lowered.made hheader with
    | loop live kind counts =>
      obtain ⟨output, houtput⟩ := h.exists_counter live kind
      have given : g.givenTo (.loop header) = [] ++ (output.id, header.counter) :: [] := by
        simp [givenTo, houtput]
      refine ⟨output, houtput, written.declares housed hheader (by simp [given]) ?_⟩
      exact written.lowered.nameOf?_of_last housed (written.visited_nodup housed) hheader given
        List.not_mem_nil
  · obtain ⟨x, hx, v, hv, -, hname⟩ := written.given_of_local housed hd
    cases x with
    | call st =>
      exact .inl ⟨st, hx, v, List.mem_append.mpr (List.mem_append.mp hv).symm, hname⟩
    | loop header =>
      obtain ⟨output, -, rfl⟩ := Option.map_eq_some_iff.mp (Option.mem_toList.mp hv)
      exact .inr ⟨header, hx, hname⟩

/-- The script of `repeating` declares the variable for the result and the counter. -/
theorem declared_iff_repeating :
    repeating.Assembled ∧ ∃ script, repeating.scriptOf ⟨0⟩ = .ok script ∧
      repeating.Declares script (⟨4⟩, "SizeRet_1") ∧
      ∃ output, repeating.outputNamed? ⟨1⟩ Pin.counter = some output ∧
        repeating.Declares script (output.id, "ForCount_1") := by
  have assembled : repeating.Assembled := ⟨_, _, by decide, rfl⟩
  let log : CallForm := .invocation none "Log" [.value (.literal (.string ""))]
  let size : CallStatement :=
    ⟨⟨2⟩, some (⟨4⟩, "SizeRet_1"), none, .invocation none "Size" []⟩
  let header : LoopHeader := ⟨⟨1⟩, "ForCount_1", some (.held ⟨4⟩ "SizeRet_1")⟩
  obtain ⟨script, ok, hb⟩ : ∃ script, repeating.scriptOf ⟨0⟩ = .ok script ∧ script.statements =
      .call size (.loop header (.call ⟨⟨3⟩, none, none, log⟩ .done)
        (.call ⟨⟨4⟩, none, none, log⟩ .done)) := ⟨_, rfl, rfl⟩
  obtain ⟨calls, loops, -⟩ := declared_iff assembled ok
  have plain : ¬ repeating.ReturnsByParameter ⟨2⟩ := by
    rintro ⟨node, f, archetype, live, hcallee, p, hp, hyields, hname⟩
    cases live
    cases hcallee
    exact List.not_mem_nil (show p ∈ [] from hp)
  refine ⟨assembled, script, ok, ?_, loops header (by simp [hb, Block.setters])⟩
  exact ((calls size (by simp [hb, Block.setters])).2 _ rfl).1 plain

/-- An event that leads to a call which passes a parameter named `Return` out, and a call that reads
it. -/
def returning : Graph :=
  let get := { FunctionDecl.callable "Actor" "Get" with params := [.output "Return" .int] }
  let use := { FunctionDecl.callable "Actor" "Use" with params := [.input "Value" .int] }
  (empty "Get").run [.place (.event (FunctionDecl.callable "Actor" "Tick").asEvent),
    .place (.call get none), .place (.call use none),
    .connect ⟨0⟩ ⟨0⟩ .any, .connect ⟨1⟩ ⟨2⟩ .any, .connect ⟨2⟩ ⟨4⟩ .any]

/-- The event has a script in which the first call sets a variable that is not declared. -/
theorem returning_sets_undeclared :
    returning.Assembled ∧ ∃ script, returning.scriptOf ⟨0⟩ = .ok script ∧
      ∃ st v, .call st ∈ script.statements.setters ∧ st.result = some v ∧
        ¬ returning.Declares script v ∧ ∀ d ∈ script.locals, d.name ≠ v.2 := by
  let get : CallStatement := ⟨⟨1⟩, some (⟨2⟩, "GetRet_1"), none,
    .invocation none "Get" [.result ⟨2⟩ "Return_1"]⟩
  let use : CallForm := .invocation none "Use" [.value (.held ⟨2⟩ "Return_1")]
  obtain ⟨script, ok, hb, hl⟩ : ∃ script, returning.scriptOf ⟨0⟩ = .ok script ∧
      script.statements = .call get (.call ⟨⟨2⟩, none, none, use⟩ .done) ∧
      script.locals = [⟨"int", "Return_1"⟩] := ⟨_, rfl, rfl, rfl⟩
  refine ⟨⟨_, _, by decide, rfl⟩, script, ok, get, _, by simp [hb, Block.setters], rfl, ?_, ?_⟩
  · rintro ⟨output, -, hlocals⟩
    simp [hl] at hlocals
  · simp [hl]

end Graph

end NodeScript
