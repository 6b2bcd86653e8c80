import NodeScript.Proofs.Lowering.Connectors
import NodeScript.Proofs.Lowering.Declared

/-!
# What was lowered has its variables

In an assembled graph, making the statement of a node gives a variable to each of its data outputs
that something reads (`Shows`): a call to those for the result and for the parameters that it passes
out, a loop to the one for its counter, and a branch has none. An output never loses its variable
again, although it may get another one (`Scope.Grows`). So whatever the statements of a block come
from shows its outputs in the scope that lowering the block leaves (`Lowered.shows`).

The exception is a call that makes a component and passes a parameter out under the name of the one
that takes the archetype: that parameter is given the archetype, and its output stays without a
variable.
-/

namespace NodeScript

/-- Every output that has a variable still has one. -/
def Scope.Grows (s s' : Scope) : Prop :=
  ∀ o, (s.nameOf? o).isSome → (s'.nameOf? o).isSome

variable {s t s' : Scope}

namespace Scope.Grows

theorem refl (s : Scope) : s.Grows s := fun _ => id

theorem trans (h : s.Grows t) (h' : t.Grows s') : s.Grows s' := fun o ho => h' o (h o ho)

theorem bind (s : Scope) (o : OutputId) (name : String) : s.Grows (s.bind o name) := by
  intro p hp
  rw [nameOf?_bind]
  split
  · rfl
  · exact hp

/-- Only the variables matter. -/
theorem congr (h : t.bindings = s.bindings) : s.Grows t := by
  intro o ho
  rwa [nameOf?, h]

end Scope.Grows

theorem Scope.nameOf?_bind_self (s : Scope) (o : OutputId) (name : String) :
    (s.bind o name).nameOf? o = some name := by
  rw [nameOf?_bind, if_pos rfl]

namespace Gives

variable {l : List Variable} {o : OutputId}

theorem grows (h : Gives s l s') : s.Grows s' := by
  induction h with
  | nil => exact .refl _
  | @cons s _ o base _ _ ih =>
    have first : s.Grows (s.give o base) := .bind { s with names := (s.names.next base).2 } o _
    exact first.trans ih
  | pass hb _ _ ih => exact (Scope.Grows.congr hb).trans ih

/-- What was given a variable has one. -/
theorem isSome_of_mem (h : Gives s l s') (ho : o ∈ l.map (·.1)) : (s'.nameOf? o).isSome := by
  induction h with
  | nil => cases ho
  | cons hrest ih =>
    rcases List.mem_cons.mp ho with rfl | ho
    · refine hrest.grows _ ?_
      rw [Scope.give, Scope.nameOf?_bind_self]
      rfl
    · exact ih ho
  | pass _ _ _ ih => exact ih ho

end Gives

namespace Graph

open Lowering

variable {g : Graph} {m n : NodeId} {node : Node} {pin : String} {b : Block}

/-- Each data output of the node that has an edge has a variable. -/
def Shows (g : Graph) (s : Scope) (n : NodeId) : Prop :=
  ∀ output, g.output? output.id = some output → output.owner = n →
    output.signal.isExecution = false → output.targets ≠ [] → (s.nameOf? output.id).isSome

theorem Shows.mono (h : g.Shows s n) (grows : s.Grows s') : g.Shows s' n :=
  fun output ho owner data read => grows _ (h output ho owner data read)

/-- No call that makes a component passes a parameter out under the name of the one that takes the
archetype. -/
def TakesArchetypes (g : Graph) : Prop :=
  ∀ n node f a, g.node? n = some node → node.kind.callee? = some ⟨some f, some a⟩ →
    ∀ p ∈ f.arguments, p.out = true → p.name ≠ archetypeParameter

/-! ### Single nodes -/

/-- Making the statement of a call shows its outputs. -/
theorem shows_callStatement (h : g.Assembled) (takes : g.TakesArchetypes) {st : CallStatement}
    (hst : (g.callStatement n).Returns s st s') : g.Shows s' n := by
  intro output ho owner data read
  have housed := h.reachable.housed
  obtain ⟨gives, node, f, archetype, live, hcallee, hresult, hpassed⟩ :=
    gives_callStatement housed hst
  have hcallee := callee?_of_calleeOf hcallee
  obtain ⟨p, -, hkind, hshape⟩ := h.placement live
  obtain ⟨_, resultClass, hf, hconnectors, -⟩ := Placement.of_callee? (hkind ▸ hcallee)
  obtain rfl := Option.some.inj hf
  obtain ⟨spec, hs, side, hname, hsignal⟩ := housed.spec_of_output hshape ho owner
  have found := h.reachable.outputNamed?_name ho
  rw [owner, ← hname] at found
  refine gives.isSome_of_mem ?_
  rw [CallStatement.given, List.map_append, List.mem_append]
  rcases Placement.of_data_output (hconnectors ▸ hs) side (hsignal ▸ data) with
    hreturn | ⟨q, hq, yields, hargument⟩
  · rw [hreturn] at found
    have result : st.result.map (·.1) = some output.id := by
      rw [hresult, resultOutput?, found, Option.filter, if_pos (by simpa using read)]
      rfl
    obtain ⟨v, hv, hvo⟩ := Option.map_eq_some_iff.mp result
    exact .inl (List.mem_map.mpr ⟨v, Option.mem_toList.mpr hv, hvo⟩)
  · rw [hargument] at found
    have out : q.out = true := (Bool.and_eq_true_iff.mp yields).1
    have passed : g.passedOutput? n archetype q = some output.id := by
      rw [passedOutput?, if_neg, found]
      · rfl
      · rintro (⟨some, hq'⟩ | unyielding)
        · obtain ⟨a, rfl⟩ := Option.isSome_iff_exists.mp some
          exact takes n node f a live hcallee q hq out hq'
        · rw [yields] at unyielding
          cases unyielding
    rw [hpassed]
    exact .inr (List.mem_filterMap.mpr ⟨q, hq, passed⟩)

theorem MakesAll.shows (h : g.Assembled) (takes : g.TakesArchetypes) {ns : List NodeId}
    {sts : List CallStatement} (hsts : g.MakesAll s ns sts s') : ∀ p ∈ ns, g.Shows s' p := by
  induction hsts with
  | nil => exact fun p hp => by cases hp
  | cons hst hrest ih =>
    intro p hp
    rcases List.mem_cons.mp hp with rfl | hp
    · exact (shows_callStatement h takes hst.returns).mono (hrest.gives h.reachable.housed).grows
    · exact ih p hp

/-- Entering a node shows the outputs of the calls that are made for it. -/
theorem Enters.shows (h : g.Assembled) (takes : g.TakesArchetypes) {order : List NodeId}
    {calls : List CallStatement} (he : g.Enters n node s order calls s') :
    ∀ p ∈ order, g.Shows s' p :=
  he.makes.shows h takes

/-- Counting shows the output of a loop for its counter. -/
theorem Counts.shows (h : g.Assembled) (live : g.node? n = some node) (kind : node.kind = .loop)
    {counter : String} (hc : g.Counts n s counter s') : g.Shows s' n := by
  intro output ho owner data read
  obtain ⟨p, -, hkind, hshape⟩ := h.placement live
  obtain rfl : p = .loop := Placement.eq_of_kind (.inr rfl) (hkind.symm.trans kind)
  obtain ⟨spec, hs, side, hname, hsignal⟩ :=
    h.reachable.housed.spec_of_output hshape ho owner
  have found := h.reachable.outputNamed?_name ho
  rw [owner, ← hname] at found
  -- the other outputs of a loop order statements
  have hcounter : spec.name = Pin.counter := by
    rw [← hsignal] at data
    simp only [Placement.connectors, List.mem_cons, List.not_mem_nil, or_false] at hs
    rcases hs with rfl | rfl | rfl | rfl | rfl
    · cases data
    · cases side
    · cases data
    · rfl
    · cases data
  obtain ⟨-, rfl⟩ := returns_bindFresh.mp (hc.shown output (hcounter ▸ found))
  rw [Scope.nameOf?_bind_self]
  rfl

/-- A branch has nothing to show. -/
theorem shows_branch (h : g.Assembled) (live : g.node? n = some node)
    (kind : node.kind = .branch) : g.Shows s n := by
  intro output ho owner data read
  obtain ⟨p, -, hkind, hshape⟩ := h.placement live
  obtain ⟨spec, hs, side, hname, hsignal⟩ :=
    h.reachable.housed.spec_of_output hshape ho owner
  rw [← hsignal] at data
  obtain rfl : p = .branch := Placement.eq_of_kind (.inl rfl) (hkind.symm.trans kind)
  simp only [Placement.connectors, List.mem_cons, List.not_mem_nil, or_false] at hs
  rcases hs with rfl | rfl | rfl | rfl
  · cases data
  · cases side
  · cases data
  · cases data

/-- An event shows its parameters from the start. -/
theorem shows_entryScope (h : g.Housed) (live : g.node? n = some node) :
    g.Shows (g.entryScope node) n := by
  have grows : ∀ (outputs : List Output) (s : Scope),
      s.Grows (outputs.foldl (fun s o => s.bind o.id o.name) s) := by
    intro outputs
    induction outputs with
    | nil => exact .refl
    | cons o outputs ih => exact fun s => (Scope.Grows.bind s o.id o.name).trans (ih _)
  have bound : ∀ (outputs : List Output) (s : Scope), ∀ o ∈ outputs,
      ((outputs.foldl (fun s o => s.bind o.id o.name) s).nameOf? o.id).isSome := by
    intro outputs
    induction outputs with
    | nil => exact fun s o ho => by cases ho
    | cons p outputs ih =>
      intro s o ho
      rcases List.mem_cons.mp ho with rfl | ho
      · refine grows outputs _ _ ?_
        rw [Scope.nameOf?_bind_self]
        rfl
      · exact ih _ o ho
  intro output ho owner data read
  have listed := (h.mem_outputsOf live).mpr ⟨ho, owner⟩
  exact bound _ _ output (List.mem_filter.mpr ⟨listed, by simp [data]⟩)

/-! ### Blocks -/

/-- **Whatever was lowered shows its outputs.** -/
theorem Lowered.shows (h : g.Assembled) (takes : g.TakesArchetypes)
    (hl : g.Lowered m pin s b s') : ∀ p ∈ b.emitted.map Prod.snd, g.Shows s' p := by
  have housed := h.reachable.housed
  have entered : ∀ {n node s order calls s₁}, g.Enters n node s order calls s₁ →
      ∀ p ∈ (Block.calls calls).emitted.map Prod.snd, g.Shows s₁ p := by
    intro n node s order calls s₁ enters p hp
    simp only [enters.emitted, List.map_map, Function.comp_def, List.map_id'] at hp
    exact enters.shows h takes p hp
  induction hl with
  | nothing => exact fun p hp => by cases hp
  | call _ _ enters makes _ after ih =>
    intro p hp
    simp only [Block.emitted_append, Block.emitted, Block.emitted_assigns, List.nil_append,
      List.map_append, List.map_cons, List.mem_append, List.mem_cons] at hp
    rcases hp with hp | rfl | hp
    · have made := (gives_callStatement housed makes.returns).1.grows
      exact (entered enters p hp).mono (made.trans (after.gives housed).grows)
    · rw [makes.node]
      exact (shows_callStatement h takes makes.returns).mono (after.gives housed).grows
    · exact ih p hp
  | branch _ kind enters _ onTrue onFalse ihTrue ihFalse =>
    intro p hp
    simp only [Block.emitted_append, Block.emitted, List.append_nil, List.map_append,
      List.map_cons, List.mem_append, List.mem_cons] at hp
    rcases hp with hp | rfl | hp | hp
    · have arms := (onTrue.gives housed).grows.trans (onFalse.gives housed).grows
      exact (entered enters p hp).mono arms
    · exact shows_branch h enters.live kind
    · exact (ihTrue p hp).mono (onFalse.gives housed).grows
    · exact ihFalse p hp
  | @loop _ _ n _ _ _ _ _ _ counter _ _ _ _ _ _ _ kind enters _ counts _ inside after ihBody
      ihRest =>
    intro p hp
    have rest := (inside.gives housed).grows.trans (after.gives housed).grows
    simp only [Block.emitted_append, Block.emitted, Block.emitted_assigns, List.nil_append,
      List.map_append, List.map_cons, List.mem_append, List.mem_cons] at hp
    rcases hp with hp | rfl | hp | hp
    · have counted : Gives _ (g.givenTo (.loop ⟨n, counter, none⟩)) _ := Counts.gives counts
      exact (entered enters p hp).mono (counted.grows.trans rest)
    · exact (counts.shows h enters.live kind).mono rest
    · exact (ihBody p hp).mono (after.gives housed).grows
    · exact ihRest p hp

end Graph

end NodeScript
