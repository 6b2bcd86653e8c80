import NodeScript.Proofs.Graph.Skipped
import NodeScript.Proofs.Lowering.Connectors
import NodeScript.Proofs.Lowering.Numbering
import NodeScript.Proofs.Lowering.Sites
import NodeScript.Proofs.Lowering.Walk

/-!
# Which values member variables get

An edge from a data output of a call or of a loop to the input that sets a member variable asks for
an assignment (`Stores`). A script has one assignment for every such edge of a node that its event
leads to, and no others (`stored_once`). The assignments for the edges of one node stand together,
right behind the call or at the start of the body of the loop (`Lowered.stored`), in the order of
the outputs and then in that of their edges. Each writes the variable that the call or loop was
given for the output.

A call without effects has no place in the order of statements, and what it returns is not written
to member variables, even if there is an edge.
-/

namespace NodeScript

open List (Forall₂)

theorem exists_mem_of_forall₂ {α β : Type} {R : α → β → Prop} {l : List α} {m : List β} {b : β}
    (h : Forall₂ R l m) (hb : b ∈ m) : ∃ a ∈ l, R a b := by
  obtain ⟨k, hk, rfl⟩ := List.mem_iff_getElem.mp hb
  have hl : k < l.length := h.length_eq ▸ hk
  exact ⟨l[k], List.getElem_mem hl, h.get hl hk⟩

namespace NodeKind

/-- Are the values of the outputs of such nodes written to member variables? -/
def stores : NodeKind → Bool
  | call _ | loop => true
  | event _ _ | pureCall _ | branch | member _ => false

theorem isSome_member? {kind : NodeKind} : kind.member?.isSome ↔ ∃ v, kind = .member v := by
  cases kind <;> simp [member?]

end NodeKind

namespace Graph

open Relation
open NodeScript.Except (bind_eq_ok map_eq_ok mapM_eq_ok pure_eq_ok)

/-- The edge goes from a data output of a call or loop to the input that sets a member variable. -/
structure Stores (g : Graph) (o : Output) (i : Input) : Prop where
  output : g.output? o.id = some o
  data : o.signal.isExecution = false
  stores : ∃ node, g.node? o.owner = some node ∧ node.kind.stores = true
  input : g.input? i.id = some i
  edge : i.id ∈ o.targets
  sets : ∃ target v, g.node? i.owner = some target ∧ target.kind = .member v ∧ i.name = Pin.set

/-- The edges from data outputs of a call or loop to inputs that set member variables, in the order
of the outputs, and those of one output in the order of its edges. -/
def storedBy (g : Graph) (n : NodeId) : List (Output × Input) :=
  (g.node? n).elim [] fun node => if node.kind.stores then g.settings node else []

/-- The assignment writes what the output holds in a scope to the variable of the input. -/
structure Writes (g : Graph) (s : Scope) (edge : Output × Input) (a : Assignment) : Prop where
  output : a.output = edge.1.id
  value : s.nameOf? edge.1.id = some a.value
  member : a.member = edge.2.owner
  target : ∃ target v, g.node? edge.2.owner = some target ∧ target.kind = .member v ∧
    a.name = v.name

variable {g : Graph} {e m n : NodeId} {node : Node} {pin : String} {s s' : Scope} {b : Block}
  {script : EventScript} {o : Output} {i : Input} {x : Setter} {l : List Assignment}

/-! ### The edges of a node -/

theorem storedBy_of_stores (live : g.node? n = some node) (stores : node.kind.stores = true) :
    g.storedBy n = g.settings node := by
  simp [storedBy, live, stores]

theorem storedBy_of_other (live : g.node? n = some node) (other : node.kind.stores = false) :
    g.storedBy n = [] := by
  simp [storedBy, live, other]

/-- Only calls and loops have edges whose values are stored. -/
theorem storedBy_cases (g : Graph) (n : NodeId) : g.storedBy n = [] ∨
    ∃ node, g.node? n = some node ∧ node.kind.stores = true ∧ g.storedBy n = g.settings node := by
  cases live : g.node? n with
  | none => simp [storedBy, live]
  | some node =>
    cases stores : node.kind.stores with
    | false => exact .inl (storedBy_of_other live stores)
    | true => exact .inr ⟨node, rfl, stores, storedBy_of_stores live stores⟩

theorem mem_settings (h : g.Housed) (live : g.node? n = some node) :
    (o, i) ∈ g.settings node ↔ (g.output? o.id = some o ∧ o.owner = n) ∧
      o.signal.isExecution = false ∧ g.input? i.id = some i ∧ i.id ∈ o.targets ∧
      g.sets i = true := by
  have pair : (o, i) ∈ g.settings node ↔
      (o ∈ g.outputsOf node ∧ o.signal.isExecution = false) ∧ i ∈ g.settingsOf o := by
    simp [settings]
  rw [pair, h.mem_outputsOf live, mem_settingsOf h, and_assoc]

theorem mem_storedBy (h : g.Housed) : (o, i) ∈ g.storedBy n ↔ g.Stores o i ∧ o.owner = n := by
  constructor
  · intro hmem
    rcases g.storedBy_cases n with none | ⟨node, live, stores, all⟩
    · simp [none] at hmem
    · rw [all, mem_settings h live] at hmem
      obtain ⟨⟨output, rfl⟩, data, input, edge, hsets⟩ := hmem
      obtain ⟨target, htarget, hkind, hname⟩ := sets_eq_true.mp hsets
      obtain ⟨v, hkind⟩ := NodeKind.isSome_member?.mp hkind
      exact ⟨⟨output, data, ⟨node, live, stores⟩, input, edge, target, v, htarget, hkind, hname⟩,
        rfl⟩
  · rintro ⟨edge, rfl⟩
    obtain ⟨node, live, stores⟩ := edge.stores
    obtain ⟨target, v, htarget, hkind, hname⟩ := edge.sets
    rw [storedBy_of_stores live stores, mem_settings h live]
    exact ⟨⟨edge.output, rfl⟩, edge.data, edge.input, edge.edge,
      sets_eq_true.mpr ⟨target, htarget, NodeKind.isSome_member?.mpr ⟨v, hkind⟩, hname⟩⟩

/-- No edge of a node is listed twice. -/
theorem nodup_storedBy (h : g.Reachable) (n : NodeId) : (g.storedBy n).Nodup := by
  rcases g.storedBy_cases n with none | ⟨node, live, -, all⟩
  · simp [none]
  · have outputs : ((g.outputsOf node).filter (!·.signal.isExecution)).Nodup := by
      refine ((h.housed.outputs.nodup live).filterMap fun p q o hp hq => ?_).filter _
      exact (h.housed.output_id hp).symm.trans (h.housed.output_id hq)
    refine all ▸ List.nodup_flatMap.mpr ⟨fun o ho => ?_, ?_⟩
    · have hlive := ((h.housed.mem_outputsOf live).mp (List.mem_filter.mp ho).1).1
      exact (nodup_settingsOf h hlive).map fun _ _ heq => (Prod.mk.inj heq).2
    · refine outputs.imp fun hne => ?_
      rintro ⟨p, i⟩ hp hq
      obtain ⟨_, -, heq⟩ := List.mem_map.mp hp
      obtain ⟨_, -, heq'⟩ := List.mem_map.mp hq
      exact hne ((Prod.mk.inj heq).1.trans (Prod.mk.inj heq').1.symm)

/-! ### The assignments of a node -/

/-- An edge that sets a member variable has its assignment, if its output has a variable. -/
theorem writes_of_assignmentTo (h : g.Housed) {r : Option Assignment} (sets : g.sets i = true)
    (ok : g.assignmentTo s node o i = .ok r) : ∃ a, r = some a ∧ g.Writes s (o, i) a := by
  obtain ⟨target, htarget, hkind, hname⟩ := sets_eq_true.mp sets
  obtain ⟨v, hkind⟩ := NodeKind.isSome_member?.mp hkind
  unfold assignmentTo at ok
  obtain ⟨found, hfound, ok⟩ := bind_eq_ok.mp ok
  obtain rfl : target = found := Option.some.inj (htarget.symm.trans (nodeOrFail_eq_ok.mp hfound))
  simp only [hkind, NodeKind.member?, hname, ne_eq, not_true_eq_false, if_false] at ok
  cases value : s.nameOf? o.id with
  | none => simp [value] at ok
  | some name =>
    simp only [value, pure_eq_ok, Except.ok.injEq] at ok
    exact ⟨_, ok.symm, rfl, value, h.node_id htarget, target, v, htarget, hkind, rfl⟩

/-- The assignments of a node are those for its edges to inputs that set member variables. -/
theorem forall₂_writes (h : g.Housed) (ok : g.assignments s node = .ok l) :
    Forall₂ (g.Writes s) (g.settings node) l := by
  rw [assignments_eq h] at ok
  obtain ⟨found, hfound, rfl⟩ := map_eq_ok.mp ok
  have all : ∀ edge ∈ g.settings node, g.sets edge.2 = true := fun edge hedge => by
    rw [settings_eq] at hedge
    exact (List.mem_filter.mp hedge).2
  have each := (List.forall₂_and_left _ _).mpr ⟨all, mapM_eq_ok.mp hfound⟩
  generalize g.settings node = edges at each ⊢
  clear hfound ok
  induction each with
  | nil => exact .nil
  | cons first _ ih =>
    obtain ⟨a, rfl, writes⟩ := writes_of_assignmentTo h first.1 first.2
    exact .cons writes ih

/-! ### The assignments of a block -/

/-- The assignments keep what they write, if the outputs keep their variables. -/
theorem writes_congr (same : ∀ o i, (o, i) ∈ g.storedBy n → s'.nameOf? o.id = s.nameOf? o.id)
    (h : Forall₂ (g.Writes s) (g.storedBy n) l) : Forall₂ (g.Writes s') (g.storedBy n) l := by
  refine ((List.forall₂_and_left _ _).mpr ⟨fun _ => id, h⟩).imp fun edge a ⟨hedge, writes⟩ => ?_
  exact { writes with value := (same edge.1 edge.2 hedge).trans writes.value }

namespace Lowered

/-- What is lowered starts with no assignment. -/
theorem leading_eq_nil (h : g.Lowered m pin s b s') : b.leading = [] := by
  cases h with
  | nothing => rfl
  | call | branch | loop =>
    rw [Block.leading_append rfl]
    exact Block.leading_calls _

/-- Outputs of nodes that are marked already keep their variables. -/
theorem nameOf?_of_visited (h : g.Lowered m pin s b s') (housed : g.Housed)
    (hs : s.visited.Nodup) {o : OutputId} (howner : g.ownerOf? o = some n)
    (marked : n ∈ s.visited) : s'.nameOf? o = s.nameOf? o := by
  refine (h.gives housed).nameOf?_of_notMem fun hmem => ?_
  obtain ⟨v, hv, rfl⟩ := List.mem_map.mp hmem
  obtain ⟨x, hx, hv⟩ := List.mem_flatMap.mp hv
  -- what is given a variable is an output of a node that was not marked yet
  obtain rfl : n = x.node := Option.some.inj (howner.symm.trans (h.owned_givenTo housed hx hv))
  have emitted := List.mem_map_of_mem (f := Prod.snd)
    (b.setters_sublist.subset (List.mem_map_of_mem hx))
  exact (List.nodup_append'.mp (h.emitted_nodup hs)).2.2 emitted marked

/-- Assignments for nodes that are marked already write in the end what they write now. -/
theorem writes (h : g.Lowered m pin s b s') (housed : g.Housed) (hs : s.visited.Nodup)
    (marked : n ∈ s.visited) (hw : Forall₂ (g.Writes s) (g.storedBy n) l) :
    Forall₂ (g.Writes s') (g.storedBy n) l := by
  refine writes_congr (fun o i hedge => ?_) hw
  obtain ⟨edge, howner⟩ := (mem_storedBy housed).mp hedge
  exact h.nameOf?_of_visited housed hs (by simp [ownerOf?, edge.output, howner]) marked

/-- The nodes of the sites of a block are marked. -/
theorem visited_of_mem_sites (h : g.Lowered m pin s b s') (hx : (x, l) ∈ b.sites) :
    x.node ∈ s'.visited := by
  have setter : x ∈ b.setters := b.map_fst_sites ▸ List.mem_map_of_mem (f := Prod.fst) hx
  have emitted := b.setters_sublist.subset (List.mem_map_of_mem setter)
  exact h.visited_perm.mem_iff.mpr (List.mem_append_left _ (List.mem_map_of_mem emitted))

/-- Every assignment stands at a site. -/
theorem assignments_eq (h : g.Lowered m pin s b s') :
    b.assignments = b.sites.flatMap (·.2) := by
  have calls : ∀ sts : List CallStatement, (Block.calls sts).sites.flatMap (·.2) = [] := by simp
  induction h with
  | nothing => rfl
  | call _ _ _ _ _ after ih =>
    rw [Block.sites_append rfl, List.flatMap_append, calls]
    simp [Block.assignments, Block.sites, Block.leading_assigns_append, after.leading_eq_nil, ih]
  | branch _ _ _ _ _ _ ihTrue ihFalse =>
    rw [Block.sites_append rfl, List.flatMap_append, calls]
    simp [Block.assignments, Block.sites, ihTrue, ihFalse]
  | loop _ _ _ _ _ _ inside _ ihBody ihRest =>
    rw [Block.sites_append rfl, List.flatMap_append, calls]
    simp [Block.assignments, Block.sites, Block.leading_assigns_append, inside.leading_eq_nil,
      ihBody, ihRest]

end Lowered

/-- No assignments stand at calls without effects, and no edges ask for any. -/
theorem Enters.stored {order : List NodeId} {calls : List CallStatement}
    (h : g.Enters n node s order calls s') (hx : (x, l) ∈ (Block.calls calls).sites) (t : Scope) :
    Forall₂ (g.Writes t) (g.storedBy x.node) l := by
  rw [Block.sites_calls] at hx
  obtain ⟨st, hst, heq⟩ := List.mem_map.mp hx
  obtain ⟨rfl, rfl⟩ := Prod.mk.inj heq
  obtain ⟨call, live, pure⟩ := h.isPureCall hst
  have other : call.kind.stores = false := by
    cases kind : call.kind <;> simp_all [NodeKind.isPureCall, NodeKind.stores]
  have none : g.storedBy (Setter.call st).node = [] := storedBy_of_other live other
  exact none ▸ .nil

/-- **The assignments of a site are those for the edges of its node.** -/
theorem Lowered.stored (h : g.Lowered m pin s b s') (housed : g.Housed) (hs : s.visited.Nodup)
    (hx : (x, l) ∈ b.sites) : Forall₂ (g.Writes s') (g.storedBy x.node) l := by
  induction h with
  | nothing => cases hx
  | @call _ _ n _ _ _ _ _ _ _ s₂ _ rest _ _ kind enters makes assigns after ih =>
    have distinct : s₂.visited.Nodup := makes.visited ▸ enters.visited_nodup hs
    have marked : n ∈ s₂.visited := by simp [makes.visited, enters.visited]
    rw [Block.sites_append rfl] at hx
    simp only [Block.sites, Block.leading_assigns_append, after.leading_eq_nil, List.append_nil,
      Block.sites_assigns_append, List.mem_append, List.mem_cons] at hx
    rcases hx with hx | heq | hx
    · exact enters.stored hx _
    · obtain ⟨rfl, rfl⟩ := Prod.mk.inj heq
      have own : Forall₂ (g.Writes s₂) (g.storedBy n) l := by
        rw [storedBy_of_stores enters.live (by rw [kind]; rfl)]
        exact forall₂_writes housed assigns
      rw [Setter.node, makes.node]
      exact after.writes housed distinct marked own
    · exact ih distinct hx
  | @branch _ _ n _ _ _ _ s₁ _ _ s₂ _ _ _ _ enters _ onTrue onFalse ihTrue ihFalse =>
    have distinct : s₁.visited.Nodup := enters.visited_nodup hs
    have later : s₂.visited.Nodup := onTrue.visited_nodup distinct
    rw [Block.sites_append rfl] at hx
    simp only [Block.sites, List.append_nil, List.mem_append] at hx
    rcases hx with hx | hx | hx
    · exact enters.stored hx _
    · exact onFalse.writes housed later (onTrue.visited_of_mem_sites hx) (ihTrue distinct hx)
    · exact ihFalse later hx
  | @loop _ _ n _ _ _ _ _ _ _ s₂ _ _ s₃ _ _ _ kind enters _ counts assigns inside after ihBody
      ihRest =>
    obtain ⟨_, binds⟩ := counts.binds
    have distinct : s₂.visited.Nodup := binds.visited ▸ enters.visited_nodup hs
    have later : s₃.visited.Nodup := inside.visited_nodup distinct
    have marked : n ∈ s₂.visited := by simp [binds.visited, enters.visited]
    rw [Block.sites_append rfl] at hx
    simp only [Block.sites, Block.leading_assigns_append, inside.leading_eq_nil, List.append_nil,
      Block.sites_assigns_append, List.mem_append, List.mem_cons] at hx
    rcases hx with hx | heq | hx | hx
    · exact enters.stored hx _
    · obtain ⟨rfl, rfl⟩ := Prod.mk.inj heq
      have own : Forall₂ (g.Writes s₂) (g.storedBy n) l := by
        rw [storedBy_of_stores enters.live (by rw [kind]; rfl)]
        exact forall₂_writes housed assigns
      have still : n ∈ s₃.visited :=
        inside.visited_perm.mem_iff.mpr (List.mem_append_right _ marked)
      exact after.writes housed later still (inside.writes housed distinct marked own)
    · exact after.writes housed later (inside.visited_of_mem_sites hx) (ihBody distinct hx)
    · exact ihRest later hx

/-! ### Writable variables -/

/-- A variable with an input that sets it may be written. -/
theorem Assembled.writable (h : g.Assembled) (hi : g.input? i.id = some i) {target : Node}
    (live : g.node? i.owner = some target) {v : MemberVariable} (kind : target.kind = .member v) :
    v.readOnly = false := by
  obtain ⟨p, -, hkind, hshape⟩ := h.placement live
  obtain ⟨spec, hs, side, -⟩ := h.reachable.housed.spec_of_input hshape hi rfl
  rw [kind] at hkind
  cases p with
  | member property =>
    obtain rfl := NodeKind.member.inj hkind
    -- a variable that may only be read has no input
    cases readOnly : property.readOnly with
    | false => rfl
    | true =>
      simp only [Placement.connectors, readOnly, if_true] at hs
      rw [List.mem_singleton.mp hs] at side
      cases side
  | event | branch | loop => cases hkind
  | call f _ | component f _ =>
    have callee := congrArg NodeKind.callee? hkind
    rw [Placement.kind, Placement.callee?_callKind] at callee
    cases callee

/-! ### The script of an event -/

namespace Written

/-- The calls and loops of a script that may store values are those that the event leads to. -/
theorem exists_setter_iff (h : g.Written e script node s') (housed : g.Housed) {found : Node}
    (live : g.node? n = some found) (stores : found.kind.stores = true) :
    (∃ x ∈ script.statements.setters, x.node = n) ↔ TransGen g.Follows e n := by
  obtain ⟨name, f, kind⟩ := h.event
  have single := h.visited_nodup housed
  have spread := h.lowered.spread
  have placed : found.kind.isPlaced = true ∧ found.kind.isPureCall = false ∧
      ∃ form, found.kind.form? = some form ∧ form ≠ .branch := by
    cases hkind : found.kind <;>
      simp_all [NodeKind.stores, NodeKind.isPlaced, NodeKind.isPureCall, NodeKind.form?]
  obtain ⟨-, impure, form, hform, other⟩ := placed
  rw [← behind_event_iff h.live kind]
  constructor
  · rintro ⟨x, hx, rfl⟩
    have emitted := script.statements.setters_sublist.subset (List.mem_map_of_mem hx)
    obtain ⟨marked, new, -⟩ := (h.lowered.mem_emitted_iff single).mp emitted
    rcases (spread.visited.mp marked).resolve_left new with behind | ⟨r, -, needs⟩
    · exact behind
    · exact absurd (isPureCall_of_needs needs) (not_isPureCall live impure)
  · intro behind
    refine Block.exists_setter_of_emitted ((h.lowered.mem_emitted_iff single).mpr ?_) other
    exact ⟨spread.visited.mpr (.inr (.inl behind)), spread.fresh behind, found, live, hform⟩

/-- What is assigned at a call or loop is a variable that this call or loop was given. -/
theorem given_of_writes (h : g.Written e script node s') (housed : g.Housed)
    (hx : x ∈ script.statements.setters) (hw : Forall₂ (g.Writes s') (g.storedBy x.node) l)
    {a : Assignment} (ha : a ∈ l) : (a.output, a.value) ∈ g.givenTo x := by
  obtain ⟨⟨o, i⟩, hedge, writes⟩ := exists_mem_of_forall₂ hw ha
  obtain ⟨edge, howner⟩ := (mem_storedBy housed).mp hedge
  have owned : g.ownerOf? o.id = some x.node := by simp [ownerOf?, edge.output, howner]
  rw [writes.output]
  rcases h.lowered.parameter_or_given (v := (o.id, a.value)) housed h.live writes.value with
    event | given
  · -- the node is a call or loop, and no event
    obtain ⟨name, f, kind⟩ := h.event
    obtain ⟨found, live, stores⟩ := edge.stores
    obtain rfl : x.node = e := Option.some.inj (owned.symm.trans event)
    rw [howner, h.live] at live
    rw [← Option.some.inj live, kind] at stores
    cases stores
  · obtain ⟨y, hy, hv⟩ := List.mem_flatMap.mp given
    have same : y.node = x.node :=
      Option.some.inj ((h.lowered.owned_givenTo housed hy hv).symm.trans owned)
    obtain rfl := List.inj_on_of_nodup_map
      (h.lowered.nodup_setters (h.visited_nodup housed)) hy hx same
    exact hv

end Written

/-- **A script has one assignment for each edge that asks for one.** In an assembled graph, let an
event have a script, and take the edges that go from a data output of a call or loop to the input
that sets a member variable, for the calls and loops that the event leads to. In the order of the
statements, the lines of the script that assign something are one for each of these edges: each
writes the variable that the output has in the end to the variable of the member, which is not one
that may only be read.

All of them stand at the calls and loops of the script: those of a call are the lines right behind
its line, those of a loop the first ones in its braces, and there are no others. What stands at a
call or loop are the assignments for its own edges, in the order of its outputs and then in that of
the edges of an output, and the variables that they write are those that the line of the call or
loop sets. -/
theorem stored_once (h : g.Assembled) (ok : g.scriptOf e = .ok script) :
    ∃ s, (g.lowerEvent e).Returns {} script s ∧
      let edges := script.statements.setters.flatMap fun x => g.storedBy x.node
      let assignments := script.marks.filterMap fun mark => mark.2.assignment?
      Forall₂ Mark.Prints script.marks script.lines ∧
      Forall₂ (g.Writes s) edges assignments ∧ edges.Nodup ∧
      (∀ o i, (o, i) ∈ edges ↔ g.Stores o i ∧ TransGen g.Follows e o.owner) ∧
      (∀ a ∈ assignments,
        (∃ i, script.LineAt i (.assignment a) (a.name ++ " = " ++ a.value ++ ";")) ∧
        ∃ target v, g.node? a.member = some target ∧ target.kind = .member v ∧ a.name = v.name ∧
          v.readOnly = false) ∧
      assignments = script.statements.sites.flatMap (·.2) ∧
      ∀ x l, (x, l) ∈ script.statements.sites →
        Forall₂ (g.Writes s) (g.storedBy x.node) l ∧
          ∃ i line, script.SiteAt i line x l ∧
            ∀ a ∈ l, (a.output, a.value) ∈ g.givenTo x ∧ x.head.Sets (a.output, a.value) line := by
  have housed := h.reachable.housed
  obtain ⟨node, s, written⟩ := written_of_scriptOf housed ok
  have single := written.visited_nodup housed
  have stored : ∀ x l, (x, l) ∈ script.statements.sites →
      Forall₂ (g.Writes s) (g.storedBy x.node) l := fun x l hx =>
    written.lowered.stored housed single hx
  have assignments := written.lowered.assignments_eq
  have setters : script.statements.setters = script.statements.sites.map (·.1) :=
    script.statements.map_fst_sites.symm
  have all : Forall₂ (g.Writes s) (script.statements.setters.flatMap fun x => g.storedBy x.node)
      script.statements.assignments := by
    rw [setters, assignments, List.flatMap_map]
    exact List.rel_flatMap (R := fun site site' => site = site' ∧ site ∈ script.statements.sites)
      (List.forall₂_same.mpr fun site hsite => ⟨rfl, hsite⟩) fun site _ ⟨heq, hsite⟩ =>
        heq ▸ stored _ _ hsite
  have nodup : (script.statements.setters.flatMap fun x => g.storedBy x.node).Nodup := by
    refine List.nodup_flatMap.mpr ⟨fun x _ => nodup_storedBy h.reachable x.node, ?_⟩
    refine (List.pairwise_map.mp (written.lowered.nodup_setters single)).imp fun hne => ?_
    rintro ⟨o, i⟩ hx hy
    exact hne (((mem_storedBy housed).mp hx).2.symm.trans ((mem_storedBy housed).mp hy).2)
  refine ⟨s, written.returns, written.printed.lines, ?_⟩
  rw [written.printed.assignments]
  refine ⟨all, nodup, fun o i => ?_, fun a ha => ⟨?_, ?_⟩, assignments,
    fun x l hx => ⟨stored x l hx, ?_⟩⟩
  · rw [List.mem_flatMap]
    constructor
    · rintro ⟨x, hx, hedge⟩
      obtain ⟨edge, howner⟩ := (mem_storedBy housed).mp hedge
      obtain ⟨found, live, stores⟩ := edge.stores
      exact ⟨edge, (written.exists_setter_iff housed live stores).mp ⟨x, hx, howner.symm⟩⟩
    · rintro ⟨edge, reached⟩
      obtain ⟨found, live, stores⟩ := edge.stores
      obtain ⟨x, hx, howner⟩ := (written.exists_setter_iff housed live stores).mpr reached
      exact ⟨x, hx, (mem_storedBy housed).mpr ⟨edge, howner.symm⟩⟩
  · exact EventScript.exists_lineAt_assignment written.printed ha
  · obtain ⟨⟨o, i⟩, hedge, writes⟩ := exists_mem_of_forall₂ all ha
    obtain ⟨x, -, hedge⟩ := List.mem_flatMap.mp hedge
    obtain ⟨edge, -⟩ := (mem_storedBy housed).mp hedge
    obtain ⟨target, v, live, kind, name⟩ := writes.target
    exact ⟨target, v, writes.member ▸ live, kind, name, h.writable edge.input live kind⟩
  · obtain ⟨i, site⟩ := EventScript.exists_siteAt hx
    have hsetter : x ∈ script.statements.setters := setters ▸ List.mem_map_of_mem hx
    refine ⟨i, x.head.text, site, fun a ha => ?_⟩
    have given := written.given_of_writes housed hsetter (stored x l hx) ha
    exact ⟨given, sets_of_givenTo given⟩

/-- An event that leads to a loop with a call in it. The counter sets a variable, and what the call
returns sets two, of which the one that was placed last was connected first. -/
def recording : Graph :=
  let roll := { FunctionDecl.callable "Actor" "Roll" with params := [.returns .int] }
  (empty "Record").run [.place ticks, .place .loop, .place (.call roll none),
    .place (.member { name := "Turn", type := .int }),
    .place (.member { name := "Score", type := .int }),
    .place (.member { name := "Best", type := .int }),
    .connect ⟨0⟩ ⟨0⟩ .any, .connect ⟨1⟩ ⟨2⟩ .any, .connect ⟨2⟩ ⟨4⟩ .any, .connect ⟨5⟩ ⟨6⟩ .any,
    .connect ⟨5⟩ ⟨5⟩ .any]

/-- The script of the event sets the first variable at the start of the body, and the other two
right behind the call. -/
theorem stored_once_recording :
    let roll : CallStatement := ⟨⟨2⟩, some (⟨5⟩, "RollRet_1"), none, .invocation none "Roll" []⟩
    let best : Assignment := ⟨⟨5⟩, "Best", ⟨5⟩, "RollRet_1"⟩
    let score : Assignment := ⟨⟨4⟩, "Score", ⟨5⟩, "RollRet_1"⟩
    recording.Assembled ∧ ∃ script, recording.scriptOf ⟨0⟩ = .ok script ∧
      (∃ i line, script.SiteAt i line (.loop ⟨⟨1⟩, "ForCount_1", some (.literal (.int 0))⟩)
        [⟨⟨3⟩, "Turn", ⟨2⟩, "ForCount_1"⟩]) ∧
      ∃ i, script.LineAt i (.statement (.call roll)) "RollRet_1 = Roll();" ∧
        script.LineAt (i + 1) (.assignment best) "Best = RollRet_1;" ∧
        script.LineAt (i + 2) (.assignment score) "Score = RollRet_1;" := by
  intro roll best score
  have assembled : recording.Assembled := ⟨_, _, by decide, rfl⟩
  let block : Block := .loop ⟨⟨1⟩, "ForCount_1", some (.literal (.int 0))⟩
    (.assign ⟨⟨3⟩, "Turn", ⟨2⟩, "ForCount_1"⟩ (.call roll (.assign best (.assign score .done)))) .done
  have written : EventScript.statements <$> recording.scriptOf ⟨0⟩ = .ok block := by decide +kernel
  obtain ⟨script, ok, hb⟩ := map_eq_ok.mp written
  obtain ⟨s, -, -, -, -, -, -, -, sites⟩ := stored_once assembled ok
  rw [hb] at sites
  obtain ⟨-, i, line, atLoop, -⟩ := sites _ _ (.head _)
  obtain ⟨-, j, line', atCall, -⟩ := sites (.call roll) [best, score] (.tail _ (.head _))
  cases atCall with
  | call first behind =>
    obtain rfl := first.text_eq
    exact ⟨assembled, script, ok, ⟨i, line, atLoop⟩, j, first, behind 0 best rfl,
      behind 1 score rfl⟩

end Graph

end NodeScript
