import NodeScript.Proofs.Lowering.Halting
import NodeScript.Proofs.Lowering.Unresolved

/-!
# Events are refused for a reason

In an assembled graph an event without a script has one of three faults (`error_justified`): two of
the outputs that lowering follows lead to one node, or a call that has to be made needs itself; an
operator that has to be called has no two arguments; or a value has to be read of a node whose
statement was not made before. In particular no function is missing and nothing is run that cannot
be.

Where lowering comes to a halt, two facts about the way there give the reason (`Along`). Every node
marked so far was led to by another output than the present one, so an output that leads back makes
two that lead to one node. And every node that has its statement shows its outputs, so a value that
is missing is one of a node without a statement.
-/

namespace NodeScript.Graph

open Relation
open Lowering
open NodeScript.Except (bind_eq_error)

variable {g : Graph} {e m n : NodeId} {node : Node} {pin : String} {s t : Scope}
  {out : NodeId × String} {outs : List (NodeId × String)} {before made : List NodeId}
  {err : CompileError}

/-! ### Opening an output -/

namespace Opens

/-- What is opened is an output that lowering follows. -/
theorem followed (h : g.Opens n node s pin made t) : pin ∈ node.kind.followed := by
  cases h with
  | done kind | whenTrue kind | whenFalse kind | body kind | afterLoop kind =>
    simp [kind, NodeKind.followed]

/-- What was marked on the way to the output lies behind an earlier output of the node. -/
theorem visited (h : g.Opens n node s pin made t) : t.visited = s.visited ∨
    ∃ earlier s₁, earlier ∈ node.kind.followed ∧ earlier ≠ pin ∧ s₁.visited = s.visited ∧
      g.Spread [(n, earlier)] s₁ t := by
  cases h with
  | done _ makes => exact .inl makes.visited
  | whenTrue => exact .inl rfl
  | whenFalse kind _ onTrue =>
    exact .inr ⟨Pin.whenTrue, s, by simp [kind, NodeKind.followed], by decide, rfl, onTrue.spread⟩
  | body _ _ counts =>
    obtain ⟨l, binds⟩ := counts.binds
    exact .inl binds.visited
  | @afterLoop _ _ s₁ _ _ _ kind _ counts _ inside =>
    obtain ⟨l, binds⟩ := counts.binds
    exact .inr ⟨Pin.body, s₁, by simp [kind, NodeKind.followed], by decide, binds.visited,
      inside.spread⟩

theorem grows (h : g.Opens n node s pin made t) (housed : g.Housed) : s.Grows t := by
  have counted : ∀ {n s counter s₁}, g.Counts n s counter s₁ → s.Grows s₁ := by
    intro n s counter s₁ counts
    have gives : Gives s (g.givenTo (.loop ⟨n, counter, none⟩)) s₁ := Counts.gives counts
    exact gives.grows
  cases h with
  | done _ makes => exact (gives_callStatement housed makes.returns).1.grows
  | whenTrue => exact .refl s
  | whenFalse _ _ onTrue => exact (onTrue.gives housed).grows
  | body _ _ counts => exact counted counts
  | afterLoop _ _ counts _ inside => exact (counted counts).trans (inside.gives housed).grows

/-- What has its statement shows its outputs. -/
theorem shows (h : g.Assembled) (takes : g.TakesArchetypes) (live : g.node? n = some node)
    (ho : g.Opens n node s pin made t) : ∀ p ∈ made, g.Shows t p := by
  have housed := h.reachable.housed
  cases ho with
  | done _ makes =>
    intro p hp
    obtain rfl := List.mem_singleton.mp hp
    exact shows_callStatement h takes makes.returns
  | whenTrue kind =>
    intro p hp
    obtain rfl := List.mem_singleton.mp hp
    exact shows_branch h live kind
  | whenFalse kind _ onTrue =>
    intro p hp
    rcases List.mem_cons.mp hp with rfl | hp
    · exact shows_branch h live kind
    · exact onTrue.shows h takes p hp
  | body kind _ counts =>
    intro p hp
    obtain rfl := List.mem_singleton.mp hp
    exact counts.shows h live kind
  | afterLoop kind _ counts _ inside =>
    intro p hp
    rcases List.mem_cons.mp hp with rfl | hp
    · exact (counts.shows h live kind).mono (inside.gives housed).grows
    · exact inside.shows h takes p hp

end Opens

/-! ### On the way -/

/-- What an offered output offers is offered. -/
theorem Offers.trans (h : g.Offers outs out) {out' : NodeId × String}
    (h' : g.Offers [out] out') : g.Offers outs out' := by
  rcases h' with hmem | ⟨⟨first, hmem, c, hc, hreach⟩, exit⟩
  · exact List.mem_singleton.mp hmem ▸ h
  · obtain rfl := List.mem_singleton.mp hmem
    obtain ⟨start, hstart, c', hc', hreach'⟩ := h.behind hc
    exact .inr ⟨⟨start, hstart, c', hc', hreach'.trans hreach⟩, exit⟩

/-- What holds when lowering comes from an event to an output, after the statements of the nodes
`before` were made. -/
structure Along (g : Graph) (e : NodeId) (before : List NodeId) (out : NodeId × String)
    (s : Scope) : Prop where
  offered : g.Offers [(e, Pin.done)] out
  exit : g.Exit out
  marked : out.1 ∈ s.visited
  /-- A marked node with a place of its own was led to by another output. -/
  led : ∀ p ∈ s.visited, (∃ node, g.node? p = some node ∧ node.kind.isPlaced = true) →
    ∃ out', g.Offers [(e, Pin.done)] out' ∧ g.successor? out'.1 out'.2 = some p ∧
      out'.1 ∈ s.visited ∧ out' ≠ out
  shows : ∀ p ∈ before, g.Shows s p

namespace Along

/-- From an event, lowering starts with the one output that it follows. -/
theorem start (h : g.Housed) (live : g.node? e = some node) {name : String}
    {f : Option FunctionDecl} (kind : node.kind = .event name f) :
    g.Along e [e] (e, Pin.done) (g.entryScope node) := by
  have start := visited_entryScope h live
  refine ⟨.inl (.head _), ⟨node, live, by simp [kind, NodeKind.followed]⟩, ?_, ?_, ?_⟩
  · rw [start]
    exact .head _
  · rintro p hp ⟨node', live', placed⟩
    rw [start] at hp
    obtain rfl := List.mem_singleton.mp hp
    obtain rfl : node = node' := Option.some.inj (live.symm.trans live')
    simp [kind, NodeKind.isPlaced] at placed
  · intro p hp
    obtain rfl := List.mem_singleton.mp hp
    exact shows_entryScope h live

/-- The next node is entered, and opens one of its outputs. -/
theorem step (h : g.Assembled) (takes : g.TakesArchetypes) (along : g.Along e before out s)
    (next : g.successor? out.1 out.2 = some n) {order : List NodeId} {calls : List CallStatement}
    {s₁ : Scope} (enters : g.Enters n node s order calls s₁)
    (opens : g.Opens n node s₁ pin made t) :
    g.Along e (before ++ (order ++ made)) (n, pin) t := by
  have behind : g.Behind [(e, Pin.done)] n := along.offered.behind next
  have offered : ∀ {pin}, pin ∈ node.kind.followed → g.Offers [(e, Pin.done)] (n, pin) :=
    fun hp => .inr ⟨behind, node, enters.live, hp⟩
  have entered : ∀ p, p ∈ s₁.visited ↔ p ∈ order ∨ p = n ∨ p ∈ s.visited := fun p => by
    rw [enters.visited, List.mem_append, List.mem_reverse, List.mem_cons]
  have keep : ∀ p ∈ s₁.visited, p ∈ t.visited := by
    intro p hp
    rcases opens.visited with hv | ⟨earlier, s₂, -, -, hv, spread⟩
    · rwa [hv]
    · exact spread.visited.mpr (.inl (hv ▸ hp))
  refine ⟨offered opens.followed, ⟨node, enters.live, opens.followed⟩,
    keep n ((entered n).mpr (.inr (.inl rfl))), fun p hp placed => ?_, fun p hp => ?_⟩
  · by_cases hp₁ : p ∈ s₁.visited
    · rcases (entered p).mp hp₁ with hp | rfl | hp
      · exact absurd placed ((enters.gathered.mem_iff p).mp hp).1.isPureCall.not_placed
      -- the node itself is led to by the output that lowering came from
      · refine ⟨out, along.offered, next, keep _ ((entered _).mpr (.inr (.inr along.marked))), ?_⟩
        rintro rfl
        exact enters.fresh along.marked
      · obtain ⟨out', hout', next', marked, -⟩ := along.led p hp placed
        refine ⟨out', hout', next', keep _ ((entered _).mpr (.inr (.inr marked))), ?_⟩
        rintro rfl
        exact enters.fresh marked
    -- what is new lies behind an earlier output of the node
    · rcases opens.visited with hv | ⟨earlier, s₂, hearlier, different, hv, spread⟩
      · rw [hv] at hp
        exact absurd hp hp₁
      rcases spread.visited.mp hp with hp | hp | ⟨r, -, hp⟩
      · rw [hv] at hp
        exact absurd hp hp₁
      · obtain ⟨out', hout', next'⟩ := hp.offered
        have hn : n ∈ s₂.visited := hv ▸ (entered n).mpr (.inr (.inl rfl))
        refine ⟨out', (offered hearlier).trans hout', next', ?_, ?_⟩
        · rcases hout' with hmem | ⟨hbehind, -⟩
          · rw [List.mem_singleton.mp hmem]
            exact keep n ((entered n).mpr (.inr (.inl rfl)))
          · exact spread.visited.mpr (.inr (.inl hbehind))
        · rintro rfl
          rcases hout' with hmem | ⟨hbehind, -⟩
          · exact different (Prod.mk.inj (List.mem_singleton.mp hmem)).2.symm
          · exact spread.fresh hbehind hn
      · exact absurd placed (isPureCall_of_needs hp).not_placed
  · have entering : s.Grows s₁ := (enters.gives h.reachable.housed).grows
    have opening : s₁.Grows t := opens.grows h.reachable.housed
    rcases List.mem_append.mp hp with hp | hp
    · exact (along.shows p hp).mono (entering.trans opening)
    rcases List.mem_append.mp hp with hp | hp
    · exact (enters.shows h takes p hp).mono opening
    · exact opens.shows h takes enters.live p hp

end Along

/-! ### Reasons -/

/-- A node that the event leads to, or a call without effects that such a node needs. -/
def Involves (g : Graph) (e n : NodeId) : Prop :=
  g.Behind [(e, Pin.done)] n ∨ ∃ r, g.Behind [(e, Pin.done)] r ∧ TransGen g.Needs r n

/-- Why lowering an event comes to a halt at a node, after the statements of `made`. -/
inductive Justified (g : Graph) (e : NodeId) (made : List NodeId) (n : NodeId) :
    CompileError → Prop
  /-- Two outputs lead to one node. -/
  | rejoins {out out' k blamed culprit} (different : out ≠ out')
    (first : g.Offers [(e, Pin.done)] out) (second : g.Offers [(e, Pin.done)] out')
    (next : g.successor? out.1 out.2 = some k) (next' : g.successor? out'.1 out'.2 = some k)
    (ends : blamed = out'.1 ∨ blamed = k) (live : g.node? blamed = some culprit) :
    Justified g e made n (.loopDetected culprit.name)
  /-- A call needs itself. -/
  | cyclic {r c culprit} (reached : g.Behind [(e, Pin.done)] r) (needed : TransGen g.Needs r c)
    (cycle : TransGen g.Needs c c) (live : g.node? c = some culprit) :
    Justified g e made n (.loopDetected culprit.name)
  | arity {caller callee f} (involved : g.Involves e n) (live : g.node? n = some caller)
    (kind : caller.kind.callee? = some callee) (function : callee.function = some f)
    (operator : f.flags.operator = true) (arity : f.arguments.length ≠ 2) :
    Justified g e made n (.arityMismatch caller.name f.arguments.length)
  /-- The value of a node is read whose statement was not made. -/
  | unresolved {source output input consumer} (involved : g.Involves e n)
    (consumer_eq : consumer.id = n) (edge : g.Edge source output input consumer)
    (value : source.kind.member? = none) (unmade : source.id ∉ made) :
    Justified g e made n (.unresolvedValue output.name source.name consumer.name)

/-- A missing variable is that of a node without a statement, if those that have one show their
outputs. -/
theorem Justified.of_unresolved (h : g.Housed) (involved : g.Involves e n)
    (live : g.node? n = some node) (shows : ∀ p ∈ made, g.Shows s p)
    (unresolved : g.Unresolved s node err) : g.Justified e made n err := by
  obtain ⟨source, output, input, edge, data, value, unset, rfl⟩ := unresolved
  refine .unresolved involved (h.node_id live) edge value fun hmem => ?_
  have owner : output.owner = source.id := (h.node_id edge.source_live).symm
  have used := List.ne_nil_of_mem edge.mem_targets
  have named := shows _ hmem output edge.output_live owner data used
  rw [unset] at named
  cases named

/-- A call that fails has a reason. -/
theorem Justified.of_call (h : g.Assembled) (involved : g.Involves e n)
    (live : g.node? n = some node) {callee : Callee} (kind : node.kind.callee? = some callee)
    (shows : ∀ p ∈ made, g.Shows s p) (fails : (g.callStatement n).Fails s err t) :
    g.Justified e made n err := by
  rcases callStatement_fails h live kind fails with ⟨f, function, operator, arity, rfl⟩ | unresolved
  · exact .arity involved live kind function operator arity
  · exact .of_unresolved h.reachable.housed involved live shows unresolved

theorem IsPureCall.callee? (h : g.IsPureCall n) :
    ∃ node callee, g.node? n = some node ∧ node.kind.callee? = some callee := by
  obtain ⟨node, live, pure⟩ := h
  cases kind : node.kind <;> simp_all [NodeKind.isPureCall, NodeKind.callee?]

/-- **Where lowering stops, there is a reason.** -/
theorem Stops.justified (h : g.Assembled) (takes : g.TakesArchetypes)
    (along : g.Along e before out s) (hs : g.Stops out s made n err) :
    g.Justified e (before ++ made) n err := by
  have housed := h.reachable.housed
  cases hs with
  | back next seen ends live =>
    have placed := h.placed_of_successor? along.exit next
    obtain ⟨out', offered, next', -, different⟩ := along.led n seen placed
    exact .rejoins different offered along.offered next' next ends live
  | unplaced next live kind =>
    obtain ⟨node, live', placed⟩ := h.placed_of_successor? along.exit next
    obtain rfl := Option.some.inj (live.symm.trans live')
    rw [kind] at placed
    cases placed
  | search next live refused =>
    obtain ⟨c, culprit, hc, rfl, wanted, cycle⟩ := refused
    exact .cyclic (along.offered.behind next) ((wanted_dataSources live).mp wanted) cycle hc
  | @needed k caller _ _ later calls t _ _ next live gathered makes fails =>
    have wanted := ((gathered.mem_iff n).mp (by simp)).1
    obtain ⟨node, callee, live', kind⟩ := wanted.isPureCall.callee?
    have involved : g.Involves e n :=
      .inr ⟨k, along.offered.behind next, (wanted_dataSources live).mp wanted⟩
    refine .of_call h involved live' kind (fun p hp => ?_) fails
    rcases List.mem_append.mp hp with hp | hp
    · have marked : s.Grows ((s.visit k).visitAll (made ++ n :: later)) := .congr rfl
      exact (along.shows p hp).mono (marked.trans (makes.gives housed).grows)
    · exact makes.shows h takes p hp
  | @fault _ node order calls t opened _ next enters faults =>
    have involved : g.Involves e n := .inl (along.offered.behind next)
    have shows : ∀ p ∈ before ++ order, g.Shows t p := by
      intro p hp
      rcases List.mem_append.mp hp with hp | hp
      · exact (along.shows p hp).mono (enters.gives housed).grows
      · exact enters.shows h takes p hp
    have here : g.node? node.id = some node := by
      rw [housed.node_id enters.live]
      exact enters.live
    cases faults with
    | statement kind fails =>
      rw [List.append_nil]
      exact .of_call h involved enters.live (by rw [kind]; rfl) shows fails
    | condition kind fails | count kind fails =>
      rw [List.append_nil]
      have unresolved := operandNamed_fails h here (by decide) fails
      exact .of_unresolved housed involved enters.live shows unresolved
    | callAssigns kind makes fails =>
      have shown := shows_callStatement h takes makes.returns
      exact absurd fails (assignments_ne_error housed enters.live shown)
    | loopAssigns kind counts fails =>
      have shown := counts.shows h enters.live kind
      exact absurd fails (assignments_ne_error housed enters.live shown)

/-- **Where lowering comes to a halt, there is a reason.** -/
theorem Halts.justified (h : g.Assembled) (takes : g.TakesArchetypes)
    (along : g.Along e before out s) (halts : g.Halts out s made n err) :
    g.Justified e (before ++ made) n err := by
  induction halts generalizing before with
  | here stops => exact stops.justified h takes along
  | through next enters opens _ ih =>
    have reason := ih (along.step h takes next enters opens)
    rwa [List.append_assoc] at reason

/-! ### Events without a script -/

/-- The events of an assembled graph have functions. -/
theorem Assembled.eventName_eq (h : g.Assembled) (live : g.node? n = some node)
    (event : node.kind.isEvent = true) :
    ∃ name f, node.kind = .event name (some f) ∧ eventName node = .ok name := by
  obtain ⟨p, -, hkind, -⟩ := h.placement live
  rw [hkind] at event
  cases p with
  | event f => exact ⟨f.name, f, hkind, by rw [eventName, hkind]; rfl⟩
  | call f _ => cases event.symm.trans (Placement.isEvent_callKind f none)
  | component f a => cases event.symm.trans (Placement.isEvent_callKind f (some a))
  | branch | loop | member _ => cases event

/-- An event without a script comes to a halt behind its one execution output. -/
theorem halts_of_scriptOf (h : g.Assembled) (live : g.node? e = some node)
    (event : node.kind.isEvent = true) (fails : g.scriptOf e = .error err) :
    ∃ made k, g.Halts (e, Pin.done) (g.entryScope node) made k err := by
  have housed := h.reachable.housed
  obtain rfl := housed.node_id live
  obtain ⟨s', hf⟩ : ∃ s', (g.lowerEvent node.id).Fails {} err s' := by
    rcases bind_eq_error.mp fails with hnone | ⟨found, hfound, fails⟩
    · rw [nodeOrFail_eq_ok.mpr live] at hnone
      cases hnone
    obtain rfl : node = found := Option.some.inj (live.symm.trans (nodeOrFail_eq_ok.mp hfound))
    split at fails
    · simp_all
    · exact ⟨_, Prod.ext fails rfl⟩
  obtain ⟨name, f, kind, hname⟩ := h.eventName_eq live event
  unfold lowerEvent lowerEventBy at hf
  rw [nodeOrFail_eq_ok.mpr live, ofExcept_ok_bind, hname, ofExcept_ok_bind] at hf
  rcases fails_bind.mp hf with hvisit | ⟨_, t, hvisit, hf⟩
  · exact absurd hvisit fails_visit
  obtain rfl := returns_visit.mp hvisit
  rcases fails_bind.mp hf with hparameters | ⟨_, t, hparameters, hf⟩
  · exact absurd hparameters not_fails_forM_bind
  obtain rfl : g.entryScope node = t := returns_forM_bind.mp hparameters
  split at hf
  · exact absurd hf fails_pure
  have enclosed := encloses_component h.reachable live
  have start : g.Inside (g.Component node.id) (g.entryScope node) :=
    .entryScope enclosed live .refl (by rw [kind]; rfl)
  rcases fails_bind.mp hf with hbody | ⟨body, t, -, hf⟩
  · exact halts_of_fails enclosed .refl start (by omega) hbody
  rcases fails_bind.mp hf with hlocals | ⟨locals, t, -, hf⟩
  · obtain ⟨hlocals, -⟩ := fails_reading.mp hlocals
    rw [locals_eq housed] at hlocals
    cases hlocals
  · exact absurd hf fails_pure

/-- **An event is refused for a reason.** In an assembled graph whose calls that make components
pass no parameter out under the name of the one that takes the archetype, let a live event have no
script, let `reached` be the nodes that its followed outputs lead to in one or more steps, `feeding`
the calls without effects that these need, and `offered` the followed outputs of the event and of
what is reached. Then the error is one of three:

* a loop, and two offered outputs lead to one node and the error names an end of one of them, or it
  names a call that feeds and needs itself;
* a wrong number of arguments, and it names a reached or feeding call of an operator and its number
  of arguments, which is not two;
* an unresolved value, and it names an edge to a reached or feeding node from an output of a node
  that is no member variable, is not the event, and has no statement among those that were made
  before lowering came to a halt at the reading node. -/
theorem error_justified (h : g.Assembled) (takes : g.TakesArchetypes)
    (live : g.node? e = some node) (event : node.kind.isEvent = true)
    (fails : g.scriptOf e = .error err) :
    let reached := TransGen g.Follows e
    let feeding := fun p => ∃ r, reached r ∧ TransGen g.Needs r p
    let offered := fun out : NodeId × String => (out.1 = e ∨ reached out.1) ∧ g.Exit out
    (∃ blamed culprit, g.node? blamed = some culprit ∧ err = .loopDetected culprit.name ∧
      ((∃ n out out', out ≠ out' ∧ offered out ∧ offered out' ∧
        g.successor? out.1 out.2 = some n ∧ g.successor? out'.1 out'.2 = some n ∧
          (blamed = out'.1 ∨ blamed = n)) ∨
        feeding blamed ∧ TransGen g.Needs blamed blamed)) ∨
    (∃ c caller callee f, (reached c ∨ feeding c) ∧ g.node? c = some caller ∧
      caller.kind.callee? = some callee ∧ callee.function = some f ∧ f.flags.operator = true ∧
        f.arguments.length ≠ 2 ∧ err = .arityMismatch caller.name f.arguments.length) ∨
    ∃ source output input consumer made, g.Edge source output input consumer ∧
      err = .unresolvedValue output.name source.name consumer.name ∧
        (reached consumer.id ∨ feeding consumer.id) ∧ source.kind.member? = none ∧
          g.Halts (e, Pin.done) (g.entryScope node) made consumer.id err ∧
            source.id ≠ e ∧ source.id ∉ made := by
  intro reached feeding offered
  obtain ⟨made, n, halts⟩ := halts_of_scriptOf h live event fails
  obtain ⟨name, f, kind, -⟩ := h.eventName_eq live event
  have behind_iff : ∀ {n}, g.Behind [(e, Pin.done)] n ↔ reached n := behind_event_iff live kind
  have involves_iff : ∀ {n}, g.Involves e n ↔ reached n ∨ feeding n := by
    simp only [Involves, behind_iff, feeding, implies_true]
  have offers_iff : ∀ {out}, g.Offers [(e, Pin.done)] out ↔ offered out :=
    offers_event_iff live kind
  have reason := halts.justified h takes (.start h.reachable.housed live kind)
  cases reason with
  | rejoins different first second next next' ends culprit =>
    exact .inl ⟨_, _, culprit, rfl, .inl ⟨_, _, _, different, offers_iff.mp first,
      offers_iff.mp second, next, next', ends⟩⟩
  | cyclic hr needed cycle culprit =>
    exact .inl ⟨_, _, culprit, rfl, .inr ⟨⟨_, behind_iff.mp hr, needed⟩, cycle⟩⟩
  | arity involved here call function operator arity =>
    exact .inr (.inl ⟨n, _, _, _, involves_iff.mp involved, here, call, function, operator, arity,
      rfl⟩)
  | unresolved involved consumer_eq edge value unmade =>
    subst consumer_eq
    obtain ⟨other, unmade⟩ := not_or.mp (List.mem_cons.not.mp unmade)
    exact .inr (.inr ⟨_, _, _, _, made, edge, rfl, involves_iff.mp involved, value, halts, other,
      unmade⟩)

/-- An event that leads to a call which reads the result of another call that nothing leads to. -/
def unexecuted : Graph :=
  let name := { FunctionDecl.callable "Actor" "GetName" with params := [.returns .string] }
  let log := { FunctionDecl.callable "Actor" "Log" with params := [.input "Message" .string] }
  (empty "Unexecuted").run [.place (.event (FunctionDecl.callable "Actor" "Tick").asEvent),
    .place (.call name none), .place (.call log none), .connect ⟨0⟩ ⟨2⟩ .any,
    .connect ⟨2⟩ ⟨4⟩ .any]

/-- The event has no script, because the call that lowering halts at reads an output of a node
without a statement. -/
theorem error_justified_unexecuted :
    ∃ node err made source output input consumer, unexecuted.node? ⟨0⟩ = some node ∧
      unexecuted.Halts (⟨0⟩, Pin.done) (unexecuted.entryScope node) made consumer.id err ∧
        unexecuted.Edge source output input consumer ∧ source.name = "Func_1" ∧
          consumer.name = "Func_2" ∧ source.id ∉ made := by
  have assembled : unexecuted.Assembled := ⟨_, _, by decide, rfl⟩
  obtain ⟨node, live, event⟩ : ∃ node, unexecuted.node? ⟨0⟩ = some node ∧
      node.kind.isEvent = true := ⟨_, rfl, rfl⟩
  have fails : unexecuted.scriptOf ⟨0⟩ = .error (.unresolvedValue "Return" "Func_1" "Func_2") := rfl
  have takes : unexecuted.TakesArchetypes := by
    rintro ⟨i⟩ caller f a hcaller hcallee
    have few : i < 3 := Table.lt_size_of_get? hcaller
    -- no node makes a component
    rcases i with _ | _ | _ | i
    · cases hcaller
      cases hcallee
    · cases hcaller
      cases hcallee
    · cases hcaller
      cases hcallee
    · omega
  rcases error_justified assembled takes live event fails with
    ⟨_, _, -, hloop, -⟩ | ⟨_, _, _, _, -, -, -, -, -, -, harity⟩ |
      ⟨source, output, input, consumer, made, edge, herr, -, -, halts, -, unmade⟩
  · cases hloop
  · cases harity
  · obtain ⟨-, hsource, hconsumer⟩ := CompileError.unresolvedValue.inj herr
    exact ⟨node, _, made, source, output, input, consumer, live, halts, edge, hsource.symm,
      hconsumer.symm, unmade⟩

end NodeScript.Graph
