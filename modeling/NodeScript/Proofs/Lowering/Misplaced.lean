import NodeScript.Proofs.Lowering.Inside
import NodeScript.Proofs.Lowering.Termination

/-!
# Execution outputs that lead to a node without a place

Calls without effects and member variables have no place in the order of statements. An edge can
still make an execution output lead to one, since any node can be given an input for it. `ComesTo`
describes how far lowering gets: which outputs it follows, and from which scope. A failure behind
such an output is the failure of the event (`scriptOf_of_comesTo`).

Lowering first asks whether the node was lowered before, and only then what kind of node it is. The
nodes lowered before, apart from the event, are nodes with a place and exactly the calls without
effects that these need (`Accounted`). So a member variable is always refused as not executable, and
a call without effects is as well, unless a node lowered before needs it; then the output is said to
close a loop (`not_executable_iff`).
-/

namespace NodeScript.Graph

open Relation
open NodeScript.Lowering

variable {g : Graph} {e m n p : NodeId} {node : Node} {pin : String} {blame : Blame}
  {s s' t : Scope} {err : CompileError}

/-! ### How far lowering gets -/

/-- Lowering a new node from `s` gets to one of its outputs: everything before it returns, and what
lies behind the output is lowered in `t`. -/
inductive Proceeds (g : Graph) (node : Node) (s : Scope) : String → Blame → Scope → Prop
  | done {callee needed s₁ st t assigned} (kind : node.kind = .call callee)
    (needs : (g.pureCalls node.id).Returns (s.visit node.id) needed s₁)
    (states : (g.callStatement node.id).Returns s₁ st t)
    (assigns : g.assignments t node = .ok assigned) : Proceeds g node s Pin.done .source t
  | whenTrue {needed t condition} (kind : node.kind = .branch)
    (needs : (g.pureCalls node.id).Returns (s.visit node.id) needed t)
    (test : g.operandNamed t node Pin.condition = .ok condition) :
    Proceeds g node s Pin.whenTrue .target t
  | whenFalse {needed s₁ condition b t} (kind : node.kind = .branch)
    (needs : (g.pureCalls node.id).Returns (s.visit node.id) needed s₁)
    (test : g.operandNamed s₁ node Pin.condition = .ok condition)
    (onTrue : (g.lowerBehind g.lower node.id Pin.whenTrue .target).Returns s₁ b t) :
    Proceeds g node s Pin.whenFalse .target t
  | body {needed s₁ bound counter t assigned} (kind : node.kind = .loop)
    (needs : (g.pureCalls node.id).Returns (s.visit node.id) needed s₁)
    (test : g.operandNamed s₁ node Pin.count = .ok bound)
    (counts : g.Counts node.id s₁ counter t)
    (assigns : g.assignments t node = .ok assigned) : Proceeds g node s Pin.body .target t
  | afterLoop {needed s₁ bound counter s₂ assigned b t} (kind : node.kind = .loop)
    (needs : (g.pureCalls node.id).Returns (s.visit node.id) needed s₁)
    (test : g.operandNamed s₁ node Pin.count = .ok bound)
    (counts : g.Counts node.id s₁ counter s₂)
    (assigns : g.assignments s₂ node = .ok assigned)
    (inside : (g.lowerBehind g.lower node.id Pin.body .target).Returns s₂ b t) :
    Proceeds g node s Pin.afterLoop .target t

/-- Lowering the event `e` comes to an output of a node and follows it from a scope. -/
inductive ComesTo (g : Graph) (e : NodeId) : NodeId → String → Blame → Scope → Prop
  | start {node name f} (live : g.node? e = some node)
    (kind : node.kind = .event name (some f)) :
    ComesTo g e e Pin.done .source (g.entryScope node)
  | further {m pin blame s n node pin' blame' t} (before : ComesTo g e m pin blame s)
    (leads : g.successor? m pin = some n) (new : n ∉ s.visited) (live : g.node? n = some node)
    (proceeds : g.Proceeds node s pin' blame' t) : ComesTo g e n pin' blame' t

/-- For a loop that the output `Done` closes, its own node is to blame, and otherwise the other
one. -/
theorem ComesTo.blame_eq (h : g.ComesTo e m pin blame s) : blame = .source ↔ pin = Pin.done := by
  cases h with
  | start => exact iff_of_true rfl rfl
  | further _ _ _ _ proceeds =>
    cases proceeds with
    | done => exact iff_of_true rfl rfl
    | whenTrue | whenFalse | body | afterLoop => exact iff_of_false (by decide) (by decide)

/-! ### Failures on the way -/

/-- A loop that was counted fails if its body fails, or what comes after it. -/
theorem fails_lowerLoop (live : g.node? n = some node) {needed : Block}
    {bound : Option Operand} {counter : String} {assigned : List Assignment} {s₁ s₂ : Scope}
    (needs : (g.pureCalls n).Returns s needed s₁)
    (test : g.operandNamed s₁ node Pin.count = .ok bound) (counts : g.Counts n s₁ counter s₂)
    (assigns : g.assignments s₂ node = .ok assigned)
    (fails : (g.lowerBehind g.lower n Pin.body .target).Fails s₂ err s' ∨
      ∃ body t, (g.lowerBehind g.lower n Pin.body .target).Returns s₂ body t ∧
        (g.lowerBehind g.lower n Pin.afterLoop .target).Fails t err s') :
    (g.lowerLoop g.lower n).Fails s err s' := by
  unfold lowerLoop
  refine fails_after needs ?_
  rw [nodeOrFail_eq_ok.mpr live, ofExcept_ok_bind]
  refine fails_after (returns_reading.mpr ⟨test, rfl⟩) ?_
  have rest : Lowering.Fails (do
      let assigned ← reading fun s => g.assignments s node
      let body ← g.lowerBehind g.lower n Pin.body .target
      let after ← g.lowerBehind g.lower n Pin.afterLoop .target
      return needed ++ .loop ⟨n, counter, bound⟩ (.assigns assigned ++ body) after) s₂ err s' := by
    refine fails_after (returns_reading.mpr ⟨assigns, rfl⟩) ?_
    rcases fails with first | ⟨body, t, inside, second⟩
    · exact fails_first first
    · exact fails_after inside (fails_first second)
  -- the counter is bound if the loop has an output for it
  cases ho : g.outputNamed? n Pin.counter with
  | none =>
    exact fails_after (counts.hidden ho) rest
  | some output =>
    obtain ⟨hname, rfl⟩ := returns_bindFresh.mp (counts.shown output ho)
    refine fails_after (returns_fresh.mpr ⟨hname, rfl⟩) ?_
    exact fails_after (a := ()) (returns_modify.mpr rfl) rest

/-- Lowering a node fails if it fails behind an output that it gets to. -/
theorem fails_of_proceeds (h : g.Housed) (live : g.node? n = some node)
    (proceeds : g.Proceeds node s pin blame t)
    (fails : (g.lowerBehind g.lower n pin blame).Fails t err s') :
    (g.lower n).Fails s err s' := by
  obtain rfl := h.node_id live
  rw [← congrFun (enter_lower h) node.id]
  unfold enter
  refine fails_after (a := ()) (returns_visit.mpr rfl) ?_
  rw [nodeOrFail_eq_ok.mpr live, ofExcept_ok_bind]
  unfold lowerKind
  cases proceeds with
  | done kind needs states assigns =>
    simp only [kind]
    unfold lowerCall
    refine fails_after needs (fails_after states ?_)
    rw [nodeOrFail_eq_ok.mpr live, ofExcept_ok_bind]
    exact fails_after (returns_reading.mpr ⟨assigns, rfl⟩) (fails_first fails)
  | whenTrue kind needs test =>
    simp only [kind]
    unfold lowerBranch
    refine fails_after needs ?_
    rw [nodeOrFail_eq_ok.mpr live, ofExcept_ok_bind]
    exact fails_after (returns_reading.mpr ⟨test, rfl⟩) (fails_first fails)
  | whenFalse kind needs test onTrue =>
    simp only [kind]
    unfold lowerBranch
    refine fails_after needs ?_
    rw [nodeOrFail_eq_ok.mpr live, ofExcept_ok_bind]
    exact fails_after (returns_reading.mpr ⟨test, rfl⟩) (fails_after onTrue (fails_first fails))
  | body kind needs test counts assigns =>
    simp only [kind]
    exact fails_lowerLoop live needs test counts assigns (.inl fails)
  | afterLoop kind needs test counts assigns inside =>
    simp only [kind]
    exact fails_lowerLoop live needs test counts assigns (.inr ⟨_, _, inside, fails⟩)

/-- What lies behind an output fails if the new node that it leads to fails. -/
theorem fails_lowerBehind_new {lower : NodeId → Lowering Block}
    (leads : g.successor? m pin = some n) (new : n ∉ s.visited) (fails : (lower n).Fails s err s') :
    (g.lowerBehind lower m pin blame).Fails s err s' := by
  unfold lowerBehind
  rw [leads]
  refine fails_after (returns_isVisited.mpr ⟨rfl, rfl⟩) ?_
  simpa [new] using fails

/-- What lies behind an output fails if it leads back to a node that was lowered. -/
theorem fails_lowerBehind_back {lower : NodeId → Lowering Block} {culprit : Node}
    (leads : g.successor? m pin = some n) (seen : n ∈ s.visited)
    (live : g.node? (if blame = .source then m else n) = some culprit) :
    (g.lowerBehind lower m pin blame).Fails s (.loopDetected culprit.name) s := by
  unfold lowerBehind
  rw [leads]
  refine fails_after (returns_isVisited.mpr ⟨rfl, rfl⟩) ?_
  simp only [List.contains_iff_mem.mpr seen, if_true]
  rw [nodeOrFail_eq_ok.mpr live, ofExcept_ok_bind]
  exact fails_first (fails_throw.mpr ⟨rfl, rfl⟩)

/-- Lowering a call without effects or a member variable fails. -/
theorem fails_lower_misplaced (h : g.Housed) (live : g.node? n = some node)
    (kind : node.kind.isPureCall = true ∨ node.kind.member?.isSome = true) :
    (g.lower n).Fails s (.notExecutable node.name) (s.visit n) := by
  rw [← congrFun (enter_lower h) n]
  unfold enter
  refine fails_after (a := ()) (returns_visit.mpr rfl) ?_
  rw [nodeOrFail_eq_ok.mpr live, ofExcept_ok_bind]
  unfold lowerKind
  cases hkind : node.kind <;> simp_all [NodeKind.isPureCall, NodeKind.member?]

/-- **A failure behind an output that lowering comes to is the failure of the event.** -/
theorem scriptOf_of_comesTo (h : g.Housed) (comes : g.ComesTo e m pin blame s)
    (fails : (g.lowerBehind g.lower m pin blame).Fails s err s') : g.scriptOf e = .error err := by
  induction comes generalizing err s' with
  | @start node name f live kind =>
    obtain rfl := h.node_id live
    have leads : (g.successor? node.id Pin.done).isNone = false := by
      rw [Bool.eq_false_iff]
      intro nowhere
      rw [lowerBehind, Option.isNone_iff_eq_none.mp nowhere] at fails
      exact fails_pure fails
    have named : eventName node = .ok name := by rw [eventName, kind]
    have lowered : (g.lowerEvent node.id).Fails {} err s' := by
      unfold lowerEvent lowerEventBy
      rw [nodeOrFail_eq_ok.mpr live, ofExcept_ok_bind, named, ofExcept_ok_bind]
      refine fails_after (a := ()) (returns_visit.mpr rfl) ?_
      refine fails_after (a := ()) (returns_forM_bind.mpr rfl) ?_
      simp only [leads, Bool.false_eq_true, if_false]
      exact fails_first fails
    have event : node.kind.isEvent = true := by rw [kind]; rfl
    unfold scriptOf
    rw [nodeOrFail_eq_ok.mpr live]
    show (if !node.kind.isEvent then _ else _) = _
    simp only [event]
    exact congrArg Prod.fst lowered
  | further before leads new live proceeds ih =>
    exact ih (fails_lowerBehind_new leads new (fails_of_proceeds h live proceeds fails))

/-! ### Which nodes were lowered before -/

/-- A live node that has a place in the order of statements. -/
def IsPlaced (g : Graph) (n : NodeId) : Prop :=
  ∃ node, g.node? n = some node ∧ node.kind.isPlaced = true

/-- The call without effects `p` is needed by a node with a place that was lowered before. -/
def Hoisted (g : Graph) (s : Scope) (p : NodeId) : Prop :=
  ∃ r ∈ s.visited, g.IsPlaced r ∧ TransGen g.Needs r p

/-- Apart from the event, what was lowered before are nodes with a place, and exactly the calls
without effects that these need. -/
structure Accounted (g : Graph) (e : NodeId) (s : Scope) : Prop where
  kinds : ∀ {p}, p ∈ s.visited → p = e ∨ g.IsPlaced p ∨ g.IsPureCall p
  hoisted : ∀ {p}, g.IsPureCall p → (p ∈ s.visited ↔ g.Hoisted s p)

namespace Accounted

theorem congr (h : g.Accounted e s) (hv : t.visited = s.visited) : g.Accounted e t where
  kinds hp := h.kinds (hv ▸ hp)
  hoisted {p} pure := by
    rw [Hoisted, hv]
    exact h.hoisted pure

/-- More nodes with a place are lowered, together with the calls that they need. -/
theorem extend {new : NodeId → Prop} (h : g.Accounted e s) (placed : ∀ {p}, new p → g.IsPlaced p)
    (marked : ∀ {p}, p ∈ t.visited ↔
      p ∈ s.visited ∨ new p ∨ ∃ r, new r ∧ TransGen g.Needs r p) : g.Accounted e t where
  kinds hp := by
    rcases marked.mp hp with hp | hp | ⟨r, -, hneeds⟩
    · exact h.kinds hp
    · exact .inr (.inl (placed hp))
    · exact .inr (.inr (isPureCall_of_needs hneeds))
  hoisted {p} pure := by
    refine ⟨fun hp => ?_, fun ⟨r, hr, placed', hneeds⟩ => ?_⟩
    · rcases marked.mp hp with hp | hp | ⟨r, hr, hneeds⟩
      · obtain ⟨r, hr, rest⟩ := (h.hoisted pure).mp hp
        exact ⟨r, marked.mpr (.inl hr), rest⟩
      · exact absurd (placed hp) pure.not_placed
      · exact ⟨r, marked.mpr (.inr (.inl hr)), placed hr, hneeds⟩
    · rcases marked.mp hr with hr | hr | ⟨_, -, needed⟩
      · exact marked.mpr (.inl ((h.hoisted pure).mpr ⟨r, hr, placed', hneeds⟩))
      · exact marked.mpr (.inr (.inr ⟨r, hr, hneeds⟩))
      · exact absurd placed' (isPureCall_of_needs needed).not_placed

/-- The scope that an event is lowered in knows the event only. -/
theorem entryScope (h : g.Housed) (live : g.node? e = some node) (event : node.kind.isEvent) :
    g.Accounted e (g.entryScope node) := by
  have only : ∀ {p}, p ∈ (g.entryScope node).visited ↔ p = e := by
    rw [visited_entryScope h live]
    exact List.mem_singleton
  have unplaced : node.kind.isPlaced = false ∧ node.kind.isPureCall = false := by
    cases hkind : node.kind <;> simp_all [NodeKind.isEvent, NodeKind.isPlaced, NodeKind.isPureCall]
  refine ⟨fun hp => .inl (only.mp hp), fun {p} pure => ⟨fun hp => ?_, ?_⟩⟩
  · obtain rfl := only.mp hp
    exact absurd pure (Graph.not_isPureCall live unplaced.2)
  · rintro ⟨r, hr, ⟨other, hother, placed⟩, -⟩
    obtain rfl := only.mp hr
    obtain rfl := Option.some.inj (live.symm.trans hother)
    exact absurd placed (by simp [unplaced.1])

/-- Entering a node with a place. -/
theorem enters {order : List NodeId} {calls : List CallStatement} (h : g.Accounted e s)
    (enters : g.Enters n node s order calls t) (placed : node.kind.isPlaced = true) :
    g.Accounted e t := by
  refine h.extend (fun {q} (hq : q = n) => hq ▸ ⟨node, enters.live, placed⟩) fun {p} => ?_
  rw [enters.mem_visited, exists_eq_left]

/-- Lowering what lies behind an output. -/
theorem lowered {b : Block} (h : g.Accounted e s) (lowered : g.Lowered m pin s b t) :
    g.Accounted e t :=
  h.extend lowered.spread.placed lowered.spread.visited

end Accounted

/-- Getting to an output of a node accounts for what is lowered on the way. -/
theorem Proceeds.accounted (h : g.Housed) (live : g.node? n = some node) (new : n ∉ s.visited)
    (proceeds : g.Proceeds node s pin blame t) (hs : g.Settled s) (ha : g.Accounted e s) :
    g.Settled t ∧ g.Accounted e t := by
  obtain rfl := h.node_id live
  -- what every kind of node does first
  have entered : ∀ {needed s₁}, node.kind.isPlaced = true →
      (g.pureCalls node.id).Returns (s.visit node.id) needed s₁ →
        g.Settled s₁ ∧ g.Accounted e s₁ := by
    intro needed s₁ placed needs
    have pure := NodeKind.isPureCall_of_isPlaced placed
    obtain ⟨order, calls, -, enters, hs₁⟩ := enters_of_returns h hs live pure new needs
    exact ⟨hs₁, ha.enters enters placed⟩
  have derives : g.Derives g.lower := derives_lowerUpTo h _
  cases proceeds with
  | done kind needs states assigns =>
    obtain ⟨hs₁, ha₁⟩ := entered (by rw [kind]; rfl) needs
    have visited := (makes_callStatement h states).visited
    exact ⟨hs₁.congr visited, ha₁.congr visited⟩
  | whenTrue kind needs test => exact entered (by rw [kind]; rfl) needs
  | whenFalse kind needs test onTrue =>
    obtain ⟨hs₁, ha₁⟩ := entered (by rw [kind]; rfl) needs
    obtain ⟨onTrue, ht⟩ := derives hs₁ onTrue
    exact ⟨ht, ha₁.lowered onTrue⟩
  | body kind needs test counts assigns =>
    obtain ⟨hs₁, ha₁⟩ := entered (by rw [kind]; rfl) needs
    obtain ⟨l, binds⟩ := counts.binds
    exact ⟨hs₁.congr binds.visited, ha₁.congr binds.visited⟩
  | afterLoop kind needs test counts assigns inside =>
    obtain ⟨hs₁, ha₁⟩ := entered (by rw [kind]; rfl) needs
    obtain ⟨l, binds⟩ := counts.binds
    obtain ⟨inside, ht⟩ := derives (hs₁.congr binds.visited) inside
    exact ⟨ht, (ha₁.congr binds.visited).lowered inside⟩

/-- **Wherever lowering comes to, what was lowered before is accounted for.** -/
theorem ComesTo.accounted (h : g.Housed) (comes : g.ComesTo e m pin blame s) :
    g.Settled s ∧ g.Accounted e s := by
  induction comes with
  | start live kind =>
    exact ⟨settled_entryScope h live (by rw [kind]; rfl), .entryScope h live (by rw [kind]; rfl)⟩
  | further before leads new live proceeds ih => exact proceeds.accounted h live new ih.1 ih.2

/-! ### The error -/

/-- The event that lowering started from is live. -/
theorem ComesTo.event (comes : g.ComesTo e m pin blame s) :
    ∃ node, g.node? e = some node ∧ node.kind.isEvent = true := by
  induction comes with
  | start live kind => exact ⟨_, live, by rw [kind]; rfl⟩
  | further _ _ _ _ _ ih => exact ih

/-- The node whose output lowering comes to is live. -/
theorem ComesTo.live (comes : g.ComesTo e m pin blame s) : ∃ node, g.node? m = some node := by
  cases comes with
  | start live | further _ _ _ live => exact ⟨_, live⟩

/-- **What happens to an output that leads to a node without a place.** In a graph that edits have
led to, let the lowering of an event come to an execution output that leads to a call without
effects or to a member variable. Then the event fails, and it fails because this node is not
executable, exactly if no node with a place that was lowered before needs it. Otherwise it is a call
without effects, and the event fails because of a loop, which is said to be at the call that the
output `Done` belongs to, or at the node itself if it is another output. -/
theorem not_executable_iff (h : g.Reachable) (comes : g.ComesTo e m pin blame s)
    (leads : g.successor? m pin = some n) (live : g.node? n = some node)
    (kind : node.kind.isPureCall = true ∨ node.kind.member?.isSome = true) :
    (g.scriptOf e = .error (.notExecutable node.name) ↔ ¬ g.Hoisted s n) ∧
      (g.Hoisted s n → node.kind.isPureCall = true ∧
        ∃ culprit, g.node? (if pin = Pin.done then m else n) = some culprit ∧
          g.scriptOf e = .error (.loopDetected culprit.name)) := by
  have housed := h.housed
  obtain ⟨-, accounted⟩ := comes.accounted housed
  have loop : g.Hoisted s n → node.kind.isPureCall = true ∧
      ∃ culprit, g.node? (if pin = Pin.done then m else n) = some culprit ∧
        g.scriptOf e = .error (.loopDetected culprit.name) := by
    intro hoisted
    have ⟨_, _, _, hneeds⟩ := hoisted
    obtain ⟨found, hfound, pure⟩ := isPureCall_of_needs hneeds
    obtain rfl := Option.some.inj (live.symm.trans hfound)
    have seen : n ∈ s.visited := (accounted.hoisted ⟨node, live, pure⟩).mpr hoisted
    obtain ⟨culprit, blamed⟩ : ∃ culprit,
        g.node? (if blame = .source then m else n) = some culprit := by
      split
      exacts [comes.live, ⟨node, live⟩]
    have fails := scriptOf_of_comesTo housed comes (fails_lowerBehind_back leads seen blamed)
    simp only [comes.blame_eq] at blamed
    exact ⟨pure, culprit, blamed, fails⟩
  refine ⟨⟨fun fails hoisted => ?_, fun unneeded => ?_⟩, loop⟩
  · obtain ⟨-, culprit, -, looped⟩ := loop hoisted
    cases fails.symm.trans looped
  · have unplaced : node.kind.isPlaced = false ∧ node.kind.isEvent = false := by
      cases hkind : node.kind <;> simp_all [NodeKind.isPlaced, NodeKind.isEvent,
        NodeKind.isPureCall, NodeKind.member?]
    have new : n ∉ s.visited := by
      intro seen
      rcases accounted.kinds seen with rfl | ⟨other, hother, placed⟩ | pure
      · obtain ⟨other, hother, event⟩ := comes.event
        obtain rfl := Option.some.inj (live.symm.trans hother)
        exact absurd event (by simp [unplaced.2])
      · obtain rfl := Option.some.inj (live.symm.trans hother)
        exact absurd placed (by simp [unplaced.1])
      · exact unneeded ((accounted.hoisted pure).mp seen)
    exact scriptOf_of_comesTo housed comes
      (fails_lowerBehind_new leads new (fails_lower_misplaced housed live kind))

/-- Edits to an event that leads to a call, and on to a call without effects. -/
def strayEdits : List Edit :=
  let name := { (FunctionDecl.callable "Actor" "GetName").asPure with params := [.returns .string] }
  let log := { FunctionDecl.callable "Actor" "Log" with params := [.input "Message" .string] }
  [.place (.event (FunctionDecl.callable "Actor" "Tick").asEvent), .place (.call name none),
    .place (.call log none), .addConnector ⟨1⟩ ⟨.input, .execution, "Run", none⟩,
    .connect ⟨0⟩ ⟨0⟩ .any, .connect ⟨2⟩ ⟨3⟩ .any]

/-- Nobody needs the call without effects. -/
def strayed : Graph :=
  (empty "Stray").run strayEdits

/-- The call without effects is not executable. -/
theorem not_executable_iff_strayed :
    strayed.Reachable ∧ ∃ s node, strayed.ComesTo ⟨0⟩ ⟨2⟩ Pin.done .source s ∧
      strayed.successor? ⟨2⟩ Pin.done = some ⟨1⟩ ∧ strayed.node? ⟨1⟩ = some node ∧
      node.kind.isPureCall = true ∧ node.name = "FuncPure_1" ∧ ¬ strayed.Hoisted s ⟨1⟩ ∧
      strayed.scriptOf ⟨0⟩ = .error (.notExecutable "FuncPure_1") := by
  have reach : strayed.Reachable := ⟨_, _, rfl⟩
  obtain ⟨s, comes⟩ : ∃ s, strayed.ComesTo ⟨0⟩ ⟨2⟩ Pin.done .source s :=
    ⟨_, .further (.start rfl rfl) rfl (by decide) rfl (.done rfl rfl rfl rfl)⟩
  obtain ⟨node, live, pure, named⟩ : ∃ node, strayed.node? ⟨1⟩ = some node ∧
      node.kind.isPureCall = true ∧ node.name = "FuncPure_1" := ⟨_, rfl, rfl, rfl⟩
  have fails : strayed.scriptOf ⟨0⟩ = .error (.notExecutable node.name) := by
    rw [named]
    rfl
  have leads : strayed.successor? ⟨2⟩ Pin.done = some ⟨1⟩ := rfl
  exact ⟨reach, s, node, comes, leads, live, pure, named,
    (not_executable_iff reach comes leads live (.inl pure)).1.mp fails, named ▸ fails⟩

/-- The call takes the value of the call without effects that it leads to. -/
def readBack : Graph :=
  (empty "Stray").run (strayEdits ++ [.connect ⟨1⟩ ⟨2⟩ .any])

/-- Because it was made for the call, the call without effects is said to close a loop. -/
theorem readBack_loop :
    readBack.Reachable ∧ ∃ s node, readBack.ComesTo ⟨0⟩ ⟨2⟩ Pin.done .source s ∧
      readBack.successor? ⟨2⟩ Pin.done = some ⟨1⟩ ∧ readBack.node? ⟨1⟩ = some node ∧
      node.kind.isPureCall = true ∧ node.name = "FuncPure_1" ∧
      readBack.scriptOf ⟨0⟩ = .error (.loopDetected "Func_1") := by
  let made : Scope := ⟨⟨["GetNameRet"]⟩, [(⟨1⟩, "GetNameRet_1")], [⟨1⟩, ⟨2⟩, ⟨0⟩]⟩
  have needs : (readBack.pureCalls ⟨2⟩).Returns ⟨{}, [], [⟨2⟩, ⟨0⟩]⟩
      (.call ⟨⟨1⟩, some (⟨1⟩, "GetNameRet_1"), none, .invocation none "GetName" []⟩ .done) made :=
    rfl
  have states : (readBack.callStatement ⟨2⟩).Returns made
      ⟨⟨2⟩, none, none, .invocation none "Log" [.value (.held ⟨1⟩ "GetNameRet_1")]⟩ made := rfl
  have comes : readBack.ComesTo ⟨0⟩ ⟨2⟩ Pin.done .source made :=
    .further (.start rfl rfl) rfl (by decide) rfl (.done rfl needs states rfl)
  exact ⟨⟨_, _, rfl⟩, made, _, comes, rfl, rfl, rfl, rfl, rfl⟩

end NodeScript.Graph
