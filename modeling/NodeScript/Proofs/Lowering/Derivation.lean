import NodeScript.Lowering.Event
import NodeScript.Proofs.Lowering.CallStatement
import NodeScript.Proofs.Lowering.PureOrder

/-!
# How a script comes about

Lowering that succeeds leaves no trace of the ways in which it could have failed, of its fuel or of
its monad: what it did is a derivation (`Lowered`) with one rule per kind of node. Each rule says
which blocks are put together, what was looked up in which scope, and that the node was new. The
scopes of a derivation are settled, so each rule also says which calls without effects were made.

Properties of scripts are proved by induction on the derivation, which `written_of_scriptOf` finds
for every script.
-/

namespace NodeScript.Graph

open Relation
open NodeScript.Lowering
open NodeScript.Except (bind_eq_ok)

variable {g : Graph}

/-- A new node is marked, and the calls without effects that it needs are made. -/
structure Enters (g : Graph) (n : NodeId) (node : Node) (s : Scope) (order : List NodeId)
    (calls : List CallStatement) (s' : Scope) : Prop where
  live : g.node? n = some node
  fresh : n ∉ s.visited
  gathered : g.Gathered (g.dataSources node) (s.visit n) order
  makes : g.MakesAll ((s.visit n).visitAll order) order calls s'

/-- A loop gets a fresh counter, which its output for the counter holds if it has one. -/
structure Counts (g : Graph) (n : NodeId) (s : Scope) (counter : String) (s' : Scope) : Prop where
  binds : ∃ l, g.Binds n s l s'
  shown : ∀ output, g.outputNamed? n Pin.counter = some output →
    (bindFresh output.id "ForCount").Returns s counter s'
  hidden : g.outputNamed? n Pin.counter = none → (Lowering.fresh "ForCount").Returns s counter s'

/-- What lies behind an output, lowered in a scope, is this block, and leaves this scope. -/
inductive Lowered (g : Graph) : NodeId → String → Scope → Block → Scope → Prop
  | nothing {m pin s} (next : g.successor? m pin = none) : Lowered g m pin s .done s
  | call {m pin n node callee s order calls s₁ st s₂ assigned rest s'}
    (next : g.successor? m pin = some n) (kind : node.kind = .call callee)
    (enters : g.Enters n node s order calls s₁) (makes : g.Makes n s₁ st s₂)
    (assigns : g.assignments s₂ node = .ok assigned)
    (after : Lowered g n Pin.done s₂ rest s') :
    Lowered g m pin s (.calls calls ++ .call st (.assigns assigned ++ rest)) s'
  | branch {m pin n node s order calls s₁ condition whenTrue s₂ whenFalse s'}
    (next : g.successor? m pin = some n) (kind : node.kind = .branch)
    (enters : g.Enters n node s order calls s₁)
    (test : g.operandNamed s₁ node Pin.condition = .ok condition)
    (onTrue : Lowered g n Pin.whenTrue s₁ whenTrue s₂)
    (onFalse : Lowered g n Pin.whenFalse s₂ whenFalse s') :
    Lowered g m pin s (.calls calls ++ .branch n condition whenTrue whenFalse .done) s'
  | loop {m pin n node s order calls s₁ bound counter s₂ assigned body s₃ rest s'}
    (next : g.successor? m pin = some n) (kind : node.kind = .loop)
    (enters : g.Enters n node s order calls s₁)
    (test : g.operandNamed s₁ node Pin.count = .ok bound)
    (counts : g.Counts n s₁ counter s₂)
    (assigns : g.assignments s₂ node = .ok assigned)
    (inside : Lowered g n Pin.body s₂ body s₃)
    (after : Lowered g n Pin.afterLoop s₃ rest s') :
    Lowered g m pin s
      (.calls calls ++ .loop ⟨n, counter, bound⟩ (.assigns assigned ++ body) rest) s'

variable {m n : NodeId} {node : Node} {pin : String} {s s' : Scope} {b : Block}

/-! ### Entering a node -/

namespace Enters

variable {order : List NodeId} {calls : List CallStatement}

theorem visited (h : g.Enters n node s order calls s') :
    s'.visited = order.reverse ++ n :: s.visited :=
  h.makes.visited

/-- Entering a node marks it and what it needs. -/
theorem mem_visited (h : g.Enters n node s order calls s') {p : NodeId} :
    p ∈ s'.visited ↔ p ∈ s.visited ∨ p = n ∨ TransGen g.Needs n p := by
  have gathered : p ∈ order ↔ TransGen g.Needs n p ∧ ¬ (p = n ∨ p ∈ s.visited) := by
    rw [h.gathered.mem_iff, wanted_dataSources h.live]
    simp [Scope.visit]
  rw [h.visited, List.mem_append, List.mem_cons, List.mem_reverse, gathered]
  by_cases hn : p = n <;> by_cases hs : p ∈ s.visited <;> simp [hn, hs]

end Enters

/-- Making the calls without effects for a new node that is no such call itself enters the node. -/
theorem enters_of_returns (h : g.Housed) (hs : g.Settled s) (hn : g.node? n = some node)
    (kind : node.kind.isPureCall = false) (fresh : n ∉ s.visited)
    (hr : (g.pureCalls n).Returns (s.visit n) b s') :
    ∃ order calls, b = .calls calls ∧ g.Enters n node s order calls s' ∧ g.Settled s' := by
  have hs := hs.visit (not_isPureCall hn kind)
  obtain ⟨order, t, horder, hr⟩ := returns_bind.mp hr
  obtain ⟨gathered, rfl⟩ := gathered_of_returns h hs hn horder
  obtain ⟨calls, t, hcalls, hr⟩ := returns_bind.mp hr
  obtain ⟨rfl, rfl⟩ := returns_pure.mp hr
  have makes := makesAll_mapM h hcalls
  exact ⟨order, calls, rfl, ⟨hn, fresh, gathered, makes⟩, (gathered.settled hs).congr makes.visited⟩

/-! ### Counting -/

section Counting

variable {counter : String} {output : Output}

/-- The output for the counter holds it. -/
theorem counts_of_output (h : g.Housed) (hfresh : (fresh "ForCount").Returns s counter s')
    (ho : g.outputNamed? n Pin.counter = some output) :
    g.Counts n s counter (s'.bind output.id counter) := by
  obtain ⟨hname, rfl⟩ := returns_fresh.mp hfresh
  have hbind : (bindFresh output.id "ForCount").Returns s counter _ :=
    returns_bindFresh.mpr ⟨hname, rfl⟩
  have binds := Binds.of_bindFresh (ownerOf?_outputNamed? h ho) hbind
  refine ⟨⟨_, binds⟩, fun other hother => ?_, fun hnone => ?_⟩
  · obtain rfl : output = other := Option.some.inj (ho.symm.trans hother)
    exact hbind
  · rw [ho] at hnone
    cases hnone

theorem counts_of_none (hfresh : (fresh "ForCount").Returns s counter s')
    (ho : g.outputNamed? n Pin.counter = none) : g.Counts n s counter s' := by
  obtain ⟨-, rfl⟩ := returns_fresh.mp hfresh
  refine ⟨⟨[], .of_names _⟩, fun other hother => ?_, fun _ => hfresh⟩
  rw [ho] at hother
  cases hother

end Counting

/-! ### Lowering what lies behind -/

/-- What lies behind an output is nothing, or it starts with a new node. -/
theorem returns_lowerBehind {lower : NodeId → Lowering Block} {blame : Blame} :
    (g.lowerBehind lower m pin blame).Returns s b s' ↔
      (g.successor? m pin = none ∧ .done = b ∧ s = s') ∨
        ∃ n, g.successor? m pin = some n ∧ n ∉ s.visited ∧ (lower n).Returns s b s' := by
  unfold lowerBehind
  cases g.successor? m pin with
  | none => simp
  | some n =>
    by_cases hv : n ∈ s.visited <;> simp [returns_bind, hv]

/-- Lowering what lies behind outputs comes with derivations, and leaves the calls settled. -/
def Derives (g : Graph) (lower : NodeId → Lowering Block) : Prop :=
  ∀ {m pin blame s b s'}, g.Settled s → (g.lowerBehind lower m pin blame).Returns s b s' →
    g.Lowered m pin s b s' ∧ g.Settled s'

section Rules

variable {lower : NodeId → Lowering Block}

private theorem lowered_call (h : g.Housed) (derives : g.Derives lower) {callee : Callee}
    (hs : g.Settled s) (next : g.successor? m pin = some n) (live : g.node? n = some node)
    (kind : node.kind = .call callee) (fresh : n ∉ s.visited)
    (hr : (g.lowerCall lower n).Returns (s.visit n) b s') :
    g.Lowered m pin s b s' ∧ g.Settled s' := by
  obtain ⟨needed, s₁, hneeded, hr⟩ := returns_bind.mp hr
  obtain ⟨order, calls, rfl, enters, hs₁⟩ :=
    enters_of_returns h hs live (by rw [kind]; rfl) fresh hneeded
  obtain ⟨st, s₂, hst, hr⟩ := returns_bind.mp hr
  have makes := makes_callStatement h hst
  have hr := (returns_lookup live).mp hr
  obtain ⟨assigned, t, hread, hr⟩ := returns_bind.mp hr
  obtain ⟨hassigned, rfl⟩ := returns_reading.mp hread
  obtain ⟨rest, t, hrest, hr⟩ := returns_bind.mp hr
  obtain ⟨rfl, rfl⟩ := returns_pure.mp hr
  obtain ⟨after, hs'⟩ := derives (hs₁.congr makes.visited) hrest
  exact ⟨.call next kind enters makes hassigned after, hs'⟩

private theorem lowered_branch (h : g.Housed) (derives : g.Derives lower)
    (hs : g.Settled s) (next : g.successor? m pin = some n) (live : g.node? n = some node)
    (kind : node.kind = .branch) (fresh : n ∉ s.visited)
    (hr : (g.lowerBranch lower n).Returns (s.visit n) b s') :
    g.Lowered m pin s b s' ∧ g.Settled s' := by
  obtain ⟨needed, s₁, hneeded, hr⟩ := returns_bind.mp hr
  obtain ⟨order, calls, rfl, enters, hs₁⟩ :=
    enters_of_returns h hs live (by rw [kind]; rfl) fresh hneeded
  have hr := (returns_lookup live).mp hr
  obtain ⟨condition, t, hread, hr⟩ := returns_bind.mp hr
  obtain ⟨htest, rfl⟩ := returns_reading.mp hread
  obtain ⟨whenTrue, s₂, htrue, hr⟩ := returns_bind.mp hr
  obtain ⟨whenFalse, t, hfalse, hr⟩ := returns_bind.mp hr
  obtain ⟨rfl, rfl⟩ := returns_pure.mp hr
  obtain ⟨onTrue, hs₂⟩ := derives hs₁ htrue
  obtain ⟨onFalse, hs'⟩ := derives hs₂ hfalse
  exact ⟨.branch next kind enters htest onTrue onFalse, hs'⟩

private theorem lowered_loop (h : g.Housed) (derives : g.Derives lower)
    (hs : g.Settled s) (next : g.successor? m pin = some n) (live : g.node? n = some node)
    (kind : node.kind = .loop) (fresh : n ∉ s.visited)
    (hr : (g.lowerLoop lower n).Returns (s.visit n) b s') :
    g.Lowered m pin s b s' ∧ g.Settled s' := by
  obtain ⟨needed, s₁, hneeded, hr⟩ := returns_bind.mp hr
  obtain ⟨order, calls, rfl, enters, hs₁⟩ :=
    enters_of_returns h hs live (by rw [kind]; rfl) fresh hneeded
  have hr := (returns_lookup live).mp hr
  obtain ⟨bound, t, hread, hr⟩ := returns_bind.mp hr
  obtain ⟨htest, rfl⟩ := returns_reading.mp hread
  obtain ⟨counter, s₂, hfresh, hr⟩ := returns_bind.mp hr
  -- the counter is bound if the loop has an output for it
  obtain ⟨s₂, counts, hr⟩ : ∃ s₂, g.Counts n s₁ counter s₂ ∧ Lowering.Returns (do
      let assigned ← reading fun s => g.assignments s node
      let body ← g.lowerBehind lower n Pin.body .target
      let after ← g.lowerBehind lower n Pin.afterLoop .target
      return .calls calls ++ .loop ⟨n, counter, bound⟩ (.assigns assigned ++ body) after)
        s₂ b s' := by
    split at hr
    · rename_i output houtput
      obtain ⟨_, s₂, hmodify, hr⟩ := returns_bind.mp hr
      obtain rfl := returns_modify.mp hmodify
      exact ⟨_, counts_of_output h hfresh houtput, hr⟩
    · rename_i houtput
      exact ⟨_, counts_of_none hfresh (Option.eq_none_iff_forall_not_mem.mpr houtput), hr⟩
  obtain ⟨assigned, t, hread, hr⟩ := returns_bind.mp hr
  obtain ⟨hassigned, rfl⟩ := returns_reading.mp hread
  obtain ⟨body, s₃, hbody, hr⟩ := returns_bind.mp hr
  obtain ⟨rest, t, hrest, hr⟩ := returns_bind.mp hr
  obtain ⟨rfl, rfl⟩ := returns_pure.mp hr
  obtain ⟨l, binds⟩ := counts.binds
  obtain ⟨inside, hs₃⟩ := derives (hs₁.congr binds.visited) hbody
  obtain ⟨after, hs'⟩ := derives hs₃ hrest
  exact ⟨.loop next kind enters htest counts hassigned inside after, hs'⟩

/-- Lowering that returns comes with a derivation, however much fuel it was given. -/
theorem derives_lowerUpTo (h : g.Housed) (fuel : Nat) : g.Derives (g.lowerUpTo fuel) := by
  induction fuel with
  | zero =>
    intro m pin blame s b s' hs hr
    rcases returns_lowerBehind.mp hr with ⟨next, rfl, rfl⟩ | ⟨n, next, fresh, hr⟩
    · exact ⟨.nothing next, hs⟩
    · obtain ⟨_, _, -, hr⟩ := returns_bind.mp hr
      exact absurd hr returns_throw
  | succ fuel ih =>
    intro m pin blame s b s' hs hr
    rcases returns_lowerBehind.mp hr with ⟨next, rfl, rfl⟩ | ⟨n, next, fresh, hr⟩
    · exact ⟨.nothing next, hs⟩
    obtain ⟨_, t, hvisit, hr⟩ := returns_bind.mp hr
    obtain rfl := returns_visit.mp hvisit
    obtain ⟨node, t, hlookup, hr⟩ := returns_bind.mp hr
    obtain ⟨hnode, rfl⟩ := returns_ofExcept.mp hlookup
    have live : g.node? n = some node := nodeOrFail_eq_ok.mp hnode
    obtain rfl : node.id = n := h.node_id live
    unfold lowerKind at hr
    split at hr
    case h_1 callee kind => exact lowered_call h ih hs next live kind fresh hr
    case h_2 kind => exact lowered_branch h ih hs next live kind fresh hr
    case h_3 kind => exact lowered_loop h ih hs next live kind fresh hr
    -- the other kinds of nodes are not executable
    case h_4 | h_5 | h_6 => exact absurd hr returns_throw

end Rules

/-! ### The script of an event -/

/-- The outputs that are the parameters of an event. -/
def parametersOf (g : Graph) (node : Node) : List Output :=
  (g.outputsOf node).filter (!·.signal.isExecution)

/-- The scope that an event is lowered in, which knows its parameters only. -/
def entryScope (g : Graph) (node : Node) : Scope :=
  (g.parametersOf node).foldl (fun s o => s.bind o.id o.name) (({} : Scope).visit node.id)

/-- Binding outputs to their names, one after the other. -/
theorem returns_forM_bind {outputs : List Output} {u : Unit} :
    Lowering.Returns (outputs.forM fun o => modify (·.bind o.id o.name)) s u s' ↔
      outputs.foldl (fun s o => s.bind o.id o.name) s = s' := by
  induction outputs generalizing s with
  | nil => exact returns_pure.trans ⟨fun ⟨_, h⟩ => h, fun h => ⟨rfl, h⟩⟩
  | cons o outputs ih =>
    refine returns_bind.trans ⟨?_, fun h => ⟨(), _, returns_modify.mpr rfl, ih.mpr h⟩⟩
    rintro ⟨_, t, hbind, hrest⟩
    obtain rfl := returns_modify.mp hbind
    exact ih.mp hrest

theorem not_fails_forM_bind {outputs : List Output} {err : CompileError} :
    ¬ Lowering.Fails (outputs.forM fun o => modify (·.bind o.id o.name)) s err s' :=
  Returns.not_fails (returns_forM_bind (u := ()).mpr rfl)

/-- Binding the data outputs of an event gives variables to these outputs only. -/
private theorem binds_parameters {outputs : List Output}
    (owned : ∀ o ∈ outputs, g.ownerOf? o.id = some n) :
    ∃ l, g.Binds n s l (outputs.foldl (fun s o => s.bind o.id o.name) s) := by
  induction outputs generalizing s with
  | nil => exact ⟨[], .refl ..⟩
  | cons o outputs ih =>
    obtain ⟨l, later⟩ := ih (s := s.bind o.id o.name) fun p hp => owned p (.tail _ hp)
    have first : g.Binds n s [(o.id, o.name)] (s.bind o.id o.name) :=
      .of_bind (owned o (.head _))
    exact ⟨_, first.trans later⟩

theorem binds_entryScope (h : g.Housed) (live : g.node? n = some node) :
    ∃ l, g.Binds n (({} : Scope).visit n) l (g.entryScope node) := by
  obtain rfl := h.node_id live
  exact binds_parameters fun o ho => ownerOf?_of_mem_outputsOf h live (List.mem_filter.mp ho).1

/-- The scope of an event knows the event only. -/
theorem visited_entryScope (h : g.Housed) (live : g.node? n = some node) :
    (g.entryScope node).visited = [n] := by
  obtain ⟨l, binds⟩ := binds_entryScope h live
  exact binds.visited

theorem settled_entryScope (h : g.Housed) (live : g.node? n = some node)
    (kind : node.kind.isPureCall = false) : g.Settled (g.entryScope node) := by
  obtain ⟨l, binds⟩ := binds_entryScope h live
  exact (settled_start.visit (not_isPureCall live kind)).congr binds.visited

/-- How the script of an event comes about: its statements are what lies behind the one execution
output of the event, and its variables are declared for the scope that lowering these leaves. -/
structure Written (g : Graph) (e : NodeId) (script : EventScript) (node : Node) (s' : Scope) :
    Prop where
  live : g.node? e = some node
  event : ∃ name f, node.kind = .event name (some f)
  returns : (g.lowerEvent e).Returns {} script s'
  lowered : g.Lowered e Pin.done (g.entryScope node) script.statements s'
  settled : g.Settled s'
  /-- An event that leads nowhere declares nothing. -/
  declared : g.successor? e Pin.done = none ∧ script.locals = [] ∨ g.locals s' = .ok script.locals

theorem written_of_scriptOf (h : g.Housed) {e : NodeId} {script : EventScript}
    (ok : g.scriptOf e = .ok script) : ∃ node s', g.Written e script node s' := by
  obtain ⟨s', returns⟩ : ∃ s', (g.lowerEvent e).Returns {} script s' := by
    obtain ⟨node, -, ok⟩ := bind_eq_ok.mp ok
    split at ok
    · cases ok
    · exact ⟨_, Prod.ext ok rfl⟩
  obtain ⟨node, t, hlookup, hr⟩ := returns_bind.mp returns
  obtain ⟨hnode, rfl⟩ := returns_ofExcept.mp hlookup
  have live : g.node? e = some node := nodeOrFail_eq_ok.mp hnode
  obtain rfl := h.node_id live
  obtain ⟨name, t, hname, hr⟩ := returns_bind.mp hr
  obtain ⟨hname, rfl⟩ := returns_ofExcept.mp hname
  have event : ∃ name f, node.kind = .event name (some f) := by
    unfold eventName at hname
    split at hname
    · cases hname
      exact ⟨_, _, ‹_›⟩
    · cases hname
    · cases hname
  obtain ⟨_, t, hvisit, hr⟩ := returns_bind.mp hr
  obtain rfl := returns_visit.mp hvisit
  obtain ⟨_, s, hparameters, hr⟩ := returns_bind.mp hr
  obtain rfl : g.entryScope node = s := returns_forM_bind.mp hparameters
  have hs : g.Settled (g.entryScope node) := by
    obtain ⟨name, f, kind⟩ := event
    exact settled_entryScope h live (by rw [kind]; rfl)
  split at hr
  -- an event that leads nowhere has no body, and so no statements
  · rename_i next
    have next := Option.isNone_iff_eq_none.mp next
    obtain ⟨rfl, rfl⟩ := returns_pure.mp hr
    exact ⟨node, _, live, event, returns, .nothing next, hs, .inl ⟨next, rfl⟩⟩
  · obtain ⟨body, t, hbody, hr⟩ := returns_bind.mp hr
    obtain ⟨locals, t, hread, hr⟩ := returns_bind.mp hr
    obtain ⟨hlocals, rfl⟩ := returns_reading.mp hread
    obtain ⟨rfl, rfl⟩ := returns_pure.mp hr
    obtain ⟨lowered, settled⟩ := derives_lowerUpTo h _ hs hbody
    exact ⟨node, _, live, event, returns, lowered, settled, .inr hlocals⟩

/-- What else is in a script: the parameters are the data outputs of the event, and without
statements nothing is declared. -/
theorem Written.parts {e : NodeId} {script : EventScript} (h : g.Written e script node s') :
    (script.parameters = (g.parametersOf node).map fun output =>
      ⟨output.typeCode, output.name⟩) ∧ (script.body = none → script.locals = []) := by
  have hr := (returns_lookup h.live).mp h.returns
  obtain ⟨name, t, hname, hr⟩ := returns_bind.mp hr
  obtain ⟨_, t, -, hr⟩ := returns_bind.mp hr
  obtain ⟨_, t, -, hr⟩ := returns_bind.mp hr
  split at hr
  · obtain ⟨rfl, -⟩ := returns_pure.mp hr
    exact ⟨rfl, fun _ => rfl⟩
  · obtain ⟨body, t, -, hr⟩ := returns_bind.mp hr
    obtain ⟨locals, t, -, hr⟩ := returns_bind.mp hr
    obtain ⟨rfl, -⟩ := returns_pure.mp hr
    exact ⟨rfl, fun nothing => by cases nothing⟩

end NodeScript.Graph
