import Mathlib.Logic.Function.Iterate
import NodeScript.Lowering.Event
import NodeScript.Proofs.Lowering.PureOrder

/-!
# Lowering comes to an end

Lowering goes from node to node over execution outputs, and the search for calls without effects
goes from node to node over the edges of data. Neither gets smaller in any way that can be read off
the graph, which may have cycles of both sorts. What gets smaller is the number of live nodes
outside a list: for the flow of control the list of the marked nodes, and for the search the list of
the calls on the way (`Graph.outside`).

One level of each recursion is a function of the recursion (`Graph.enter`, `Graph.expand`), which it
consults at some nested calls only (`Graph.Nests`, `Graph.Expands`). There the number is smaller. So
the levels beyond the number of live nodes do not matter at all, from whatever scope one starts: any
other functions could stand there (`lowering_terminates`), and the fuel in the definitions is never
used up.
-/

namespace NodeScript

/-! ### Steps that keep marks -/

namespace Lowering

variable {α β : Type} {m m' : Lowering α} {V : List NodeId} {s : Scope}

/-- Started in `s`, two steps have the same outcome, and it leaves the nodes of `V` marked. -/
def Tracks (V : List NodeId) (s : Scope) (m m' : Lowering α) : Prop :=
  m.outcome s = m'.outcome s ∧ V ⊆ (m.outcome s).2.visited

/-- The step leaves all nodes marked that were marked. -/
def Keeps (m : Lowering α) : Prop :=
  ∀ s, s.visited ⊆ (m.outcome s).2.visited

theorem Keeps.tracks (h : Keeps m) (hs : V ⊆ s.visited) : Tracks V s m m :=
  ⟨rfl, fun _ hn => h s (hs hn)⟩

theorem Tracks.mono {W : List NodeId} (h : Tracks V s m m') (hW : W ⊆ V) : Tracks W s m m' :=
  ⟨h.1, fun _ hn => h.2 (hW hn)⟩

/-- Sequences of two steps have the same outcome if the first steps do, and then the second ones on
any value. -/
theorem Tracks.bind {f f' : α → Lowering β} (h : Tracks V s m m')
    (hf : ∀ a t, m.Returns s a t → V ⊆ t.visited → Tracks V t (f a) (f' a)) :
    Tracks V s (m >>= f) (m' >>= f') := by
  obtain ⟨same, marked⟩ := h
  have after : ∀ a t, m.Returns s a t → Tracks V t (f a) (f' a) := fun a t ha => by
    refine hf a t ha ?_
    rw [Returns] at ha
    rwa [ha] at marked
  refine ⟨outcome_bind_congr same fun a t ha => (after a t ?_).1, ?_⟩
  · rwa [Returns, same]
  rcases hout : Lowering.outcome (m >>= f) s with ⟨e | b, t⟩
  · rcases fails_bind.mp hout with he | ⟨a, t', ha, he⟩
    · rw [Fails] at he
      rwa [he] at marked
    · have marked' := (after a t' ha).2
      rw [Fails] at he
      rwa [he] at marked'
  · obtain ⟨a, t', ha, hb⟩ := returns_bind.mp hout
    have marked' := (after a t' ha).2
    rw [Returns] at hb
    rwa [hb] at marked'

/-- A step is known by its outcomes. -/
theorem ext_outcome (h : ∀ s, m.outcome s = m'.outcome s) : m = m' :=
  funext h

theorem keeps_pure (a : α) : Keeps (pure a : Lowering α) :=
  fun _ => List.Subset.refl _

theorem keeps_throw (e : CompileError) : Keeps (throw e : Lowering α) :=
  fun _ => List.Subset.refl _

theorem keeps_ofExcept (r : Except CompileError α) :
    Keeps (MonadExcept.ofExcept r : Lowering α) := by
  cases r
  exacts [keeps_throw _, keeps_pure _]

theorem keeps_bind {f : α → Lowering β} (h : Keeps m) (hf : ∀ a, Keeps (f a)) :
    Keeps (m >>= f) := fun s =>
  ((h.tracks (List.Subset.refl s.visited)).bind fun a _ _ ht => (hf a).tracks ht).2

theorem keeps_modify {change : Scope → Scope} (h : ∀ s, s.visited ⊆ (change s).visited) :
    Keeps (modify change : Lowering Unit) :=
  h

theorem keeps_visit (n : NodeId) : Keeps (visit n) :=
  keeps_modify fun _ => List.subset_cons_self _ _

theorem keeps_isVisited (n : NodeId) : Keeps (isVisited n) :=
  fun _ => List.Subset.refl _

theorem keeps_reading (step : Scope → Except CompileError α) : Keeps (reading step) :=
  keeps_bind (fun _ => List.Subset.refl _) fun _ => keeps_ofExcept _

theorem keeps_fresh (base : String) : Keeps (fresh base) :=
  fun _ => List.Subset.refl _

theorem keeps_bindFresh (o : OutputId) (base : String) : Keeps (bindFresh o base) :=
  keeps_bind (keeps_fresh base) fun _ =>
    keeps_bind (keeps_modify fun _ => List.Subset.refl _) fun _ => keeps_pure _

theorem keeps_mapM {f : α → Lowering β} (h : ∀ a, Keeps (f a)) (l : List α) :
    Keeps (l.mapM f) := by
  induction l with
  | nil => exact keeps_pure _
  | cons a l ih =>
    rw [List.mapM_cons]
    exact keeps_bind (h a) fun _ => keeps_bind ih fun _ => keeps_pure _

theorem keeps_foldlM {f : β → α → Lowering β} (h : ∀ b a, Keeps (f b a)) (l : List α) (b : β) :
    Keeps (l.foldlM f b) := by
  induction l generalizing b with
  | nil => exact keeps_pure _
  | cons a l ih =>
    rw [List.foldlM_cons]
    exact keeps_bind (h b a) ih

end Lowering

namespace Graph

open Lowering

variable {g : Graph} {n n' q : NodeId} {s t : Scope} {V expanding : List NodeId}

/-! ### Live nodes outside a list -/

/-- The number of live nodes that are not in a list. -/
def outside (g : Graph) (l : List NodeId) : Nat :=
  g.nodes.live.countP (·.id ∉ l)

theorem outside_le_nodeCount (g : Graph) (l : List NodeId) : g.outside l ≤ g.nodeCount :=
  List.countP_le_length

theorem outside_anti {l l' : List NodeId} (h : l ⊆ l') : g.outside l' ≤ g.outside l :=
  List.countP_mono_left fun node _ hout => by
    simp only [decide_eq_true_eq] at hout ⊢
    exact fun hmem => hout (h hmem)

/-- The number gets smaller when a live node is added to the list. -/
theorem outside_cons_lt (h : g.Housed) {node : Node} {l : List NodeId}
    (live : g.node? n = some node) (new : n ∉ l) : g.outside (n :: l) < g.outside l := by
  obtain rfl := h.node_id live
  have hmem : node ∈ g.nodes.live := Table.mem_live.mpr ⟨node.id.index, live⟩
  obtain ⟨pre, post, hsplit⟩ := List.append_of_mem hmem
  have part : ∀ nodes : List Node, nodes.countP (·.id ∉ node.id :: l) ≤ nodes.countP (·.id ∉ l) :=
    fun nodes => List.countP_mono_left fun other _ hout => by
      simp only [List.mem_cons, not_or, decide_eq_true_eq] at hout ⊢
      exact hout.2
  have hpre := part pre
  have hpost := part post
  simp only [outside, hsplit, List.countP_append, List.countP_cons, List.mem_cons, true_or,
    not_true, decide_false, new, not_false_eq_true, decide_true, if_true] at hpre hpost ⊢
  simp only [Bool.false_eq_true, if_false]
  omega

/-! ### The search for calls without effects -/

/-- What a source adds to the calls collected for a node, with `search` for the calls that the
source needs itself. -/
def consult (g : Graph) (search : List NodeId → NodeId → Lowering (List NodeId))
    (expanding order : List NodeId) (source : NodeId) : Lowering (List NodeId) := do
  let sourceNode ← MonadExcept.ofExcept (g.nodeOrFail source)
  if !sourceNode.kind.isPureCall then
    return order
  if expanding.contains source then
    throw (.loopDetected sourceNode.name)
  if ← isVisited source then
    return order
  let before ← search (source :: expanding) source
  visit source
  return order ++ before ++ [source]

/-- One level of the search for the calls that a node needs. -/
def expand (g : Graph) (search : List NodeId → NodeId → Lowering (List NodeId))
    (expanding : List NodeId) (n : NodeId) : Lowering (List NodeId) := do
  let node ← MonadExcept.ofExcept (g.nodeOrFail n)
  (g.dataSources node).foldlM (g.consult search expanding) []

/-- The search for `n`, with `expanding` on the way to it, calls itself for `q`: a call without
effects that `n` needs and that is not on the way. -/
structure Expands (g : Graph) (expanding : List NodeId) (n q : NodeId) : Prop where
  needs : g.Needs n q
  new : q ∉ expanding

/-- A nested search has fewer live nodes that are not on the way. -/
theorem Expands.outside_lt (h : g.Housed) (hq : g.Expands expanding n q) :
    g.outside (q :: expanding) < g.outside expanding := by
  obtain ⟨source, live⟩ := hq.needs.1.live h
  exact outside_cons_lt h live hq.new

/-- A level of the search depends on the nested searches only. -/
theorem expand_congr {search search' : List NodeId → NodeId → Lowering (List NodeId)}
    (below : ∀ q, g.Expands expanding n q →
      search (q :: expanding) q = search' (q :: expanding) q) :
    g.expand search expanding n = g.expand search' expanding n := by
  unfold expand
  cases hn : g.nodeOrFail n with
  | error e => rfl
  | ok node =>
    rw [ofExcept_ok_bind, ofExcept_ok_bind]
    refine foldlM_congr (fun q hq order => ?_) []
    have reads : g.Reads n q := (mem_dataSources (nodeOrFail_eq_ok.mp hn)).mp hq
    unfold consult
    cases hsource : g.nodeOrFail q with
    | error e => rfl
    | ok source =>
      rw [ofExcept_ok_bind, ofExcept_ok_bind]
      by_cases hkind : source.kind.isPureCall
      · by_cases hexp : q ∈ expanding
        · simp [hkind, hexp]
        · rw [below q ⟨⟨reads, source, nodeOrFail_eq_ok.mp hsource, hkind⟩, hexp⟩]
      · simp [hkind]

/-- **Levels that are not reached.** Searches of more levels than there are live nodes off the way
are the same, whatever stands for the levels beyond. -/
theorem expand_iterate_eq (h : g.Housed) {depth depth' : Nat}
    {deeper deeper' : List NodeId → NodeId → Lowering (List NodeId)}
    (enough : g.outside expanding < depth) (enough' : g.outside expanding < depth') :
    g.expand^[depth] deeper expanding n = g.expand^[depth'] deeper' expanding n := by
  induction depth generalizing depth' expanding n with
  | zero => omega
  | succ depth ih =>
    obtain ⟨depth', rfl⟩ : ∃ k, depth' = k + 1 := ⟨depth' - 1, by omega⟩
    rw [Function.iterate_succ_apply', Function.iterate_succ_apply']
    refine expand_congr fun q hq => ?_
    have fewer := hq.outside_lt h
    exact ih (by omega) (by omega)

theorem neededCalls_eq_iterate (g : Graph) (fuel : Nat) :
    g.neededCalls fuel = g.expand^[fuel] (g.neededCalls 0) := by
  induction fuel with
  | zero => rfl
  | succ fuel ih =>
    rw [Function.iterate_succ_apply', ← ih]
    rfl

/-! ### What lowering a node keeps -/

theorem keeps_callResult (g : Graph) (node : Node) (f : FunctionDecl) :
    Keeps (g.callResult node f) := by
  unfold callResult
  split
  · exact keeps_pure _
  · split
    · exact keeps_pure _
    · exact keeps_bind (keeps_bindFresh _ _) fun _ => keeps_pure _

theorem keeps_argument (g : Graph) (node : Node) (archetype : Option Archetype) (p : Parameter) :
    Keeps (g.argument node archetype p) := by
  -- an out parameter gets a variable, the other forms of an argument change nothing
  have passed : Keeps (g.argument node none p) := by
    unfold argument
    simp only
    split
    · exact keeps_pure _
    split
    · split
      · exact keeps_bind (keeps_bindFresh _ _) fun _ => keeps_pure _
      · exact keeps_pure _
    · split
      · exact keeps_bind (keeps_reading _) fun _ => keeps_pure _
      · exact keeps_pure _
  cases archetype with
  | none => exact passed
  | some a =>
    by_cases hp : p.name = archetypeParameter
    · simpa [argument, hp] using keeps_pure (Argument.archetype a)
    · simpa [argument, hp] using passed

theorem keeps_callForm (g : Graph) (node : Node) (f : FunctionDecl) (arguments : List Argument) :
    Keeps (g.callForm node f arguments) := by
  unfold callForm
  split
  · split
    · exact keeps_pure _
    · exact keeps_throw _
  · exact keeps_bind (keeps_reading _) fun _ => keeps_pure _

theorem keeps_callStatement (g : Graph) (n : NodeId) : Keeps (g.callStatement n) :=
  keeps_bind (keeps_ofExcept _) fun node => keeps_bind (keeps_ofExcept _) fun ⟨f, archetype⟩ =>
    keeps_bind (g.keeps_callResult node f) fun _ =>
      keeps_bind (keeps_mapM (g.keeps_argument node archetype) _) fun arguments =>
        keeps_bind (g.keeps_callForm node f arguments) fun _ => keeps_pure _

theorem keeps_consult {search : List NodeId → NodeId → Lowering (List NodeId)}
    (h : ∀ expanding n, Keeps (search expanding n)) (order : List NodeId) (source : NodeId) :
    Keeps (g.consult search expanding order source) := by
  refine keeps_bind (keeps_ofExcept _) fun node => ?_
  split
  · exact keeps_pure _
  split
  · exact fun _ => List.Subset.refl _
  refine keeps_bind (keeps_isVisited _) fun seen => ?_
  split
  · exact keeps_pure _
  · exact keeps_bind (h _ _) fun _ => keeps_bind (keeps_visit _) fun _ => keeps_pure _

theorem keeps_neededCalls (g : Graph) (fuel : Nat) (expanding : List NodeId) (n : NodeId) :
    Keeps (g.neededCalls fuel expanding n) := by
  induction fuel generalizing expanding n with
  | zero => exact keeps_bind (keeps_ofExcept _) fun _ => keeps_throw _
  | succ fuel ih =>
    exact keeps_bind (keeps_ofExcept _) fun node =>
      keeps_foldlM (keeps_consult ih) (g.dataSources node) []

theorem keeps_pureCalls (g : Graph) (n : NodeId) : Keeps (g.pureCalls n) :=
  keeps_bind (g.keeps_neededCalls _ _ n) fun order =>
    keeps_bind (keeps_mapM g.keeps_callStatement order) fun _ => keeps_pure _

/-! ### The flow of control -/

/-- One level of lowering: a node is marked, and `lower` lowers what lies behind it. -/
def enter (g : Graph) (lower : NodeId → Lowering Block) (n : NodeId) : Lowering Block := do
  visit n
  let node ← MonadExcept.ofExcept (g.nodeOrFail n)
  g.lowerKind lower node

/-- Lowering `n` from `s` may call itself for `n'` in the scope `t`: an execution output of `n`
leads to `n'`, which is not marked, and all marks are still there. -/
structure Nests (g : Graph) (n : NodeId) (s : Scope) (n' : NodeId) (t : Scope) : Prop where
  leads : ∃ pin, g.successor? n pin = some n'
  marked : (s.visit n).visited ⊆ t.visited
  new : n' ∉ t.visited

/-- What an output leads to is live. -/
theorem live_of_successor? (h : g.Housed) {pin : String} (hn : g.successor? n pin = some n') :
    ∃ node, g.node? n' = some node := by
  obtain ⟨output, -, hn⟩ := Option.bind_eq_some_iff.mp hn
  obtain ⟨i, -, hn⟩ := Option.bind_eq_some_iff.mp hn
  obtain ⟨input, hi, rfl⟩ := Option.map_eq_some_iff.mp hn
  exact h.inputs.owner_live hi

/-- A nested call marks one more live node than were marked in its scope, and there all those were
marked that the call around it had marked. -/
theorem Nests.outside_lt (h : g.Housed) (hn : g.Nests n s n' t) :
    g.outside (t.visit n').visited < g.outside t.visited ∧
      g.outside t.visited ≤ g.outside (s.visit n).visited := by
  obtain ⟨pin, leads⟩ := hn.leads
  obtain ⟨node, live⟩ := live_of_successor? h leads
  exact ⟨outside_cons_lt h live hn.new, outside_anti hn.marked⟩

section Levels

variable {lower lower' : NodeId → Lowering Block}

/-- What lies behind an output is lowered alike if unmarked nodes are. -/
theorem tracks_lowerBehind (pin : String) (blame : Blame) (hV : V ⊆ t.visited)
    (below : ∀ {n' t}, (∃ pin, g.successor? n pin = some n') → V ⊆ t.visited → n' ∉ t.visited →
      Tracks V t (lower n') (lower' n')) :
    Tracks V t (g.lowerBehind lower n pin blame) (g.lowerBehind lower' n pin blame) := by
  unfold lowerBehind
  cases hnext : g.successor? n pin with
  | none => exact (keeps_pure _).tracks hV
  | some next =>
    refine ((keeps_isVisited next).tracks hV).bind fun seen t' hseen hV' => ?_
    obtain ⟨rfl, rfl⟩ := returns_isVisited.mp hseen
    by_cases hv : next ∈ t.visited
    · simp only [List.contains_iff_mem.mpr hv, if_true]
      refine ((keeps_ofExcept _).tracks hV').bind fun culprit t' _ hV' => ?_
      refine ((keeps_throw _).tracks hV').bind fun _ _ hthrow => absurd hthrow returns_throw
    · simp only [List.contains_iff_mem, hv, if_false]
      exact below ⟨pin, hnext⟩ hV' hv

theorem tracks_lowerKind {node : Node} (hV : V ⊆ t.visited)
    (below : ∀ {n' t}, (∃ pin, g.successor? node.id pin = some n') → V ⊆ t.visited →
      n' ∉ t.visited → Tracks V t (lower n') (lower' n')) :
    Tracks V t (g.lowerKind lower node) (g.lowerKind lower' node) := by
  have behind : ∀ pin blame {t : Scope}, V ⊆ t.visited →
      Tracks V t (g.lowerBehind lower node.id pin blame) (g.lowerBehind lower' node.id pin blame) :=
    fun pin blame _ hV => tracks_lowerBehind pin blame hV below
  have done : ∀ {t : Scope} (b : Block), V ⊆ t.visited →
      Tracks V t (pure b : Lowering Block) (pure b) := fun b hV => (keeps_pure b).tracks hV
  have calls : ∀ {t : Scope}, V ⊆ t.visited →
      Tracks V t (g.pureCalls node.id) (g.pureCalls node.id) :=
    fun hV => (g.keeps_pureCalls _).tracks hV
  unfold lowerKind
  cases node.kind with
  | call callee =>
    refine (calls hV).bind fun needed t _ hV => ?_
    refine ((g.keeps_callStatement _).tracks hV).bind fun statement t _ hV => ?_
    refine ((keeps_ofExcept _).tracks hV).bind fun node t _ hV => ?_
    refine ((keeps_reading _).tracks hV).bind fun assigned t _ hV => ?_
    exact (behind _ _ hV).bind fun after t _ hV => done _ hV
  | branch =>
    refine (calls hV).bind fun needed t _ hV => ?_
    refine ((keeps_ofExcept _).tracks hV).bind fun node t _ hV => ?_
    refine ((keeps_reading _).tracks hV).bind fun condition t _ hV => ?_
    refine (behind _ _ hV).bind fun whenTrue t _ hV => ?_
    exact (behind _ _ hV).bind fun whenFalse t _ hV => done _ hV
  | loop =>
    refine (calls hV).bind fun needed t _ hV => ?_
    refine ((keeps_ofExcept _).tracks hV).bind fun node t _ hV => ?_
    refine ((keeps_reading _).tracks hV).bind fun bound t _ hV => ?_
    refine ((keeps_fresh _).tracks hV).bind fun counter t _ hV => ?_
    have binds : ∀ output : Output, Keeps (modify (·.bind output.id counter) : Lowering Unit) :=
      fun output => keeps_modify fun _ => List.Subset.refl _
    -- what follows is the same whether the counter is bound to an output or not
    split
    on_goal 1 => refine ((binds _).tracks hV).bind fun _ t _ hV => ?_
    all_goals
      refine ((keeps_reading _).tracks hV).bind fun assigned t _ hV => ?_
      refine (behind _ _ hV).bind fun body t _ hV => ?_
      exact (behind _ _ hV).bind fun after t _ hV => done _ hV
  | event _ _ | pureCall _ | member _ => exact (keeps_throw _).tracks hV

/-- A level of lowering depends on the nested calls only, as long as these keep marks. -/
theorem tracks_enter (h : g.Housed)
    (below : ∀ {n' t}, g.Nests n s n' t → Tracks t.visited t (lower n') (lower' n')) :
    Tracks s.visited s (g.enter lower n) (g.enter lower' n) := by
  refine ((keeps_visit n).tracks (List.Subset.refl _)).bind fun _ t hvisit _ => ?_
  obtain rfl := returns_visit.mp hvisit
  suffices level : Tracks (s.visit n).visited (s.visit n)
      (MonadExcept.ofExcept (g.nodeOrFail n) >>= g.lowerKind lower)
      (MonadExcept.ofExcept (g.nodeOrFail n) >>= g.lowerKind lower') from
    level.mono (List.subset_cons_self n s.visited)
  refine ((keeps_ofExcept _).tracks (List.Subset.refl _)).bind fun node t hnode hV => ?_
  obtain rfl := h.node_id (nodeOrFail_eq_ok.mp (returns_ofExcept.mp hnode).1)
  exact tracks_lowerKind hV fun leads hV new => (below ⟨leads, hV, new⟩).mono hV

/-- **Levels that are not reached.** Lowering by more levels than there are live nodes left to mark
is the same, whatever stands for the levels beyond. -/
theorem tracks_enter_iterate (h : g.Housed) {depth depth' : Nat}
    {deeper deeper' : NodeId → Lowering Block} (enough : g.outside (s.visit n).visited < depth)
    (enough' : g.outside (s.visit n).visited < depth') :
    Tracks s.visited s (g.enter^[depth] deeper n) (g.enter^[depth'] deeper' n) := by
  induction depth generalizing depth' n s with
  | zero => omega
  | succ depth ih =>
    obtain ⟨depth', rfl⟩ : ∃ k, depth' = k + 1 := ⟨depth' - 1, by omega⟩
    rw [Function.iterate_succ_apply', Function.iterate_succ_apply']
    refine tracks_enter h fun nested => ?_
    obtain ⟨fewer, left⟩ := nested.outside_lt h
    exact ih (by omega) (by omega)

theorem lowerUpTo_eq_iterate (g : Graph) (fuel : Nat) :
    g.lowerUpTo fuel = g.enter^[fuel] (g.lowerUpTo 0) := by
  induction fuel with
  | zero => rfl
  | succ fuel ih =>
    rw [Function.iterate_succ_apply', ← ih]
    rfl

/-- Any number of levels above that of the live nodes is enough to lower a node. -/
theorem enter_iterate_eq_lower (h : g.Housed) {depth : Nat} (enough : g.nodeCount < depth)
    (deeper : NodeId → Lowering Block) : g.enter^[depth] deeper = g.lower := by
  refine funext fun n => ext_outcome fun s => ?_
  have few := g.outside_le_nodeCount (s.visit n).visited
  rw [lower, lowerUpTo_eq_iterate]
  exact (tracks_enter_iterate h (by omega) (by omega)).1

/-- Any fuel above the number of live nodes is enough to lower a node. -/
theorem lowerUpTo_of_lt (h : g.Housed) {fuel : Nat} (enough : g.nodeCount < fuel) :
    g.lowerUpTo fuel = g.lower := by
  rw [lowerUpTo_eq_iterate]
  exact enter_iterate_eq_lower h enough _

/-- Lowering is a level of itself. -/
theorem enter_lower (h : g.Housed) : g.enter g.lower = g.lower := by
  have more := enter_iterate_eq_lower h (Nat.lt_succ_of_lt g.nodeCount.lt_succ_self) (g.lowerUpTo 0)
  rw [Function.iterate_succ_apply', ← lowerUpTo_eq_iterate] at more
  exact more

/-- Lowering a node depends on the nested calls only. -/
theorem lower_congr (h : g.Housed)
    (below : ∀ n' t, g.Nests n s n' t → (lower n').outcome t = (g.lower n').outcome t) :
    (g.enter lower n).outcome s = (g.lower n).outcome s := by
  have keeps : ∀ (n : NodeId) (s : Scope), Tracks s.visited s (g.lower n) (g.lower n) := by
    intro n s
    have few := g.outside_le_nodeCount (s.visit n).visited
    rw [Graph.lower, lowerUpTo_eq_iterate]
    exact tracks_enter_iterate h (by omega) (by omega)
  rw [← congrFun (enter_lower h) n]
  refine ((tracks_enter h fun {n' t} nested => ?_).1).symm
  exact ⟨(below n' t nested).symm, (keeps n' t).2⟩

end Levels

/-- Any number of levels above that of the live nodes is enough for the search. -/
theorem expand_iterate_eq_neededCalls (h : g.Housed) {depth : Nat} (enough : g.nodeCount < depth)
    (deeper : List NodeId → NodeId → Lowering (List NodeId)) :
    g.expand^[depth] deeper = g.neededCalls (g.nodeCount + 1) := by
  refine funext fun expanding => funext fun n => ?_
  have few := g.outside_le_nodeCount expanding
  rw [neededCalls_eq_iterate]
  exact expand_iterate_eq h (by omega) (by omega)

/-- Any fuel above the number of live nodes is enough for the search. -/
theorem neededCalls_of_lt (h : g.Housed) {fuel : Nat} (enough : g.nodeCount < fuel) :
    g.neededCalls fuel = g.neededCalls (g.nodeCount + 1) := by
  rw [neededCalls_eq_iterate g fuel]
  exact expand_iterate_eq_neededCalls h enough _

/-- The search is a level of itself. -/
theorem expand_neededCalls (h : g.Housed) :
    g.expand (g.neededCalls (g.nodeCount + 1)) = g.neededCalls (g.nodeCount + 1) := by
  have more := expand_iterate_eq_neededCalls h (Nat.lt_succ_of_lt g.nodeCount.lt_succ_self)
    (g.neededCalls 0)
  rw [Function.iterate_succ_apply', ← neededCalls_eq_iterate] at more
  exact more

/-- **Lowering comes to an end on every graph.** In a graph that edits have led to, take any scope,
any node to lower, and any calls on the way of a search. Lowering the node consults itself only at
nested calls, each of which marks one more live node; the search consults itself only for calls that
are not on the way, each of which leaves one live node less off the way. So in both recursions, the
levels beyond the number of live nodes plus one are never reached: whatever stands for them, every
node is lowered alike, every search is the same, and every event has the same script. -/
theorem lowering_terminates (h : g.Reachable) :
    let search := g.neededCalls (g.nodeCount + 1)
    (∀ n s n' t, g.Nests n s n' t →
        g.outside (t.visit n').visited < g.outside t.visited ∧
          g.outside t.visited ≤ g.outside (s.visit n).visited) ∧
      (∀ n s lower, (∀ n' t, g.Nests n s n' t → (lower n').outcome t = (g.lower n').outcome t) →
        (g.enter lower n).outcome s = (g.lower n).outcome s) ∧
      (∀ expanding n q, g.Expands expanding n q →
        g.outside (q :: expanding) < g.outside expanding) ∧
      (∀ expanding n search', (∀ q, g.Expands expanding n q →
          search' (q :: expanding) q = search (q :: expanding) q) →
        g.expand search' expanding n = search expanding n) ∧
      ∀ depth, g.nodeCount + 1 ≤ depth →
        (∀ deeper, g.enter^[depth] deeper = g.lower ∧
          g.lowerEventBy (g.enter^[depth] deeper) = g.lowerEvent) ∧
        ∀ deeper, g.expand^[depth] deeper = search := by
  intro search
  refine ⟨fun n s n' t nested => nested.outside_lt h.housed,
    fun n s lower below => lower_congr h.housed below,
    fun expanding n q nested => nested.outside_lt h.housed,
    fun expanding n search' below => ?_, fun depth enough => ⟨fun deeper => ?_, fun deeper => ?_⟩⟩
  · rw [expand_congr below, expand_neededCalls h.housed]
  · have all := enter_iterate_eq_lower h.housed enough deeper
    exact ⟨all, by rw [all, lowerEvent]⟩
  · exact expand_iterate_eq_neededCalls h.housed enough deeper

/-- An event, a call that leads back to itself, and a call without effects that reads its own
result. -/
def circling : Graph :=
  let trim := { (FunctionDecl.callable "Actor" "Trim").asPure with
    params := [.input "Text" .string, .returns .string] }
  let log := { FunctionDecl.callable "Actor" "Log" with params := [.input "Message" .string] }
  (empty "Circle").run [.place (.event (FunctionDecl.callable "Actor" "Tick").asEvent),
    .place (.call log none), .addConnector ⟨1⟩ ⟨.input, .execution, "Again", none⟩,
    .place (.call trim none), .connect ⟨0⟩ ⟨0⟩ .any, .connect ⟨1⟩ ⟨3⟩ .any, .connect ⟨2⟩ ⟨4⟩ .any]

/-- Four levels are enough for the three nodes, for both cycles. -/
theorem lowering_terminates_circling :
    circling.Reachable ∧ circling.nodeCount = 3 ∧
      circling.Nests ⟨0⟩ {} ⟨1⟩ (({} : Scope).visit ⟨0⟩) ∧
      circling.successor? ⟨1⟩ Pin.done = some ⟨1⟩ ∧
      circling.Expands [] ⟨2⟩ ⟨2⟩ ∧
      ∀ deeper, circling.enter^[4] deeper = circling.lower := by
  have reach : circling.Reachable := ⟨_, _, rfl⟩
  have itself : circling.Needs ⟨2⟩ ⟨2⟩ :=
    ⟨⟨_, rfl, ⟨4⟩, .head _, _, rfl, rfl, ⟨2⟩, rfl, _, rfl, rfl⟩, _, rfl, rfl⟩
  have count : circling.nodeCount = 3 := rfl
  obtain ⟨-, -, -, -, levels⟩ := lowering_terminates reach
  refine ⟨reach, count, ⟨⟨Pin.done, rfl⟩, List.Subset.refl _, by decide⟩, rfl,
    ⟨itself, by simp⟩, fun deeper => ((levels 4 (by omega)).1 deeper).1⟩

end Graph

end NodeScript
