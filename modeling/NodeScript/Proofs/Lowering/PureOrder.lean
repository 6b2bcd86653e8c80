import NodeScript.Lowering.PureCalls
import NodeScript.Proofs.Graph.Housed
import NodeScript.Proofs.Lowering.Outcome
import NodeScript.Proofs.Places

/-!
# The order of the calls without effects

Before a node is lowered, the calls without effects that it needs are collected depth first. They
come in an order that suits them (`Gathered`): exactly those that were not made yet, each once, and
each after the calls that it needs itself. The search fails exactly if a call that it meets needs
itself (`neededCalls_order`).

The search looks no further at a call that was made before. That is right because the calls made
before are `Settled`: what they need was made as well, and none of them needs itself. Making what
was gathered keeps them settled, so this holds throughout the lowering of an event.
-/

namespace NodeScript

open Relation
open NodeScript.Lowering

/-- Marks nodes as lowered, one after the other. -/
def Scope.visitAll (s : Scope) (nodes : List NodeId) : Scope :=
  { s with visited := nodes.reverse ++ s.visited }

@[simp] theorem Scope.visitAll_nil (s : Scope) : s.visitAll [] = s := rfl

@[simp] theorem Scope.visitAll_append (s : Scope) (l₁ l₂ : List NodeId) :
    s.visitAll (l₁ ++ l₂) = (s.visitAll l₁).visitAll l₂ := by
  simp [visitAll]

theorem Scope.visit_visitAll (s : Scope) (l : List NodeId) (n : NodeId) :
    (s.visitAll l).visit n = s.visitAll (l ++ [n]) := by
  simp [visitAll, visit]

theorem Scope.mem_visitAll {s : Scope} {l : List NodeId} {n : NodeId} :
    n ∈ (s.visitAll l).visited ↔ n ∈ l ∨ n ∈ s.visited := by
  simp [visitAll]

namespace Graph

variable {g : Graph} {n p q : NodeId} {node : Node} {s : Scope} {roots : List NodeId}
  {order : List NodeId}

/-! ### Who needs whom -/

/-- An edge to a data input of `n` comes from an output of `p`. -/
def Reads (g : Graph) (n p : NodeId) : Prop :=
  ∃ node, g.node? n = some node ∧ ∃ i ∈ node.inputs, ∃ input, g.input? i = some input ∧
    input.signal.isExecution = false ∧ ∃ o, input.source = some o ∧
      ∃ output, g.output? o = some output ∧ output.owner = p

/-- A live call without effects. -/
def IsPureCall (g : Graph) (p : NodeId) : Prop :=
  ∃ node, g.node? p = some node ∧ node.kind.isPureCall = true

/-- An edge to a data input of `n` comes from the call without effects `p`. -/
def Needs (g : Graph) (n p : NodeId) : Prop :=
  g.Reads n p ∧ g.IsPureCall p

theorem not_isPureCall (hn : g.node? n = some node) (kind : node.kind.isPureCall = false) :
    ¬ g.IsPureCall n := by
  rintro ⟨node', hn', kind'⟩
  obtain rfl : node = node' := Option.some.inj (hn.symm.trans hn')
  simp [kind] at kind'

/-- The sources that are looked up for a node are the nodes that it reads from. -/
theorem mem_dataSources (hn : g.node? n = some node) : p ∈ g.dataSources node ↔ g.Reads n p := by
  simp only [dataSources, inputsOf, sourceOf, List.mem_filterMap, List.mem_filter,
    Option.map_eq_some_iff, Option.bind_eq_some_iff, Bool.not_eq_true']
  constructor
  · rintro ⟨input, ⟨⟨i, hi, hlive⟩, data⟩, output, ⟨o, hs, ho⟩, rfl⟩
    exact ⟨node, hn, i, hi, input, hlive, data, o, hs, output, ho, rfl⟩
  · rintro ⟨node', hn', i, hi, input, hlive, data, o, hs, output, ho, rfl⟩
    obtain rfl : node = node' := Option.some.inj (hn.symm.trans hn')
    exact ⟨input, ⟨⟨i, hi, hlive⟩, data⟩, output, ⟨o, hs, ho⟩, rfl⟩

/-- What edges come from is live. -/
theorem Reads.live (h : g.Housed) (hr : g.Reads n p) : ∃ source, g.node? p = some source := by
  obtain ⟨_, _, _, _, _, _, _, _, _, output, ho, rfl⟩ := hr
  exact h.output_owner ho

/-- What is needed, in one or more steps, is a call without effects. -/
theorem isPureCall_of_needs (h : TransGen g.Needs n p) : g.IsPureCall p := by
  cases h with
  | single h => exact h.2
  | tail _ h => exact h.2

/-- The calls made so far need no others, and none of them needs itself. -/
structure Settled (g : Graph) (s : Scope) : Prop where
  closed : ∀ {p}, p ∈ s.visited → g.IsPureCall p → ∀ {q}, g.Needs p q → q ∈ s.visited
  acyclic : ∀ {p}, p ∈ s.visited → g.IsPureCall p → ¬ TransGen g.Needs p p

theorem settled_start : g.Settled {} := by
  constructor <;> simp

/-- Other nodes than calls without effects do not matter. -/
theorem Settled.visit (h : g.Settled s) (hn : ¬ g.IsPureCall n) : g.Settled (s.visit n) where
  closed {p} hp pure q hq := by
    rcases List.mem_cons.mp hp with rfl | hp
    · exact absurd pure hn
    · exact .tail _ (h.closed hp pure hq)
  acyclic {p} hp pure := by
    rcases List.mem_cons.mp hp with rfl | hp
    · exact absurd pure hn
    · exact h.acyclic hp pure

/-- Only the visited nodes matter. -/
theorem Settled.congr {s' : Scope} (h : g.Settled s) (hv : s'.visited = s.visited) :
    g.Settled s' where
  closed := by
    rw [hv]
    exact h.closed
  acyclic := by
    rw [hv]
    exact h.acyclic

/-- What a call made before needs, in however many steps, was made before. -/
theorem Settled.mem_of_needs (h : g.Settled s) (hp : p ∈ s.visited) (pure : g.IsPureCall p)
    (hq : ReflTransGen g.Needs p q) : q ∈ s.visited ∧ g.IsPureCall q := by
  induction hq with
  | refl => exact ⟨hp, pure⟩
  | tail _ hneeds ih => exact ⟨h.closed ih.1 ih.2 hneeds, hneeds.2⟩

/-! ### Calls in a suitable order -/

/-- A call without effects among the roots, or one that such a call needs in some steps. -/
def Wanted (g : Graph) (roots : List NodeId) (p : NodeId) : Prop :=
  ∃ r ∈ roots, g.IsPureCall r ∧ ReflTransGen g.Needs r p

/-- The calls to make for the roots in a scope: all that are wanted and were not made, each once
and after those that it needs; and nothing wanted needs itself. -/
structure Gathered (g : Graph) (roots : List NodeId) (s : Scope) (order : List NodeId) :
    Prop where
  nodup : order.Nodup
  mem_iff : ∀ p, p ∈ order ↔ g.Wanted roots p ∧ p ∉ s.visited
  acyclic : ∀ p, g.Wanted roots p → ¬ TransGen g.Needs p p
  after : ∀ pre p post, order = pre ++ p :: post → ∀ q, g.Needs p q → q ∈ s.visited ∨ q ∈ pre

theorem Wanted.isPureCall (h : g.Wanted roots p) : g.IsPureCall p := by
  obtain ⟨r, -, hr, hp⟩ := h
  rcases reflTransGen_iff_eq_or_transGen.mp hp with rfl | hp
  · exact hr
  · exact isPureCall_of_needs hp

theorem wanted_append {r₁ r₂ : List NodeId} :
    g.Wanted (r₁ ++ r₂) p ↔ g.Wanted r₁ p ∨ g.Wanted r₂ p := by
  simp only [Wanted, List.mem_append, or_and_right, exists_or]

theorem wanted_cons : g.Wanted (q :: roots) p ↔ g.Wanted [q] p ∨ g.Wanted roots p := by
  rw [← List.singleton_append, wanted_append]

theorem wanted_singleton :
    g.Wanted [q] p ↔ g.IsPureCall q ∧ ReflTransGen g.Needs q p := by
  simp [Wanted]

/-- What is wanted for the sources of a node is what the node needs in one or more steps. -/
theorem wanted_dataSources (hn : g.node? n = some node) :
    g.Wanted (g.dataSources node) p ↔ TransGen g.Needs n p := by
  simp only [Wanted, mem_dataSources hn, TransGen.head'_iff, Needs, and_assoc]

theorem gathered_nil : g.Gathered [] s [] where
  nodup := .nil
  mem_iff p := by simp [Wanted]
  acyclic p hp := by simp [Wanted] at hp
  after pre p post h := by simp at h

/-- Nothing is wanted for a root that is no call without effects. -/
theorem gathered_of_not_pure (hq : ¬ g.IsPureCall q) : g.Gathered [q] s [] where
  nodup := .nil
  mem_iff p := by simp [wanted_singleton, hq]
  acyclic p hp := absurd (wanted_singleton.mp hp).1 hq
  after pre p post h := by simp at h

/-- Nothing has to be made for a call that was made. -/
theorem gathered_of_visited (hs : g.Settled s) (hq : q ∈ s.visited) : g.Gathered [q] s [] where
  nodup := .nil
  mem_iff p := by
    simp only [List.not_mem_nil, false_iff, not_and, Classical.not_not]
    exact fun hp => (hs.mem_of_needs hq (wanted_singleton.mp hp).1 (wanted_singleton.mp hp).2).1
  acyclic p hp := by
    obtain ⟨pure, hneeds⟩ := wanted_singleton.mp hp
    obtain ⟨hv, hp⟩ := hs.mem_of_needs hq pure hneeds
    exact hs.acyclic hv hp
  after pre p post h := by simp at h

/-- What was gathered for some roots, and then for others. -/
theorem Gathered.append {r₁ r₂ o₁ o₂ : List NodeId} (h₁ : g.Gathered r₁ s o₁)
    (h₂ : g.Gathered r₂ (s.visitAll o₁) o₂) : g.Gathered (r₁ ++ r₂) s (o₁ ++ o₂) where
  nodup := by
    refine List.nodup_append.mpr ⟨h₁.nodup, h₂.nodup, ?_⟩
    rintro p hp _ hp' rfl
    exact ((h₂.mem_iff p).mp hp').2 (Scope.mem_visitAll.mpr (.inl hp))
  mem_iff p := by
    rw [List.mem_append, h₁.mem_iff, h₂.mem_iff, Scope.mem_visitAll, h₁.mem_iff, wanted_append]
    by_cases hv : p ∈ s.visited <;> by_cases hw : g.Wanted r₁ p <;> simp [hv, hw]
  acyclic p hp := (wanted_append.mp hp).elim (h₁.acyclic p) (h₂.acyclic p)
  after pre p post h q hq := by
    rcases place_in_append h with ⟨rest, rfl⟩ | ⟨rest, rfl, hlast⟩
    · exact h₁.after pre p rest rfl q hq
    · rcases h₂.after rest p post hlast q hq with hv | hmem
      · rcases Scope.mem_visitAll.mp hv with hmem | hv
        · exact .inr (List.mem_append_left _ hmem)
        · exact .inl hv
      · exact .inr (List.mem_append_right _ hmem)

/-- A call comes after what was gathered for its own sources. -/
theorem Gathered.call (h : g.Gathered (g.dataSources node) s order) (hn : g.node? n = some node)
    (pure : g.IsPureCall n) (fresh : n ∉ s.visited) (acyclic : ¬ TransGen g.Needs n n) :
    g.Gathered [n] s (order ++ [n]) where
  nodup := by
    refine List.concat_eq_append ▸ List.Nodup.concat (fun hmem => ?_) h.nodup
    exact acyclic ((wanted_dataSources hn).mp ((h.mem_iff n).mp hmem).1)
  mem_iff p := by
    rw [List.mem_append, h.mem_iff, List.mem_singleton, wanted_dataSources hn, wanted_singleton,
      reflTransGen_iff_eq_or_transGen]
    constructor
    · rintro (⟨hp, hv⟩ | rfl)
      · exact ⟨⟨pure, .inr hp⟩, hv⟩
      · exact ⟨⟨pure, .inl rfl⟩, fresh⟩
    · rintro ⟨⟨-, rfl | hp⟩, hv⟩
      · exact .inr rfl
      · exact .inl ⟨hp, hv⟩
  acyclic p hp := by
    rcases reflTransGen_iff_eq_or_transGen.mp (wanted_singleton.mp hp).2 with rfl | hp
    · exact acyclic
    · exact h.acyclic p ((wanted_dataSources hn).mpr hp)
  after pre p post hsplit q hq := by
    rcases place_in_append hsplit with ⟨rest, rfl⟩ | ⟨rest, rfl, hlast⟩
    · exact h.after pre p rest rfl q hq
    · -- the call itself: all that it needs was made before or gathered
      obtain ⟨rfl, rfl, -⟩ : rest = [] ∧ p = n ∧ post = [] := by
        cases rest <;> simp_all
      by_cases hv : q ∈ s.visited
      · exact .inl hv
      · have hmem := (h.mem_iff q).mpr ⟨(wanted_dataSources hn).mpr (.single hq), hv⟩
        exact .inr (by simpa using hmem)

/-- Making what was gathered leaves the calls settled. -/
theorem Gathered.settled (h : g.Gathered roots s order) (hs : g.Settled s) :
    g.Settled (s.visitAll order) where
  closed {p} hp pure q hq := by
    rw [Scope.mem_visitAll] at hp ⊢
    rcases hp with hmem | hv
    · obtain ⟨pre, post, rfl⟩ := List.append_of_mem hmem
      rcases h.after pre p post rfl q hq with hv | hpre
      · exact .inr hv
      · exact .inl (List.mem_append_left _ hpre)
    · exact .inr (hs.closed hv pure hq)
  acyclic {p} hp pure := by
    rcases Scope.mem_visitAll.mp hp with hmem | hv
    · exact h.acyclic p ((h.mem_iff p).mp hmem).1
    · exact hs.acyclic hv pure

/-! ### The search -/

/-- What a source adds to the calls collected for a node, if `expanding` are on the way to it. -/
def gather (g : Graph) (fuel : Nat) (expanding order : List NodeId) (source : NodeId) :
    Lowering (List NodeId) := do
  let sourceNode ← MonadExcept.ofExcept (g.nodeOrFail source)
  if !sourceNode.kind.isPureCall then
    return order
  if expanding.contains source then
    throw (.loopDetected sourceNode.name)
  if ← isVisited source then
    return order
  let before ← g.neededCalls fuel (source :: expanding) source
  visit source
  return order ++ before ++ [source]

theorem neededCalls_succ (fuel : Nat) (expanding : List NodeId) (n : NodeId) :
    g.neededCalls (fuel + 1) expanding n = (do
      let node ← MonadExcept.ofExcept (g.nodeOrFail n)
      (g.dataSources node).foldlM (g.gather fuel expanding) []) := rfl

/-- The failure of a search that meets, for its roots, a call that needs itself: the message names
that call. -/
def Refused (g : Graph) (roots : List NodeId) (e : CompileError) : Prop :=
  ∃ c culprit, g.node? c = some culprit ∧ e = .loopDetected culprit.name ∧ g.Wanted roots c ∧
    TransGen g.Needs c c

/-- How a search for some roots may end: it adds to `order` the calls to make for them and marks
these, or it is refused. -/
def Searches (g : Graph) (roots : List NodeId) (s : Scope) (order : List NodeId)
    (m : Lowering (List NodeId)) : Prop :=
  (∃ more, m.Returns s (order ++ more) (s.visitAll more) ∧ g.Gathered roots s more) ∨
    ∃ e s', m.Fails s e s' ∧ g.Refused roots e

theorem Refused.mono {roots' : List NodeId} {e : CompileError} (h : g.Refused roots e)
    (sub : ∀ p, g.Wanted roots p → g.Wanted roots' p) : g.Refused roots' e := by
  obtain ⟨c, culprit, hc, he, hw, hcycle⟩ := h
  exact ⟨c, culprit, hc, he, sub c hw, hcycle⟩

/-- Searches for single sources, one after the other, are a search for all of them. -/
private theorem searches_foldlM {collect : List NodeId → NodeId → Lowering (List NodeId)}
    (order : List NodeId) (hs : g.Settled s)
    (each : ∀ q ∈ roots, ∀ s order, g.Settled s → g.Searches [q] s order (collect order q)) :
    g.Searches roots s order (roots.foldlM collect order) := by
  induction roots generalizing s order with
  | nil => exact .inl ⟨[], by simp, gathered_nil⟩
  | cons q roots ih =>
    rw [List.foldlM_cons]
    rcases each q (.head _) s order hs with ⟨more, hret, hmore⟩ | ⟨e, s', hfail, href⟩
    · rcases ih (order ++ more) (hmore.settled hs) fun q hq => each q (.tail _ hq) with
        ⟨rest, hret', hrest⟩ | ⟨e, s', hfail, href⟩
      · refine .inl ⟨more ++ rest, returns_bind.mpr ⟨_, _, hret, ?_⟩, hmore.append hrest⟩
        simpa using hret'
      · refine .inr ⟨e, s', fails_bind.mpr (.inr ⟨_, _, hret, hfail⟩), href.mono fun p hp => ?_⟩
        exact wanted_cons.mpr (.inr hp)
    · refine .inr ⟨e, s', fails_bind.mpr (.inl hfail), href.mono fun p hp => ?_⟩
      exact wanted_cons.mpr (.inl hp)

/-- The search for one source, if the search for its own sources is known. -/
private theorem searches_gather {fuel : Nat} {expanding : List NodeId} {source : Node}
    (hs : g.Settled s) (hq : g.node? q = some source)
    (loop : g.IsPureCall q → q ∈ expanding → TransGen g.Needs q q)
    (below : g.IsPureCall q → q ∉ expanding →
      g.Searches (g.dataSources source) s [] (g.neededCalls fuel (q :: expanding) q)) :
    g.Searches [q] s order (g.gather fuel expanding order q) := by
  have found : g.nodeOrFail q = .ok source := nodeOrFail_eq_ok.mpr hq
  by_cases hkind : source.kind.isPureCall
  · have pure : g.IsPureCall q := ⟨source, hq, hkind⟩
    by_cases hexp : q ∈ expanding
    · refine .inr ⟨.loopDetected source.name, s, ?_, q, source, hq, rfl, ?_, loop pure hexp⟩
      · simp [gather, found, hkind, hexp, fails_bind]
      · exact wanted_singleton.mpr ⟨pure, .refl⟩
    by_cases hv : q ∈ s.visited
    · refine .inl ⟨[], ?_, gathered_of_visited hs hv⟩
      simp [gather, found, hkind, hexp, hv, returns_bind]
    rcases below pure hexp with ⟨before, hret, hbefore⟩ | ⟨e, s', hfail, href⟩
    · -- a cycle through the source would be one below it, and the search below was not refused
      have acyclic : ¬ TransGen g.Needs q q := fun hcycle =>
        hbefore.acyclic q ((wanted_dataSources hq).mpr hcycle) hcycle
      have made : ∃ t, (g.neededCalls fuel (q :: expanding) q).Returns s before t ∧
          t.visit q = s.visitAll (before ++ [q]) := ⟨_, hret, s.visit_visitAll before q⟩
      refine .inl ⟨before ++ [q], ?_, hbefore.call hq pure hv acyclic⟩
      simpa [gather, found, hkind, hexp, hv, returns_bind] using made
    · refine .inr ⟨e, s', ?_, href.mono fun p hp => ?_⟩
      · simpa [gather, found, hkind, hexp, hv, fails_bind] using hfail
      · exact wanted_singleton.mpr ⟨pure, ((wanted_dataSources hq).mp hp).to_reflTransGen⟩
  · refine .inl ⟨[], ?_, gathered_of_not_pure ?_⟩
    · simp [gather, found, hkind, returns_bind]
    · exact not_isPureCall hq (Bool.not_eq_true _ ▸ hkind)

/-- The search with the calls `expanding` on the way to `n`: each of them needs `n`, so a source
that is one of them needs itself. They are distinct live nodes, and so the fuel is never used up. -/
private theorem searches_neededCalls (h : g.Housed) {fuel : Nat} {expanding : List NodeId}
    (hs : g.Settled s) (hn : g.node? n = some node) (distinct : expanding.Nodup)
    (live : ∀ p ∈ expanding, ∃ node, g.node? p = some node)
    (way : ∀ p ∈ expanding, ReflTransGen g.Needs p n)
    (enough : fuel + expanding.length = g.nodeCount + 1) :
    g.Searches (g.dataSources node) s [] (g.neededCalls fuel expanding n) := by
  induction fuel generalizing expanding n node s with
  | zero =>
    -- without fuel there would be more distinct live calls on the way than live nodes
    have := h.length_le_nodeCount distinct live
    omega
  | succ fuel ih =>
    have found : g.nodeOrFail n = .ok node := nodeOrFail_eq_ok.mpr hn
    suffices g.Searches (g.dataSources node) s []
        ((g.dataSources node).foldlM (g.gather fuel expanding) []) by
      simpa [neededCalls_succ, found, Searches, returns_bind, fails_bind] using this
    refine searches_foldlM [] hs fun q hq s order hs => ?_
    have reads : g.Reads n q := (mem_dataSources hn).mp hq
    obtain ⟨source, hsource⟩ := reads.live h
    refine searches_gather hs hsource (fun pure hmem => ?_) fun pure hnew => ?_
    -- a source on the way to the node needs the node, which needs it
    · exact .tail' (way q hmem) ⟨reads, pure⟩
    · refine ih hs hsource (List.nodup_cons.mpr ⟨hnew, distinct⟩) ?_ ?_ ?_
      · rintro p (_ | ⟨_, hp⟩)
        exacts [⟨source, hsource⟩, live p hp]
      · rintro p (_ | ⟨_, hp⟩)
        exacts [.refl, (way p hp).tail ⟨reads, pure⟩]
      · simp only [List.length_cons]
        omega

/-- A search that returns gathers the calls to make and marks these. -/
theorem gathered_of_returns (h : g.Housed) (hs : g.Settled s) (hn : g.node? n = some node)
    {s' : Scope} (hr : (g.neededCalls (g.nodeCount + 1) [] n).Returns s order s') :
    g.Gathered (g.dataSources node) s order ∧ s' = s.visitAll order := by
  rcases searches_neededCalls h hs hn .nil (by simp) (by simp) rfl with
    ⟨more, hret, hmore⟩ | ⟨e, t, hfail, -⟩
  · obtain ⟨rfl, rfl⟩ := hr.unique hret
    exact ⟨hmore, rfl⟩
  · exact absurd hfail hr.not_fails

/-- A search that fails has met a call that needs itself. -/
theorem refused_of_fails (h : g.Housed) (hs : g.Settled s) (hn : g.node? n = some node)
    {e : CompileError} {s' : Scope}
    (hf : (g.neededCalls (g.nodeCount + 1) [] n).Fails s e s') :
    g.Refused (g.dataSources node) e := by
  rcases searches_neededCalls h hs hn .nil (by simp) (by simp) rfl with
    ⟨more, hret, -⟩ | ⟨e, t, hfail, refused⟩
  · exact absurd hf hret.not_fails
  · obtain ⟨rfl, -⟩ := hf.unique hfail
    exact refused

/-- **Calls without effects are made in a suitable order, or a cycle is reported.** In a graph that
edits have led to, let the calls without effects that were made so far need no others and none of
them itself. Then the search for the calls that a live node needs fails with a loop exactly if one
of these calls needs itself, and the message names such a call. Otherwise it returns exactly the
calls that the node needs, in one or more steps, and that were not made yet: each once, and each
after those that it needs itself. They are marked as made, nothing else changes, and the calls made
are settled again. -/
theorem neededCalls_order (h : g.Reachable) (hn : g.node? n = some node) (hs : g.Settled s) :
    let search := g.neededCalls (g.nodeCount + 1) [] n
    let needed := TransGen g.Needs n
    ((∃ name s', search.Fails s (.loopDetected name) s') ↔
        ∃ c, needed c ∧ TransGen g.Needs c c) ∧
      (∀ e s', search.Fails s e s' → ∃ c culprit, g.node? c = some culprit ∧
        e = .loopDetected culprit.name ∧ needed c ∧ TransGen g.Needs c c) ∧
      ((¬ ∃ c, needed c ∧ TransGen g.Needs c c) → ∃ order,
        search.Returns s order { s with visited := order.reverse ++ s.visited } ∧ order.Nodup ∧
          (∀ p, p ∈ order ↔ needed p ∧ p ∉ s.visited) ∧
          (∀ pre p post, order = pre ++ p :: post → ∀ q, g.Needs p q → q ∈ s.visited ∨ q ∈ pre) ∧
          g.Settled { s with visited := order.reverse ++ s.visited }) := by
  intro search needed
  have wanted : ∀ p, g.Wanted (g.dataSources node) p ↔ needed p := fun p => wanted_dataSources hn
  rcases searches_neededCalls h.housed hs hn .nil (by simp) (by simp) rfl with
    ⟨order, hret, horder⟩ | ⟨e, s', hfail, c, culprit, hc, rfl, hw, hcycle⟩
  · have clean : ¬ ∃ c, needed c ∧ TransGen g.Needs c c := fun ⟨c, hneeded, hcycle⟩ =>
      horder.acyclic c ((wanted c).mpr hneeded) hcycle
    refine ⟨⟨fun ⟨_, _, hfail⟩ => absurd hfail hret.not_fails, fun hc => absurd hc clean⟩,
      fun e s' hfail => absurd hfail hret.not_fails, fun _ => ?_⟩
    refine ⟨order, hret, horder.nodup, fun p => ?_, horder.after, horder.settled hs⟩
    rw [horder.mem_iff, wanted]
  · have cycle : ∃ c, needed c ∧ TransGen g.Needs c c := ⟨c, (wanted c).mp hw, hcycle⟩
    refine ⟨⟨fun _ => cycle, fun _ => ⟨_, s', hfail⟩⟩, fun e t hfail' => ?_,
      fun hc => absurd cycle hc⟩
    obtain ⟨rfl, -⟩ := hfail.unique hfail'
    exact ⟨c, culprit, hc, rfl, (wanted c).mp hw, hcycle⟩

/-- A call without effects that reads its own result, and a call that reads it as well. -/
def selfReading : Graph :=
  let trim := { (FunctionDecl.callable "Actor" "Trim").asPure with
    params := [.input "Text" .string, .returns .string] }
  let log := { FunctionDecl.callable "Actor" "Log" with params := [.input "Message" .string] }
  (empty "Loop").run [.place (.call trim none), .place (.call log none),
    .connect ⟨0⟩ ⟨0⟩ .any, .connect ⟨0⟩ ⟨3⟩ .any]

/-- The search for what the second call needs is refused, because of the first. -/
theorem neededCalls_order_selfReading :
    selfReading.Reachable ∧ (∃ node, selfReading.node? ⟨1⟩ = some node) ∧
      selfReading.Settled {} ∧
      ∃ name s', (selfReading.neededCalls (selfReading.nodeCount + 1) [] ⟨1⟩).Fails {}
        (.loopDetected name) s' := by
  have reach : selfReading.Reachable := ⟨_, _, rfl⟩
  have itself : selfReading.Needs ⟨0⟩ ⟨0⟩ :=
    ⟨⟨_, rfl, ⟨0⟩, .head _, _, rfl, rfl, ⟨0⟩, rfl, _, rfl, rfl⟩, _, rfl, rfl⟩
  have needed : selfReading.Needs ⟨1⟩ ⟨0⟩ :=
    ⟨⟨_, rfl, ⟨3⟩, .tail _ (.tail _ (.head _)), _, rfl, rfl, ⟨0⟩, rfl, _, rfl, rfl⟩, _, rfl, rfl⟩
  refine ⟨reach, ⟨_, rfl⟩, settled_start, ?_⟩
  exact (neededCalls_order reach rfl settled_start).1.mpr ⟨⟨0⟩, .single needed, .single itself⟩

end Graph

end NodeScript
