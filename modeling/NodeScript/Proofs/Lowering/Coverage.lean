import NodeScript.Proofs.Lowering.Derivation
import NodeScript.Proofs.Lowering.Given
import NodeScript.Proofs.Script.Printed

/-!
# A script has all that its event leads to, once

From an event, the first edges of the execution outputs lead to further nodes. If the event has a
script, then these nodes form a tree: each is reached through one output only. The script has one
line of a call, a test or a loop for each of them, the line of a call for each call without effects
that they need, and no others (`script_covers`). In particular a graph in which the outputs lead to
a node twice has no script, and neither has one in which a node that is reached needs a call that
needs itself.

What lies behind a list of outputs is described at once (`Spread`). Because a node has to be new
when it is lowered, and everything lowered before is marked, what lies behind different outputs is
disjoint; so the description of a list is that of its parts.
-/

namespace NodeScript

open Relation

namespace NodeKind

/-- The outputs of a node that lowering follows, in this order. -/
def followed : NodeKind → List String
  | event _ _ | call _ => [Pin.done]
  | branch => [Pin.whenTrue, Pin.whenFalse]
  | loop => [Pin.body, Pin.afterLoop]
  | pureCall _ | member _ => []

/-- Does a node of the kind have its own place in the order of statements? -/
def isPlaced : NodeKind → Bool
  | call _ | branch | loop => true
  | event _ _ | pureCall _ | member _ => false

/-- The form of the statement that a node turns into, if it turns into one. -/
def form? : NodeKind → Option Form
  | call _ | pureCall _ => some .call
  | branch => some .branch
  | loop => some .loop
  | event _ _ | member _ => none

theorem form?_of_callee? {kind : NodeKind} {callee : Callee} (h : kind.callee? = some callee) :
    kind.form? = some .call := by
  cases kind <;> simp_all [callee?, form?]

theorem isPureCall_of_isPlaced {kind : NodeKind} (placed : kind.isPlaced = true) :
    kind.isPureCall = false := by
  cases kind <;> simp_all [isPlaced, isPureCall]

end NodeKind

namespace Graph

open Lowering

variable {g : Graph}

/-- A call without effects has no place of its own. -/
theorem IsPureCall.not_placed {n : NodeId} (h : g.IsPureCall n) :
    ¬ ∃ node, g.node? n = some node ∧ node.kind.isPlaced = true := by
  rintro ⟨node, live, placed⟩
  exact not_isPureCall live (NodeKind.isPureCall_of_isPlaced placed) h

/-! ### What lies behind outputs -/

/-- An output that lowering follows: a node and the name of one of its outputs. -/
def Exit (g : Graph) (out : NodeId × String) : Prop :=
  ∃ node, g.node? out.1 = some node ∧ out.2 ∈ node.kind.followed

/-- A followed output of `m` leads to `n`. -/
def Follows (g : Graph) (m n : NodeId) : Prop :=
  ∃ pin, g.Exit (m, pin) ∧ g.successor? m pin = some n

/-- The node is reached through one of the outputs, and then through followed ones. -/
def Behind (g : Graph) (outs : List (NodeId × String)) (n : NodeId) : Prop :=
  ∃ out ∈ outs, ∃ c, g.successor? out.1 out.2 = some c ∧ ReflTransGen g.Follows c n

/-- The output is one of the given ones, or a followed one of a node behind these. -/
def Offers (g : Graph) (outs : List (NodeId × String)) (out : NodeId × String) : Prop :=
  out ∈ outs ∨ g.Behind outs out.1 ∧ g.Exit out

/-- What lies behind outputs, if lowering them one after the other leads from one scope to
another. -/
structure Spread (g : Graph) (outs : List (NodeId × String)) (s s' : Scope) : Prop where
  fresh : ∀ {n}, g.Behind outs n → n ∉ s.visited
  placed : ∀ {n}, g.Behind outs n → ∃ node, g.node? n = some node ∧ node.kind.isPlaced = true
  visited : ∀ {p}, p ∈ s'.visited ↔
    p ∈ s.visited ∨ g.Behind outs p ∨ ∃ r, g.Behind outs r ∧ TransGen g.Needs r p
  unique : ∀ {n out out'}, g.Offers outs out → g.successor? out.1 out.2 = some n →
    g.Offers outs out' → g.successor? out'.1 out'.2 = some n → out = out'

variable {m n : NodeId} {node : Node} {pin : String} {s s' t : Scope} {b : Block}
  {outs outs₁ outs₂ : List (NodeId × String)}

theorem behind_append :
    g.Behind (outs₁ ++ outs₂) n ↔ g.Behind outs₁ n ∨ g.Behind outs₂ n := by
  simp only [Behind, List.mem_append, or_and_right, exists_or]

/-- What an offered output leads to lies behind the outputs. -/
theorem Offers.behind {out : NodeId × String} (h : g.Offers outs out)
    (next : g.successor? out.1 out.2 = some n) : g.Behind outs n := by
  rcases h with hmem | ⟨⟨first, hmem, c, hc, hreach⟩, hexit⟩
  · exact ⟨out, hmem, n, next, .refl⟩
  · exact ⟨first, hmem, c, hc, hreach.tail ⟨out.2, hexit, next⟩⟩

/-- What lies behind outputs is led to by an offered output. -/
theorem Behind.offered (h : g.Behind outs n) :
    ∃ out, g.Offers outs out ∧ g.successor? out.1 out.2 = some n := by
  obtain ⟨first, hmem, c, hc, hreach⟩ := h
  cases hreach with
  | refl => exact ⟨first, .inl hmem, hc⟩
  | @tail k _ hreach hfollows =>
    obtain ⟨pin, hexit, next⟩ := hfollows
    exact ⟨(k, pin), .inr ⟨⟨first, hmem, c, hc, hreach⟩, hexit⟩, next⟩

namespace Spread

/-- Outputs that lead nowhere. -/
theorem nothing (next : g.successor? m pin = none) : g.Spread [(m, pin)] s s := by
  have empty : ∀ n, ¬ g.Behind [(m, pin)] n := by
    rintro n ⟨out, hmem, c, hc, -⟩
    obtain rfl := List.mem_singleton.mp hmem
    simp [next] at hc
  refine ⟨fun hn => absurd hn (empty _), fun hn => absurd hn (empty _), ?_,
    fun h hn => absurd (h.behind hn) (empty _)⟩
  simp [empty]

/-- What lies behind some outputs, and then behind others. -/
theorem append (h₁ : g.Spread outs₁ s t) (h₂ : g.Spread outs₂ t s') :
    g.Spread (outs₁ ++ outs₂) s s' := by
  -- behind the first outputs everything is marked, behind the others everything is new
  have apart : ∀ {n}, g.Behind outs₁ n → ¬ g.Behind outs₂ n := fun hn hn' =>
    h₂.fresh hn' (h₁.visited.mpr (.inr (.inl hn)))
  have side : ∀ {out}, g.Offers (outs₁ ++ outs₂) out → g.Offers outs₁ out ∨ g.Offers outs₂ out := by
    rintro out (hmem | ⟨hout, hexit⟩)
    · exact (List.mem_append.mp hmem).imp .inl .inl
    · exact (behind_append.mp hout).imp (fun h => .inr ⟨h, hexit⟩) fun h => .inr ⟨h, hexit⟩
  refine ⟨fun hn => ?_, fun hn => ?_, ?_, fun h hn h' hn' => ?_⟩
  · rcases behind_append.mp hn with hn | hn
    · exact h₁.fresh hn
    · exact fun hv => h₂.fresh hn (h₁.visited.mpr (.inl hv))
  · exact (behind_append.mp hn).elim h₁.placed h₂.placed
  · intro p
    simp only [h₂.visited, h₁.visited, behind_append, or_and_right, exists_or]
    constructor
    · rintro ((hp | hp | hp) | hp | hp) <;> simp [hp]
    · rintro (hp | (hp | hp) | (hp | hp)) <;> simp [hp]
  -- outputs that lead to one node are on one side
  · rcases side h with h | h <;> rcases side h' with h' | h'
    · exact h₁.unique h hn h' hn'
    · exact absurd (h'.behind hn') (apart (h.behind hn))
    · exact absurd (h.behind hn) (apart (h'.behind hn'))
    · exact h₂.unique h hn h' hn'

/-- An output that leads to a new node: this node, and what lies behind its own outputs. -/
theorem enter {order : List NodeId} {calls : List CallStatement} {s₁ : Scope}
    (next : g.successor? m pin = some n) (enters : g.Enters n node s order calls s₁)
    (placed : node.kind.isPlaced = true) (keeps : t.visited = s₁.visited)
    (inner : g.Spread (node.kind.followed.map (n, ·)) t s') : g.Spread [(m, pin)] s s' := by
  have hv : ∀ p, p ∈ t.visited ↔ p ∈ s.visited ∨ p = n ∨ TransGen g.Needs n p := fun p => by
    rw [keeps, enters.mem_visited]
  have exit_iff : ∀ {out : NodeId × String}, out.1 = n →
      (g.Exit out ↔ out ∈ node.kind.followed.map (n, ·)) := by
    rintro ⟨_, pin⟩ rfl
    simp [Exit, enters.live]
  have behind_iff : ∀ p, g.Behind [(m, pin)] p ↔
      p = n ∨ g.Behind (node.kind.followed.map (n, ·)) p := by
    intro p
    have first : g.Behind [(m, pin)] p ↔ ReflTransGen g.Follows n p := by
      simp [Behind, next]
    rw [first, reflTransGen_iff_eq_or_transGen, TransGen.head'_iff]
    refine or_congr_right ⟨?_, ?_⟩
    · rintro ⟨c, ⟨pin, hexit, hc⟩, hreach⟩
      exact ⟨(n, pin), (exit_iff rfl).mp hexit, c, hc, hreach⟩
    · rintro ⟨⟨k, pin⟩, hmem, c, hc, hreach⟩
      obtain rfl : n = k := by
        simp only [List.mem_map] at hmem
        grind
      exact ⟨c, ⟨pin, (exit_iff rfl).mpr hmem, hc⟩, hreach⟩
  have side : ∀ {out}, g.Offers [(m, pin)] out →
      out = (m, pin) ∨ g.Offers (node.kind.followed.map (n, ·)) out := by
    rintro out (hmem | ⟨hout, hexit⟩)
    · exact .inl (List.mem_singleton.mp hmem)
    · rcases (behind_iff _).mp hout with hout | hout
      · exact .inr (.inl ((exit_iff hout).mp hexit))
      · exact .inr (.inr ⟨hout, hexit⟩)
  -- nothing behind the outputs of the node leads back to it
  have no_return : ∀ {out}, g.Offers (node.kind.followed.map (n, ·)) out →
      g.successor? out.1 out.2 ≠ some n := fun h hn =>
    inner.fresh (h.behind hn) ((hv n).mpr (.inr (.inl rfl)))
  refine ⟨fun {p} hp => ?_, fun {p} hp => ?_, fun {p} => ?_, fun {p out out'} h hp h' hp' => ?_⟩
  · rcases (behind_iff p).mp hp with rfl | hp
    · exact enters.fresh
    · exact fun hmem => inner.fresh hp ((hv p).mpr (.inl hmem))
  · rcases (behind_iff p).mp hp with rfl | hp
    · exact ⟨node, enters.live, placed⟩
    · exact inner.placed hp
  · have first : (∃ r, g.Behind [(m, pin)] r ∧ TransGen g.Needs r p) ↔ TransGen g.Needs n p ∨
        ∃ r, g.Behind (node.kind.followed.map (n, ·)) r ∧ TransGen g.Needs r p := by
      simp [behind_iff, or_and_right, exists_or]
    rw [inner.visited, hv, first, behind_iff]
    tauto
  · rcases side h with rfl | h <;> rcases side h' with rfl | h'
    · rfl
    · obtain rfl : n = p := Option.some.inj (next.symm.trans hp)
      exact absurd hp' (no_return h')
    · obtain rfl : n = p := Option.some.inj (next.symm.trans hp')
      exact absurd hp (no_return h)
    · exact inner.unique h hp h' hp'

end Spread

namespace Lowered

/-- A derivation spreads over what lies behind its output. -/
theorem spread (h : g.Lowered m pin s b s') : g.Spread [(m, pin)] s s' := by
  induction h with
  | nothing next => exact .nothing next
  | call next kind enters makes _ _ ih =>
    refine .enter next enters (by simp [kind, NodeKind.isPlaced]) makes.visited ?_
    simpa [kind, NodeKind.followed] using ih
  | branch next kind enters _ _ _ ihTrue ihFalse =>
    refine .enter next enters (by simp [kind, NodeKind.isPlaced]) rfl ?_
    simpa [kind, NodeKind.followed] using ihTrue.append ihFalse
  | loop next kind enters _ counts _ _ _ ihBody ihAfter =>
    obtain ⟨l, binds⟩ := counts.binds
    refine .enter next enters (by simp [kind, NodeKind.isPlaced]) binds.visited ?_
    simpa [kind, NodeKind.followed] using ihBody.append ihAfter

end Lowered

/-! ### What is emitted -/

/-- A head is that of its node: a call calls the function of the node, with an argument for each of
its parameters, and a branch or loop comes from a node of this kind. -/
inductive Performs (g : Graph) : Head → Prop
  | operation {st : CallStatement} {node : Node} {f : FunctionDecl}
    {archetype : Option Archetype} {left right : Argument} (live : g.node? st.node = some node)
    (calls : calleeOf node = .ok (f, archetype)) (operator : f.flags.operator = true)
    (two : f.arguments.length = 2)
    (form : st.form = .operation (operatorSymbol f.name) left right) : Performs g (.call st)
  | invocation {st : CallStatement} {node : Node} {f : FunctionDecl}
    {archetype : Option Archetype} {target : Option Operand} {arguments : List Argument}
    (live : g.node? st.node = some node) (calls : calleeOf node = .ok (f, archetype))
    (operator : f.flags.operator = false) (each : f.arguments.length = arguments.length)
    (form : st.form = .invocation target f.name arguments) : Performs g (.call st)
  | branch {condition : Option Operand} {n : NodeId} {node : Node}
    (live : g.node? n = some node) (kind : node.kind = .branch) : Performs g (.branch n condition)
  | loop {header : LoopHeader} {node : Node} (live : g.node? header.node = some node)
    (kind : node.kind = .loop) : Performs g (.loop header)

/-- A call that is made is that of its node. -/
theorem Makes.performs {st : CallStatement} (h : g.Makes n s st s') : g.Performs (.call st) := by
  obtain ⟨node, f, archetype, t, live, calls, -, harguments, hform⟩ :=
    parts_of_callStatement h.returns
  have length := length_of_returns_mapM harguments
  rw [← h.node] at live
  unfold callForm at hform
  split at hform
  · rename_i operator
    split at hform
    · rename_i left right two
      obtain ⟨form, -⟩ := returns_pure.mp hform
      exact .operation live calls operator (by simpa [two] using length.symm) form.symm
    · exact absurd hform returns_throw
  · rename_i operator
    obtain ⟨target, u, -, hform⟩ := returns_bind.mp hform
    obtain ⟨form, -⟩ := returns_pure.mp hform
    exact .invocation live calls (by simpa using operator) length.symm form.symm

theorem MakesAll.performs {ns : List NodeId} {sts : List CallStatement} (h : g.MakesAll s ns sts s')
    {st : CallStatement} (hst : st ∈ sts) : g.Performs (.call st) := by
  induction h with
  | nil => cases hst
  | cons makes _ ih =>
    rcases List.mem_cons.mp hst with rfl | hst
    · exact makes.performs
    · exact ih hst

/-- The node of a head turns into a statement of its form. -/
theorem Performs.form {head : Head} (h : g.Performs head) :
    ∃ node, g.node? head.node = some node ∧ node.kind.form? = some head.form := by
  cases h with
  | operation live calls | invocation live calls =>
    exact ⟨_, live, NodeKind.form?_of_callee? (callee?_of_calleeOf calls)⟩
  | branch live kind | loop live kind => exact ⟨_, live, by rw [kind]; rfl⟩

namespace Enters

variable {order : List NodeId} {calls : List CallStatement}

theorem emitted (h : g.Enters n node s order calls s') :
    (Block.calls calls).emitted = order.map (.call, ·) := by
  rw [Block.emitted_calls, ← h.makes.nodes, List.map_map]
  rfl

theorem visited_nodup (h : g.Enters n node s order calls s') (hs : s.visited.Nodup) :
    s'.visited.Nodup := by
  rw [h.visited]
  refine List.nodup_append'.mpr ⟨List.nodup_reverse.mpr h.gathered.nodup,
    List.nodup_cons.mpr ⟨h.fresh, hs⟩, fun p hp hp' => ?_⟩
  exact ((h.gathered.mem_iff p).mp (List.mem_reverse.mp hp)).2 hp'

/-- What is made before the node are the calls of nodes without effects. -/
theorem performs (h : g.Enters n node s order calls s') {head : Head}
    (hhead : head ∈ (Block.calls calls).heads) : g.Performs head := by
  rw [Block.heads_calls] at hhead
  obtain ⟨st, hst, rfl⟩ := List.mem_map.mp hhead
  exact h.makes.performs hst

end Enters

namespace Lowered

/-- Every node that a derivation marks turns into one statement of its block. -/
theorem visited_perm (h : g.Lowered m pin s b s') :
    s'.visited.Perm (b.emitted.map Prod.snd ++ s.visited) := by
  -- how often a node is marked is how often it was marked before and how often it is emitted
  refine List.perm_iff_count.mpr fun a => ?_
  induction h with
  | nothing => simp [Block.emitted]
  | call _ _ enters makes _ _ ih =>
    simp [ih, Block.emitted, enters.emitted, makes.visited, enters.visited, makes.node,
      List.count_cons, Function.comp_def]
    omega
  | branch _ _ enters _ _ _ ihTrue ihFalse =>
    simp [ihTrue, ihFalse, Block.emitted, enters.emitted, enters.visited, List.count_cons,
      Function.comp_def]
    omega
  | loop _ _ enters _ counts _ _ _ ihBody ihAfter =>
    obtain ⟨l, binds⟩ := counts.binds
    simp [ihBody, ihAfter, Block.emitted, enters.emitted, binds.visited, enters.visited,
      List.count_cons, Function.comp_def]
    omega

/-- No node is marked twice. -/
theorem visited_nodup (h : g.Lowered m pin s b s') (hs : s.visited.Nodup) : s'.visited.Nodup := by
  induction h with
  | nothing => exact hs
  | call _ _ enters makes _ _ ih => exact ih (makes.visited ▸ enters.visited_nodup hs)
  | branch _ _ enters _ _ _ ihTrue ihFalse => exact ihFalse (ihTrue (enters.visited_nodup hs))
  | loop _ _ enters _ counts _ _ _ ihBody ihAfter =>
    obtain ⟨l, binds⟩ := counts.binds
    exact ihAfter (ihBody (binds.visited ▸ enters.visited_nodup hs))

/-- No node turns into two statements. -/
theorem emitted_nodup (h : g.Lowered m pin s b s') (hs : s.visited.Nodup) :
    (b.emitted.map Prod.snd ++ s.visited).Nodup :=
  h.visited_perm.nodup_iff.mp (h.visited_nodup hs)

/-- The heads of a block are those of their nodes. -/
theorem performs (h : g.Lowered m pin s b s') {head : Head} (hhead : head ∈ b.heads) :
    g.Performs head := by
  induction h with
  | nothing => cases hhead
  | call _ _ enters makes _ _ ih =>
    simp only [Block.heads_append, Block.heads, Block.heads_assigns, List.nil_append,
      List.mem_append, List.mem_cons] at hhead
    rcases hhead with hhead | rfl | hhead
    · exact enters.performs hhead
    · exact makes.performs
    · exact ih hhead
  | branch _ kind enters _ _ _ ihTrue ihFalse =>
    simp only [Block.heads_append, Block.heads, List.append_nil, List.mem_append,
      List.mem_cons] at hhead
    rcases hhead with hhead | rfl | hhead | hhead
    · exact enters.performs hhead
    · exact .branch enters.live kind
    · exact ihTrue hhead
    · exact ihFalse hhead
  | loop _ kind enters _ _ _ _ _ ihBody ihAfter =>
    simp only [Block.heads_append, Block.heads, Block.heads_assigns, List.nil_append,
      List.mem_append, List.mem_cons] at hhead
    rcases hhead with hhead | rfl | hhead | hhead
    · exact enters.performs hhead
    · exact .loop enters.live kind
    · exact ihBody hhead
    · exact ihAfter hhead

/-- The statements of a block have the forms that their nodes turn into. -/
theorem form_emitted (h : g.Lowered m pin s b s') {form : Form} {n : NodeId}
    (hn : (form, n) ∈ b.emitted) : ∃ node, g.node? n = some node ∧ node.kind.form? = some form := by
  rw [Block.emitted_eq] at hn
  obtain ⟨head, hhead, heq⟩ := List.mem_map.mp hn
  cases heq
  exact (h.performs hhead).form

/-- The statements of a block are those of the nodes that its derivation marks. -/
theorem mem_emitted_iff (h : g.Lowered m pin s b s') (hs : s.visited.Nodup) {form : Form}
    {n : NodeId} : (form, n) ∈ b.emitted ↔ n ∈ s'.visited ∧ n ∉ s.visited ∧
      ∃ node, g.node? n = some node ∧ node.kind.form? = some form := by
  have marked : ∀ k, k ∈ s'.visited ↔ k ∈ b.emitted.map Prod.snd ∨ k ∈ s.visited := fun k => by
    rw [h.visited_perm.mem_iff, List.mem_append]
  constructor
  · intro hmem
    have hsnd : n ∈ b.emitted.map Prod.snd := List.mem_map_of_mem hmem
    have hnew := (List.nodup_append'.mp (h.emitted_nodup hs)).2.2 hsnd
    exact ⟨(marked n).mpr (.inl hsnd), hnew, h.form_emitted hmem⟩
  · rintro ⟨hv, hnew, node, hnode, hform⟩
    obtain ⟨⟨form', n'⟩, hmem, rfl⟩ := List.mem_map.mp (((marked n).mp hv).resolve_right hnew)
    -- the statement that the node turns into has the form of the node
    obtain ⟨node', hnode', hform'⟩ := h.form_emitted hmem
    obtain rfl : node = node' := Option.some.inj (hnode.symm.trans hnode')
    obtain rfl : form = form' := Option.some.inj (hform.symm.trans hform')
    exact hmem

end Lowered

/-! ### From an event -/

section Event

variable {e : NodeId} {name : String} {f : Option FunctionDecl}

theorem exit_event_iff (live : g.node? e = some node) (kind : node.kind = .event name f) :
    g.Exit (e, pin) ↔ pin = Pin.done := by
  simp [Exit, live, kind, NodeKind.followed]

/-- What lies behind the one followed output of an event is what the event leads to. -/
theorem behind_event_iff (live : g.node? e = some node) (kind : node.kind = .event name f) :
    g.Behind [(e, Pin.done)] n ↔ TransGen g.Follows e n := by
  simp only [TransGen.head'_iff, Follows, exit_event_iff live kind, exists_eq_left]
  simp [Behind]

theorem offers_event_iff (live : g.node? e = some node) (kind : node.kind = .event name f)
    {out : NodeId × String} :
    g.Offers [(e, Pin.done)] out ↔ (out.1 = e ∨ TransGen g.Follows e out.1) ∧ g.Exit out := by
  obtain ⟨m, pin⟩ := out
  constructor
  · rintro (hmem | ⟨hm, hexit⟩)
    · obtain ⟨rfl, rfl⟩ : m = e ∧ pin = Pin.done := by simpa using hmem
      exact ⟨.inl rfl, (exit_event_iff live kind).mpr rfl⟩
    · exact ⟨.inr ((behind_event_iff live kind).mp hm), hexit⟩
  · rintro ⟨rfl | hm, hexit⟩
    · exact .inl (by simpa using (exit_event_iff live kind).mp hexit)
    · exact .inr ⟨(behind_event_iff live kind).mpr hm, hexit⟩

end Event

namespace Written

variable {script : EventScript}

/-- A script that was written is printed as it should be. -/
theorem printed (h : g.Written e script node s') : script.Printed :=
  EventScript.printed_of_locals h.parts.2

theorem visited_nodup (h : g.Written e script node s') (housed : g.Housed) :
    (g.entryScope node).visited.Nodup := by
  rw [visited_entryScope housed h.live]
  exact List.nodup_singleton e

/-- No node has two lines. -/
theorem nodup_heads (h : g.Written e script node s') (housed : g.Housed) :
    (script.statements.heads.map Head.node).Nodup := by
  have emitted := h.lowered.emitted_nodup (h.visited_nodup housed)
  rw [Block.emitted_eq, List.map_map] at emitted
  exact (List.nodup_append'.mp emitted).1

/-- The head of a line is among those of the statements. -/
theorem performs_lineAt (h : g.Written e script node s') {i : Nat} {head : Head} {text : String}
    (line : script.LineAt i (.statement head) text) : g.Performs head := by
  obtain ⟨after, place⟩ := line.place_in_heads h.printed
  exact h.lowered.performs (by simp [place])

end Written

/-- **A script has all that its event leads to, once.** In a graph that edits have led to, let an
event have a script, let `reached` be the nodes that its followed outputs lead to in one or more
steps, and `feeding` the calls without effects that these need. Then every reached node is a call, a
branch or a loop, and only one followed output leads to it. The nodes marked in the end are the
event, those reached and those feeding, and no call that feeds needs itself.

The lines of the script are those that its marks say. The lines of calls, the tests and the lines
that open loops are those of the nodes reached and feeding: each of these nodes has a line of its
form, no two lines are of one node, and there are no other such lines. The line of a call calls the
function of its node. -/
theorem script_covers (h : g.Reachable) {e : NodeId} {script : EventScript}
    (ok : g.scriptOf e = .ok script) :
    let reached := TransGen g.Follows e
    let feeding := fun p => ∃ r, reached r ∧ TransGen g.Needs r p
    ∃ s, (g.lowerEvent e).Returns {} script s ∧
      (∀ n, reached n → ∃ node, g.node? n = some node ∧ node.kind.isPlaced = true) ∧
      (∀ n, reached n → ∃! out : NodeId × String,
        (out.1 = e ∨ reached out.1) ∧ g.Exit out ∧ g.successor? out.1 out.2 = some n) ∧
      (∀ p, p ∈ s.visited ↔ p = e ∨ reached p ∨ feeding p) ∧
      (∀ p, feeding p → ¬ TransGen g.Needs p p) ∧
      List.Forall₂ Mark.Prints script.marks script.lines ∧
      (∀ form n, (∃ i head text, script.LineAt i (.statement head) text ∧ head.Spells text ∧
          head.form = form ∧ head.node = n) ↔
        (reached n ∨ feeding n) ∧ ∃ node, g.node? n = some node ∧ node.kind.form? = some form) ∧
      (∀ i j head head' text text', script.LineAt i (.statement head) text →
        script.LineAt j (.statement head') text' → head.node = head'.node → i = j) ∧
      ∀ i head text, script.LineAt i (.statement head) text → g.Performs head := by
  intro reached feeding
  obtain ⟨node, s', written⟩ := written_of_scriptOf h.housed ok
  obtain ⟨name, f, kind⟩ := written.event
  have live := written.live
  have lowered := written.lowered
  have printed := written.printed
  have spread := lowered.spread
  have start := visited_entryScope h.housed live
  have single := written.visited_nodup h.housed
  have behind_iff : ∀ {n}, g.Behind [(e, Pin.done)] n ↔ reached n := behind_event_iff live kind
  have visited_iff : ∀ p, p ∈ s'.visited ↔ p = e ∨ reached p ∨ feeding p := fun p => by
    simp only [spread.visited, start, List.mem_singleton, behind_iff, feeding]
  -- the event itself is marked, but turns into no statement
  have emitted_iff : ∀ form n, (form, n) ∈ script.statements.emitted ↔ (reached n ∨ feeding n) ∧
      ∃ node, g.node? n = some node ∧ node.kind.form? = some form := by
    intro form n
    have other : (∃ node, g.node? n = some node ∧ node.kind.form? = some form) → n ≠ e := by
      rintro ⟨node', hnode', hform⟩ rfl
      obtain rfl : node = node' := Option.some.inj (live.symm.trans hnode')
      simp [kind, NodeKind.form?] at hform
    rw [lowered.mem_emitted_iff single, visited_iff, start, List.mem_singleton]
    exact ⟨fun ⟨hv, hne, hform⟩ => ⟨hv.resolve_left hne, hform⟩,
      fun ⟨hn, hform⟩ => ⟨.inr hn, other hform, hform⟩⟩
  refine ⟨s', written.returns, fun n hn => spread.placed (behind_iff.mpr hn), fun n hn => ?_,
    visited_iff, ?_, printed.lines, fun form n => ?_, ?_, fun _ _ _ => written.performs_lineAt⟩
  · obtain ⟨out, hoffers, next⟩ := (behind_iff.mpr hn).offered
    obtain ⟨hout, hexit⟩ := (offers_event_iff live kind).mp hoffers
    refine ⟨out, ⟨hout, hexit, next⟩, ?_⟩
    rintro out' ⟨hout', hexit', next'⟩
    exact spread.unique ((offers_event_iff live kind).mpr ⟨hout', hexit'⟩) next' hoffers next
  · rintro p ⟨r, hr, hneeds⟩
    exact written.settled.acyclic ((visited_iff p).mpr (.inr (.inr ⟨r, hr, hneeds⟩)))
      (isPureCall_of_needs hneeds)
  · rw [← emitted_iff, Block.emitted_eq, List.mem_map]
    constructor
    · rintro ⟨i, head, text, line, -, rfl, rfl⟩
      obtain ⟨after, place⟩ := line.place_in_heads printed
      exact ⟨head, by simp [place], rfl⟩
    · rintro ⟨head, hhead, heq⟩
      obtain ⟨rfl, rfl⟩ := Prod.mk.inj heq
      obtain ⟨i, text, line⟩ := EventScript.exists_lineAt_head printed hhead
      exact ⟨i, head, text, line, line.spells_head, rfl, rfl⟩
  · intro i j head head' text text' line line' same
    have distinct := written.nodup_heads h.housed
    rw [← printed.heads] at distinct
    exact line.unique line' (List.pairwise_map.mp distinct) (by simp [same]) (by simp [same])

/-- An event that leads to a loop, with a call in the loop, another one after it, and a call
without effects for the number of runs. -/
def repeating : Graph :=
  let log := { FunctionDecl.callable "Actor" "Log" with params := [.input "Message" .string] }
  let size := { (FunctionDecl.callable "Actor" "Size").asPure with params := [.returns .int] }
  (empty "Repeat").run [.place (.event (FunctionDecl.callable "Actor" "Tick").asEvent),
    .place .loop, .place (.call size none), .place (.call log none), .place (.call log none),
    .connect ⟨0⟩ ⟨0⟩ .any, .connect ⟨4⟩ ⟨1⟩ .any, .connect ⟨1⟩ ⟨2⟩ .any, .connect ⟨3⟩ ⟨5⟩ .any]

/-- Among the lines of the script are the one that opens the loop, and that of the call that says how
often it runs. -/
theorem script_covers_repeating :
    ∃ script, repeating.scriptOf ⟨0⟩ = .ok script ∧
      (∃ i head text, script.LineAt i (.statement head) text ∧ head.Spells text ∧
        head.form = .loop ∧ head.node = ⟨1⟩) ∧
      ∃ i head text, script.LineAt i (.statement head) text ∧ head.Spells text ∧
        head.form = .call ∧ head.node = ⟨2⟩ := by
  obtain ⟨script, ok⟩ : ∃ script, repeating.scriptOf ⟨0⟩ = .ok script := ⟨_, rfl⟩
  have first : repeating.Follows ⟨0⟩ ⟨1⟩ := ⟨Pin.done, ⟨_, rfl, .head _⟩, rfl⟩
  have needs : repeating.Needs ⟨1⟩ ⟨2⟩ :=
    ⟨⟨_, rfl, ⟨1⟩, .tail _ (.head _), _, rfl, rfl, ⟨4⟩, rfl, _, rfl, rfl⟩, _, rfl, rfl⟩
  obtain ⟨s, -, -, -, -, -, -, lines, -⟩ := script_covers ⟨_, _, rfl⟩ ok
  refine ⟨script, ok, (lines _ _).mpr ⟨.inl (.single first), _, rfl, rfl⟩,
    (lines _ _).mpr ⟨.inr ⟨⟨1⟩, .single first, .single needs⟩, _, rfl, rfl⟩⟩

end Graph

end NodeScript
