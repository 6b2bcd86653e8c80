import NodeScript.Proofs.Lowering.Inside

/-!
# Where lowering halts

Lowering that fails has gone from node to node until one step failed, and the statements made on the
way are those of known nodes. `Halts` keeps this way: each link leads through a node that was
entered to one of its outputs (`Opens`), and the last step fails (`Stops`). It is to failures what
`Lowered` is to successes: it leaves out the monad and the fuel, and whenever lowering from inside
an enclosed set fails, it comes to a halt in this sense (`halts_of_fails`), because the fuel is
never used up.
-/

namespace NodeScript.Graph

open NodeScript.Lowering

/-- A node that was entered opens one of its outputs: its own statement is begun, what lies behind
its outputs before this one is lowered, and `made` are the nodes of these statements. -/
inductive Opens (g : Graph) (n : NodeId) (node : Node) (s : Scope) :
    String → (made : List NodeId) → Scope → Prop
  | done {callee st s₁ assigned} (kind : node.kind = .call callee) (makes : g.Makes n s st s₁)
    (assigns : g.assignments s₁ node = .ok assigned) : Opens g n node s Pin.done [n] s₁
  | whenTrue {condition} (kind : node.kind = .branch)
    (test : g.operandNamed s node Pin.condition = .ok condition) :
    Opens g n node s Pin.whenTrue [n] s
  | whenFalse {condition b s₁} (kind : node.kind = .branch)
    (test : g.operandNamed s node Pin.condition = .ok condition)
    (onTrue : g.Lowered n Pin.whenTrue s b s₁) :
    Opens g n node s Pin.whenFalse (n :: b.emitted.map Prod.snd) s₁
  | body {bound counter s₁ assigned} (kind : node.kind = .loop)
    (test : g.operandNamed s node Pin.count = .ok bound) (counts : g.Counts n s counter s₁)
    (assigns : g.assignments s₁ node = .ok assigned) : Opens g n node s Pin.body [n] s₁
  | afterLoop {bound counter s₁ assigned b s₂} (kind : node.kind = .loop)
    (test : g.operandNamed s node Pin.count = .ok bound) (counts : g.Counts n s counter s₁)
    (assigns : g.assignments s₁ node = .ok assigned) (inside : g.Lowered n Pin.body s₁ b s₂) :
    Opens g n node s Pin.afterLoop (n :: b.emitted.map Prod.snd) s₂

/-- A node that was entered fails before any of its outputs is opened. -/
inductive Faults (g : Graph) (n : NodeId) (node : Node) (s : Scope) :
    (made : List NodeId) → CompileError → Prop
  | statement {callee err t} (kind : node.kind = .call callee)
    (fails : (g.callStatement n).Fails s err t) : Faults g n node s [] err
  | condition {err} (kind : node.kind = .branch)
    (fails : g.operandNamed s node Pin.condition = .error err) : Faults g n node s [] err
  | count {err} (kind : node.kind = .loop)
    (fails : g.operandNamed s node Pin.count = .error err) : Faults g n node s [] err
  | callAssigns {callee st s₁ err} (kind : node.kind = .call callee) (makes : g.Makes n s st s₁)
    (fails : g.assignments s₁ node = .error err) : Faults g n node s [n] err
  | loopAssigns {counter s₁ err} (kind : node.kind = .loop) (counts : g.Counts n s counter s₁)
    (fails : g.assignments s₁ node = .error err) : Faults g n node s [n] err

/-- Lowering what lies behind an output stops at the next node. -/
inductive Stops (g : Graph) (out : NodeId × String) (s : Scope) :
    (made : List NodeId) → NodeId → CompileError → Prop
  /-- The output leads back to a node that was marked; one of its ends is to blame. -/
  | back {n blamed culprit} (next : g.successor? out.1 out.2 = some n) (seen : n ∈ s.visited)
    (ends : blamed = out.1 ∨ blamed = n) (live : g.node? blamed = some culprit) :
    Stops g out s [] n (.loopDetected culprit.name)
  | unplaced {n node} (next : g.successor? out.1 out.2 = some n) (live : g.node? n = some node)
    (kind : node.kind.isPlaced = false) : Stops g out s [] n (.notExecutable node.name)
  /-- The calls that the node needs cannot be put in an order. -/
  | search {n node err} (next : g.successor? out.1 out.2 = some n) (live : g.node? n = some node)
    (refused : g.Refused (g.dataSources node) err) : Stops g out s [] n err
  /-- One of the calls that the node needs fails after those before it. -/
  | needed {n node made p later calls t t' err} (next : g.successor? out.1 out.2 = some n)
    (live : g.node? n = some node)
    (gathered : g.Gathered (g.dataSources node) (s.visit n) (made ++ p :: later))
    (makes : g.MakesAll ((s.visit n).visitAll (made ++ p :: later)) made calls t)
    (fails : (g.callStatement p).Fails t err t') : Stops g out s made p err
  | fault {n node order calls t made err} (next : g.successor? out.1 out.2 = some n)
    (enters : g.Enters n node s order calls t) (faults : g.Faults n node t made err) :
    Stops g out s (order ++ made) n err

/-- Lowering what lies behind an output comes to a halt with an error at a node, after the
statements of the nodes `made` were made in this order. -/
inductive Halts (g : Graph) :
    NodeId × String → Scope → (made : List NodeId) → NodeId → CompileError → Prop
  | here {out s made n err} (stops : g.Stops out s made n err) : Halts g out s made n err
  | through {out n node s order calls t pin opened t' made k err}
    (next : g.successor? out.1 out.2 = some n) (enters : g.Enters n node s order calls t)
    (opens : g.Opens n node t pin opened t') (rest : Halts g (n, pin) t' made k err) :
    Halts g out s (order ++ opened ++ made) k err

/-! ### Failures come to a halt -/

variable {C : NodeId → Prop} {g : Graph} {m n : NodeId} {node : Node} {pin : String}
  {s s' : Scope} {err : CompileError}

/-- What lies behind an output fails if it leads back, or if the next node fails. -/
theorem fails_lowerBehind {lower : NodeId → Lowering Block} {blame : Blame}
    (hf : (g.lowerBehind lower m pin blame).Fails s err s') (h : g.Encloses C) (hc : C m) :
    ∃ n, g.successor? m pin = some n ∧
      ((n ∈ s.visited ∧ ∃ blamed culprit, (blamed = m ∨ blamed = n) ∧
        g.node? blamed = some culprit ∧ err = .loopDetected culprit.name) ∨
        n ∉ s.visited ∧ (lower n).Fails s err s') := by
  unfold lowerBehind at hf
  cases next : g.successor? m pin with
  | none =>
    rw [next] at hf
    exact absurd hf fails_pure
  | some n =>
    rw [next] at hf
    refine ⟨n, rfl, ?_⟩
    rcases fails_bind.mp hf with hseen | ⟨seen, t, hseen, hf⟩
    · exact absurd hseen fails_isVisited
    obtain ⟨rfl, rfl⟩ := returns_isVisited.mp hseen
    by_cases hv : n ∈ s.visited
    · obtain ⟨blamed, hblamed, ends⟩ : ∃ blamed, (if blame = .source then m else n) = blamed ∧
          (blamed = m ∨ blamed = n) := by
        refine ⟨_, rfl, ?_⟩
        split
        · exact .inl rfl
        · exact .inr rfl
      obtain ⟨culprit, live⟩ : ∃ culprit, g.node? blamed = some culprit := by
        rcases ends with rfl | rfl
        · exact h.live hc
        · exact h.live (h.of_successor? hc next)
      simp only [List.contains_iff_mem.mpr hv, if_true, hblamed, nodeOrFail_eq_ok.mpr live] at hf
      rw [ofExcept_ok_bind] at hf
      refine .inl ⟨hv, blamed, culprit, ends, live, ?_⟩
      rcases fails_bind.mp hf with hthrow | ⟨_, _, hthrow, -⟩
      · exact (fails_throw.mp hthrow).1.symm
      · exact absurd hthrow returns_throw
    · simp only [List.contains_iff_mem, hv, if_false] at hf
      exact .inr ⟨hv, hf⟩

/-- A new node comes to a halt if the calls that it needs cannot be put in an order, or if one of
them fails. Otherwise it is entered. -/
theorem halts_or_enters (h : g.Encloses C) (hs : g.Inside C s) (hc : C n)
    (next : g.successor? m pin = some n) (live : g.node? n = some node)
    (pure : node.kind.isPureCall = false) (fresh : n ∉ s.visited) {rest : Block → Lowering Block}
    (hf : Lowering.Fails (g.pureCalls n >>= rest) (s.visit n) err s') :
    (∃ made p, g.Halts (m, pin) s made p err) ∨
      ∃ order calls t, g.Enters n node s order calls t ∧ g.Inside C t ∧
        s.visited.length < t.visited.length ∧ (rest (.calls calls)).Fails t err s' := by
  have marked := hs.settled.visit (not_isPureCall live pure)
  rcases fails_bind.mp hf with hneeded | ⟨needed, t, hneeded, hf⟩
  · rcases fails_bind.mp hneeded with hsearch | ⟨order, t, horder, hf⟩
    · have refused := refused_of_fails h.housed marked live hsearch
      exact .inl ⟨[], n, .here (.search next live refused)⟩
    obtain ⟨gathered, rfl⟩ := gathered_of_returns h.housed marked live horder
    rcases fails_bind.mp hf with hcalls | ⟨calls, t, -, hf⟩
    · obtain ⟨made, p, later, calls, t, rfl, hmade, hp⟩ := fails_mapM hcalls
      have makes := makesAll_mapM h.housed hmade
      exact .inl ⟨made, p, .here (.needed next live gathered makes hp)⟩
    · exact absurd hf fails_pure
  · obtain ⟨order, calls, rfl, enters, settled⟩ :=
      enters_of_returns h.housed hs.settled live pure fresh hneeded
    obtain ⟨ht, hlt⟩ := hs.enters h hc enters settled
    exact .inr ⟨order, calls, t, enters, ht, hlt, hf⟩

section Kinds

/-! The nodes behind come to a halt if more than `k` nodes are marked. -/

variable {lower : NodeId → Lowering Block} {k : Nat}

/-- What lies behind an output of the node comes to a halt if lowering it fails. -/
def HaltsBehind (C : NodeId → Prop) (g : Graph) (k : Nat) (lower : NodeId → Lowering Block)
    (n : NodeId) : Prop :=
  ∀ {t pin blame err s'}, g.Inside C t → k < t.visited.length →
    (g.lowerBehind lower n pin blame).Fails t err s' → ∃ made p, g.Halts (n, pin) t made p err

theorem halts_call (h : g.Encloses C) (behind : HaltsBehind C g s.visited.length lower n)
    (hs : g.Inside C s) (hc : C n) (next : g.successor? m pin = some n)
    (live : g.node? n = some node) {callee : Callee} (kind : node.kind = .call callee)
    (fresh : n ∉ s.visited) (hf : (g.lowerCall lower n).Fails (s.visit n) err s') :
    ∃ made p, g.Halts (m, pin) s made p err := by
  obtain halts | ⟨order, calls, s₁, enters, ht, hlt, hf⟩ :=
    halts_or_enters h hs hc next live (by rw [kind]; rfl) fresh hf
  · exact halts
  rcases fails_bind.mp hf with hst | ⟨st, s₂, hst, hf⟩
  · exact ⟨_, n, .here (.fault next enters (.statement kind hst))⟩
  have makes := makes_callStatement h.housed hst
  rw [nodeOrFail_eq_ok.mpr live, ofExcept_ok_bind] at hf
  rcases fails_bind.mp hf with hread | ⟨assigned, t, hread, hf⟩
  · obtain ⟨hassigned, -⟩ := fails_reading.mp hread
    exact ⟨_, n, .here (.fault next enters (.callAssigns kind makes hassigned))⟩
  obtain ⟨hassigned, rfl⟩ := returns_reading.mp hread
  rcases fails_bind.mp hf with hrest | ⟨rest, t, -, hf⟩
  · obtain ⟨made, p, rest⟩ := behind (ht.congr makes.visited) (by rwa [makes.visited]) hrest
    exact ⟨_, p, .through next enters (.done kind makes hassigned) rest⟩
  · exact absurd hf fails_pure

theorem halts_branch (h : g.Encloses C) (behind : HaltsBehind C g s.visited.length lower n)
    (derives : g.Derives lower) (hs : g.Inside C s) (hc : C n)
    (next : g.successor? m pin = some n) (live : g.node? n = some node)
    (kind : node.kind = .branch) (fresh : n ∉ s.visited)
    (hf : (g.lowerBranch lower n).Fails (s.visit n) err s') :
    ∃ made p, g.Halts (m, pin) s made p err := by
  obtain halts | ⟨order, calls, s₁, enters, ht, hlt, hf⟩ :=
    halts_or_enters h hs hc next live (by rw [kind]; rfl) fresh hf
  · exact halts
  rw [nodeOrFail_eq_ok.mpr live, ofExcept_ok_bind] at hf
  rcases fails_bind.mp hf with hread | ⟨condition, t, hread, hf⟩
  · obtain ⟨htest, -⟩ := fails_reading.mp hread
    exact ⟨_, n, .here (.fault next enters (.condition kind htest))⟩
  obtain ⟨htest, rfl⟩ := returns_reading.mp hread
  rcases fails_bind.mp hf with htrue | ⟨whenTrue, s₂, htrue, hf⟩
  · obtain ⟨made, p, rest⟩ := behind ht hlt htrue
    exact ⟨_, p, .through next enters (.whenTrue kind htest) rest⟩
  obtain ⟨onTrue, hs₂⟩ := derives ht.settled htrue
  obtain ⟨ht₂, hle⟩ := ht.lowered h hc onTrue hs₂
  rcases fails_bind.mp hf with hfalse | ⟨whenFalse, t, -, hf⟩
  · obtain ⟨made, p, rest⟩ := behind ht₂ (by omega) hfalse
    exact ⟨_, p, .through next enters (.whenFalse kind htest onTrue) rest⟩
  · exact absurd hf fails_pure

theorem halts_loop (h : g.Encloses C) (behind : HaltsBehind C g s.visited.length lower n)
    (derives : g.Derives lower) (hs : g.Inside C s) (hc : C n)
    (next : g.successor? m pin = some n) (live : g.node? n = some node)
    (kind : node.kind = .loop) (fresh : n ∉ s.visited)
    (hf : (g.lowerLoop lower n).Fails (s.visit n) err s') :
    ∃ made p, g.Halts (m, pin) s made p err := by
  obtain halts | ⟨order, calls, s₁, enters, ht, hlt, hf⟩ :=
    halts_or_enters h hs hc next live (by rw [kind]; rfl) fresh hf
  · exact halts
  rw [nodeOrFail_eq_ok.mpr live, ofExcept_ok_bind] at hf
  rcases fails_bind.mp hf with hread | ⟨bound, t, hread, hf⟩
  · obtain ⟨htest, -⟩ := fails_reading.mp hread
    exact ⟨_, n, .here (.fault next enters (.count kind htest))⟩
  obtain ⟨htest, rfl⟩ := returns_reading.mp hread
  rcases fails_bind.mp hf with hfresh | ⟨counter, t, hfresh, hf⟩
  · exact absurd hfresh fails_fresh
  obtain ⟨s₂, counts, hf⟩ : ∃ s₂, g.Counts n s₁ counter s₂ ∧ Lowering.Fails (do
      let assigned ← reading fun s => g.assignments s node
      let body ← g.lowerBehind lower n Pin.body .target
      let after ← g.lowerBehind lower n Pin.afterLoop .target
      return Block.calls calls ++
        Block.loop ⟨n, counter, bound⟩ (Block.assigns assigned ++ body) after) s₂ err s' := by
    split at hf
    · rename_i output houtput
      rcases fails_bind.mp hf with hmodify | ⟨_, s₂, hmodify, hf⟩
      · exact absurd hmodify fails_modify
      · obtain rfl := returns_modify.mp hmodify
        exact ⟨_, counts_of_output h.housed hfresh houtput, hf⟩
    · rename_i houtput
      exact ⟨_, counts_of_none hfresh (Option.eq_none_iff_forall_not_mem.mpr houtput), hf⟩
  obtain ⟨l, binds⟩ := counts.binds
  have counted := ht.congr binds.visited
  rcases fails_bind.mp hf with hread | ⟨assigned, t, hread, hf⟩
  · obtain ⟨hassigned, -⟩ := fails_reading.mp hread
    exact ⟨_, n, .here (.fault next enters (.loopAssigns kind counts hassigned))⟩
  obtain ⟨hassigned, rfl⟩ := returns_reading.mp hread
  rcases fails_bind.mp hf with hbody | ⟨body, s₃, hbody, hf⟩
  · obtain ⟨made, p, rest⟩ := behind counted (by rwa [binds.visited]) hbody
    exact ⟨_, p, .through next enters (.body kind htest counts hassigned) rest⟩
  obtain ⟨inside, hs₃⟩ := derives counted.settled hbody
  obtain ⟨ht₃, hle⟩ := counted.lowered h hc inside hs₃
  rcases fails_bind.mp hf with hrest | ⟨rest, t, -, hf⟩
  · rw [binds.visited] at hle
    obtain ⟨made, p, rest⟩ := behind ht₃ (by omega) hrest
    exact ⟨_, p, .through next enters (.afterLoop kind htest counts hassigned inside) rest⟩
  · exact absurd hf fails_pure

end Kinds

/-- **Lowering that fails has come to a halt.** Inside an enclosed set of nodes no failure is due to
fuel that, together with the nodes marked so far, exceeds the number of live nodes. -/
theorem halts_of_fails (h : g.Encloses C) {fuel : Nat} (hc : C m) (hs : g.Inside C s)
    (enough : g.nodeCount < fuel + s.visited.length) {blame : Blame}
    (hf : (g.lowerBehind (g.lowerUpTo fuel) m pin blame).Fails s err s') :
    ∃ made p, g.Halts (m, pin) s made p err := by
  induction fuel generalizing m pin s blame err s' with
  | zero =>
    have few := hs.length_le h
    omega
  | succ fuel ih =>
    obtain ⟨n, next, ⟨seen, blamed, culprit, ends, live, rfl⟩ | ⟨fresh, hf⟩⟩ :=
      fails_lowerBehind hf h hc
    · exact ⟨[], n, .here (.back next seen ends live)⟩
    have hcn := h.of_successor? hc next
    obtain ⟨node, live⟩ := h.live hcn
    obtain rfl := h.housed.node_id live
    have behind : HaltsBehind C g s.visited.length (g.lowerUpTo fuel) node.id :=
      fun ht hlt hf => ih hcn ht (by omega) hf
    have derives : g.Derives (g.lowerUpTo fuel) := derives_lowerUpTo h.housed fuel
    rcases fails_bind.mp hf with hvisit | ⟨_, t, hvisit, hf⟩
    · exact absurd hvisit fails_visit
    obtain rfl := returns_visit.mp hvisit
    rw [nodeOrFail_eq_ok.mpr live, ofExcept_ok_bind] at hf
    unfold lowerKind at hf
    split at hf
    case h_1 callee kind => exact halts_call h behind hs hcn next live kind fresh hf
    case h_2 kind => exact halts_branch h behind derives hs hcn next live kind fresh hf
    case h_3 kind => exact halts_loop h behind derives hs hcn next live kind fresh hf
    -- the other kinds of nodes are not executable
    case h_4 kind | h_5 kind | h_6 kind =>
      obtain ⟨rfl, -⟩ := fails_throw.mp hf
      exact ⟨[], node.id, .here (.unplaced next live (by rw [kind]; rfl))⟩

end NodeScript.Graph
