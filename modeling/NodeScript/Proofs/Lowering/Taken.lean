import NodeScript.Proofs.Lowering.Declared
import NodeScript.Proofs.Script.Heads

/-!
# When a value is looked at

The line of a node shows the values of some of its inputs (`Takes`): of those for the parameters
that are passed in, of the one for the object that a function is called on, of the condition of a
branch and of the number of runs of a loop. Each of these values is looked at while the line is
made, and this is not one moment. A call has got the variable for its result before it looks at its
first argument, and at each argument it has those for the arguments before it (`boundBefore`). A
branch or loop looks before it gets anything.

Lowering makes the heads of a block in the order of the text (`EmitsAll`). So what the line of a
node shows is known by what was given to the lines before it (`EmitsAll.place`), and by what it was
given itself by then (`Emits.looks`).
-/

namespace NodeScript

/-- The head as a statement that variables are given to. -/
def Head.setter? : Head → Option Setter
  | call st => some (.call st)
  | branch _ _ => none
  | loop header => some (.loop header)

/-- The heads of a block that are given variables. -/
theorem Block.setters_eq (b : Block) : b.setters = b.heads.filterMap Head.setter? := by
  induction b <;> simp_all [setters, heads, Head.setter?, List.filterMap_cons]

namespace Graph

open Lowering
open NodeScript.Except (bind_eq_ok)

/-! ### What a line takes -/

/-- The line of a node shows the value of an input at a place. -/
inductive Takes (g : Graph) (n : NodeId) : Use → Input → Prop
  /-- A parameter is passed in, unless it is given the archetype. -/
  | argument {node f archetype k p input} (live : g.node? n = some node)
    (calls : calleeOf node = .ok (f, archetype)) (place : f.arguments[k]? = some p)
    (value : ¬ (archetype.isSome ∧ p.name = archetypeParameter)) (passed : p.out = false)
    (supported : p.type.signal.isSupported = true)
    (found : g.inputNamed? n p.name = some input) : Takes g n (.argument k) input
  /-- A function is called on an object if an edge brings one. -/
  | target {node f archetype input} (live : g.node? n = some node)
    (calls : calleeOf node = .ok (f, archetype)) (invoked : f.flags.operator = false)
    (found : g.inputNamed? n Pin.target = some input) (fed : input.source.isSome = true) :
    Takes g n .target input
  | condition {node input} (live : g.node? n = some node) (kind : node.kind = .branch)
    (found : g.inputNamed? n Pin.condition = some input) : Takes g n .condition input
  | bound {node input} (live : g.node? n = some node) (kind : node.kind = .loop)
    (found : g.inputNamed? n Pin.count = some input) : Takes g n .bound input

/-- The outputs of a call that have got a variable when it looks at a value: the one for the
result, and those for the parameters before the one that the value is for. The object that the
function is called on comes last. -/
def boundBefore (g : Graph) (n : NodeId) (use : Use) : List OutputId :=
  match (g.node? n).map calleeOf, use with
  | some (.ok (f, archetype)), .argument k =>
    (g.resultOutput? n).toList ++ (f.arguments.take k).filterMap (g.passedOutput? n archetype)
  | some (.ok (f, archetype)), .target =>
    (g.resultOutput? n).toList ++ f.arguments.filterMap (g.passedOutput? n archetype)
  | _, _ => []

/-! ### How a head is made -/

/-- The head is made between two scopes. -/
inductive Emits (g : Graph) : Scope → Head → Scope → Prop
  | call {st s s'} (makes : g.Makes st.node s st s') : Emits g s (.call st) s'
  | branch {n node condition s} (live : g.node? n = some node) (kind : node.kind = .branch)
    (test : g.operandNamed s node Pin.condition = .ok condition) :
    Emits g s (.branch n condition) s
  | loop {header node s s'} (live : g.node? header.node = some node) (kind : node.kind = .loop)
    (test : g.operandNamed s node Pin.count = .ok header.bound)
    (counts : g.Counts header.node s header.counter s') : Emits g s (.loop header) s'

variable {g : Graph} {m n : NodeId} {node : Node} {pin : String} {s s' t : Scope} {b : Block}
  {head : Head} {heads heads' before after : List Head} {use : Use} {input : Input}
  {operand : Operand} {f : FunctionDecl} {archetype : Option Archetype} {v : Variable}

/-- The variables that a head is given: a loop its counter, a branch none. -/
def givenBy (g : Graph) (head : Head) : List Variable :=
  head.setter?.elim [] g.givenTo

theorem Emits.gives (h : g.Emits s head s') (housed : g.Housed) : Gives s (g.givenBy head) s' := by
  cases h with
  | call makes => exact (gives_callStatement housed makes.returns).1
  | branch => exact .nil
  | loop _ _ _ counts => exact Counts.gives counts

/-- A head is given variables for outputs of its own node. -/
theorem Emits.owned (h : g.Emits s head s') (housed : g.Housed) (hv : v ∈ g.givenBy head) :
    g.ownerOf? v.1 = some head.node := by
  cases h with
  | call makes => exact makes.owned v (List.mem_append.mpr (List.mem_append.mp hv).symm)
  | branch => cases hv
  | loop =>
    obtain ⟨output, houtput, rfl⟩ := Option.map_eq_some_iff.mp (Option.mem_toList.mp hv)
    exact ownerOf?_outputNamed? housed houtput

/-- A value is looked at while the head is made: the operand of the head at that place is the one
that stands for the value in a scope in between, in which the node has what it is bound before. -/
structure Looks (g : Graph) (s : Scope) (head : Head) (s' : Scope) (use : Use) (input : Input)
    (operand : Operand) (node : Node) (t : Scope) (early late : List Variable) : Prop where
  shown : head.operandAt use = some operand
  live : g.node? head.node = some node
  stands : g.operand t node input = .ok operand
  given : g.givenBy head = early ++ late
  outputs : early.map (·.1) = g.boundBefore head.node use
  first : Gives s early t
  then_ : Gives t late s'

theorem operand_of_operandNamed {name : String} {found : Option Operand}
    (hi : g.inputNamed? node.id name = some input)
    (h : g.operandNamed s node name = .ok found) :
    ∃ operand, found = some operand ∧ g.operand s node input = .ok operand := by
  unfold operandNamed at h
  rw [hi] at h
  cases ho : g.operand s node input with
  | error e => simp [ho] at h
  | ok operand => exact ⟨operand, by simpa [ho] using h.symm, rfl⟩

theorem operand_of_connectedOperand {name : String} {found : Option Operand}
    (hi : g.inputNamed? node.id name = some input) (fed : input.source.isSome = true)
    (h : g.connectedOperand s node name = .ok found) :
    ∃ operand, found = some operand ∧ g.operand s node input = .ok operand := by
  unfold connectedOperand at h
  rw [hi] at h
  simp only [fed, if_true] at h
  cases ho : g.operand s node input with
  | error e => simp [ho] at h
  | ok operand => exact ⟨operand, by simpa [ho] using h.symm, rfl⟩

/-- The argument for a parameter that is passed in stands for the value of its input. -/
theorem operand_of_argument {p : Parameter} {a : Argument}
    (value : ¬ (archetype.isSome ∧ p.name = archetypeParameter)) (passed : p.out = false)
    (supported : p.type.signal.isSupported = true)
    (hi : g.inputNamed? node.id p.name = some input)
    (h : (g.argument node archetype p).Returns s a s') :
    s' = s ∧ ∃ operand, a = .value operand ∧ g.operand s node input = .ok operand := by
  have hpassed : g.argument node archetype p = g.passed node p := by
    cases archetype with
    | none => rfl
    | some c => exact (if_neg (by simpa using value)).trans rfl
  rw [hpassed] at h
  simp only [Graph.passed, supported, passed, hi, Bool.not_true, Bool.false_eq_true, if_false] at h
  obtain ⟨operand, t, hread, h⟩ := returns_bind.mp h
  obtain ⟨hop, rfl⟩ := returns_reading.mp hread
  obtain ⟨rfl, rfl⟩ := returns_pure.mp h
  exact ⟨rfl, operand, rfl, hop⟩

theorem not_calls_of_kind (plain : node.kind = .branch ∨ node.kind = .loop) :
    calleeOf node ≠ .ok (f, archetype) := by
  intro calls
  have hcallee := callee?_of_calleeOf calls
  rcases plain with kind | kind <;> (rw [kind] at hcallee; cases hcallee)

theorem boundBefore_of_kind (live : g.node? n = some node)
    (plain : node.kind = .branch ∨ node.kind = .loop) : g.boundBefore n use = [] := by
  have idle : calleeOf node = .error (.missingFunction node.name) := by
    rcases plain with kind | kind <;> simp [calleeOf, kind, NodeKind.callee?]
  simp [boundBefore, live, idle]

/-- A branch looks at its condition only. -/
theorem Takes.of_branch (h : g.Takes n use input) (live : g.node? n = some node)
    (kind : node.kind = .branch) :
    use = .condition ∧ g.inputNamed? n Pin.condition = some input := by
  cases h with
  | condition _ _ found => exact ⟨rfl, found⟩
  | argument live' calls | target live' calls =>
    obtain rfl := Option.some.inj (live.symm.trans live')
    exact absurd calls (not_calls_of_kind (.inl kind))
  | bound live' kind' =>
    obtain rfl := Option.some.inj (live.symm.trans live')
    cases kind.symm.trans kind'

/-- A loop looks at the number of its runs only. -/
theorem Takes.of_loop (h : g.Takes n use input) (live : g.node? n = some node)
    (kind : node.kind = .loop) : use = .bound ∧ g.inputNamed? n Pin.count = some input := by
  cases h with
  | bound _ _ found => exact ⟨rfl, found⟩
  | argument live' calls | target live' calls =>
    obtain rfl := Option.some.inj (live.symm.trans live')
    exact absurd calls (not_calls_of_kind (.inr kind))
  | condition live' kind' =>
    obtain rfl := Option.some.inj (live.symm.trans live')
    cases kind.symm.trans kind'

/-- A call looks at its arguments in their order, and then at the object that it is made on. -/
theorem looks_call {st : CallStatement} (housed : g.Housed) (makes : g.Makes st.node s st s')
    (takes : g.Takes st.node use input) :
    ∃ operand node t early late,
      g.Looks s (.call st) s' use input operand node t early late := by
  obtain ⟨node, f, archetype, u, live, calls, hresult, harguments, hform⟩ :=
    parts_of_callStatement makes.returns
  have idEq := housed.node_id live
  obtain ⟨first, hfirst⟩ := (asks_callResult hresult).gives
  rw [idEq] at hfirst
  cases takes with
  | @argument node' f' archetype' k p _ live' calls' place value passed supported found =>
    obtain rfl := Option.some.inj (live.symm.trans live')
    obtain ⟨rfl, rfl⟩ := Prod.mk.inj (Except.ok.inj (calls.symm.trans calls'))
    obtain ⟨hk, rfl⟩ := List.getElem?_eq_some_iff.mp place
    have split : f.arguments =
        f.arguments.take k ++ f.arguments[k] :: f.arguments.drop (k + 1) := by
      rw [← List.drop_eq_getElem_cons hk, List.take_append_drop]
    rw [split] at harguments
    obtain ⟨as₁, t, a, t', as₂, has, hpre, ha, hpost⟩ := returns_mapM_place harguments
    obtain ⟨rfl, operand, rfl, stands⟩ :=
      operand_of_argument value passed supported (idEq ▸ found) ha
    obtain ⟨before, hbefore⟩ := gives_arguments hpre
    obtain ⟨after, -⟩ := gives_arguments hpost
    have position : as₁.length = k := by
      rw [length_of_returns_mapM hpre, List.length_take]
      omega
    refine ⟨operand, node, _, _, _, ?_, live, stands, ?_, ?_, first.append before, after⟩
    · simp [Head.operandAt, has, ← position, Argument.operand?]
    · simp [givenBy, Head.setter?, givenTo, CallStatement.given, has, List.filterMap_cons,
        Argument.set?]
    · rw [List.map_append, hbefore, idEq, ← Option.toList_map, hfirst]
      simp [boundBefore, Head.node, live, calls]
  | target live' calls' invoked found fed =>
    obtain rfl := Option.some.inj (live.symm.trans live')
    obtain ⟨rfl, rfl⟩ := Prod.mk.inj (Except.ok.inj (calls.symm.trans calls'))
    obtain ⟨passed, hpassed⟩ := gives_arguments harguments
    simp only [callForm, invoked, Bool.false_eq_true, if_false] at hform
    obtain ⟨target, t, hread, hform⟩ := returns_bind.mp hform
    obtain ⟨htarget, rfl⟩ := returns_reading.mp hread
    obtain ⟨hform, -⟩ := returns_pure.mp hform
    obtain ⟨operand, rfl, stands⟩ := operand_of_connectedOperand (idEq ▸ found) fed htarget
    refine ⟨operand, node, _, _, [], (congrArg CallForm.callee? hform).symm, live, stands,
      (List.append_nil _).symm, ?_, first.append passed, .nil⟩
    simp only [givenBy, Head.setter?, Option.elim_some, givenTo, CallStatement.given,
      List.map_append, hpassed, idEq, ← Option.toList_map, hfirst]
    simp [boundBefore, Head.node, live, calls]
  | condition live' kind =>
    obtain rfl := Option.some.inj (live.symm.trans live')
    exact absurd calls (not_calls_of_kind (.inl kind))
  | bound live' kind =>
    obtain rfl := Option.some.inj (live.symm.trans live')
    exact absurd calls (not_calls_of_kind (.inr kind))

/-- **Each value is looked at once, in a scope that is known.** -/
theorem Emits.looks (h : g.Emits s head s') (housed : g.Housed)
    (takes : g.Takes head.node use input) :
    ∃ operand node t early late, g.Looks s head s' use input operand node t early late := by
  cases h with
  | call makes => exact looks_call housed makes takes
  | @branch n node condition _ live kind test =>
    obtain ⟨rfl, found⟩ := takes.of_branch live kind
    obtain rfl := housed.node_id live
    obtain ⟨operand, rfl, stands⟩ := operand_of_operandNamed found test
    exact ⟨operand, node, s, [], [], rfl, live, stands, rfl,
      (boundBefore_of_kind live (.inl kind)).symm, .nil, .nil⟩
  | @loop header node _ _ live kind test counts =>
    obtain ⟨rfl, found⟩ := takes.of_loop live kind
    have found : g.inputNamed? node.id Pin.count = some input := housed.node_id live ▸ found
    obtain ⟨operand, shown, stands⟩ := operand_of_operandNamed found test
    exact ⟨operand, node, s, [], _, shown, live, stands, rfl,
      (boundBefore_of_kind live (.inr kind)).symm, .nil, Counts.gives counts⟩

/-! ### How a block is made -/

/-- The heads of a block are made one after the other. -/
inductive EmitsAll (g : Graph) : Scope → List Head → Scope → Prop
  | nil {s : Scope} : EmitsAll g s [] s
  | cons {head : Head} {heads : List Head} {s t s' : Scope} : g.Emits s head t →
    EmitsAll g t heads s' → EmitsAll g s (head :: heads) s'
  /-- In between, nodes are marked. -/
  | mark {heads : List Head} {s s' : Scope} {nodes : List NodeId} :
    EmitsAll g { s with visited := nodes } heads s' → EmitsAll g s heads s'

namespace EmitsAll

theorem append (h : g.EmitsAll s heads t) (h' : g.EmitsAll t heads' s') :
    g.EmitsAll s (heads ++ heads') s' := by
  induction h with
  | nil => exact h'
  | cons first _ ih => exact .cons first (ih h')
  | mark _ ih => exact .mark (ih h')

theorem of_makesAll {ns : List NodeId} {sts : List CallStatement} (h : g.MakesAll s ns sts s') :
    g.EmitsAll s (sts.map .call) s' := by
  induction h with
  | nil => exact .nil
  | cons makes _ ih => exact .cons (.call (makes.node ▸ makes)) ih

theorem of_enters {order : List NodeId} {calls : List CallStatement}
    (h : g.Enters n node s order calls s') : g.EmitsAll s (Block.calls calls).heads s' := by
  rw [Block.heads_calls]
  exact .mark (of_makesAll h.makes)

/-- **Lowering makes the heads of the block, in the order of its text.** -/
theorem of_lowered (h : g.Lowered m pin s b s') : g.EmitsAll s b.heads s' := by
  induction h with
  | nothing => exact .nil
  | call _ _ enters makes _ _ ih =>
    have called := EmitsAll.cons (.call (makes.node ▸ makes)) ih
    simpa [Block.heads] using (of_enters enters).append called
  | branch _ kind enters test _ _ ihTrue ihFalse =>
    have arms := EmitsAll.cons (.branch enters.live kind test) (ihTrue.append ihFalse)
    simpa [Block.heads] using (of_enters enters).append arms
  | @loop _ _ n _ _ _ _ _ bound counter _ _ _ _ _ _ _ kind enters test counts _ _ _ ihBody ihRest =>
    have opened : g.Emits _ (.loop ⟨n, counter, bound⟩) _ := .loop enters.live kind test counts
    have inside := EmitsAll.cons opened (ihBody.append ihRest)
    simpa [Block.heads] using (of_enters enters).append inside

theorem gives (h : g.EmitsAll s heads s') (housed : g.Housed) :
    Gives s (heads.flatMap g.givenBy) s' := by
  induction h with
  | nil => exact .nil
  | cons first _ ih => exact (first.gives housed).append ih
  | mark _ ih => exact .of_visited ih

/-- Heads are given variables for outputs of their own nodes. -/
theorem owned (h : g.EmitsAll s heads s') (housed : g.Housed) (hhead : head ∈ heads)
    (hv : v ∈ g.givenBy head) : g.ownerOf? v.1 = some head.node := by
  induction h with
  | nil => cases hhead
  | cons first _ ih =>
    rcases List.mem_cons.mp hhead with rfl | hhead
    · exact first.owned housed hv
    · exact ih hhead
  | mark _ ih => exact ih hhead

/-- A head is made between those before it and those behind it. -/
theorem place (h : g.EmitsAll s (before ++ head :: after) s') :
    ∃ t t', g.EmitsAll s before t ∧ g.Emits t head t' ∧ g.EmitsAll t' after s' := by
  generalize hall : before ++ head :: after = all at h
  induction h generalizing before with
  | nil => simp at hall
  | cons first rest ih =>
    cases before with
    | nil =>
      obtain ⟨rfl, rfl⟩ := List.cons.inj hall
      exact ⟨_, _, .nil, first, rest⟩
    | cons head' before =>
      obtain ⟨rfl, hrest⟩ := List.cons.inj hall
      obtain ⟨t, t', hbefore, here, hafter⟩ := ih hrest
      exact ⟨t, t', .cons first hbefore, here, hafter⟩
  | mark _ ih =>
    obtain ⟨t, t', hbefore, here, hafter⟩ := ih hall
    exact ⟨t, t', .mark hbefore, here, hafter⟩

end EmitsAll

end Graph

end NodeScript
