import NodeScript.Graph.Edit
import NodeScript.Proofs.Lowering.Naming

/-!
# The line of a call

Each parameter of a function has an entry among the arguments of its calls, and what the entry is
made from is decided by the parameter alone (`Graph.entry`). So the entries stand in the order of
the parameters, and one that has nothing to show stays where it is and is empty.

Between the entries only variables are given out: one for the result and one for each entry that is
passed out, each to the output that the entry belongs to (`Scope.giveAll`). The line that comes out
and the scope that is left are described together by `Graph.CallLine`.
-/

namespace NodeScript

/-! ### Giving variables one after the other -/

namespace Scope

variable {s : Scope} {o : OutputId} {base : String} {requests : List (OutputId × String)}

/-- The scope in which outputs have got fresh variables, one after the other. Each request is an
output and the base of its variable. -/
def giveAll (s : Scope) (requests : List (OutputId × String)) : Scope :=
  requests.foldl (fun t r => t.give r.1 r.2) s

@[simp] theorem giveAll_nil : s.giveAll [] = s := rfl

@[simp] theorem giveAll_cons :
    s.giveAll ((o, base) :: requests) = (s.give o base).giveAll requests := rfl

theorem giveAll_append {later : List (OutputId × String)} :
    s.giveAll (requests ++ later) = (s.giveAll requests).giveAll later :=
  List.foldl_append

@[simp] theorem visited_giveAll : (s.giveAll requests).visited = s.visited := by
  induction requests generalizing s with
  | nil => rfl
  | cons r requests ih => exact ih

/-- The outputs get the answers to their requests. -/
theorem gives_giveAll : Gives s (s.names.answers requests) (s.giveAll requests) := by
  induction requests generalizing s with
  | nil => exact .nil
  | cons r requests ih => exact .cons (ih (s := s.give r.1 r.2))

/-- An output that asked for nothing keeps what it had. -/
theorem nameOf?_giveAll_of_notMem (ho : o ∉ requests.map (·.1)) :
    (s.giveAll requests).nameOf? o = s.nameOf? o :=
  gives_giveAll.nameOf?_of_notMem (by simpa using ho)

/-- An output that asked has one of the answers. -/
theorem nameOf?_giveAll_of_mem (ho : o ∈ requests.map (·.1)) :
    ∃ x, (o, x) ∈ s.names.answers requests ∧ (s.giveAll requests).nameOf? o = some x := by
  have answered : o ∈ (s.names.answers requests).map (·.1) := by simpa using ho
  obtain ⟨pre, ⟨p, x⟩, post, split, rfl, last⟩ := exists_last_of_mem_map answered
  exact ⟨x, by simp [split], (split ▸ gives_giveAll).nameOf?_append last⟩

/-- Two outputs that asked have two names. -/
theorem nameOf?_giveAll_inj {p : OutputId} (ho : o ∈ requests.map (·.1))
    (hp : p ∈ requests.map (·.1))
    (same : (s.giveAll requests).nameOf? o = (s.giveAll requests).nameOf? p) : o = p := by
  obtain ⟨x, hx, hlast⟩ := nameOf?_giveAll_of_mem (s := s) ho
  obtain ⟨y, hy, hlast'⟩ := nameOf?_giveAll_of_mem (s := s) hp
  obtain rfl : x = y := Option.some.inj (hlast.symm.trans (same.trans hlast'))
  exact congrArg Prod.fst (List.inj_on_of_nodup_map gives_giveAll.names_nodup hx hy rfl)

/-- Outputs that had a variable come before those that have got their first one, in the order they
had. -/
theorem keys_giveAll : s.bindings.map (·.1) <+: (s.giveAll requests).bindings.map (·.1) := by
  induction requests generalizing s with
  | nil => exact List.prefix_rfl
  | cons r requests ih =>
    refine List.IsPrefix.trans ?_ (ih (s := s.give r.1 r.2))
    show _ <+: (bindIn r.1 _ s.bindings).map (·.1)
    rw [keys_bindIn]
    split
    · exact List.prefix_rfl
    · exact List.prefix_append _ _

end Scope

/-! ### Entries -/

/-- What an argument is made from. -/
inductive Entry where
  | archetype (a : Archetype)
  | empty
  /-- A fresh variable for an output. -/
  | fresh (output : OutputId) (base : String)
  /-- The value of an input. -/
  | value (input : Input)
  deriving DecidableEq, Repr

/-- The request for a variable that an entry makes. -/
def Entry.request? : Entry → Option (OutputId × String)
  | fresh o base => some (o, base)
  | archetype _ | empty | value _ => none

namespace Graph

open Lowering

variable {g : Graph} {n : NodeId} {node : Node} {f : FunctionDecl} {archetype : Option Archetype}
  {p : Parameter} {ps : List Parameter} {s s' t : Scope} {st : CallStatement}

/-- The entry for a parameter. -/
def entry (g : Graph) (n : NodeId) (archetype : Option Archetype) (p : Parameter) : Entry :=
  match archetype.filter fun _ => p.name = archetypeParameter with
  | some a => .archetype a
  | none =>
    if !p.type.signal.isSupported then .empty
    else if p.out then (g.outputNamed? n p.name).elim .empty fun o => .fresh o.id p.name
    else (g.inputNamed? n p.name).elim .empty .value

/-- The text of an entry of a call, looked at in a scope. -/
def textOf (g : Graph) (consumer : Node) (t : Scope) : Entry → Except CompileError String
  | .archetype a => .ok a.code
  | .empty => .ok ""
  | .fresh _ base => .ok (t.names.next base).1
  | .value input => Operand.text <$> g.operand t consumer input

/-- The requests for variables of the outputs for parameters. -/
def passedRequests (g : Graph) (n : NodeId) (archetype : Option Archetype) (ps : List Parameter) :
    List (OutputId × String) :=
  ps.filterMap fun p => (g.passedOutput? n archetype p).map (·, p.name)

/-- The request for the result of a call. -/
def resultRequest? (g : Graph) (n : NodeId) (f : FunctionDecl) : Option (OutputId × String) :=
  (g.resultOutput? n).map (·, f.name ++ "Ret")

/-- The requests that a call has made before it makes the entry at a place. -/
def requestsBefore (g : Graph) (n : NodeId) (f : FunctionDecl) (archetype : Option Archetype)
    (k : Nat) : List (OutputId × String) :=
  (g.resultRequest? n f).toList ++ g.passedRequests n archetype (f.arguments.take k)

/-- An entry asks for a variable if its parameter is passed out and has an output. -/
theorem request?_entry :
    (g.entry n archetype p).request? = (g.passedOutput? n archetype p).map (·, p.name) := by
  by_cases made : archetype.isSome ∧ p.name = archetypeParameter
  · obtain ⟨a, rfl⟩ := Option.isSome_iff_exists.mp made.1
    simp [entry, passedOutput?, made.2, Entry.request?, Option.filter]
  have hfilter : (archetype.filter fun _ => p.name = archetypeParameter) = none := by
    cases archetype <;> simp_all
  simp only [entry, hfilter, passedOutput?, made, false_or, Parameter.yields]
  cases supported : p.type.signal.isSupported with
  | false => simp [Entry.request?]
  | true =>
    cases out : p.out with
    | false => cases g.inputNamed? n p.name <;> simp [Entry.request?]
    | true => cases g.outputNamed? n p.name <;> simp [Entry.request?]

theorem passedRequests_cons : g.passedRequests n archetype (p :: ps) =
    (g.entry n archetype p).request?.toList ++ g.passedRequests n archetype ps := by
  rw [request?_entry]
  unfold passedRequests
  cases h : g.passedOutput? n archetype p <;> simp [h]

/-- Makes an argument from an entry. -/
def fill (g : Graph) (node : Node) : Entry → Lowering Argument
  | .archetype a => return .archetype a
  | .empty => return .absent
  | .fresh output base => return .result output (← bindFresh output base)
  | .value input => return .value (← reading fun s => g.operand s node input)

/-- An argument is made from the entry for its parameter. -/
theorem argument_eq : g.argument node archetype p = g.fill node (g.entry node.id archetype p) := by
  have plain : g.passed node p = g.fill node (g.entry node.id none p) := by
    unfold passed entry
    simp only [Option.filter_none]
    split
    · rfl
    · split
      · cases g.outputNamed? node.id p.name <;> rfl
      · cases g.inputNamed? node.id p.name <;> rfl
  cases archetype with
  | none => exact plain
  | some a =>
    by_cases hp : p.name = archetypeParameter
    · simp [argument, entry, fill, hp, Option.filter]
    · have same : g.entry node.id (some a) p = g.entry node.id none p := by
        simp [entry, hp, Option.filter]
      rw [same, ← plain]
      exact (if_neg hp).trans rfl

/-- An argument shows the text of its entry, and asks for what the entry asks for. -/
theorem returns_fill {e : Entry} {a : Argument} (h : (g.fill node e).Returns s a s') :
    g.textOf node s e = .ok a.text ∧ s' = s.giveAll e.request?.toList := by
  cases e with
  | archetype a =>
    obtain ⟨rfl, rfl⟩ := returns_pure.mp h
    exact ⟨rfl, rfl⟩
  | empty =>
    obtain ⟨rfl, rfl⟩ := returns_pure.mp h
    exact ⟨rfl, rfl⟩
  | fresh output base =>
    obtain ⟨name, t, hname, h⟩ := returns_bind.mp h
    obtain ⟨rfl, rfl⟩ := returns_bindFresh.mp hname
    obtain ⟨rfl, rfl⟩ := returns_pure.mp h
    exact ⟨rfl, rfl⟩
  | value input =>
    obtain ⟨operand, t, hread, h⟩ := returns_bind.mp h
    obtain ⟨hop, rfl⟩ := returns_reading.mp hread
    obtain ⟨rfl, rfl⟩ := returns_pure.mp h
    exact ⟨by rw [textOf, hop]; rfl, rfl⟩

/-- **One argument for each parameter.** The arguments show the entries for the parameters in their
order, each with the variables that the entries before it have asked for. -/
theorem returns_arguments {as : List Argument}
    (h : Lowering.Returns (ps.mapM (g.argument node archetype)) s as s') :
    as.length = ps.length ∧
      (∀ k p, ps[k]? = some p → ∃ a, as[k]? = some a ∧
        g.textOf node (s.giveAll (g.passedRequests node.id archetype (ps.take k)))
          (g.entry node.id archetype p) = .ok a.text) ∧
      s' = s.giveAll (g.passedRequests node.id archetype ps) := by
  induction ps generalizing s as with
  | nil =>
    obtain ⟨rfl, rfl⟩ := returns_mapM_nil.mp h
    exact ⟨rfl, by simp, rfl⟩
  | cons p ps ih =>
    obtain ⟨a, t, as, hp, hps, rfl⟩ := returns_mapM_cons.mp h
    obtain ⟨first, rfl⟩ := returns_fill (argument_eq ▸ hp)
    obtain ⟨hlength, later, rfl⟩ := ih hps
    refine ⟨by simp [hlength], fun k q hq => ?_, by rw [passedRequests_cons, Scope.giveAll_append]⟩
    cases k with
    | zero =>
      obtain rfl : p = q := by simpa using hq
      exact ⟨a, rfl, first⟩
    | succ k =>
      rw [List.take_succ_cons, passedRequests_cons, Scope.giveAll_append]
      exact later k q (by simpa using hq)

/-- The variable for the result is the first that a call asks for. -/
theorem returns_callResult {r : Option Variable × Option String}
    (h : (g.callResult node f).Returns s r s') :
    r.1 = (g.resultRequest? node.id f).map (fun q => (q.1, (s.names.next q.2).1)) ∧
      s' = s.giveAll (g.resultRequest? node.id f).toList := by
  unfold resultRequest?
  have asks := asks_callResult h
  generalize g.resultOutput? node.id = o?, r.1 = v? at asks
  cases asks with
  | nothing => exact ⟨rfl, rfl⟩
  | fresh hx =>
    obtain ⟨rfl, rfl⟩ := returns_bindFresh.mp hx
    exact ⟨rfl, rfl⟩

/-! ### The whole line -/

/-- The text of what a call evaluates. -/
inductive Spelled (g : Graph) (node : Node) (f : FunctionDecl) (t : Scope) (entries : List String) :
    String → Prop
  | operation {left right : String} (operator : f.flags.operator = true)
    (two : entries = [left, right]) :
    Spelled g node f t entries (left ++ " " ++ operatorSymbol f.name ++ " " ++ right)
  | invocation {target : Option Operand} (operator : f.flags.operator = false)
    (on : g.connectedOperand t node Pin.target = .ok target) :
    Spelled g node f t entries (target.elim "" (·.text ++ ".") ++ f.name ++
      if entries = [] then "()" else "( " ++ ", ".intercalate entries ++ " )")

theorem spelled_callForm {as : List Argument} {form : CallForm}
    (h : (g.callForm node f as).Returns s form s') :
    g.Spelled node f s (as.map Argument.text) form.text := by
  unfold callForm at h
  split at h
  · rename_i operator
    split at h
    · obtain ⟨rfl, rfl⟩ := returns_pure.mp h
      exact .operation operator rfl
    · exact absurd h returns_throw
  · rename_i operator
    obtain ⟨target, t, hread, h⟩ := returns_bind.mp h
    obtain ⟨htarget, rfl⟩ := returns_reading.mp hread
    obtain ⟨rfl, rfl⟩ := returns_pure.mp h
    rw [CallForm.text_invocation]
    exact .invocation (by simpa using operator) htarget

/-- An output that a call holds a value in: that of the result, if something reads it, and those of
the parameters that it passes out. -/
inductive Holds (g : Graph) (n : NodeId) (f : FunctionDecl) (archetype : Option Archetype) :
    OutputId → Prop
  | result {output : Output} (found : g.outputNamed? n Pin.result = some output)
    (read : output.targets ≠ []) : Holds g n f archetype output.id
  | passed {p : Parameter} {output : Output} (argument : p ∈ f.arguments)
    (value : ¬ (archetype.isSome ∧ p.name = archetypeParameter)) (yields : p.yields)
    (found : g.outputNamed? n p.name = some output) : Holds g n f archetype output.id

theorem mem_callRequests {o : OutputId} :
    o ∈ (g.callRequests n f archetype).map (·.1) ↔ g.Holds n f archetype o := by
  rw [callRequests, List.map_append, List.mem_append]
  constructor
  · rintro (ho | ho)
    · obtain ⟨r, hr, rfl⟩ := List.mem_map.mp ho
      obtain ⟨o, hresult, rfl⟩ := Option.map_eq_some_iff.mp (Option.mem_toList.mp hr)
      obtain ⟨output, hfound, rfl⟩ := Option.map_eq_some_iff.mp hresult
      obtain ⟨found, read⟩ := Option.filter_eq_some_iff.mp hfound
      exact .result found (by simpa using read)
    · obtain ⟨r, hr, rfl⟩ := List.mem_map.mp ho
      obtain ⟨p, argument, hp⟩ := List.mem_filterMap.mp hr
      obtain ⟨o, hpassed, rfl⟩ := Option.map_eq_some_iff.mp hp
      obtain ⟨yields, output, found, rfl⟩ := passedOutput?_eq_some hpassed
      refine .passed argument (fun made => ?_) yields found
      simp [passedOutput?, made] at hpassed
  · intro held
    cases held with
    | @result output found read =>
      have hresult : g.resultOutput? n = some output.id := by
        simp [resultOutput?, found, Option.filter, read]
      exact .inl (by simp [hresult])
    | @passed p output argument value yields found =>
      have hpassed : g.passedOutput? n archetype p = some output.id := by
        simp [passedOutput?, value, yields, found]
      exact .inr (List.mem_map.mpr ⟨(output.id, p.name),
        List.mem_filterMap.mpr ⟨p, argument, by rw [hpassed]; rfl⟩, rfl⟩)

/-- What a call has asked for before it makes an entry is among all that it asks for. -/
theorem requestsBefore_subset (k : Nat) :
    g.requestsBefore n f archetype k ⊆ g.callRequests n f archetype := by
  refine List.append_subset.mpr ⟨List.subset_append_left _ _, ?_⟩
  refine List.Subset.trans ?_ (List.subset_append_right _ _)
  exact (List.Sublist.filterMap _ (List.take_sublist k f.arguments)).subset

/-- The value of an input depends on the variable of the output that its edge comes from only. -/
theorem operand_congr {input : Input}
    (h : ∀ o, g.sourceOf input = some o → s.nameOf? o.id = t.nameOf? o.id) :
    g.operand s node input = g.operand t node input := by
  unfold operand
  cases hsource : g.sourceOf input with
  | none => rfl
  | some o => simp only [h o hsource]

/-- The statement `st` of a call is made between two scopes, and `entries` are the texts of its
arguments. -/
structure CallLine (g : Graph) (n : NodeId) (s : Scope) (st : CallStatement) (s' : Scope)
    (node : Node) (f : FunctionDecl) (archetype : Option Archetype) (entries : List String) :
    Prop where
  live : g.node? n = some node
  calls : calleeOf node = .ok (f, archetype)
  line : (Block.calls [st]).lines = [⟨0, st.text⟩]
  text : ∃ expression, g.Spelled node f s' entries expression ∧
    st.text = st.result.elim "" (·.2 ++ " = ") ++
      st.cast.elim expression (fun name => name ++ "( " ++ expression ++ " )") ++ ";"
  result : st.result = (g.resultRequest? n f).map fun r => (r.1, (s.names.next r.2).1)
  length_entries : entries.length = f.arguments.length
  entry : ∀ k p, f.arguments[k]? = some p → ∃ e, entries[k]? = some e ∧
    g.textOf node (s.giveAll (g.requestsBefore n f archetype k)) (g.entry n archetype p) = .ok e
  /-- What does not come from the call itself is what it was before the call. -/
  unmoved : ∀ k input, (∀ o, g.sourceOf input = some o → ¬ g.Holds n f archetype o.id) →
    g.operand (s.giveAll (g.requestsBefore n f archetype k)) node input = g.operand s node input
  scope : s' = s.giveAll (g.callRequests n f archetype)
  given : ∀ o, g.Holds n f archetype o → ∃ x, s'.nameOf? o = some x ∧ ¬ s.names.Taken x
  distinct : ∀ o o', g.Holds n f archetype o → g.Holds n f archetype o' →
    s'.nameOf? o = s'.nameOf? o' → o = o'
  kept : ∀ o, ¬ g.Holds n f archetype o → s'.nameOf? o = s.nameOf? o
  order : s.bindings.map (·.1) <+: s'.bindings.map (·.1)
  visited : s'.visited = s.visited

/-- **The line of a call.** A call whose statement can be made has one line, with an argument for
each parameter in the order of the declaration. Each argument is made from the entry for its
parameter, and only the outputs that the call holds values in have other variables than before. -/
theorem callStatement_line (h : g.Reachable) (ok : (g.callStatement n).Returns s st s') :
    ∃ node f archetype entries, g.CallLine n s st s' node f archetype entries := by
  obtain ⟨node, f, archetype, t, live, calls, hresult, harguments, hform⟩ :=
    parts_of_callStatement ok
  obtain rfl := h.housed.node_id live
  obtain ⟨result, rfl⟩ := returns_callResult hresult
  obtain ⟨length, entry, rfl⟩ := returns_arguments harguments
  have scope : (s.giveAll (g.resultRequest? node.id f).toList).giveAll
      (g.passedRequests node.id archetype f.arguments) =
        s.giveAll (g.callRequests node.id f archetype) :=
    Scope.giveAll_append.symm
  rw [scope] at hform ⊢
  refine ⟨node, f, archetype, st.form.arguments.map Argument.text, ?_⟩
  exact
    { live, calls, result
      line := by simp [Line.flat]
      text := ⟨st.form.text, spelled_callForm hform, rfl⟩
      length_entries := by simpa using length
      entry := fun k p hp => by
        obtain ⟨a, ha, text⟩ := entry k p hp
        exact ⟨a.text, by simp [ha], Scope.giveAll_append ▸ text⟩
      unmoved := fun k input foreign => operand_congr fun o ho =>
        Scope.nameOf?_giveAll_of_notMem fun hmem =>
          foreign o ho (mem_callRequests.mp (List.map_subset _ (requestsBefore_subset k) hmem))
      scope := rfl
      given := fun o ho => by
        obtain ⟨x, answer, hx⟩ := Scope.nameOf?_giveAll_of_mem (mem_callRequests.mpr ho)
        exact ⟨x, hx, Scope.gives_giveAll.not_taken answer⟩
      distinct := fun o o' ho ho' =>
        Scope.nameOf?_giveAll_inj (mem_callRequests.mpr ho) (mem_callRequests.mpr ho')
      kept := fun o ho => Scope.nameOf?_giveAll_of_notMem fun hmem => ho (mem_callRequests.mp hmem)
      order := Scope.keys_giveAll
      visited := Scope.visited_giveAll }

/-- A call with a parameter that no connector can carry, one that is passed out, and a result that
something reads. -/
def configuring : Graph :=
  let configure := { FunctionDecl.callable "Actor" "Configure" with
    params := [.input "Mode" .byte, .output "Found" .bool, .input "Scale" .float, .returns .int] }
  (empty "Configure").run [.place (.call configure none), .place .loop, .connect ⟨2⟩ ⟨4⟩ .any]

/-- The result has its variable before the parameter that is passed out. -/
theorem callStatement_line_configuring :
    ∃ st s', (configuring.callStatement ⟨0⟩).Returns {} st s' ∧
      s'.bindings = [(⟨2⟩, "ConfigureRet_1"), (⟨1⟩, "Found_1")] ∧
      ∃ node f archetype entries, configuring.CallLine ⟨0⟩ {} st s' node f archetype entries := by
  have made : ((configuring.callStatement ⟨0⟩).outcome {}).1.toBool = true ∧
      ((configuring.callStatement ⟨0⟩).outcome {}).2.bindings =
        [(⟨2⟩, "ConfigureRet_1"), (⟨1⟩, "Found_1")] := by
    decide +kernel
  rcases ok : (configuring.callStatement ⟨0⟩).outcome {} with ⟨e | st, s'⟩ <;> rw [ok] at made
  · exact absurd made.1 (by simp [Except.toBool])
  · exact ⟨st, s', ok, made.2, callStatement_line ⟨_, _, rfl⟩ ok⟩

end Graph

end NodeScript
