import NodeScript.Proofs.Lowering.Declared
import NodeScript.Proofs.Places

/-!
# Which names the variables of a script have

The calls and loops of a script ask for fresh variables in the order of its text, each for outputs
of its own node: a call for its result, under the name of its function, and for the parameters that
it passes out, under their names, and a loop for its counter (`Graph.requests`). The `k`-th request
for a base is answered by the `k`-th name of the base (`Lowered.answers`), and a script declares the
names that outputs are left with (`Written.local_iff`).

So the names that a script declares are pairwise distinct. But the parameters of the event and the
variables of the object that the script runs on keep their own names, and nobody tells these to the
supply of fresh names. A script is unambiguous exactly if none of these names is one of the numbered
names that an output is left with (`unambiguous_iff`).
-/

namespace NodeScript

/-! ### Names in a script -/

/-- The variable of the object that a value stands for. -/
def Operand.member? : Operand → Option String
  | member _ name => some name
  | literal _ | held _ _ => none

/-- The variable of the object that an argument reads. -/
def Argument.member? : Argument → Option String
  | value operand => operand.member?
  | archetype _ | absent | result _ _ => none

/-- The variables of the object that a call reads. -/
def CallForm.members : CallForm → List String
  | operation _ left right => [left, right].filterMap Argument.member?
  | invocation target _ arguments =>
    (target.bind Operand.member?).toList ++ arguments.filterMap Argument.member?

/-- The variables of the object that a block reads or assigns. -/
def Block.members : Block → List String
  | done => []
  | call s rest => s.form.members ++ rest.members
  | assign s rest => s.name :: rest.members
  | branch _ condition t f rest =>
    (condition.bind Operand.member?).toList ++ (t.members ++ (f.members ++ rest.members))
  | loop header body rest =>
    (header.bound.bind Operand.member?).toList ++ (body.members ++ rest.members)

/-- The names in the scope of the script are unambiguous. -/
structure EventScript.Unambiguous (script : EventScript) : Prop where
  locals : (script.locals.map (·.name)).Nodup
  parameters : ∀ d ∈ script.locals, d.name ∉ script.parameters.map (·.name)
  members : ∀ d ∈ script.locals, d.name ∉ script.statements.members

/-! ### Requests for names -/

namespace FreshNames

variable {names : FreshNames} {o : OutputId} {x : String} {asked asked' : List (OutputId × String)}

/-- The variables that outputs get which ask for names of a base, one after the other. -/
def answers (names : FreshNames) : List (OutputId × String) → List Variable
  | [] => []
  | (o, base) :: asked => (o, (names.next base).1) :: (names.next base).2.answers asked

theorem answers_append :
    names.answers (asked ++ asked') =
      names.answers asked ++
        FreshNames.answers ⟨(asked.map (·.2)).reverse ++ names.requests⟩ asked' := by
  induction asked generalizing names with
  | nil => rfl
  | cons r asked ih =>
    obtain ⟨o, base⟩ := r
    simp [answers, ih]

@[simp] theorem outputs_answers : (names.answers asked).map (·.1) = asked.map (·.1) := by
  induction asked generalizing names with
  | nil => rfl
  | cons r asked ih => simp [answers, ih]

/-- What stands at a place of the answers was asked for at that place. -/
theorem request_of_answer {pre post : List Variable}
    (h : names.answers asked = pre ++ (o, x) :: post) :
    ∃ pre' base post', asked = pre' ++ (o, base) :: post' ∧ post.map (·.1) = post'.map (·.1) ∧
      x = numbered base (names.requests.count base + (pre'.map (·.2)).count base + 1) := by
  induction asked generalizing names pre with
  | nil => simp [answers] at h
  | cons r asked ih =>
    obtain ⟨p, c⟩ := r
    cases pre with
    | nil =>
      obtain ⟨hhead, rfl⟩ := List.cons.inj h
      obtain ⟨rfl, rfl⟩ := Prod.mk.inj hhead
      exact ⟨[], c, asked, rfl, by simp, by simp [next_fst]⟩
    | cons w pre =>
      obtain ⟨pre', base, post', rfl, hpost, rfl⟩ := ih (List.cons.inj h).2
      refine ⟨(p, c) :: pre', base, post', rfl, hpost, ?_⟩
      congr 1
      simp only [requests_next, List.map_cons, List.count_cons]
      omega

/-- An output is left with the name: the last request for it is the `k`-th for its base, and the
name is the `k`-th name of that base. -/
def Leaves (asked : List (OutputId × String)) (o : OutputId) (x : String) : Prop :=
  ∃ pre base post, asked = pre ++ (o, base) :: post ∧ o ∉ post.map (·.1) ∧
    x = numbered base ((pre.map (·.2)).count base + 1)

/-- An output is left with the last variable that it gets. -/
theorem leaves_iff :
    Leaves asked o x ↔ ∃ pre post, FreshNames.answers {} asked = pre ++ (o, x) :: post ∧
      o ∉ post.map (·.1) := by
  constructor
  · rintro ⟨pre, base, post, rfl, last, rfl⟩
    refine ⟨FreshNames.answers {} pre,
      FreshNames.answers ⟨base :: (pre.map (·.2)).reverse⟩ post, ?_, by simpa using last⟩
    rw [answers_append]
    simp [answers, next]
  · rintro ⟨pre, post, hsplit, last⟩
    obtain ⟨pre', base, post', rfl, hpost, rfl⟩ := request_of_answer hsplit
    exact ⟨pre', base, post', rfl, hpost ▸ last, by simp⟩

end FreshNames

variable {s t s' : Scope} {asked asked' : List (OutputId × String)} {given given' : List Variable}

/-- Between two scopes, outputs have asked for variables of bases, and got them. -/
structure Answers (s : Scope) (asked : List (OutputId × String)) (given : List Variable)
    (s' : Scope) : Prop where
  requests : s'.names.requests = (asked.map (·.2)).reverse ++ s.names.requests
  given : given = s.names.answers asked

namespace Answers

theorem of_names (h : s'.names = s.names) : Answers s [] [] s' :=
  ⟨by simp [h], rfl⟩

theorem append (h : Answers s asked given t) (h' : Answers t asked' given' s') :
    Answers s (asked ++ asked') (given ++ given') s' where
  requests := by simp [h'.requests, h.requests]
  given := by rw [FreshNames.answers_append, ← h.requests, ← h.given, h'.given]

theorem of_bindFresh {o : OutputId} {base x : String}
    (h : (Lowering.bindFresh o base).Returns s x s') : Answers s [(o, base)] [(o, x)] s' := by
  obtain ⟨rfl, rfl⟩ := Lowering.returns_bindFresh.mp h
  exact ⟨rfl, rfl⟩

end Answers

namespace Graph

open Lowering

variable {g : Graph} {m n : NodeId} {node : Node} {f : FunctionDecl} {archetype : Option Archetype}
  {pin : String} {b : Block}

theorem Asks.answers {base : String} {o? : Option OutputId} {v? : Option Variable}
    (h : Asks base o? s v? s') : Answers s (o?.map (·, base)).toList v?.toList s' := by
  cases h with
  | nothing => exact .of_names rfl
  | fresh hx => exact .of_bindFresh hx

/-! ### What nodes ask for -/

/-- The variables that a call of a function asks for: for the return value if something reads it,
and for each parameter that it passes out. -/
def callRequests (g : Graph) (n : NodeId) (f : FunctionDecl) (archetype : Option Archetype) :
    List (OutputId × String) :=
  ((g.resultOutput? n).map (·, f.name ++ "Ret")).toList ++
    f.arguments.filterMap fun p => (g.passedOutput? n archetype p).map (·, p.name)

/-- The variables that the statement of a node asks for. -/
def requests (g : Graph) (n : NodeId) : List (OutputId × String) :=
  (g.node? n).elim [] fun node =>
    match node.kind with
    | .call ⟨some f, archetype⟩ | .pureCall ⟨some f, archetype⟩ => g.callRequests n f archetype
    | .loop => ((g.outputNamed? n Pin.counter).map (·.id, "ForCount")).toList
    | _ => []

theorem requests_of_call (live : g.node? n = some node)
    (hcallee : calleeOf node = .ok (f, archetype)) :
    g.requests n = g.callRequests n f archetype := by
  have callee := callee?_of_calleeOf hcallee
  cases kind : node.kind <;> simp_all [NodeKind.callee?, requests]

theorem requests_of_loop (live : g.node? n = some node) (kind : node.kind = .loop) :
    g.requests n = ((g.outputNamed? n Pin.counter).map (·.id, "ForCount")).toList := by
  simp [requests, live, kind]

theorem answers_arguments {ps : List Parameter} {as : List Argument}
    (ha : Lowering.Returns (ps.mapM (g.argument node archetype)) s as s') :
    Answers s (ps.filterMap fun p => (g.passedOutput? node.id archetype p).map (·, p.name))
      (as.filterMap Argument.set?) s' := by
  induction ps generalizing s as with
  | nil =>
    obtain ⟨rfl, rfl⟩ := returns_mapM_nil.mp ha
    exact .of_names rfl
  | cons p ps ih =>
    obtain ⟨a, t, as, hp, hps, rfl⟩ := returns_mapM_cons.mp ha
    have all := (asks_argument hp).answers.append (ih hps)
    cases hset : a.set? <;> cases ho : g.passedOutput? node.id archetype p <;>
      simpa [hset, ho] using all

/-- A call gets what its node asks for. -/
theorem answers_callStatement (h : g.Housed) {st : CallStatement}
    (hst : (g.callStatement n).Returns s st s') : Answers s (g.requests n) st.given s' := by
  obtain ⟨node, f, archetype, t, live, hcallee, hresult, harguments, -⟩ :=
    parts_of_callStatement hst
  obtain rfl := h.node_id live
  rw [requests_of_call live hcallee]
  exact (asks_callResult hresult).answers.append (answers_arguments harguments)

/-- A loop gets what its node asks for. -/
theorem Counts.answers (live : g.node? n = some node) (kind : node.kind = .loop) {output : Output}
    (ho : g.outputNamed? n Pin.counter = some output) {counter : String} {bound : Option Operand}
    (h : g.Counts n s counter s') :
    Answers s (g.requests n) (g.givenTo (.loop ⟨n, counter, bound⟩)) s' := by
  rw [requests_of_loop live kind, givenTo, ho]
  exact .of_bindFresh (h.shown output ho)

theorem MakesAll.answers (h : g.Housed) {ns : List NodeId} {sts : List CallStatement}
    (hsts : g.MakesAll s ns sts s') :
    Answers s (((sts.map Setter.call).map Setter.node).flatMap g.requests)
      ((sts.map .call).flatMap g.givenTo) s' := by
  induction hsts with
  | nil => exact .of_names rfl
  | @cons _ _ _ _ st _ _ hst _ ih =>
    have first := answers_callStatement h hst.returns
    rw [← hst.node] at first
    exact first.append ih

theorem Enters.answers (h : g.Housed) {order : List NodeId} {calls : List CallStatement}
    (he : g.Enters n node s order calls s') :
    Answers s (((Block.calls calls).setters.map Setter.node).flatMap g.requests)
      ((Block.calls calls).setters.flatMap g.givenTo) s' := by
  rw [Block.setters_calls]
  obtain ⟨requests, given⟩ := he.makes.answers h
  exact ⟨requests, given⟩

/-- **Lowering gives the calls and loops of the block what their nodes ask for, in the order of its
text.** -/
theorem Lowered.answers (h : g.Lowered m pin s b s') (assembled : g.Assembled) :
    Answers s ((b.setters.map Setter.node).flatMap g.requests) (b.setters.flatMap g.givenTo)
      s' := by
  have housed := assembled.reachable.housed
  induction h with
  | nothing => exact .of_names rfl
  | @call _ _ n _ _ _ _ _ _ st _ _ _ _ _ _ enters makes _ _ ih =>
    have called : Answers _ (g.requests n) (g.givenTo (.call st)) _ :=
      answers_callStatement housed makes.returns
    have all := (enters.answers housed).append (called.append ih)
    simpa only [Block.setters_append, Block.setters, Block.setters_assigns, List.nil_append,
      List.map_append, List.map_cons, List.flatMap_append, List.flatMap_cons, Setter.node,
      makes.node] using all
  | branch _ _ enters _ _ _ ihTrue ihFalse =>
    have all := (enters.answers housed).append (ihTrue.append ihFalse)
    simpa only [Block.setters_append, Block.setters, List.append_nil, List.map_append,
      List.flatMap_append] using all
  | @loop _ _ n _ _ _ _ _ bound counter _ _ _ _ _ _ _ kind enters _ counts _ _ _ ihBody ihRest =>
    obtain ⟨output, houtput⟩ := assembled.exists_counter enters.live kind
    have counted : Answers _ _ (g.givenTo (.loop ⟨n, counter, bound⟩)) _ :=
      counts.answers enters.live kind houtput
    have all := (enters.answers housed).append (counted.append (ihBody.append ihRest))
    simpa only [Block.setters_append, Block.setters, Block.setters_assigns, List.nil_append,
      List.map_append, List.map_cons, List.flatMap_append, List.flatMap_cons, Setter.node]
      using all

/-! ### The names that a script declares -/

/-- The variables that a script asks for, in the order of its text. -/
def nameRequests (g : Graph) (script : EventScript) : List (OutputId × String) :=
  (script.statements.setters.map Setter.node).flatMap g.requests

theorem names_entryScope (g : Graph) (node : Node) : (g.entryScope node).names = {} := by
  have all : ∀ (outputs : List Output) (s : Scope),
      (outputs.foldl (fun s o => s.bind o.id o.name) s).names = s.names := by
    intro outputs
    induction outputs with
    | nil => exact fun _ => rfl
    | cons o outputs ih => exact fun s => ih (s.bind o.id o.name)
  exact all _ _

namespace Written

variable {e : NodeId} {script : EventScript}

/-- The variables of the statements are the answers to what the script asks for. -/
theorem given_eq (h : g.Written e script node s') (assembled : g.Assembled) :
    script.statements.setters.flatMap g.givenTo =
      FreshNames.answers {} (g.nameRequests script) := by
  have given := (h.lowered.answers assembled).given
  rwa [names_entryScope] at given

/-- **A script declares the names that outputs are left with.** -/
theorem local_iff (h : g.Written e script node s') (assembled : g.Assembled) {x : String} :
    x ∈ script.locals.map (·.name) ↔ ∃ o, FreshNames.Leaves (g.nameRequests script) o x := by
  have housed := assembled.reachable.housed
  have gives := h.lowered.gives housed
  simp only [FreshNames.leaves_iff, ← h.given_eq assembled]
  constructor
  · intro hx
    obtain ⟨d, hd, rfl⟩ := List.mem_map.mp hx
    obtain ⟨y, hy, ⟨o, x⟩, hv, hlast, hname⟩ := h.given_of_local housed hd
    have given : o ∈ (script.statements.setters.flatMap g.givenTo).map (·.1) :=
      List.mem_map_of_mem (List.mem_flatMap.mpr ⟨y, hy, hv⟩)
    -- what the output gets last is what it has in the end
    obtain ⟨pre, ⟨o', x'⟩, post, hsplit, rfl, last⟩ := exists_last_of_mem_map given
    have kept := (hsplit ▸ gives).nameOf?_append last
    obtain rfl : x' = x := Option.some.inj (kept.symm.trans hlast)
    exact ⟨_, pre, post, hname ▸ hsplit, last⟩
  · rintro ⟨o, pre, post, hsplit, last⟩
    have hlast := (hsplit ▸ gives).nameOf?_append last
    have given : (o, x) ∈ script.statements.setters.flatMap g.givenTo := by simp [hsplit]
    obtain ⟨y, hy, hv⟩ := List.mem_flatMap.mp given
    obtain ⟨output, -, hlocals⟩ := h.declares housed hy hv hlast
    have listed : (⟨output.typeCode, x⟩ : VariableDecl) ∈ script.locals :=
      (List.mem_filter.mp (hlocals ▸ List.mem_singleton_self _)).1
    exact List.mem_map.mpr ⟨_, listed, rfl⟩

/-- No two local lines declare one name. -/
theorem nodup_locals (h : g.Written e script node s') (assembled : g.Assembled) :
    (script.locals.map (·.name)).Nodup := by
  have housed := assembled.reachable.housed
  have gives := h.lowered.gives housed
  rcases h.declared with ⟨-, hnone⟩ | hlocals
  · rw [hnone]
    exact .nil
  rw [Except.ok.inj (hlocals.symm.trans (locals_eq housed s')), List.Nodup, List.pairwise_map,
    List.pairwise_filterMap]
  have single := gives.single (g.single_entryScope node)
  have given : ∀ {v d}, v ∈ s'.bindings → g.declarationOf v = some d →
      v ∈ script.statements.setters.flatMap g.givenTo := by
    intro v d hv hd
    have hlast := single.mem_bindings.mp hv
    refine (h.lowered.parameter_or_given housed h.live hlast).resolve_left fun howner => ?_
    rw [h.event_owned howner] at hd
    cases hd
  have distinct : s'.bindings.Nodup := List.Nodup.of_map _ single
  refine distinct.imp_of_mem fun {v w} hv hw hne d hd d' hd' hname => hne ?_
  -- no two variables that were given have one name
  refine List.inj_on_of_nodup_map gives.names_nodup (given hv hd) (given hw hd') ?_
  rw [← name_of_declarationOf hd, ← name_of_declarationOf hd', hname]

end Written

/-- **When a script is unambiguous.** In an assembled graph, let an event have a script. Its local
lines declare pairwise distinct names. They declare no name of a parameter and no name of a variable
of the object that the body reads or assigns exactly if no output is left with such a name as a
numbered one. The local lines, with the type and then the name, and those of the statements are the
lines of the script, behind the line of the event with its parameters. -/
theorem unambiguous_iff (h : g.Assembled) {e : NodeId} {script : EventScript}
    (ok : g.scriptOf e = .ok script) :
    (script.locals.map (·.name)).Nodup ∧
      (script.Unambiguous ↔ ∀ x ∈ script.parameters.map (·.name) ++ script.statements.members,
        ∀ o, ¬ FreshNames.Leaves (g.nameRequests script) o x) ∧
      script.Printed ∧ ∀ d, d ∈ script.locals ↔
        ∃ i, script.LineAt i (.declaration d) ("local " ++ d.type ++ " " ++ d.name ++ ";") := by
  obtain ⟨node, s', written⟩ := written_of_scriptOf h.reachable.housed ok
  have distinct := written.nodup_locals h
  have declared : ∀ x, (∃ d ∈ script.locals, d.name = x) ↔
      ∃ o, FreshNames.Leaves (g.nameRequests script) o x := fun x => by
    rw [← written.local_iff h, List.mem_map]
  refine ⟨distinct, ⟨fun clear x hx o hleft => ?_, fun apart => ⟨distinct, ?_, ?_⟩⟩,
    written.printed, fun d => written.printed.mem_locals_iff⟩
  · obtain ⟨d, hd, rfl⟩ := (declared x).mpr ⟨o, hleft⟩
    rcases List.mem_append.mp hx with hparameter | hmember
    · exact clear.parameters d hd hparameter
    · exact clear.members d hd hmember
  · intro d hd hparameter
    obtain ⟨o, hleft⟩ := (declared d.name).mp ⟨d, hd, rfl⟩
    exact apart d.name (List.mem_append_left _ hparameter) o hleft
  · intro d hd hmember
    obtain ⟨o, hleft⟩ := (declared d.name).mp ⟨d, hd, rfl⟩
    exact apart d.name (List.mem_append_right _ hmember) o hleft

/-- An event with a parameter, and a loop that runs so many times. -/
def ticking (parameter : String) : Graph :=
  let tick := { (FunctionDecl.callable "Actor" "Tick").asEvent with
    params := [.input parameter .int] }
  (empty "Tick").run [.place (.event tick), .place .loop, .connect ⟨0⟩ ⟨0⟩ .any,
    .connect ⟨1⟩ ⟨1⟩ .any]

/-- With a parameter of another name, the script is unambiguous. -/
theorem unambiguous_iff_ticking :
    (ticking "Times").Assembled ∧ ∃ script, (ticking "Times").scriptOf ⟨0⟩ = .ok script ∧
      script.parameters = [⟨"int", "Times"⟩] ∧ script.locals = [⟨"int", "ForCount_1"⟩] ∧
      script.Unambiguous := by
  have assembled : (ticking "Times").Assembled := ⟨_, _, by decide, rfl⟩
  obtain ⟨script, ok, parameters, locals, body⟩ : ∃ script,
      (ticking "Times").scriptOf ⟨0⟩ = .ok script ∧ script.parameters = [⟨"int", "Times"⟩] ∧
      script.locals = [⟨"int", "ForCount_1"⟩] ∧ script.statements =
        .loop ⟨⟨1⟩, "ForCount_1", some (.held ⟨1⟩ "Times")⟩ .done .done :=
    ⟨_, rfl, rfl, rfl, rfl⟩
  have requests : (ticking "Times").nameRequests script = [(⟨3⟩, "ForCount")] := by
    rw [nameRequests, body]
    rfl
  refine ⟨assembled, script, ok, parameters, locals,
    (unambiguous_iff assembled ok).2.1.mpr fun x hx o ⟨pre, base, post, hsplit, _, hname⟩ => ?_⟩
  obtain rfl : x = "Times" := by simpa [parameters, body, Block.members, Operand.member?] using hx
  obtain ⟨rfl, rfl⟩ : pre = [] ∧ base = "ForCount" := by
    rw [requests] at hsplit
    cases pre <;> simp_all
  exact absurd hname (by decide)

/-- With a parameter that has the name of the counter, it is not. -/
theorem ticking_ambiguous :
    (ticking "ForCount_1").Assembled ∧ ∃ script,
      (ticking "ForCount_1").scriptOf ⟨0⟩ = .ok script ∧
      script.parameters = [⟨"int", "ForCount_1"⟩] ∧ script.locals = [⟨"int", "ForCount_1"⟩] ∧
      ¬ script.Unambiguous := by
  obtain ⟨script, ok, parameters, locals⟩ : ∃ script,
      (ticking "ForCount_1").scriptOf ⟨0⟩ = .ok script ∧
      script.parameters = [⟨"int", "ForCount_1"⟩] ∧ script.locals = [⟨"int", "ForCount_1"⟩] :=
    ⟨_, rfl, rfl, rfl⟩
  refine ⟨⟨_, _, by decide, rfl⟩, script, ok, parameters, locals, fun clear => ?_⟩
  exact clear.parameters ⟨"int", "ForCount_1"⟩ (by simp [locals]) (by simp [parameters])

end Graph

end NodeScript
