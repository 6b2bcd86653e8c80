import NodeScript.Proofs.Graph.Consistent
import NodeScript.Proofs.Lowering.Taken

/-!
# Producer and consumer agree on the variable

A line shows, for the value of an input, what stood for it when the line was made. What the producer
of the value is given a variable for was decided when its own line was made, and the declarations
are made at the end, from what the outputs have then. In an assembled graph the three agree
(`consumer_agrees`): the variable that a line shows for an output of another node is one that the
line of that node sets, further up, and the output still has it in the end, so that it is declared.
This is first shown of the statements (`Explained`) and then of their lines (`Agrees`).

An output is given variables while the line of its node is made, and no node has two lines. So
after that line an output keeps what it has, however long it takes until somebody reads it.
-/

namespace NodeScript.Graph

open Lowering
open NodeScript.Except (bind_eq_ok)

variable {g : Graph} {n e : NodeId} {node : Node} {s s' t : Scope} {script : EventScript}
  {head : Head} {before after : List Head} {use : Use} {input : Input} {output : Output}
  {operand : Operand} {v : Variable}

/-- Where the operand comes from that a head shows for the value of an input, if `before` are the
heads before it. -/
inductive Explained (g : Graph) (e : NodeId) (script : EventScript) (before : List Head)
    (head : Head) (use : Use) (input : Input) : Operand → Prop
  /-- Without an edge it is the value of the input itself. -/
  | literal (free : input.source = none) :
    Explained g e script before head use input (.literal input.fallback)
  /-- A member variable stands for itself. -/
  | member {output : Output} {source : Node} {property : MemberVariable}
    (edge : input.source = some output.id) (live : g.output? output.id = some output)
    (owner : g.node? output.owner = some source) (kind : source.kind.member? = some property) :
    Explained g e script before head use input (.member source.id property.name)
  /-- An output of the event is a parameter of its own name. -/
  | parameter {output : Output} (edge : input.source = some output.id)
    (live : g.output? output.id = some output) (owner : output.owner = e)
    (listed : ⟨output.typeCode, output.name⟩ ∈ script.parameters) :
    Explained g e script before head use input (.held output.id output.name)
  /-- The line of another node, further up, sets a declared variable to the value of its output. -/
  | earlier {output : Output} {producer : Head} {name : String}
    (edge : input.source = some output.id) (live : g.output? output.id = some output)
    (above : producer ∈ before) (owner : output.owner = producer.node)
    (sets : (output.id, name) ∈ g.givenBy producer)
    (declared : g.Declares script (output.id, name)) :
    Explained g e script before head use input (.held output.id name)
  /-- An output of the node itself has got its variable by then. -/
  | own {output : Output} {name : String} (edge : input.source = some output.id)
    (live : g.output? output.id = some output) (owner : output.owner = head.node)
    (sets : (output.id, name) ∈ g.givenBy head)
    (bound : output.id ∈ g.boundBefore head.node use) :
    Explained g e script before head use input (.held output.id name)

/-! ### What an operand stands for -/

/-- An operand stands for the value of the input itself, for a member variable, or for the variable
that the output on the other end of the edge has. -/
theorem operand_cases (h : g.Reachable) (live : g.input? input.id = some input)
    (stands : g.operand s node input = .ok operand) :
    (input.source = none ∧ operand = .literal input.fallback) ∨
      ∃ output source, input.source = some output.id ∧ g.output? output.id = some output ∧
        g.node? output.owner = some source ∧
        ((∃ property, source.kind.member? = some property ∧
            operand = .member source.id property.name) ∨
          ∃ name, s.nameOf? output.id = some name ∧ operand = .held output.id name) := by
  unfold Graph.operand at stands
  cases hsource : input.source with
  | none =>
    simp only [sourceOf, hsource, Option.bind_none, Except.ok.injEq] at stands
    exact .inl ⟨rfl, stands.symm⟩
  | some o =>
    obtain ⟨output, ho, -⟩ := (h.consistent.feeds_iff _ _).mpr ⟨input, live, hsource⟩
    obtain rfl : output.id = o := h.housed.output_id ho
    obtain ⟨source, howner⟩ := h.housed.output_owner ho
    simp only [sourceOf, hsource, Option.bind_some, ho] at stands
    obtain ⟨source', hsource', stands⟩ := bind_eq_ok.mp stands
    obtain rfl := Option.some.inj (howner.symm.trans (nodeOrFail_eq_ok.mp hsource'))
    refine .inr ⟨output, source, rfl, ho, howner, ?_⟩
    split at stands
    · rename_i property kind
      exact .inl ⟨property, kind, (Except.ok.inj stands).symm⟩
    · split at stands
      · rename_i name hname
        exact .inr ⟨name, hname, (Except.ok.inj stands).symm⟩
      · cases stands

/-! ### The parameters of an event -/

/-- What an output has in the scope of an event is its own name, as a parameter. -/
theorem nameOf?_entryScope {o : OutputId} {x : String}
    (hx : (g.entryScope node).nameOf? o = some x) :
    ∃ output ∈ g.parametersOf node, output.id = o ∧ output.name = x := by
  have all : ∀ (outputs : List Output) (s : Scope),
      (outputs.foldl (fun s o => s.bind o.id o.name) s).nameOf? o = some x →
        s.nameOf? o = some x ∨ ∃ output ∈ outputs, output.id = o ∧ output.name = x := by
    intro outputs
    induction outputs with
    | nil => exact fun _ hx => .inl hx
    | cons p outputs ih =>
      intro s hx
      rcases ih _ hx with hx | ⟨output, hmem, houtput⟩
      · rw [Scope.nameOf?_bind] at hx
        split at hx
        · exact .inr ⟨p, .head _, ‹_›, Option.some.inj hx⟩
        · exact .inl hx
      · exact .inr ⟨output, .tail _ hmem, houtput⟩
  rcases all _ _ hx with hx | found
  · cases hx
  · exact found

namespace Written

/-- Every node that is marked has a line, but for the event. -/
theorem exists_head (h : g.Written e script node s') (housed : g.Housed) {n : NodeId}
    (hn : n ∈ s'.visited) : n = e ∨ ∃ head ∈ script.statements.heads, head.node = n := by
  have marked := h.lowered.visited_perm.mem_iff.mp hn
  rw [visited_entryScope housed h.live, Block.emitted_eq, List.map_map, List.mem_append] at marked
  rcases marked with marked | marked
  · exact .inr (List.mem_map.mp marked)
  · exact .inl (List.mem_singleton.mp marked)

/-- A variable that a line is given is declared, if its output has it in the end. -/
theorem declares_givenBy (h : g.Written e script node s') (housed : g.Housed)
    (hhead : head ∈ script.statements.heads) (hv : v ∈ g.givenBy head)
    (last : s'.nameOf? v.1 = some v.2) : g.Declares script v := by
  cases hsetter : head.setter? with
  | none => simp [givenBy, hsetter] at hv
  | some x =>
    have hx : x ∈ script.statements.setters := by
      rw [Block.setters_eq]
      exact List.mem_filterMap.mpr ⟨head, hhead, hsetter⟩
    exact h.declares housed hx (by simpa [givenBy, hsetter] using hv) last

end Written

/-! ### Producers and consumers -/

/-- What the line of a node takes is live. -/
theorem Takes.live (h : g.Takes n use input) (housed : g.Housed) :
    g.input? input.id = some input ∧ input.owner = n := by
  cases h with
  | argument _ _ _ _ _ _ found | target _ _ _ found _ | condition _ _ found | bound _ _ found =>
    obtain ⟨live, owner, -⟩ := housed.of_inputNamed? found
    exact ⟨live, owner⟩

theorem owner_eq (ho : g.output? output.id = some output) (h : g.ownerOf? output.id = some n) :
    output.owner = n := by
  simpa [ownerOf?, ho] using h

/-- What an output has when a line is made it keeps, if neither that line nor a later one is of its
node. -/
theorem nameOf?_after {early late : List Variable} {u : Scope} {p : NodeId} {o : OutputId}
    (here : g.Emits t head s) (looks : g.Looks t head s use input operand node u early late)
    (later : g.EmitsAll s after s') (housed : g.Housed) (howner : g.ownerOf? o = some p)
    (apart : ∀ other ∈ head :: after, other.node ≠ p) : s'.nameOf? o = u.nameOf? o := by
  refine (looks.then_.append (later.gives housed)).nameOf?_of_notMem fun hmem => ?_
  obtain ⟨v, hv, rfl⟩ := List.mem_map.mp hmem
  rcases List.mem_append.mp hv with hv | hv
  · have other := here.owned housed (looks.given ▸ List.mem_append_right _ hv)
    exact apart head (.head _) (Option.some.inj (other.symm.trans howner))
  · obtain ⟨other, hother, hv⟩ := List.mem_flatMap.mp hv
    have owned := later.owned housed hother hv
    exact apart other (.tail _ hother) (Option.some.inj (owned.symm.trans howner))

/-- What a line shows is explained by the lines before it and by what it was given itself. -/
theorem Written.explained (h : g.Written e script node s') (reach : g.Reachable)
    (place : script.statements.heads = before ++ head :: after)
    (takes : g.Takes head.node use input) :
    ∃ operand, head.operandAt use = some operand ∧
      g.Explained e script before head use input operand := by
  have housed := reach.housed
  have made := EmitsAll.of_lowered h.lowered
  have distinct := h.nodup_heads housed
  rw [place] at made distinct
  obtain ⟨t, t', hbefore, here, hafter⟩ := made.place
  obtain ⟨operand, consumer, u, early, late, looks⟩ := here.looks housed takes
  refine ⟨operand, looks.shown, ?_⟩
  rcases operand_cases reach (takes.live housed).1 looks.stands with
    ⟨free, rfl⟩ | ⟨output, source, edge, ho, howner, ⟨property, kind, rfl⟩ | ⟨name, hname, rfl⟩⟩
  · exact .literal free
  · exact .member edge ho howner kind
  -- the variable is a parameter, or it was given to a line before, or to this one
  have upTo := (hbefore.gives housed).append looks.first
  rcases upTo.mem_of_nameOf? (v := (output.id, name)) hname with hentry | hgiven
  · obtain ⟨parameter, listed, hid, rfl⟩ := nameOf?_entryScope hentry
    obtain ⟨live, owner⟩ := (housed.mem_outputsOf h.live).mp (List.mem_filter.mp listed).1
    obtain rfl : parameter = output := Option.some.inj (live.symm.trans (hid ▸ ho))
    exact .parameter edge ho owner (h.parts.1 ▸ List.mem_map_of_mem listed)
  rcases List.mem_append.mp hgiven with hgiven | hgiven
  · obtain ⟨producer, above, sets⟩ := List.mem_flatMap.mp hgiven
    have owned := hbefore.owned housed above sets
    have apart : ∀ other ∈ head :: after, other.node ≠ producer.node := by
      rw [List.map_append] at distinct
      exact fun other hother => ((List.nodup_append.mp distinct).2.2 _
        (List.mem_map_of_mem above) _ (List.mem_map_of_mem hother)).symm
    have last := (nameOf?_after here looks hafter housed owned apart).trans hname
    have listed : producer ∈ script.statements.heads := by simp [place, above]
    exact .earlier edge ho above (owner_eq ho owned) sets
      (h.declares_givenBy housed listed sets last)
  · have sets : (output.id, name) ∈ g.givenBy head := looks.given ▸ List.mem_append_left _ hgiven
    have bound : output.id ∈ g.boundBefore head.node use :=
      looks.outputs ▸ List.mem_map_of_mem hgiven
    exact .own edge ho (owner_eq ho (here.owned housed sets)) sets bound

/-! ### The lines of producers and consumers -/

/-- The line of a head sets the variables that the head is given. -/
theorem sets_of_givenBy (hv : v ∈ g.givenBy head) : head.Sets v head.text := by
  cases head with
  | call st => exact sets_of_givenTo (g := g) (x := .call st) hv
  | branch n condition => cases hv
  | loop header => exact sets_of_givenTo (g := g) (x := .loop header) hv

/-- Where the text comes from that a line shows for the value of an input: the line `line`, which
stands at place `i` of the script and is that of `head`. -/
inductive Agrees (g : Graph) (e : NodeId) (script : EventScript) (i : Nat) (head : Head)
    (line : String) (use : Use) (input : Input) : String → Prop
  /-- Without an edge it is the code of the value of the input itself. -/
  | literal (free : input.source = none) :
    Agrees g e script i head line use input input.fallback.code
  /-- A member variable is shown by its name. -/
  | member {output : Output} {source : Node} {property : MemberVariable}
    (edge : input.source = some output.id) (live : g.output? output.id = some output)
    (owner : g.node? output.owner = some source) (kind : source.kind.member? = some property) :
    Agrees g e script i head line use input property.name
  /-- An output of the event is shown by its name, which is that of a parameter. -/
  | parameter {output : Output} (edge : input.source = some output.id)
    (live : g.output? output.id = some output) (owner : output.owner = e)
    (listed : ⟨output.typeCode, output.name⟩ ∈ script.parameters) :
    Agrees g e script i head line use input output.name
  /-- The line of another node, further up, sets the variable, and one line declares it with the
  type of the output. -/
  | earlier {output : Output} {producer : Head} {j : Nat} {above name : String}
    (edge : input.source = some output.id) (live : g.output? output.id = some output)
    (before : j < i) (place : script.LineAt j (.statement producer) above)
    (owner : output.owner = producer.node) (sets : producer.Sets (output.id, name) above)
    (declared : script.DeclaresOnce ⟨output.typeCode, name⟩) :
    Agrees g e script i head line use input name
  /-- The line itself sets the variable, for an output of its own node that has got it by then. -/
  | own {output : Output} {name : String} (edge : input.source = some output.id)
    (live : g.output? output.id = some output) (owner : output.owner = head.node)
    (sets : head.Sets (output.id, name) line)
    (bound : output.id ∈ g.boundBefore head.node use) :
    Agrees g e script i head line use input name

/-- What explains an operand explains its text. -/
theorem Explained.agrees {i : Nat} (printed : script.Printed)
    (h : g.Explained e script ((script.marks.take i).filterMap (·.2.head?)) head use input operand) :
    g.Agrees e script i head head.text use input operand.text := by
  cases h with
  | literal free => exact .literal free
  | member edge live owner kind => exact .member edge live owner kind
  | parameter edge live owner listed => exact .parameter edge live owner listed
  | earlier edge live above owner sets declared =>
    obtain ⟨j, before, text, place⟩ := EventScript.exists_lineAt_before above
    obtain rfl := place.text_eq
    obtain ⟨output, hlive, single⟩ := declared
    obtain rfl := Option.some.inj (live.symm.trans hlive)
    exact .earlier edge live before place owner (sets_of_givenBy sets)
      (printed.declaresOnce (d := ⟨_, _⟩) single)
  | own edge live owner sets bound => exact .own edge live owner (sets_of_givenBy sets) bound

/-- **Producer and consumer agree on the variable.** In an assembled graph let an event have a
script. Its lines are those that its marks say, and every node that was lowered for it has one.
Whatever the line of a node takes it shows, at the place where it belongs in the text of the line:
the code of the input's own value if no edge brings one, the name of a member variable, the name of
an output of the event, which is a parameter, or a variable that the line of another node, further
up, sets to the output that the edge comes from, and that exactly one line declares with the type of
the output. Only the value of an output of the node itself is shown as what the line itself sets,
and has got by then. -/
theorem consumer_agrees (h : g.Assembled) (ok : g.scriptOf e = .ok script) :
    ∃ s, (g.lowerEvent e).Returns {} script s ∧ script.Printed ∧
      (∀ n ∈ s.visited, n = e ∨
        ∃ i head line, script.LineAt i (.statement head) line ∧ head.node = n) ∧
      ∀ i head line, script.LineAt i (.statement head) line →
        ∀ use input, g.Takes head.node use input →
          ∃ operand text, head.operandAt use = some operand ∧ operand.Spells text ∧
            head.ShowsAt use text line ∧ g.Agrees e script i head line use input text := by
  have housed := h.reachable.housed
  obtain ⟨node, s, written⟩ := written_of_scriptOf housed ok
  have printed := written.printed
  refine ⟨s, written.returns, printed, fun n hn => ?_, fun i head line here use input takes => ?_⟩
  · refine (written.exists_head housed hn).imp_right ?_
    rintro ⟨head, hhead, rfl⟩
    obtain ⟨i, line, here⟩ := EventScript.exists_lineAt_head printed hhead
    exact ⟨i, head, line, here, rfl⟩
  · obtain ⟨after, place⟩ := here.place_in_heads printed
    obtain ⟨operand, shown, explained⟩ := written.explained h.reachable place takes
    obtain rfl : line = head.text := here.text_eq
    exact ⟨operand, operand.text, shown, operand.spells_text, Head.showsAt_text shown,
      explained.agrees printed⟩

/-- The loop of `repeating` shows the variable that the line before it sets. -/
theorem consumer_agrees_repeating :
    repeating.Assembled ∧ ∃ script header, repeating.scriptOf ⟨0⟩ = .ok script ∧
      script.LineAt 6 (.statement (.loop header))
        "for( ForCount_1=0; ForCount_1<SizeRet_1; ForCount_1++ )" ∧
      ∃ input, input.source = some ⟨4⟩ ∧ repeating.Agrees ⟨0⟩ script 6 (.loop header)
        "for( ForCount_1=0; ForCount_1<SizeRet_1; ForCount_1++ )" .bound input "SizeRet_1" := by
  have assembled : repeating.Assembled := ⟨_, _, by decide, rfl⟩
  let header : LoopHeader := ⟨⟨1⟩, "ForCount_1", some (.held ⟨4⟩ "SizeRet_1")⟩
  obtain ⟨script, ok, mark⟩ : ∃ script, repeating.scriptOf ⟨0⟩ = .ok script ∧
      script.marks[6]? = some (1, .statement (.loop header)) := ⟨_, rfl, rfl⟩
  have line : script.LineAt 6 (.statement (.loop header))
      "for( ForCount_1=0; ForCount_1<SizeRet_1; ForCount_1++ )" := EventScript.lineAt mark
  obtain ⟨input, takes, edge⟩ : ∃ input, repeating.Takes header.node .bound input ∧
      input.source = some ⟨4⟩ := ⟨_, .bound rfl rfl rfl, rfl⟩
  obtain ⟨s, -, -, -, agrees⟩ := consumer_agrees assembled ok
  obtain ⟨operand, text, shown, spells, -, agrees⟩ := agrees _ _ _ line _ _ takes
  obtain rfl : Operand.held ⟨4⟩ "SizeRet_1" = operand := Option.some.inj shown
  cases spells
  exact ⟨assembled, script, header, ok, line, input, edge, agrees⟩

end NodeScript.Graph
