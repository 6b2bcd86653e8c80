import NodeScript.Proofs.Lowering.Coverage

/-!
# Which reads find their variable set

A value that a node reads from a call was bound before, or lowering fails. Bound is not set: the
scope in which lowering binds values is shared by both arms of a branch, and by a loop and what
follows it, although a run goes through one arm only, and perhaps never through the loop. So what
lowering guarantees is that every read of a call's value is preceded in the text of the script
(`Lowered.preceded_text`). On every way through the script it is preceded exactly if no value
leaves the arm or body in which it is set (`set_before_read_iff_confined`), and nothing in the
lowering sees to that: `crossing_reads_unset` is a script that reads a variable that no
statement has set.
-/

namespace NodeScript.Graph

open NodeScript.Except (bind_eq_ok exists_of_mem_mapM)

variable {g : Graph} {m n : NodeId} {node : Node} {pin : String} {s s' : Scope} {b : Block}
  {seen : List Access}

/-- A live call, with or without effects. -/
def IsCall (g : Graph) (n : NodeId) : Prop :=
  ∃ node, g.node? n = some node ∧ node.kind.callee?.isSome = true

/-- The output belongs to another call than the reader. -/
def Foreign (g : Graph) (reader : NodeId) (o : OutputId) : Prop :=
  ∃ p, g.ownerOf? o = some p ∧ p ≠ reader ∧ g.IsCall p

/-- What is bound for calls in the scope was set. -/
def Known (g : Graph) (seen : List Access) (s : Scope) : Prop :=
  ∀ (v : Variable) (p : NodeId), s.nameOf? v.1 = some v.2 → g.ownerOf? v.1 = some p →
    g.IsCall p → Sets seen v

/-! ### What is bound was set in the text -/

theorem Known.mono {l : List Access} (h : g.Known seen s) : g.Known (seen ++ l) s :=
  fun v p hv ho hp => sets_left (h v p hv ho hp)

/-- Variables of a node that is no call do not matter. -/
theorem Known.binds {l : List Variable} (h : g.Known seen s) (hb : g.Binds n s l s')
    (hn : ¬ g.IsCall n) : g.Known seen s' := by
  intro v p hv ho hp
  rcases hb.bound v hv with hv | hv
  · exact h v p hv ho hp
  · obtain rfl : n = p := Option.some.inj ((hb.owned v hv).symm.trans ho)
    exact absurd hp hn

/-- A value that is bound may be read. -/
theorem Known.sets {r : NodeId} {v : Variable} (h : g.Known seen s)
    (hv : s.nameOf? v.1 = some v.2) (hf : g.Foreign r v.1) : Sets seen v := by
  obtain ⟨p, ho, -, hp⟩ := hf
  exact h v p hv ho hp

/-- Reads of what was set before all of them. -/
theorem preceded_of_sets {foreign : NodeId → OutputId → Prop} {l : List Access}
    (h : ∀ r v, .read r v ∈ l → foreign r v.1 → Sets seen v) : Preceded foreign seen l :=
  fun pre r v post hl hf => sets_left (h r v (by simp [hl]) hf)

theorem Known.test {name : String} {value : Option Operand} (h : g.Known seen s)
    (hv : g.operandNamed s node name = .ok value) (r : NodeId) :
    Preceded g.Foreign seen (Operand.test r value) := by
  refine preceded_of_sets fun r' v hread hf => ?_
  simp only [Operand.test, List.mem_map, Option.mem_toList, Access.read.injEq] at hread
  obtain ⟨v', hbound, -, rfl⟩ := hread
  exact h.sets (nameOf?_of_operandNamed hv hbound) hf

/-- An assignment writes what the variable of the output holds in the scope. -/
theorem nameOf?_of_mem_assignments {assigned : List Assignment} {a : Assignment}
    (h : g.assignments s node = .ok assigned) (ha : a ∈ assigned) :
    s.nameOf? a.output = some a.value := by
  obtain ⟨found, hfound, h⟩ := bind_eq_ok.mp h
  cases h
  obtain ⟨r, hr, rfl⟩ := List.mem_filterMap.mp ha
  obtain ⟨⟨output, input⟩, -, h⟩ := exists_of_mem_mapM hfound hr
  simp only [assignmentTo] at h
  obtain ⟨target, -, h⟩ := bind_eq_ok.mp h
  -- only an edge that sets a member variable, from an output that is bound, calls for one
  split at h
  · cases h
  · split at h
    · cases h
    · split at h
      · cases h
        assumption
      · cases h

theorem Known.assigns {assigned : List Assignment} (h : g.Known seen s)
    (ha : g.assignments s node = .ok assigned) :
    Preceded g.Foreign seen (assigned.map Assignment.access) := by
  refine preceded_of_sets fun r v hread hf => ?_
  obtain ⟨a, hmem, heq⟩ := List.mem_map.mp hread
  cases heq
  exact h.sets (nameOf?_of_mem_assignments ha hmem) hf

/-- A call reads what was set before it, and sets what it binds. -/
theorem Known.makes {st : CallStatement} (h : g.Known seen s) (hst : g.Makes n s st s') :
    Preceded g.Foreign seen st.accesses ∧ g.Known (seen ++ st.accesses) s' := by
  constructor
  · refine preceded_of_sets fun r v hread hf => ?_
    obtain ⟨hmem, rfl⟩ : v ∈ st.form.reads ∧ st.node = r := by
      simp only [CallStatement.accesses, List.mem_append, List.mem_map] at hread
      grind
    rcases hst.reads v hmem with hv | howner
    · exact h.sets hv hf
    · -- the call's own outputs are not foreign to it
      obtain ⟨p, ho, hne, -⟩ := hf
      exact absurd (hst.node.trans (Option.some.inj (howner.symm.trans ho))).symm hne
  · intro v p hv ho hp
    rcases hst.binds v hv with hv | hv
    · exact sets_left (h v p hv ho hp)
    · refine sets_append.mpr (.inr ⟨st.node, ?_⟩)
      simp only [CallStatement.accesses, List.mem_append, List.mem_map]
      exact .inr ⟨v, hv, rfl⟩

theorem Known.makesAll {ns : List NodeId} {sts : List CallStatement} (h : g.Known seen s)
    (hsts : g.MakesAll s ns sts s') :
    Preceded g.Foreign seen (sts.flatMap CallStatement.accesses) ∧
      g.Known (seen ++ sts.flatMap CallStatement.accesses) s' := by
  induction hsts generalizing seen with
  | nil => exact ⟨preceded_of_sets (by simp), by simpa using h⟩
  | cons hst _ ih =>
    obtain ⟨first, known⟩ := h.makes hst
    obtain ⟨later, known⟩ := ih known
    rw [List.flatMap_cons, ← List.append_assoc]
    exact ⟨preceded_append.mpr ⟨first, later⟩, known⟩

/-- Marking a node binds nothing, so only the calls made for it matter. -/
theorem Known.enters {order : List NodeId} {calls : List CallStatement} (h : g.Known seen s)
    (he : g.Enters n node s order calls s') :
    Preceded g.Foreign seen (calls.flatMap CallStatement.accesses) ∧
      g.Known (seen ++ calls.flatMap CallStatement.accesses) s' := by
  have marked : g.Known seen ((s.visit n).visitAll order) := h
  exact marked.makesAll he.makes

/-! ### The text of a script -/

theorem not_isCall_of_kind (hn : g.node? n = some node) (kind : node.kind.callee? = none) :
    ¬ g.IsCall n := by
  rintro ⟨node', hn', kind'⟩
  obtain rfl : node = node' := Option.some.inj (hn.symm.trans hn')
  simp [kind] at kind'

/-- A call sets variables of its own outputs. -/
theorem Makes.owned_accesses {st : CallStatement} {k : NodeId} {v : Variable}
    (h : g.Makes n s st s') (hv : .set k v ∈ st.accesses) : g.ownerOf? v.1 = some k := by
  obtain ⟨hmem, rfl⟩ : v ∈ st.sets ∧ st.node = k := by
    simp only [CallStatement.accesses, List.mem_append, List.mem_map] at hv
    grind
  rw [h.node]
  exact h.owned v hmem

theorem MakesAll.owned {ns : List NodeId} {sts : List CallStatement} {k : NodeId} {v : Variable}
    (h : g.MakesAll s ns sts s') (hv : .set k v ∈ sts.flatMap CallStatement.accesses) :
    g.ownerOf? v.1 = some k := by
  induction h with
  | nil => simp at hv
  | cons hst _ ih =>
    rcases List.mem_append.mp hv with hv | hv
    · exact hst.owned_accesses hv
    · exact ih hv

namespace Lowered

open Block

/-- **Every read of a call's value is preceded in the text.** Lowering in a scope in which what is
bound was set makes a block whose foreign reads are preceded in its text, and it leaves such a
scope. -/
theorem preceded_text (h : g.Lowered m pin s b s') (known : g.Known seen s) :
    Preceded g.Foreign seen b.text ∧ g.Known (seen ++ b.text) s' := by
  induction h generalizing seen with
  | nothing => exact ⟨preceded_of_sets (by simp [text]), by simpa [text] using known⟩
  | call _ _ enters makes assigns _ ih =>
    obtain ⟨hcalls, known⟩ := known.enters enters
    obtain ⟨hcall, known⟩ := known.makes makes
    have hassigned := known.assigns assigns
    obtain ⟨hrest, known⟩ := ih known.mono
    simp only [text_append, text_calls, text, text_assigns, preceded_append]
    exact ⟨⟨hcalls, hcall, hassigned, hrest⟩, by simpa using known⟩
  | @branch _ _ n _ _ _ _ _ condition _ _ _ _ _ _ enters test _ _ ihTrue ihFalse =>
    obtain ⟨hcalls, known⟩ := known.enters enters
    have htest := known.test test n
    obtain ⟨htrue, known⟩ := ihTrue (known.mono (l := Operand.test n condition))
    obtain ⟨hfalse, known⟩ := ihFalse known
    simp only [text_append, text_calls, text, preceded_append]
    exact ⟨⟨hcalls, htest, htrue, hfalse, preceded_of_sets (by simp)⟩, by simpa using known⟩
  | @loop _ _ n _ _ _ _ _ bound _ _ _ _ _ _ _ _ kind enters test counts assigns _ _ ihBody ihRest =>
    obtain ⟨hcalls, known⟩ := known.enters enters
    have htest := known.test test n
    obtain ⟨l, binds⟩ := counts.binds
    have plain := not_isCall_of_kind enters.live (by rw [kind]; rfl)
    -- the counter belongs to the loop, which is no call
    have known := known.mono (l := Operand.test n bound) |>.binds binds plain
    have hassigned := known.assigns assigns
    obtain ⟨hbody, known⟩ := ihBody known.mono
    obtain ⟨hrest, known⟩ := ihRest known
    simp only [text_append, text_calls, text, text_assigns, preceded_append]
    refine ⟨⟨hcalls, htest, ⟨hassigned, hbody⟩, ?_⟩, by simpa using known⟩
    simpa using hrest

/-- What a block sets is set by the call that the output is on. -/
theorem owned (h : g.Lowered m pin s b s') : b.Owned g.ownerOf? := by
  induction h with
  | nothing => simp [Owned, text]
  | call _ _ enters makes _ _ ih =>
    intro k v hv
    simp only [text_append, text_calls, text, text_assigns, List.mem_append] at hv
    rcases hv with hv | hv | hv | hv
    · exact enters.makes.owned hv
    · exact makes.owned_accesses hv
    · simp [Assignment.access] at hv
    · exact ih k v hv
  | branch _ _ enters _ _ _ ihTrue ihFalse =>
    intro k v hv
    simp only [text_append, text_calls, text, List.append_nil, List.mem_append] at hv
    rcases hv with hv | hv | hv | hv
    · exact enters.makes.owned hv
    · simp [Operand.test] at hv
    · exact ihTrue k v hv
    · exact ihFalse k v hv
  | loop _ _ enters _ _ _ _ _ ihBody ihRest =>
    intro k v hv
    simp only [text_append, text_calls, text, text_assigns, List.mem_append] at hv
    rcases hv with hv | hv | (hv | hv) | hv
    · exact enters.makes.owned hv
    · simp [Operand.test] at hv
    · simp [Assignment.access] at hv
    · exact ihBody k v hv
    · exact ihRest k v hv

end Lowered

/-- **A value is set before it is read exactly if it does not leave its arm or body.** In a graph
that edits have led to, let an event have a script. On every way through the script each read of
another call's value is preceded by a call that sets it, if and only if no statement of an arm of a
branch or of a body of a loop sets a value that is read by another call in the other arm or behind
the branch or loop. The statements are those of the lines of the script, in their order and with
their braces. -/
theorem set_before_read_iff_confined (h : g.Reachable) {e : NodeId} {script : EventScript}
    (ok : g.scriptOf e = .ok script) :
    ((∀ l, script.statements.Path l → ∀ pre r v post, l = pre ++ .read r v :: post →
      g.Foreign r v.1 → ∃ k, .set k v ∈ pre) ↔ script.statements.Confined g.Foreign) ∧
    script.Printed := by
  obtain ⟨node, s', written⟩ := written_of_scriptOf h.housed ok
  obtain ⟨name, f, kind⟩ := written.event
  obtain ⟨vars, binds⟩ := binds_entryScope h.housed written.live
  have lowered := written.lowered
  have unbound : g.Known [] (({} : Scope).visit e) := fun v p hv => by cases hv
  have known := unbound.binds binds (not_isCall_of_kind written.live (by rw [kind]; rfl))
  refine ⟨⟨fun hpaths => ?_, ?_⟩, written.printed⟩
  · have single := written.visited_nodup h.housed
    have distinct := (List.nodup_append'.mp (lowered.emitted_nodup single)).1
    have new : ∀ v, Sets script.statements.text v → ¬ Sets [] v := by simp [Sets]
    exact Block.confined_of_preceded lowered.owned (.of_map _ distinct) new hpaths
  · exact fun confined l hl => hl.preceded confined (lowered.preceded_text known).1

/-- The values of the script of `repeating` stay where they are set. -/
theorem set_before_read_iff_confined_repeating :
    ∃ script, repeating.scriptOf ⟨0⟩ = .ok script ∧
      ∀ l, script.statements.Path l → ∀ pre r v post, l = pre ++ .read r v :: post →
        repeating.Foreign r v.1 → ∃ k, .set k v ∈ pre := by
  let log : CallForm := .invocation none "Log" [.value (.literal (.string ""))]
  obtain ⟨script, ok, hb⟩ : ∃ script, repeating.scriptOf ⟨0⟩ = .ok script ∧ script.statements =
      .call ⟨⟨2⟩, some (⟨4⟩, "SizeRet_1"), none, .invocation none "Size" []⟩
        (.loop ⟨⟨1⟩, "ForCount_1", some (.held ⟨4⟩ "SizeRet_1")⟩
          (.call ⟨⟨3⟩, none, none, log⟩ .done) (.call ⟨⟨4⟩, none, none, log⟩ .done)) :=
    ⟨_, rfl, rfl⟩
  refine ⟨script, ok, (set_before_read_iff_confined ⟨_, _, rfl⟩ ok).1.mpr ?_⟩
  rw [hb]
  refine ⟨⟨trivial, trivial⟩, fun n r v hset => ?_⟩
  simp [log, Block.text, CallStatement.accesses, CallStatement.sets, CallForm.arguments,
    Argument.set?] at hset

/-- An event that leads to a branch with a call in each arm; the call in the one arm reads what
the call in the other arm returns. -/
def crossing : Graph :=
  let name := { FunctionDecl.callable "Actor" "GetName" with params := [.returns .string] }
  let log := { FunctionDecl.callable "Actor" "Log" with params := [.input "Message" .string] }
  (empty "Cross").run [.place (.event (FunctionDecl.callable "Actor" "Tick").asEvent),
    .place .branch, .place (.call name none), .place (.call log none),
    .connect ⟨0⟩ ⟨0⟩ .any, .connect ⟨1⟩ ⟨2⟩ .any, .connect ⟨2⟩ ⟨4⟩ .any, .connect ⟨4⟩ ⟨6⟩ .any]

/-- The event has a script, and on the way through the second arm this reads a variable that no
statement has set. -/
theorem crossing_reads_unset :
    crossing.Reachable ∧ ∃ script, crossing.scriptOf ⟨0⟩ = .ok script ∧
      ∃ l, script.statements.Path l ∧ ∃ pre r v post, l = pre ++ .read r v :: post ∧
        crossing.Foreign r v.1 ∧ ∀ k, .set k v ∉ pre := by
  obtain ⟨script, ok, hb⟩ : ∃ script, crossing.scriptOf ⟨0⟩ = .ok script ∧ script.statements =
      .branch ⟨1⟩ (some (.literal (.bool false)))
        (.call ⟨⟨2⟩, some (⟨4⟩, "GetNameRet_1"), none, .invocation none "GetName" []⟩ .done)
        (.call ⟨⟨3⟩, none, none,
          .invocation none "Log" [.value (.held ⟨4⟩ "GetNameRet_1")]⟩ .done) .done :=
    ⟨_, rfl, rfl⟩
  have foreign : crossing.Foreign ⟨3⟩ ⟨4⟩ := ⟨⟨2⟩, rfl, by decide, _, rfl, rfl⟩
  refine ⟨⟨_, _, rfl⟩, script, ok, ?_⟩
  rw [hb]
  refine ⟨_, .whenFalse (.call .done) .done, [], ⟨3⟩, (⟨4⟩, "GetNameRet_1"), [], rfl, foreign, ?_⟩
  exact fun _ => List.not_mem_nil

end NodeScript.Graph
