import NodeScript.Proofs.Lowering.Coverage
import NodeScript.Proofs.Script.Run

/-!
# A script does what a walk through the graph does

A graph can be walked directly: from an event along the first edge of an execution output to the
next node, at a branch along the output of the arm that is decided on, at a loop as often along the
output of its body as is decided, and then along the output behind it. A `Walk` is the state of a
machine that does so step by step, with the loops that it is inside of on a stack.

If an event has a script, then running the lines of the script and walking from the event make the
same decisions, and the lines that are met are those of the nodes that the walk meets, apart from
the calls without effects, which no walk meets (`run_eq_walk`). Both the walk and the order of the
statements follow the derivation of the script.
-/

namespace NodeScript

/-! ### The lines that a run meets -/

/-- What the line is that is met. -/
def Passage.mark : Passage → Mark
  | call st => .statement (.call st)
  | assign a => .assignment a
  | branch n condition _ => .statement (.branch n condition)
  | loop header _ => .statement (.loop header)

theorem Passage.text_mark (p : Passage) : p.mark.text = p.text := by
  cases p <;> rfl

/-- The line that is met is one of these. -/
def Passage.IsIn (l : List (Nat × Mark)) (p : Passage) : Prop :=
  ∃ level, (level, p.mark) ∈ l

theorem Passage.IsIn.mono {l l' : List (Nat × Mark)} {c : Course Passage} (h : c.All (IsIn l))
    (hl : l ⊆ l') : c.All (IsIn l') :=
  h.imp fun _ ⟨level, hmem⟩ => ⟨level, hl hmem⟩

open Course Passage in
/-- A run through a block meets lines of the block. -/
theorem Block.all_run (d : Decisions) (b : Block) (k : Nat) : (b.run d).All (IsIn (b.marks k)) := by
  induction b generalizing k with
  | done => exact .nothing
  | call st rest ih =>
    exact .andThen (.meet ⟨k, .head _⟩) (IsIn.mono (ih k) (List.subset_cons_self _ _))
  | assign a rest ih =>
    exact .andThen (.meet ⟨k, .head _⟩) (IsIn.mono (ih k) (List.subset_cons_self _ _))
  | branch n c t f rest iht ihf ih =>
    have onTrue : (t.run d).All (IsIn ((branch n c t f rest).marks k)) :=
      IsIn.mono (iht (k + 1)) fun _ h => by simp [marks, h]
    have onFalse : (f.run d).All (IsIn ((branch n c t f rest).marks k)) :=
      IsIn.mono (ihf (k + 1)) fun _ h => by simp [marks, h]
    have behind : (rest.run d).All (IsIn ((branch n c t f rest).marks k)) :=
      IsIn.mono (ih k) fun _ h => by simp [marks, h]
    refine .andThen (.decide fun j => .andThen (.meet ⟨k, .head _⟩) ?_) behind
    split
    exacts [onTrue, onFalse]
  | loop header body rest ihb ih =>
    have inside : (body.run d).All (IsIn ((loop header body rest).marks k)) :=
      IsIn.mono (ihb (k + 1)) fun _ h => by simp [marks, h]
    have behind : (rest.run d).All (IsIn ((loop header body rest).marks k)) :=
      IsIn.mono (ih k) fun _ h => by simp [marks, h]
    exact .andThen (.decide fun j => .andThen (.meet ⟨k, .head _⟩) (inside.times (d.runs j))) behind

/-- What a run through the statements of a script meets are lines of the script. -/
theorem EventScript.lineAt_of_run {script : EventScript} {d : Decisions} {t : Nat} {p : Passage}
    (h : p ∈ (script.statements.run d t).1) : ∃ i, script.LineAt i p.mark p.text := by
  obtain ⟨level, hmark⟩ := script.statements.all_run d 1 t p h
  obtain ⟨i, hi⟩ := List.mem_iff_getElem?.mp (script.infix_statements.subset hmark)
  exact ⟨i, p.text_mark ▸ EventScript.lineAt hi⟩

namespace Graph

open Relation

/-! ### Walking -/

/-- What a walk meets. -/
inductive Stop where
  | call (node : NodeId)
  | branch (node : NodeId) (arm : Bool)
  | loop (node : NodeId) (runs : Nat)
  deriving DecidableEq, Repr

/-- The state of a walk. -/
structure Walk where
  /-- The node that is met next. Without one the walk goes on with the innermost loop. -/
  next : Option NodeId
  /-- The loops that the walk is inside of, the innermost first, and how often each has still to go
  through its body. -/
  inside : List (NodeId × Nat) := []
  /-- The number of decisions made so far. -/
  decided : Nat := 0
  /-- What was met so far. -/
  met : List Stop := []
  deriving DecidableEq, Repr

/-- The walk when it has met a node and leaves it: a branch by the output of the arm that is decided
on, and a loop not yet, but with the number of runs that is decided on. -/
def Walk.leave (g : Graph) (d : Decisions) (w : Walk) (n : NodeId) : NodeKind → Option Walk
  | .call _ => some { w with next := g.successor? n Pin.done, met := w.met ++ [.call n] }
  | .branch =>
    let arm := d.arm w.decided
    some { w with
      next := g.successor? n (if arm then Pin.whenTrue else Pin.whenFalse)
      decided := w.decided + 1
      met := w.met ++ [.branch n arm] }
  | .loop =>
    let runs := d.runs w.decided
    some { w with
      next := none
      inside := (n, runs) :: w.inside
      decided := w.decided + 1
      met := w.met ++ [.loop n runs] }
  | .event _ _ | .pureCall _ | .member _ => none

/-- A step of a walk, unless it is at its end or cannot go on. -/
def walkStep (g : Graph) (d : Decisions) (w : Walk) : Option Walk :=
  match w.next, w.inside with
  | some n, _ => (g.node? n).bind fun node => w.leave g d n node.kind
  | none, (n, 0) :: inside => some { w with next := g.successor? n Pin.afterLoop, inside }
  | none, (n, k + 1) :: inside =>
    some { w with next := g.successor? n Pin.body, inside := (n, k) :: inside }
  | none, [] => none

/-- The walk has met all there is to meet. -/
def Walk.Finished (w : Walk) : Prop :=
  w.next = none ∧ w.inside = []

/-- A number of steps lead from one state of a walk to another. -/
abbrev Walks (g : Graph) (d : Decisions) : Walk → Walk → Prop :=
  ReflTransGen fun w w' => g.walkStep d w = some w'

/-- The stop of a walk that a passage of a script stands for: none, if it is an assignment or a call
without effects. -/
def stop? (g : Graph) : Passage → Option Stop
  | .call s => if (g.node? s.node).any (·.kind.isPureCall) then none else some (.call s.node)
  | .assign _ => none
  | .branch n _ arm => some (.branch n arm)
  | .loop h runs => some (.loop h.node runs)

/-! ### The stops of a script -/

open Course

variable {g : Graph} {d : Decisions} {m n : NodeId} {node : Node} {pin : String} {s s' : Scope}
  {b : Block}

/-- The course of a run through a block, as a walk would see it. -/
def stops (g : Graph) (d : Decisions) (b : Block) : Course Stop :=
  (b.run d).filterMap g.stop?

@[simp] theorem stops_done : g.stops d .done = nothing := rfl

theorem stops_append (a b : Block) : g.stops d (a ++ b) = (g.stops d a).andThen (g.stops d b) := by
  simp [stops]

@[simp] theorem stops_assigns (l : List Assignment) : g.stops d (.assigns l) = nothing := by
  induction l with
  | nil => rfl
  | cons a l ih =>
    show filterMap g.stop? ((meet (.assign a)).andThen ((Block.assigns l).run d)) = nothing
    rw [filterMap_andThen, filterMap_meet]
    exact ih

theorem stops_call {st : CallStatement} {rest : Block} :
    g.stops d (.call st rest) =
      ((g.stop? (.call st)).elim nothing meet).andThen (g.stops d rest) := by
  simp [stops, Block.run, filterMap_meet]

/-- The calls without effects are no stops. -/
theorem stops_calls {calls : List CallStatement} (pure : ∀ st ∈ calls, g.IsPureCall st.node) :
    g.stops d (.calls calls) = nothing := by
  induction calls with
  | nil => rfl
  | cons st calls ih =>
    obtain ⟨node, live, kind⟩ := pure st (.head _)
    show g.stops d (.call st (.calls calls)) = nothing
    rw [stops_call, ih fun st hst => pure st (.tail _ hst)]
    simp [stop?, live, kind]

theorem stops_branch {c : Option Operand} {t f : Block} :
    g.stops d (.branch n c t f .done) = Course.decide fun k =>
      (meet (.branch n (d.arm k))).andThen (if d.arm k then g.stops d t else g.stops d f) := by
  funext k
  cases h : d.arm k <;>
    simp [stops, Block.run, filterMap_decide, Course.decide, h, filterMap_meet, stop?]

theorem stops_loop {h : LoopHeader} {body rest : Block} :
    g.stops d (.loop h body rest) = (Course.decide fun k =>
      (meet (.loop h.node (d.runs k))).andThen ((g.stops d body).times (d.runs k))).andThen
        (g.stops d rest) := by
  simp [stops, Block.run, filterMap_decide, filterMap_meet, stop?]

/-! ### Walking along a derivation -/

/-- Walking on from a node, or from nowhere, meets what the course meets, and ends inside of the
same loops. -/
def Leads (g : Graph) (d : Decisions) (next : Option NodeId) (c : Course Stop) : Prop :=
  ∀ inside t met, g.Walks d ⟨next, inside, t, met⟩ ⟨none, inside, (c t).2, met ++ (c t).1⟩

variable {c c' : Course Stop}

theorem Walks.step {w w' w'' : Walk} (first : g.walkStep d w = some w') (later : g.Walks d w' w'') :
    g.Walks d w w'' :=
  .head first later

theorem leads_nothing : g.Leads d none nothing := by
  intro inside t met
  have stay : met ++ (nothing t : List Stop × Nat).1 = met := List.append_nil met
  rw [stay]
  exact .refl

/-- A step from a live node. -/
theorem walkStep_live (live : g.node? n = some node) {inside : List (NodeId × Nat)} {t : Nat}
    {met : List Stop} :
    g.walkStep d ⟨some n, inside, t, met⟩ =
      Walk.leave g d ⟨some n, inside, t, met⟩ n node.kind := by
  simp [walkStep, live]

theorem leads_call {callee : Callee} (live : g.node? n = some node)
    (kind : node.kind = .call callee) (after : g.Leads d (g.successor? n Pin.done) c) :
    g.Leads d (some n) ((meet (.call n)).andThen c) := by
  intro inside t met
  have first : g.walkStep d ⟨some n, inside, t, met⟩ =
      some ⟨g.successor? n Pin.done, inside, t, met ++ [.call n]⟩ := by
    rw [walkStep_live live, kind, Walk.leave]
  have whole := Walks.step first (after inside t (met ++ [.call n]))
  simpa [andThen, meet] using whole

theorem leads_branch (live : g.node? n = some node) (kind : node.kind = .branch)
    (onTrue : g.Leads d (g.successor? n Pin.whenTrue) c)
    (onFalse : g.Leads d (g.successor? n Pin.whenFalse) c') :
    g.Leads d (some n) (Course.decide fun k =>
      (meet (.branch n (d.arm k))).andThen (if d.arm k then c else c')) := by
  intro inside t met
  have first : g.walkStep d ⟨some n, inside, t, met⟩ =
      some ⟨g.successor? n (if d.arm t then Pin.whenTrue else Pin.whenFalse), inside, t + 1,
        met ++ [.branch n (d.arm t)]⟩ := by
    rw [walkStep_live live, kind, Walk.leave]
  have arm : g.Leads d (g.successor? n (if d.arm t then Pin.whenTrue else Pin.whenFalse))
      (if d.arm t then c else c') := by
    split
    exacts [onTrue, onFalse]
  have whole := Walks.step first (arm inside (t + 1) (met ++ [.branch n (d.arm t)]))
  simpa [Course.decide, andThen, meet] using whole

/-- Inside of a loop, with a number of runs still to come, the walk goes through the body that often
and then goes on behind the loop. -/
theorem walks_runs (body : g.Leads d (g.successor? n Pin.body) c)
    (after : g.Leads d (g.successor? n Pin.afterLoop) c') (k : Nat) (inside : List (NodeId × Nat))
    (t : Nat) (met : List Stop) :
    g.Walks d ⟨none, (n, k) :: inside, t, met⟩
      ⟨none, inside, (((c.times k).andThen c') t).2, met ++ (((c.times k).andThen c') t).1⟩ := by
  induction k generalizing t met with
  | zero => exact .head rfl (after inside t met)
  | succ k ih =>
    have once : g.Walks d ⟨none, (n, k + 1) :: inside, t, met⟩
        ⟨none, (n, k) :: inside, (c t).2, met ++ (c t).1⟩ :=
      .head rfl (body ((n, k) :: inside) t met)
    rw [Course.times, andThen_assoc]
    simpa [andThen] using once.trans (ih (c t).2 (met ++ (c t).1))

theorem leads_loop (live : g.node? n = some node) (kind : node.kind = .loop)
    (body : g.Leads d (g.successor? n Pin.body) c)
    (after : g.Leads d (g.successor? n Pin.afterLoop) c') :
    g.Leads d (some n) ((Course.decide fun k =>
      (meet (.loop n (d.runs k))).andThen (c.times (d.runs k))).andThen c') := by
  intro inside t met
  have first : g.walkStep d ⟨some n, inside, t, met⟩ =
      some ⟨none, (n, d.runs t) :: inside, t + 1, met ++ [.loop n (d.runs t)]⟩ := by
    rw [walkStep_live live, kind, Walk.leave]
  have whole := Walks.step first (walks_runs body after (d.runs t) inside (t + 1) _)
  simpa [Course.decide, andThen, meet] using whole

/-- The calls that are made on entering a node are calls without effects. -/
theorem Enters.isPureCall {order : List NodeId} {calls : List CallStatement}
    (h : g.Enters n node s order calls s') {st : CallStatement} (hst : st ∈ calls) :
    g.IsPureCall st.node := by
  have listed : st.node ∈ order := h.makes.nodes ▸ List.mem_map_of_mem hst
  exact ((h.gathered.mem_iff _).mp listed).1.isPureCall

/-- **A derivation is walked as its block runs.** -/
theorem Lowered.leads (h : g.Lowered m pin s b s') (d : Decisions) :
    g.Leads d (g.successor? m pin) (g.stops d b) := by
  induction h with
  | nothing next => exact next ▸ leads_nothing
  | @call _ _ n _ _ _ _ _ _ st _ _ _ _ next kind enters makes _ _ ih =>
    have stop : g.stop? (.call st) = some (.call n) := by
      simp [stop?, makes.node, enters.live, kind, NodeKind.isPureCall]
    rw [next, stops_append, stops_calls fun _ => enters.isPureCall, stops_call, stop, stops_append,
      stops_assigns]
    exact leads_call enters.live kind ih
  | branch next kind enters _ _ _ ihTrue ihFalse =>
    rw [next, stops_append, stops_calls fun _ => enters.isPureCall, stops_branch]
    exact leads_branch enters.live kind ihTrue ihFalse
  | loop next kind enters _ _ _ _ _ ihBody ihAfter =>
    rw [next, stops_append, stops_calls fun _ => enters.isPureCall, stops_loop, stops_append,
      stops_assigns]
    exact leads_loop enters.live kind ihBody ihAfter

/-- **A script does what a walk through the graph does.** In a graph that edits have led to, let an
event have a script, and let decisions be made. The script is the line of the event with lines in
braces behind it. Running these lines meets the declarations of the locals, and then the lines of
what running the statements meets: each is a line of the script, spelled as what it is, and one of a
call calls the function of its node. A walk from the event, under the same decisions, comes to its
end after finitely many steps; it has made as many decisions as the run, and it has met exactly the
calls with effects, the branches and the loops whose lines the run meets, in this order and with the
same decisions. -/
theorem run_eq_walk (h : g.Reachable) {e : NodeId} {script : EventScript}
    (ok : g.scriptOf e = .ok script) (d : Decisions) :
    let run := script.statements.run d 0
    ∃ inner texts, Listing.braced? (script.lines.map Line.text).tail = some (inner, []) ∧
      Listing.runText d inner 0 =
        (script.locals.map (fun decl => "local " ++ decl.type ++ " " ++ decl.name ++ ";") ++ texts,
          run.2) ∧
      List.Forall₂ (fun p text => p.mark.Spells text ∧ ∃ i, script.LineAt i p.mark text)
        run.1 texts ∧
      (∀ st, .call st ∈ run.1 → g.Performs (.call st)) ∧
      ∃ w, g.Walks d { next := g.successor? e Pin.done } w ∧ w.Finished ∧ w.decided = run.2 ∧
        w.met = run.1.filterMap g.stop? := by
  intro run
  obtain ⟨node, s, written⟩ := written_of_scriptOf h.housed ok
  have met : ∀ p ∈ run.1, ∃ i, script.LineAt i p.mark p.text :=
    fun p hp => EventScript.lineAt_of_run hp
  refine ⟨script.inner, run.1.map Passage.text, script.braced?_lines, ?_, ?_, fun st hst => ?_,
    _, written.lowered.leads d [] 0 [], ⟨rfl, rfl⟩, rfl, rfl⟩
  · simp only [← Mark.text_declaration]
    exact script.run_inner d written.parts.2 0
  · rw [List.forall₂_map_right_iff, List.forall₂_same]
    intro p hp
    obtain ⟨i, line⟩ := met p hp
    exact ⟨line.spells, i, line⟩
  · obtain ⟨i, line⟩ := met _ hst
    exact written.performs_lineAt line

/-- If the loop of `repeating` is run twice, its script meets the call in the loop twice, and then
the call behind it. -/
theorem run_eq_walk_repeating :
    ∃ script, repeating.scriptOf ⟨0⟩ = .ok script ∧ ∃ inner texts,
      Listing.braced? (script.lines.map Line.text).tail = some (inner, []) ∧
      (Listing.runText ⟨fun _ => true, fun _ => 2⟩ inner 0).1 =
        "local int SizeRet_1;" :: "local int ForCount_1;" :: texts ∧
      ∃ w, repeating.Walks ⟨fun _ => true, fun _ => 2⟩
        { next := repeating.successor? ⟨0⟩ Pin.done } w ∧ w.Finished ∧
          w.met = [.loop ⟨1⟩ 2, .call ⟨3⟩, .call ⟨3⟩, .call ⟨4⟩] := by
  have made : (fun script => (script.locals,
      (script.statements.run ⟨fun _ => true, fun _ => 2⟩ 0).1.filterMap repeating.stop?)) <$>
        repeating.scriptOf ⟨0⟩ =
      .ok ([⟨"int", "SizeRet_1"⟩, ⟨"int", "ForCount_1"⟩],
        [.loop ⟨1⟩ 2, .call ⟨3⟩, .call ⟨3⟩, .call ⟨4⟩]) := by decide +kernel
  obtain ⟨script, ok, parts⟩ := NodeScript.Except.map_eq_ok.mp made
  obtain ⟨locals, stops⟩ := Prod.mk.inj parts
  obtain ⟨inner, texts, braced, run, -, -, w, walks, finished, -, met⟩ :=
    run_eq_walk ⟨_, _, rfl⟩ ok ⟨fun _ => true, fun _ => 2⟩
  refine ⟨script, ok, inner, texts, braced, ?_, w, walks, finished, met.trans stops⟩
  rw [run, locals]
  rfl

end Graph

end NodeScript
