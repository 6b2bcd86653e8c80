import Mathlib.Data.List.Nodup
import NodeScript.Proofs.Places
import NodeScript.Proofs.Script.Emitted

/-!
# What a script does on its way

A run through a block takes one arm of every branch and goes through the body of a loop any number
of times. On its way it reads and sets the variables that hold the values of outputs, and each way
through is the list of these accesses (`Block.Path`). A read is `Preceded` if what it reads was set
earlier on the way.

The text of a block is one list of accesses too (`Block.text`), although no run follows it: it goes
through both arms of a branch. If every read is preceded in the text, then it is preceded on every
way through exactly if the values do not leave the arms and bodies in which they are set
(`Block.Confined`). The one direction is `Block.Path.preceded`; the other, `Block.confined`, needs
that no two calls set the same variable.
-/

namespace NodeScript

/-- The variable of an output. -/
abbrev Variable :=
  OutputId × String

/-! ### What statements read and set -/

/-- The variable of an output that a value stands for. -/
def Operand.held? : Operand → Option Variable
  | held output name => some (output, name)
  | literal _ | member _ _ => none

/-- The variable that an argument reads. -/
def Argument.read? : Argument → Option Variable
  | value operand => operand.held?
  | archetype _ | absent | result _ _ => none

/-- The variable that an argument lets the call set. -/
def Argument.set? : Argument → Option Variable
  | result output name => some (output, name)
  | archetype _ | absent | value _ => none

/-- The arguments of a call. -/
def CallForm.arguments : CallForm → List Argument
  | operation _ left right => [left, right]
  | invocation _ _ arguments => arguments

/-- The variable of the object that a function is called on. -/
def CallForm.target? : CallForm → Option Variable
  | operation _ _ _ => none
  | invocation target _ _ => target.bind Operand.held?

/-- The variables that a call reads. -/
def CallForm.reads (form : CallForm) : List Variable :=
  form.target?.toList ++ form.arguments.filterMap Argument.read?

/-- The variables that a call sets. -/
def CallStatement.sets (s : CallStatement) : List Variable :=
  s.form.arguments.filterMap Argument.set? ++ s.result.toList

/-- A use of a variable of an output. -/
inductive Access where
  /-- The statement of a node reads the variable. -/
  | read (reader : NodeId) (var : Variable)
  /-- The call of a node sets the variable. -/
  | set (setter : NodeId) (var : Variable)
  deriving DecidableEq, Repr

/-- The accesses of a call: it reads before it sets. -/
def CallStatement.accesses (s : CallStatement) : List Access :=
  s.form.reads.map (.read s.node) ++ s.sets.map (.set s.node)

/-- The access of an assignment. -/
def Assignment.access (s : Assignment) : Access :=
  .read s.member (s.output, s.value)

/-- The access of a branch or loop that looks at a value. -/
def Operand.test (reader : NodeId) (value : Option Operand) : List Access :=
  (value.bind Operand.held?).toList.map (.read reader)

namespace Block

/-- The accesses on a way through a block. -/
inductive Path : Block → List Access → Prop
  | done : Path .done []
  | call {s rest l} : Path rest l → Path (.call s rest) (s.accesses ++ l)
  | assign {s rest l} : Path rest l → Path (.assign s rest) (s.access :: l)
  | whenTrue {n c t f rest l₁ l₂} : Path t l₁ → Path rest l₂ →
    Path (.branch n c t f rest) (Operand.test n c ++ (l₁ ++ l₂))
  | whenFalse {n c t f rest l₁ l₂} : Path f l₁ → Path rest l₂ →
    Path (.branch n c t f rest) (Operand.test n c ++ (l₁ ++ l₂))
  /-- The loop ends. -/
  | leave {h body rest l} : Path rest l →
    Path (.loop h body rest) (Operand.test h.node h.bound ++ l)
  /-- The loop runs its body and looks at its bound again. -/
  | again {h body rest l₁ l₂} : Path body l₁ → Path (.loop h body rest) l₂ →
    Path (.loop h body rest) (Operand.test h.node h.bound ++ (l₁ ++ l₂))

/-- The accesses of a block in the order of its text. -/
def text : Block → List Access
  | done => []
  | call s rest => s.accesses ++ rest.text
  | assign s rest => s.access :: rest.text
  | branch n c t f rest => Operand.test n c ++ (t.text ++ (f.text ++ rest.text))
  | loop h body rest => Operand.test h.node h.bound ++ (body.text ++ rest.text)

@[simp] theorem text_append (a b : Block) : (a ++ b).text = a.text ++ b.text := by
  show (a.append b).text = a.text ++ b.text
  induction a <;> simp_all [append, text]

@[simp] theorem text_calls (ss : List CallStatement) :
    (calls ss).text = ss.flatMap CallStatement.accesses := by
  induction ss with
  | nil => rfl
  | cons s ss ih => simpa [calls, text] using ih

@[simp] theorem text_assigns (ss : List Assignment) :
    (assigns ss).text = ss.map Assignment.access := by
  induction ss with
  | nil => rfl
  | cons s ss ih => simpa [assigns, text] using ih

/-- Every block has a way through. -/
theorem exists_path (b : Block) : ∃ l, b.Path l := by
  induction b with
  | done => exact ⟨_, .done⟩
  | call s rest ih => exact ih.imp' _ fun _ => .call
  | assign s rest ih => exact ih.imp' _ fun _ => .assign
  | branch n c t f rest iht _ ih =>
    obtain ⟨l₁, h₁⟩ := iht
    exact ih.imp' _ fun _ => .whenTrue h₁
  | loop h body rest _ ih => exact ih.imp' _ fun _ => .leave

/-- What happens on a way through a block is in its text. -/
theorem Path.mem_text {b : Block} {l : List Access} (h : b.Path l) {a : Access} (ha : a ∈ l) :
    a ∈ b.text := by
  induction h with
  | done => simp at ha
  | call _ ih | assign _ ih | leave _ ih =>
    simp only [text, List.mem_append, List.mem_cons] at ha ⊢
    grind
  | whenTrue _ _ ih₁ ih₂ | whenFalse _ _ ih₁ ih₂ | again _ _ ih₁ ih₂ =>
    simp only [text, List.mem_append] at ha ih₂ ⊢
    grind

/-- What is in the text of a block happens on some way through it. -/
theorem exists_path_mem {b : Block} {a : Access} (ha : a ∈ b.text) : ∃ l, b.Path l ∧ a ∈ l := by
  induction b with
  | done => simp [text] at ha
  | call s rest ih =>
    rcases List.mem_append.mp ha with ha | ha
    · obtain ⟨l, hl⟩ := exists_path rest
      exact ⟨_, .call hl, List.mem_append_left _ ha⟩
    · obtain ⟨l, hl, hmem⟩ := ih ha
      exact ⟨_, .call hl, List.mem_append_right _ hmem⟩
  | assign s rest ih =>
    rcases List.mem_cons.mp ha with rfl | ha
    · obtain ⟨l, hl⟩ := exists_path rest
      exact ⟨_, .assign hl, .head _⟩
    · obtain ⟨l, hl, hmem⟩ := ih ha
      exact ⟨_, .assign hl, .tail _ hmem⟩
  | branch n c t f rest iht ihf ih =>
    obtain ⟨lt, ht⟩ := exists_path t
    obtain ⟨lr, hr⟩ := exists_path rest
    simp only [text, List.mem_append] at ha
    rcases ha with ha | ha | ha | ha
    · exact ⟨_, .whenTrue ht hr, by simp [ha]⟩
    · obtain ⟨l, hl, hmem⟩ := iht ha
      exact ⟨_, .whenTrue hl hr, by simp [hmem]⟩
    · obtain ⟨l, hl, hmem⟩ := ihf ha
      exact ⟨_, .whenFalse hl hr, by simp [hmem]⟩
    · obtain ⟨l, hl, hmem⟩ := ih ha
      exact ⟨_, .whenTrue ht hl, by simp [hmem]⟩
  | loop h body rest ihb ih =>
    obtain ⟨lr, hr⟩ := exists_path rest
    simp only [text, List.mem_append] at ha
    rcases ha with ha | ha | ha
    · exact ⟨_, .leave hr, by simp [ha]⟩
    · obtain ⟨l, hl, hmem⟩ := ihb ha
      exact ⟨_, .again hl (.leave hr), by simp [hmem]⟩
    · obtain ⟨l, hl, hmem⟩ := ih ha
      exact ⟨_, .leave hl, by simp [hmem]⟩

end Block

/-! ### Reads of what was set -/

/-- Some call sets the variable. -/
def Sets (l : List Access) (v : Variable) : Prop :=
  ∃ n, .set n v ∈ l

theorem sets_append {l₁ l₂ : List Access} {v : Variable} :
    Sets (l₁ ++ l₂) v ↔ Sets l₁ v ∨ Sets l₂ v := by
  simp only [Sets, List.mem_append, exists_or]

theorem sets_left {l₁ l₂ : List Access} {v : Variable} (h : Sets l₁ v) : Sets (l₁ ++ l₂) v :=
  sets_append.mpr (.inl h)

section Reads

/-! Only some reads matter: those of an output by a node to which the output is `foreign`. -/

variable {foreign : NodeId → OutputId → Prop} {seen l l₁ l₂ : List Access}

/-- What a foreign read reads was set earlier, or before the accesses began. -/
def Preceded (foreign : NodeId → OutputId → Prop) (seen l : List Access) : Prop :=
  ∀ pre r v post, l = pre ++ .read r v :: post → foreign r v.1 → Sets (seen ++ pre) v

/-- No foreign read of the later accesses reads what the earlier ones set. -/
def Apart (foreign : NodeId → OutputId → Prop) (earlier later : List Access) : Prop :=
  ∀ n r v, .set n v ∈ earlier → .read r v ∈ later → ¬ foreign r v.1

theorem preceded_append :
    Preceded foreign seen (l₁ ++ l₂) ↔
      Preceded foreign seen l₁ ∧ Preceded foreign (seen ++ l₁) l₂ := by
  constructor
  · refine fun h => ⟨fun pre r v post hl => ?_, fun pre r v post hl hf => ?_⟩
    · exact h pre r v (post ++ l₂) (by simp [hl])
    · simpa using h (l₁ ++ pre) r v post (by simp [hl]) hf
  · rintro ⟨h₁, h₂⟩ pre r v post hl hf
    rcases place_in_append hl with ⟨mid, rfl⟩ | ⟨mid, rfl, hmid⟩
    · exact h₁ pre r v mid rfl hf
    · simpa using h₂ mid r v post hmid hf

theorem preceded_cons {a : Access} :
    Preceded foreign seen (a :: l) ↔
      Preceded foreign seen [a] ∧ Preceded foreign (seen ++ [a]) l := by
  rw [← List.singleton_append, preceded_append]

/-- Having set more before does no harm. -/
theorem Preceded.mono {seen' : List Access} (h : Preceded foreign seen l)
    (more : ∀ v, Sets seen v → Sets seen' v) : Preceded foreign seen' l := fun pre r v post hl hf =>
  sets_append.mpr ((sets_append.mp (h pre r v post hl hf)).imp_left (more v))

/-- What a foreign read reads on some way was set before or on that way. -/
theorem Preceded.sets (h : Preceded foreign seen l) {r : NodeId} {v : Variable}
    (hread : .read r v ∈ l) (hf : foreign r v.1) : Sets seen v ∨ Sets l v := by
  obtain ⟨pre, post, rfl⟩ := List.append_of_mem hread
  exact (sets_append.mp (h pre r v post rfl hf)).imp_right sets_left

/-- What stays apart need not have been there. -/
theorem Preceded.drop (h : Preceded foreign (seen ++ l₁) l₂) (apart : Apart foreign l₁ l₂) :
    Preceded foreign seen l₂ := by
  intro pre r v post hl hf
  rcases sets_append.mp (h pre r v post hl hf) with hs | hs
  · rcases sets_append.mp hs with hs | ⟨n, hn⟩
    · exact sets_append.mpr (.inl hs)
    · exact absurd hf (apart n r v hn (by simp [hl]))
  · exact sets_append.mpr (.inr hs)

namespace Block

/-- What is set in an arm of a branch or in the body of a loop is not read outside of it. -/
def Confined (foreign : NodeId → OutputId → Prop) : Block → Prop
  | done => True
  | call _ rest | assign _ rest => rest.Confined foreign
  | branch _ _ t f rest =>
    (t.Confined foreign ∧ f.Confined foreign ∧ rest.Confined foreign) ∧
      Apart foreign t.text f.text ∧ Apart foreign t.text rest.text ∧
      Apart foreign f.text rest.text
  | loop _ body rest =>
    (body.Confined foreign ∧ rest.Confined foreign) ∧ Apart foreign body.text rest.text

/-- **Values that do not leave their arms and bodies are set before they are read.** If every
foreign read is preceded in the text of a confined block, it is preceded on every way through. -/
theorem Path.preceded {b : Block} (h : b.Path l) (hc : b.Confined foreign)
    (ht : Preceded foreign seen b.text) : Preceded foreign seen l := by
  induction h generalizing seen with
  | done => exact ht
  | call _ ih =>
    obtain ⟨own, later⟩ := preceded_append.mp ht
    exact preceded_append.mpr ⟨own, ih hc later⟩
  | assign _ ih =>
    obtain ⟨own, later⟩ := preceded_cons.mp ht
    exact preceded_cons.mpr ⟨own, ih hc later⟩
  | whenTrue _ _ ih₁ ih₂ =>
    obtain ⟨⟨ct, -, cr⟩, -, tr, fr⟩ := hc
    obtain ⟨test, arm, -, later⟩ :
        _ ∧ _ ∧ _ ∧ _ := by simpa only [text, preceded_append] using ht
    simp only [preceded_append]
    -- what follows reads nothing of either arm, so the way through the arm does not matter
    exact ⟨test, ih₁ ct arm, ih₂ cr (((later.drop fr).drop tr).mono fun _ => sets_left)⟩
  | whenFalse _ _ ih₁ ih₂ =>
    obtain ⟨⟨-, cf, cr⟩, tf, tr, fr⟩ := hc
    obtain ⟨test, -, arm, later⟩ :
        _ ∧ _ ∧ _ ∧ _ := by simpa only [text, preceded_append] using ht
    simp only [preceded_append]
    exact ⟨test, ih₁ cf (arm.drop tf), ih₂ cr (((later.drop fr).drop tr).mono fun _ => sets_left)⟩
  | leave _ ih =>
    obtain ⟨⟨-, cr⟩, br⟩ := hc
    obtain ⟨test, -, later⟩ : _ ∧ _ ∧ _ := by simpa only [text, preceded_append] using ht
    exact preceded_append.mpr ⟨test, ih cr (later.drop br)⟩
  | again _ _ ih₁ ih₂ =>
    obtain ⟨test, body, -⟩ : _ ∧ _ ∧ _ := by simpa only [text, preceded_append] using ht
    simp only [preceded_append]
    -- the loop starts again with more set than before
    refine ⟨test, ih₁ hc.1.1 body, ih₂ hc (ht.mono fun _ hs => ?_)⟩
    exact sets_left (sets_left hs)

/-! ### Values that have to stay inside -/

/-- The call that sets a variable is that of the node that the output is on. -/
def Owned (owner : OutputId → Option NodeId) (b : Block) : Prop :=
  ∀ n v, .set n v ∈ b.text → owner v.1 = some n

variable {owner : OutputId → Option NodeId}

/-- What sets a variable is a call of the block. -/
theorem mem_emitted_of_set {b : Block} {n : NodeId} {v : Variable} (h : .set n v ∈ b.text) :
    (.call, n) ∈ b.emitted := by
  induction b with
  | done => simp [text] at h
  | call s rest ih =>
    rcases List.mem_append.mp h with h | h
    · obtain rfl : s.node = n := by
        simp only [CallStatement.accesses, List.mem_append, List.mem_map] at h
        grind
      exact .head _
    · exact .tail _ (ih h)
  | assign s rest ih =>
    rcases List.mem_cons.mp h with h | h
    · cases h
    · exact ih h
  | branch n c t f rest iht ihf ih =>
    simp only [text, List.mem_append] at h
    simp only [emitted, List.mem_cons, List.mem_append]
    rcases h with h | h | h | h
    · simp [Operand.test] at h
    · exact .inr (.inl (.inl (iht h)))
    · exact .inr (.inl (.inr (ihf h)))
    · exact .inr (.inr (ih h))
  | loop hd body rest ihb ih =>
    simp only [text, List.mem_append] at h
    simp only [emitted, List.mem_cons, List.mem_append]
    rcases h with h | h | h
    · simp [Operand.test] at h
    · exact .inr (.inl (ihb h))
    · exact .inr (.inr (ih h))

/-- Blocks of different calls do not set the same variables. -/
private theorem Owned.disjoint {a b : Block} (ha : a.Owned owner) (hb : b.Owned owner)
    (different : a.emitted.Disjoint b.emitted) {v : Variable} (hs : Sets a.text v) :
    ¬ Sets b.text v := by
  rintro ⟨m, hm⟩
  obtain ⟨n, hn⟩ := hs
  obtain rfl : n = m := Option.some.inj ((ha n v hn).symm.trans (hb m v hm))
  exact different (mem_emitted_of_set hn) (mem_emitted_of_set hm)

@[simp] theorem not_sets_test {n : NodeId} {value : Option Operand} {v : Variable} :
    ¬ Sets (Operand.test n value) v := by
  simp [Sets, Operand.test]

/-- A block stays apart from what another one sets if its reads are preceded on every way. -/
private theorem apart_of_preceded {a b : Block} (ha : a.Owned owner) (hb : b.Owned owner)
    (different : a.emitted.Disjoint b.emitted) (new : ∀ v, Sets a.text v → ¬ Sets seen v)
    (h : ∀ l, b.Path l → Preceded foreign seen l) : Apart foreign a.text b.text := by
  intro n r v hset hread hf
  obtain ⟨l, hl, hmem⟩ := exists_path_mem hread
  rcases (h l hl).sets hmem hf with hs | ⟨m, hm⟩
  · exact new v ⟨n, hset⟩ hs
  · exact ha.disjoint hb different ⟨n, hset⟩ ⟨m, hl.mem_text hm⟩

/-- A way through one block sets nothing that a block of other calls sets. -/
private theorem new_after {a b : Block} (ha : a.Owned owner) (hb : b.Owned owner)
    (different : a.emitted.Disjoint b.emitted) (hl : a.Path l)
    (new : ∀ v, Sets b.text v → ¬ Sets seen v) (v : Variable) (hv : Sets b.text v) :
    ¬ Sets (seen ++ l) v := by
  rw [sets_append, not_or]
  exact ⟨new v hv, fun ⟨m, hm⟩ => ha.disjoint hb different ⟨m, hl.mem_text hm⟩ hv⟩

/-- **Values read where they were set stay inside.** If no two calls are of one node, and every
foreign read is preceded on every way through a block, then the block is confined. -/
theorem confined_of_preceded {b : Block} (own : b.Owned owner) (distinct : b.emitted.Nodup)
    (new : ∀ v, Sets b.text v → ¬ Sets seen v)
    (h : ∀ l, b.Path l → Preceded foreign seen l) : b.Confined foreign := by
  induction b generalizing seen with
  | done => trivial
  | call s rest ih =>
    have here : (call s done).Owned owner := fun n v hv =>
      own n v (List.mem_append_left _ (by simpa [text] using hv))
    have later : rest.Owned owner := fun n v hv => own n v (List.mem_append_right _ hv)
    obtain ⟨hne, distinct⟩ := List.nodup_cons.mp distinct
    have new : ∀ v, Sets rest.text v → ¬ Sets seen v := fun v ⟨n, hn⟩ =>
      new v ⟨n, List.mem_append_right _ hn⟩
    refine ih later distinct (new_after here later ?_ (.call .done) new) fun l hl => ?_
    · simpa [emitted] using hne
    · simpa using (preceded_append.mp (h _ (.call hl))).2
  | assign s rest ih =>
    have later : rest.Owned owner := fun n v hv => own n v (.tail _ hv)
    have new : ∀ v, Sets rest.text v → ¬ Sets (seen ++ [s.access]) v := by
      rintro v ⟨n, hn⟩ hs
      have hs : Sets seen v := by simpa [sets_append, Sets, Assignment.access] using hs
      exact new v ⟨n, .tail _ hn⟩ hs
    exact ih later distinct new fun l hl => (preceded_cons.mp (h _ (.assign hl))).2
  | branch n c t f rest iht ihf ih =>
    have ot : t.Owned owner := fun n v hv => own n v (by simp [text, hv])
    have of : f.Owned owner := fun n v hv => own n v (by simp [text, hv])
    have or : rest.Owned owner := fun n v hv => own n v (by simp [text, hv])
    obtain ⟨-, ⟨nt, nf, tf⟩, nr, ⟨tr, fr⟩⟩ : _ ∧ (_ ∧ _ ∧ _) ∧ _ ∧ _ ∧ _ := by
      simpa only [emitted, List.nodup_cons, List.nodup_append', List.disjoint_append_left]
        using distinct
    have new : ∀ v, (Sets t.text v ∨ Sets f.text v ∨ Sets rest.text v) →
        ¬ Sets (seen ++ Operand.test n c) v := by
      intro v hv
      have := new v (by simpa [text, sets_append] using hv)
      simpa [sets_append] using this
    have newt := fun v hv => new v (.inl hv)
    have newf := fun v hv => new v (.inr (.inl hv))
    have newr := fun v hv => new v (.inr (.inr hv))
    obtain ⟨lt, ht⟩ := exists_path t
    obtain ⟨lf, hf⟩ := exists_path f
    obtain ⟨lr, hr⟩ := exists_path rest
    have inTrue : ∀ l, t.Path l → Preceded foreign (seen ++ Operand.test n c) l := fun l hl =>
      (preceded_append.mp (preceded_append.mp (h _ (.whenTrue hl hr))).2).1
    have inFalse : ∀ l, f.Path l → Preceded foreign (seen ++ Operand.test n c) l := fun l hl =>
      (preceded_append.mp (preceded_append.mp (h _ (.whenFalse hl hr))).2).1
    have afterTrue : ∀ l, rest.Path l → Preceded foreign (seen ++ Operand.test n c ++ lt) l :=
      fun l hl => (preceded_append.mp (preceded_append.mp (h _ (.whenTrue ht hl))).2).2
    have afterFalse : ∀ l, rest.Path l → Preceded foreign (seen ++ Operand.test n c ++ lf) l :=
      fun l hl => (preceded_append.mp (preceded_append.mp (h _ (.whenFalse hf hl))).2).2
    refine ⟨⟨iht ot nt newt inTrue, ihf of nf newf inFalse,
      ih or nr (new_after ot or tr ht newr) afterTrue⟩, ?_, ?_, ?_⟩
    · exact apart_of_preceded ot of tf newt inFalse
    -- what follows is reached through the one arm without what the other arm sets
    · exact apart_of_preceded ot or tr (new_after of ot (List.disjoint_symm tf) hf newt) afterFalse
    · exact apart_of_preceded of or fr (new_after ot of tf ht newf) afterTrue
  | loop hd body rest ihb ih =>
    have ob : body.Owned owner := fun n v hv => own n v (by simp [text, hv])
    have or : rest.Owned owner := fun n v hv => own n v (by simp [text, hv])
    obtain ⟨-, nb, nr, br⟩ : _ ∧ _ ∧ _ ∧ _ := by
      simpa only [emitted, List.nodup_cons, List.nodup_append'] using distinct
    have new : ∀ v, (Sets body.text v ∨ Sets rest.text v) →
        ¬ Sets (seen ++ Operand.test hd.node hd.bound) v := by
      intro v hv
      have := new v (by simpa [text, sets_append] using hv)
      simpa [sets_append] using this
    have newb := fun v hv => new v (.inl hv)
    have newr := fun v hv => new v (.inr hv)
    obtain ⟨lr, hr⟩ := exists_path rest
    have inBody : ∀ l, body.Path l →
        Preceded foreign (seen ++ Operand.test hd.node hd.bound) l := fun l hl =>
      (preceded_append.mp (preceded_append.mp (h _ (.again hl (.leave hr)))).2).1
    -- what follows is reached without a run of the body
    have after : ∀ l, rest.Path l →
        Preceded foreign (seen ++ Operand.test hd.node hd.bound) l := fun l hl =>
      (preceded_append.mp (h _ (.leave hl))).2
    exact ⟨⟨ihb ob nb newb inBody, ih or nr newr after⟩, apart_of_preceded ob or br newb after⟩

end Block

end Reads

end NodeScript
