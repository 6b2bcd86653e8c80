import NodeScript.Lowering.Scope
import NodeScript.Proofs.Except

/-!
# Outcomes of lowering

A step of lowering started in a scope either returns a value or fails, and leaves a scope in both
cases. `Returns` and `Fails` say so, and each way of making steps has one equation for each: proofs
about lowering read the steps backwards through these equations and never open the monad.
-/

namespace NodeScript.Lowering

variable {α β : Type} {m : Lowering α} {f : α → Lowering β} {s s' : Scope} {a : α} {b : β}
  {e : CompileError}

/-- What the step gives when it is started in `s`, and the scope that it leaves. -/
def outcome (m : Lowering α) (s : Scope) : Except CompileError α × Scope :=
  m.run.run s

/-- The step, started in `s`, returns `a` and leaves `s'`. -/
def Returns (m : Lowering α) (s : Scope) (a : α) (s' : Scope) : Prop :=
  m.outcome s = (.ok a, s')

/-- The step, started in `s`, fails with `e` and leaves `s'`. -/
def Fails (m : Lowering α) (s : Scope) (e : CompileError) (s' : Scope) : Prop :=
  m.outcome s = (.error e, s')

/-- What a step returns is determined. -/
theorem Returns.unique {a' : α} {t' : Scope} (h : m.Returns s a s') (h' : m.Returns s a' t') :
    a = a' ∧ s' = t' := by
  simpa [Returns] using h.symm.trans h'

/-- How a step fails is determined. -/
theorem Fails.unique {e' : CompileError} {t' : Scope} (h : m.Fails s e s') (h' : m.Fails s e' t') :
    e = e' ∧ s' = t' := by
  simpa [Fails] using h.symm.trans h'

/-- A step that returns does not fail. -/
theorem Returns.not_fails {t' : Scope} (h : m.Returns s a s') : ¬ m.Fails s e t' := fun h' => by
  simpa using h.symm.trans h'

/-! ### Sequences of steps -/

theorem outcome_bind (m : Lowering α) (f : α → Lowering β) (s : Scope) :
    Lowering.outcome (m >>= f) s =
      match m.outcome s with
      | (.ok a, t) => (f a).outcome t
      | (.error e, t) => (.error e, t) := by
  -- the second step sees the scope that the first one leaves, whether it returns or fails
  have step : Lowering.outcome (m >>= f) s =
      (ExceptT.bindCont (m := StateM Scope) f (m.outcome s).1).run (m.outcome s).2 := rfl
  rw [step]
  rcases m.outcome s with ⟨a | e, t⟩ <;> rfl

/-- Sequences have the same outcome if the first steps do, and then what follows on a value. -/
theorem outcome_bind_congr {m' : Lowering α} {f' : α → Lowering β} (hm : m.outcome s = m'.outcome s)
    (hf : ∀ a t, m'.Returns s a t → (f a).outcome t = (f' a).outcome t) :
    Lowering.outcome (m >>= f) s = Lowering.outcome (m' >>= f') s := by
  rw [outcome_bind, outcome_bind, hm]
  rcases hr : m'.outcome s with ⟨e | a, t⟩
  · rfl
  · exact hf a t hr

/-- A sequence of two steps returns if both do. -/
theorem returns_bind :
    Lowering.Returns (m >>= f) s b s' ↔ ∃ a t, m.Returns s a t ∧ (f a).Returns t b s' := by
  simp only [Returns, outcome_bind]
  rcases m.outcome s with ⟨e | a, t⟩
  · simp
  · exact ⟨fun h => ⟨a, t, rfl, h⟩, fun ⟨_, _, h, h'⟩ => by cases h; exact h'⟩

/-- A sequence of two steps fails if the first does, or the second after the first has returned. -/
theorem fails_bind :
    Lowering.Fails (m >>= f) s e s' ↔
      m.Fails s e s' ∨ ∃ a t, m.Returns s a t ∧ (f a).Fails t e s' := by
  simp only [Returns, Fails, outcome_bind]
  rcases m.outcome s with ⟨e | a, t⟩
  · simp
  · simp only [Prod.mk.injEq, reduceCtorEq, false_and, false_or]
    exact ⟨fun h => ⟨a, t, ⟨rfl, rfl⟩, h⟩, fun ⟨_, _, h, h'⟩ => by cases h.1; cases h.2; exact h'⟩

/-- A sequence fails if its first step does. -/
theorem fails_first (first : m.Fails s e s') : Lowering.Fails (m >>= f) s e s' :=
  fails_bind.mpr (.inl first)

/-- A step that has returned passes on the failure of what follows. -/
theorem fails_after {t : Scope} (first : m.Returns s a t) (second : (f a).Fails t e s') :
    Lowering.Fails (m >>= f) s e s' :=
  fails_bind.mpr (.inr ⟨a, t, first, second⟩)

/-! ### Single steps -/

@[simp] theorem returns_pure {c : α} :
    Lowering.Returns (pure a) s c s' ↔ a = c ∧ s = s' := by
  show ((Except.ok a, s) : Except CompileError α × Scope) = _ ↔ _
  simp

@[simp] theorem fails_pure : ¬ Lowering.Fails (pure a) s e s' := by
  show ¬ ((Except.ok a, s) : Except CompileError α × Scope) = _
  simp

@[simp] theorem returns_map {f : α → β} :
    Lowering.Returns (f <$> m) s b s' ↔ ∃ a, m.Returns s a s' ∧ f a = b := by
  rw [map_eq_pure_bind, returns_bind]
  simp only [returns_pure]
  exact exists_congr fun a =>
    ⟨fun ⟨_, h, hf, ht⟩ => ⟨ht ▸ h, hf⟩, fun ⟨h, hf⟩ => ⟨s', h, hf, rfl⟩⟩

@[simp] theorem fails_map {f : α → β} :
    Lowering.Fails (f <$> m) s e s' ↔ m.Fails s e s' := by
  rw [map_eq_pure_bind, fails_bind]
  simp

@[simp] theorem returns_throw : ¬ Lowering.Returns (throw e) s a s' := by
  show ¬ ((Except.error e, s) : Except CompileError α × Scope) = _
  simp

@[simp] theorem fails_throw {e' : CompileError} :
    Lowering.Fails (α := α) (throw e) s e' s' ↔ e = e' ∧ s = s' := by
  show ((Except.error e, s) : Except CompileError α × Scope) = _ ↔ _
  simp

@[simp] theorem returns_ofExcept {r : Except CompileError α} :
    Lowering.Returns (MonadExcept.ofExcept r) s a s' ↔ r = .ok a ∧ s = s' := by
  cases r <;> simp [MonadExcept.ofExcept]

@[simp] theorem fails_ofExcept {r : Except CompileError α} :
    Lowering.Fails (MonadExcept.ofExcept r) s e s' ↔ r = .error e ∧ s = s' := by
  cases r <;> simp [MonadExcept.ofExcept]

@[simp] theorem returns_get {t : Scope} :
    Lowering.Returns get s t s' ↔ s = t ∧ s = s' := by
  show ((Except.ok s, s) : Except CompileError Scope × Scope) = _ ↔ _
  simp

@[simp] theorem fails_get : ¬ Lowering.Fails get s e s' := by
  show ¬ ((Except.ok s, s) : Except CompileError Scope × Scope) = _
  simp

@[simp] theorem returns_modify {change : Scope → Scope} {u : Unit} :
    Lowering.Returns (modify change) s u s' ↔ change s = s' := by
  show ((Except.ok (), change s) : Except CompileError Unit × Scope) = _ ↔ _
  simp

@[simp] theorem fails_modify {change : Scope → Scope} :
    ¬ Lowering.Fails (modify change) s e s' := by
  show ¬ ((Except.ok (), change s) : Except CompileError Unit × Scope) = _
  simp

/-- A computation that has succeeded is not a step. -/
theorem ofExcept_ok_bind (a : α) (f : α → Lowering β) :
    (MonadExcept.ofExcept (Except.ok a : Except CompileError α) >>= f : Lowering β) = f a :=
  pure_bind a f

/-- A step that reads the scope leaves it as it is. -/
@[simp] theorem returns_reading {step : Scope → Except CompileError α} :
    (reading step).Returns s a s' ↔ step s = .ok a ∧ s = s' := by
  have sequence : (reading step).Returns s a s' ↔
      ∃ t t', Lowering.Returns get s t t' ∧
        Lowering.Returns (MonadExcept.ofExcept (step t)) t' a s' := returns_bind
  rw [sequence]
  constructor
  · rintro ⟨t, t', h, h'⟩
    obtain ⟨rfl, rfl⟩ := returns_get.mp h
    exact returns_ofExcept.mp h'
  · exact fun h => ⟨s, s, by simp, returns_ofExcept.mpr h⟩

@[simp] theorem fails_reading {step : Scope → Except CompileError α} :
    (reading step).Fails s e s' ↔ step s = .error e ∧ s = s' := by
  have sequence : (reading step).Fails s e s' ↔ Lowering.Fails get s e s' ∨
      ∃ t t', Lowering.Returns get s t t' ∧
        Lowering.Fails (MonadExcept.ofExcept (step t)) t' e s' := fails_bind
  rw [sequence]
  constructor
  · rintro (h | ⟨t, t', h, h'⟩)
    · exact absurd h fails_get
    · obtain ⟨rfl, rfl⟩ := returns_get.mp h
      exact fails_ofExcept.mp h'
  · exact fun h => .inr ⟨s, s, by simp, fails_ofExcept.mpr h⟩

/-- Reading depends on the scope that is read only. -/
theorem outcome_reading_congr {step step' : Scope → Except CompileError α}
    (h : step s = step' s) : (reading step).outcome s = (reading step').outcome s := by
  show (MonadExcept.ofExcept (step s) : Lowering α).outcome s = _
  rw [h]
  rfl

@[simp] theorem returns_visit {n : NodeId} {u : Unit} :
    (visit n).Returns s u s' ↔ s.visit n = s' := by
  simp [visit]

@[simp] theorem fails_visit {n : NodeId} : ¬ (visit n).Fails s e s' := by
  simp [visit]

@[simp] theorem returns_isVisited {n : NodeId} {b : Bool} :
    (isVisited n).Returns s b s' ↔ s.visited.contains n = b ∧ s = s' := by
  show ((Except.ok (s.visited.contains n), s) : Except CompileError Bool × Scope) = _ ↔ _
  simp

@[simp] theorem fails_isVisited {n : NodeId} : ¬ (isVisited n).Fails s e s' := by
  show ¬ ((Except.ok (s.visited.contains n), s) : Except CompileError Bool × Scope) = _
  simp

@[simp] theorem returns_fresh {base name : String} :
    (fresh base).Returns s name s' ↔
      (s.names.next base).1 = name ∧ { s with names := (s.names.next base).2 } = s' := by
  show ((Except.ok (s.names.next base).1, { s with names := (s.names.next base).2 }) :
    Except CompileError String × Scope) = _ ↔ _
  simp

@[simp] theorem returns_bindFresh {o : OutputId} {base name : String} :
    (bindFresh o base).Returns s name s' ↔
      (s.names.next base).1 = name ∧
        { s with names := (s.names.next base).2 }.bind o name = s' := by
  simp only [bindFresh, returns_bind, returns_fresh, returns_modify, returns_pure]
  constructor
  · rintro ⟨_, _, ⟨rfl, rfl⟩, _, _, rfl, rfl, rfl⟩
    exact ⟨rfl, rfl⟩
  · rintro ⟨rfl, rfl⟩
    exact ⟨_, _, ⟨rfl, rfl⟩, (), _, rfl, rfl, rfl⟩

@[simp] theorem fails_fresh {base : String} : ¬ (fresh base).Fails s e s' := by
  show ¬ ((Except.ok (s.names.next base).1, { s with names := (s.names.next base).2 }) :
    Except CompileError String × Scope) = _
  simp

@[simp] theorem fails_bindFresh {o : OutputId} {base : String} :
    ¬ (bindFresh o base).Fails s e s' := by
  simp [bindFresh, fails_bind]

/-! ### Steps for the elements of a list -/

/-- Steps for the elements of a list depend on the elements only. -/
theorem mapM_congr {f f' : α → Lowering β} {l : List α} (h : ∀ a ∈ l, f a = f' a) :
    l.mapM f = l.mapM f' := by
  induction l with
  | nil => rfl
  | cons a l ih =>
    rw [List.mapM_cons, List.mapM_cons, h a (.head _), ih fun x hx => h x (.tail _ hx)]

/-- A fold over a list depends on its steps for the elements of the list only. -/
theorem foldlM_congr {step step' : β → α → Lowering β} {l : List α}
    (h : ∀ a ∈ l, ∀ b, step b a = step' b a) (b : β) : l.foldlM step b = l.foldlM step' b := by
  induction l generalizing b with
  | nil => rfl
  | cons a l ih =>
    rw [List.foldlM_cons, List.foldlM_cons, h a (.head _)]
    exact congrArg (step' b a >>= ·) (funext fun c => ih (fun x hx => h x (.tail _ hx)) c)

@[simp] theorem returns_mapM_nil {bs : List β} :
    Lowering.Returns (([] : List α).mapM f) s bs s' ↔ bs = [] ∧ s = s' := by
  rw [List.mapM_nil, returns_pure, eq_comm]

theorem returns_mapM_cons {l : List α} {bs : List β} :
    Lowering.Returns ((a :: l).mapM f) s bs s' ↔
      ∃ b t bs', (f a).Returns s b t ∧ Lowering.Returns (l.mapM f) t bs' s' ∧ bs = b :: bs' := by
  simp only [List.mapM_cons, returns_bind, returns_pure]
  constructor
  · rintro ⟨b, t, hb, bs', _, hl, rfl, rfl⟩
    exact ⟨b, t, bs', hb, hl, rfl⟩
  · rintro ⟨b, t, bs', hb, hl, rfl⟩
    exact ⟨b, t, hb, bs', _, hl, rfl, rfl⟩

theorem length_of_returns_mapM {l : List α} {bs : List β}
    (h : Lowering.Returns (l.mapM f) s bs s') : bs.length = l.length := by
  induction l generalizing s bs with
  | nil =>
    obtain ⟨rfl, -⟩ := returns_mapM_nil.mp h
    rfl
  | cons a l ih =>
    obtain ⟨b, t, bs', -, hl, rfl⟩ := returns_mapM_cons.mp h
    rw [List.length_cons, ih hl, List.length_cons]

/-- The steps for the elements of a list are those before an element, the one for it, and those
behind it. -/
theorem returns_mapM_place {pre post : List α} {bs : List β}
    (h : Lowering.Returns ((pre ++ a :: post).mapM f) s bs s') :
    ∃ bs₁ t b t' bs₂, bs = bs₁ ++ b :: bs₂ ∧ Lowering.Returns (pre.mapM f) s bs₁ t ∧
      (f a).Returns t b t' ∧ Lowering.Returns (post.mapM f) t' bs₂ s' := by
  induction pre generalizing s bs with
  | nil =>
    obtain ⟨b, t, bs₂, hb, hpost, rfl⟩ := returns_mapM_cons.mp h
    exact ⟨[], s, b, t, bs₂, rfl, returns_mapM_nil.mpr ⟨rfl, rfl⟩, hb, hpost⟩
  | cons c pre ih =>
    obtain ⟨d, u, ds, hd, hrest, rfl⟩ := returns_mapM_cons.mp h
    obtain ⟨bs₁, t, b, t', bs₂, rfl, hpre, hb, hpost⟩ := ih hrest
    exact ⟨d :: bs₁, t, b, t', bs₂, rfl, returns_mapM_cons.mpr ⟨d, u, bs₁, hd, hpre, rfl⟩, hb,
      hpost⟩

/-- If the steps for the elements of a list fail, then one of them does after those before it. -/
theorem fails_mapM {l : List α} (h : Lowering.Fails (l.mapM f) s e s') :
    ∃ pre a post bs t, l = pre ++ a :: post ∧ Lowering.Returns (pre.mapM f) s bs t ∧
      (f a).Fails t e s' := by
  induction l generalizing s with
  | nil => exact absurd h fails_pure
  | cons a l ih =>
    rw [List.mapM_cons] at h
    rcases fails_bind.mp h with ha | ⟨b, t, hb, h⟩
    · exact ⟨[], a, l, [], s, rfl, returns_mapM_nil.mpr ⟨rfl, rfl⟩, ha⟩
    rcases fails_bind.mp h with hl | ⟨bs, t', hbs, h⟩
    · obtain ⟨pre, c, post, bs, t', rfl, hpre, hc⟩ := ih hl
      exact ⟨a :: pre, c, post, b :: bs, t', rfl,
        returns_mapM_cons.mpr ⟨b, t, bs, hb, hpre, rfl⟩, hc⟩
    · exact absurd h fails_pure

end NodeScript.Lowering

namespace NodeScript.Graph

@[simp] theorem nodeOrFail_eq_ok {g : Graph} {n : NodeId} {node : Node} :
    g.nodeOrFail n = .ok node ↔ g.node? n = some node := by
  cases h : g.node? n <;> simp [nodeOrFail, h]

open Lowering in
/-- A step that starts by looking up a live node goes on with it. -/
theorem returns_lookup {g : Graph} {n : NodeId} {node : Node} {β : Type}
    {f : Node → Lowering β} {s s' : Scope} {b : β} (live : g.node? n = some node) :
    Lowering.Returns (MonadExcept.ofExcept (g.nodeOrFail n) >>= f) s b s' ↔
      (f node).Returns s b s' := by
  rw [nodeOrFail_eq_ok.mpr live, returns_bind]
  constructor
  · rintro ⟨_, _, hfound, h⟩
    obtain ⟨hfound, rfl⟩ := returns_ofExcept.mp hfound
    cases hfound
    exact h
  · exact fun h => ⟨node, s, returns_ofExcept.mpr ⟨rfl, rfl⟩, h⟩

end NodeScript.Graph
