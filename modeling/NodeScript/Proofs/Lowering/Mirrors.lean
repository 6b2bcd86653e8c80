import NodeScript.Proofs.Graph.Twins
import NodeScript.Proofs.Lowering.Outcome

/-!
# Lowering two graphs in step

Two scopes of twin graphs know the same if their bindings and marks are of counterparts, in the same
order (`TwinScopes`). A step of lowering and its counterpart go in step if, started in such scopes,
they return related values or fail with one error, and leave such scopes again (`Mirrors`). There is
one rule for each way of making steps; what is lowered is left to the proofs that use them.
-/

namespace NodeScript

open List (Forall₂)

/-! ### Related results -/

namespace Except

variable {ε α β γ δ : Type} {R : α → β → Prop} {S : γ → δ → Prop}

/-- Both computations return related values, or both fail with one error. -/
inductive Rel (R : α → β → Prop) : Except ε α → Except ε β → Prop
  | ok {a b} (related : R a b) : Rel R (.ok a) (.ok b)
  | error (e : ε) : Rel R (.error e) (.error e)

namespace Rel

variable {x : Except ε α} {y : Except ε β}

theorem bind {f : α → Except ε γ} {f' : β → Except ε δ} (h : Rel R x y)
    (hf : ∀ a b, R a b → Rel S (f a) (f' b)) : Rel S (x >>= f) (y >>= f') := by
  cases h with
  | ok hab => exact hf _ _ hab
  | error e => exact .error e

theorem map {f : α → γ} {f' : β → δ} (h : Rel R x y) (hf : ∀ a b, R a b → S (f a) (f' b)) :
    Rel S (f <$> x) (f' <$> y) := by
  cases h with
  | ok hab => exact .ok (hf _ _ hab)
  | error e => exact .error e

theorem mapM {P : γ → δ → Prop} {f : γ → Except ε α} {f' : δ → Except ε β} {l : List γ}
    {l' : List δ} (h : Forall₂ P l l') (hf : ∀ a b, P a b → Rel R (f a) (f' b)) :
    Rel (Forall₂ R) (l.mapM f) (l'.mapM f') := by
  induction h with
  | nil => exact .ok .nil
  | cons hab _ ih =>
    rw [List.mapM_cons, List.mapM_cons]
    exact (hf _ _ hab).bind fun _ _ hfirst => ih.bind fun _ _ hrest => .ok (.cons hfirst hrest)

end Rel

end Except

namespace Graph

open Lowering

variable {g g' : Graph} {n n' : NodeId} {node node' : Node} {o o' p p' : Output} {i i' : Input}
  {s s' : Scope}

/-! ### Scopes -/

/-- The identifiers of twin outputs. -/
def TwinOutputIds (g g' : Graph) (o o' : OutputId) : Prop :=
  ∃ output output', TwinOutputs g g' output output' ∧ output.id = o ∧ output'.id = o'

/-- The scopes know the same of counterparts. -/
structure TwinScopes (g g' : Graph) (s s' : Scope) : Prop where
  names : s'.names = s.names
  bindings : Forall₂ (fun v v' => TwinOutputIds g g' v.1 v'.1 ∧ v'.2 = v.2) s.bindings s'.bindings
  visited : Forall₂ (TwinNodes g g') s.visited s'.visited

theorem TwinOutputs.ids (h : TwinOutputs g g' o o') : TwinOutputIds g g' o.id o'.id :=
  ⟨o, o', h, rfl, rfl⟩

namespace Twins

/-- An output has one counterpart at most. -/
theorem biUnique_outputIds (h : Twins g g') : Relator.BiUnique (TwinOutputIds g g') := by
  refine ⟨?_, ?_⟩
  · rintro o p o' ⟨output, output', twins, rfl, rfl⟩ ⟨other, other', twins', rfl, hsame⟩
    obtain rfl : other' = output' :=
      Option.some.inj (twins'.live'.symm.trans (hsame ▸ twins.live'))
    obtain ⟨t, ht⟩ := h.right.assembled.reachable.housed.exists_at_output twins.live'
    exact congrArg Output.id
      (h.left.output_unique twins.live twins'.live (twins.symm.at' ht) (twins'.symm.at' ht))
  · rintro o o' p' ⟨output, output', twins, rfl, rfl⟩ ⟨other, other', twins', hsame, rfl⟩
    obtain rfl : other = output :=
      Option.some.inj (twins'.live.symm.trans (hsame ▸ twins.live))
    obtain ⟨t, ht⟩ := h.left.assembled.reachable.housed.exists_at_output twins.live
    exact congrArg Output.id
      (h.right.output_unique twins.live' twins'.live' (twins.at' ht) (twins'.at' ht))

theorem outputIds_eq_iff (h : Twins g g') {o p : OutputId} {o' p' : OutputId}
    (ho : TwinOutputIds g g' o o') (hp : TwinOutputIds g g' p p') : o = p ↔ o' = p' :=
  Relator.rel_eq h.biUnique_outputIds ho hp

end Twins

namespace TwinScopes

theorem nameOf? (hs : TwinScopes g g' s s') (h : Twins g g') {o o' : OutputId}
    (ho : TwinOutputIds g g' o o') : s'.nameOf? o' = s.nameOf? o := by
  have bindings := hs.bindings
  unfold Scope.nameOf?
  generalize s.bindings = l, s'.bindings = l' at bindings ⊢
  induction bindings with
  | nil => rfl
  | @cons v v' l l' hv _ ih =>
    obtain ⟨p, x⟩ := v
    obtain ⟨p', x'⟩ := v'
    obtain ⟨hp, rfl⟩ := hv
    have same : (o' == p') = (o == p) := by
      simp only [beq_eq_decide, h.outputIds_eq_iff ho hp]
    simp only [List.lookup_cons, same, ih]

theorem bind (hs : TwinScopes g g' s s') (h : Twins g g') {o o' : OutputId}
    (ho : TwinOutputIds g g' o o') (name : String) :
    TwinScopes g g' (s.bind o name) (s'.bind o' name) := by
  refine ⟨hs.names, ?_, hs.visited⟩
  have bindings := hs.bindings
  simp only [Scope.bind]
  generalize s.bindings = l, s'.bindings = l' at bindings ⊢
  induction bindings with
  | nil => exact .cons ⟨ho, rfl⟩ .nil
  | @cons v v' l l' hv hl ih =>
    obtain ⟨p, x⟩ := v
    obtain ⟨p', x'⟩ := v'
    simp only [Scope.bindIn]
    by_cases hp : p = o
    · rw [if_pos hp, if_pos ((h.outputIds_eq_iff hv.1 ho).mp hp)]
      exact .cons ⟨hv.1, rfl⟩ hl
    · rw [if_neg hp, if_neg (mt (h.outputIds_eq_iff hv.1 ho).mpr hp)]
      exact .cons hv ih

theorem visit (hs : TwinScopes g g' s s') (hn : TwinNodes g g' n n') :
    TwinScopes g g' (s.visit n) (s'.visit n') :=
  ⟨hs.names, hs.bindings, .cons hn hs.visited⟩

end TwinScopes

/-! ### Steps -/

/-- Started in scopes that know the same, the steps return related values or fail with one error,
and leave scopes that know the same. -/
def Mirrors (g g' : Graph) {α β : Type} (R : α → β → Prop) (m : Lowering α) (m' : Lowering β) :
    Prop :=
  ∀ s s', TwinScopes g g' s s' → Except.Rel R (m.outcome s).1 (m'.outcome s').1 ∧
    TwinScopes g g' (m.outcome s).2 (m'.outcome s').2

namespace Mirrors

variable {α β γ δ : Type} {R : α → β → Prop} {S : γ → δ → Prop} {m : Lowering α} {m' : Lowering β}

theorem pure {a : α} {b : β} (h : R a b) :
    Mirrors g g' R (Pure.pure a : Lowering α) (Pure.pure b : Lowering β) :=
  fun _ _ hs => ⟨.ok h, hs⟩

theorem throw (e : CompileError) :
    Mirrors g g' R (MonadExcept.throw e : Lowering α) (MonadExcept.throw e : Lowering β) :=
  fun _ _ hs => ⟨.error e, hs⟩

theorem ofExcept {x : Except CompileError α} {y : Except CompileError β} (h : Except.Rel R x y) :
    Mirrors g g' R (MonadExcept.ofExcept x : Lowering α) (MonadExcept.ofExcept y : Lowering β) := by
  cases h with
  | ok hab => exact pure hab
  | error e => exact throw e

theorem bind {f : α → Lowering γ} {f' : β → Lowering δ} (hm : Mirrors g g' R m m')
    (hf : ∀ a b, R a b → Mirrors g g' S (f a) (f' b)) :
    Mirrors g g' S (m >>= f) (m' >>= f') := by
  intro s s' hs
  obtain ⟨hresult, hscopes⟩ := hm s s' hs
  rw [outcome_bind, outcome_bind]
  revert hresult hscopes
  generalize m.outcome s = r, m'.outcome s' = r'
  obtain ⟨r, t⟩ := r
  obtain ⟨r', t'⟩ := r'
  rintro hresult hscopes
  cases hresult with
  | ok hab => exact hf _ _ hab t t' hscopes
  | error e => exact ⟨.error e, hscopes⟩

theorem reading {step : Scope → Except CompileError α} {step' : Scope → Except CompileError β}
    (h : ∀ s s', TwinScopes g g' s s' → Except.Rel R (step s) (step' s')) :
    Mirrors g g' R (Lowering.reading step) (Lowering.reading step') :=
  fun s s' hs => ofExcept (h s s' hs) s s' hs

theorem modify {change change' : Scope → Scope}
    (h : ∀ s s', TwinScopes g g' s s' → TwinScopes g g' (change s) (change' s')) :
    Mirrors g g' (fun _ _ => True) (modify change : Lowering Unit) (modify change') :=
  fun s s' hs => ⟨.ok trivial, h s s' hs⟩

theorem visit (hn : TwinNodes g g' n n') :
    Mirrors g g' (fun _ _ => True) (Lowering.visit n) (Lowering.visit n') :=
  modify fun _ _ hs => hs.visit hn

theorem isVisited (h : Twins g g') (hn : TwinNodes g g' n n') :
    Mirrors g g' (· = ·) (Lowering.isVisited n) (Lowering.isVisited n') := by
  intro s s' hs
  refine ⟨.ok ?_, hs⟩
  have same : n ∈ s.visited ↔ n' ∈ s'.visited := List.rel_mem h.biUnique_nodes hn hs.visited
  show s.visited.contains n = s'.visited.contains n'
  rwa [Bool.eq_iff_iff, List.contains_iff_mem, List.contains_iff_mem]

theorem fresh (base : String) :
    Mirrors g g' (· = ·) (Lowering.fresh base) (Lowering.fresh base) := by
  intro s s' hs
  obtain ⟨names, bindings, visited⟩ := s'
  obtain rfl : names = s.names := hs.names
  exact ⟨.ok rfl, rfl, hs.bindings, hs.visited⟩

theorem bindFresh (h : Twins g g') (ho : TwinOutputs g g' o o') (base : String) :
    Mirrors g g' (· = ·) (Lowering.bindFresh o.id base) (Lowering.bindFresh o'.id base) := by
  refine (fresh base).bind fun name _ hname => ?_
  subst hname
  refine (modify fun _ _ hs => hs.bind h ho.ids name).bind fun _ _ _ => pure rfl

theorem mapM {P : γ → δ → Prop} {f : γ → Lowering α} {f' : δ → Lowering β} {l : List γ}
    {l' : List δ} (hl : Forall₂ P l l') (hf : ∀ a b, P a b → Mirrors g g' R (f a) (f' b)) :
    Mirrors g g' (Forall₂ R) (l.mapM f) (l'.mapM f') := by
  induction hl with
  | nil => exact pure .nil
  | cons hab _ ih =>
    rw [List.mapM_cons, List.mapM_cons]
    exact (hf _ _ hab).bind fun _ _ hfirst => ih.bind fun _ _ hrest => pure (.cons hfirst hrest)

theorem foldlM {P : γ → δ → Prop} {f : α → γ → Lowering α} {f' : β → δ → Lowering β} {l : List γ}
    {l' : List δ} (hl : Forall₂ P l l')
    (hf : ∀ a b x y, R a b → P x y → Mirrors g g' R (f a x) (f' b y)) {a : α} {b : β}
    (hab : R a b) : Mirrors g g' R (l.foldlM f a) (l'.foldlM f' b) := by
  induction hl generalizing a b with
  | nil => exact pure hab
  | cons hxy _ ih =>
    rw [List.foldlM_cons, List.foldlM_cons]
    exact (hf _ _ _ _ hab hxy).bind fun _ _ => ih

theorem forM {P : γ → δ → Prop} {f : γ → Lowering PUnit} {f' : δ → Lowering PUnit} {l : List γ}
    {l' : List δ} (hl : Forall₂ P l l')
    (hf : ∀ a b, P a b → Mirrors g g' (fun _ _ => True) (f a) (f' b)) :
    Mirrors g g' (fun _ _ => True) (l.forM f) (l'.forM f') := by
  induction hl with
  | nil => exact pure trivial
  | cons hab _ ih => exact (hf _ _ hab).bind fun _ _ _ => ih

end Mirrors

end Graph

end NodeScript
