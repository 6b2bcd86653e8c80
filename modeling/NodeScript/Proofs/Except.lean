import Mathlib.Data.List.Forall2
import NodeScript.Declaration.Basic

/-!
# Computations in `Except`

A computation is taken apart from its end: a sequence succeeds with the results of its parts, a fold
with an invariant of its steps, and what fails has a part that fails.
-/

namespace NodeScript.Except

variable {ε α β : Type}

/-- A sequence of two computations succeeds if both do. -/
theorem bind_eq_ok {x : Except ε α} {f : α → Except ε β} {b : β} :
    x >>= f = .ok b ↔ ∃ a, x = .ok a ∧ f a = .ok b := by
  cases x <;> simp [bind, Except.bind]

/-- A result that is changed is there if the computation succeeds. -/
theorem map_eq_ok {x : Except ε α} {f : α → β} {b : β} :
    f <$> x = .ok b ↔ ∃ a, x = .ok a ∧ f a = b := by
  cases x <;> simp [Functor.map, Except.map]

/-- A sequence of two computations fails if the first does, or the second after it. -/
theorem bind_eq_error {x : Except ε α} {f : α → Except ε β} {e : ε} :
    x >>= f = .error e ↔ x = .error e ∨ ∃ a, x = .ok a ∧ f a = .error e := by
  cases x <;> simp [bind, Except.bind]

@[simp] theorem error_bind {e : ε} {f : α → Except ε β} :
    ((.error e : Except ε α) >>= f) = .error e := rfl

theorem ok_bind {a : α} {f : α → Except ε β} : ((.ok a : Except ε α) >>= f) = f a := rfl

@[simp] theorem throw_eq_error {e : ε} : (throw e : Except ε α) = .error e := rfl

@[simp] theorem pure_eq_ok {a : α} : (pure a : Except ε α) = .ok a := rfl

/-- A fold that succeeds keeps what every successful step keeps. -/
theorem foldlM_induction {motive : β → Prop} {f : β → α → Except ε β} {l : List α} {b c : β}
    (h : l.foldlM f b = .ok c) (start : motive b)
    (step : ∀ a ∈ l, ∀ b c, motive b → f b a = .ok c → motive c) : motive c := by
  induction l generalizing b with
  | nil =>
    obtain rfl : b = c := by simpa using h
    exact start
  | cons a l ih =>
    rw [List.foldlM_cons] at h
    obtain ⟨b₁, h₁, h₂⟩ := bind_eq_ok.mp h
    exact ih h₂ (step a (.head _) b b₁ start h₁) fun x hx => step x (.tail _ hx)

/-- A fold that succeeds leads to what its steps make of the elements read so far. -/
theorem foldlM_read {motive : List α → β → Prop} {f : β → α → Except ε β} {done l : List α}
    {b c : β} (h : l.foldlM f b = .ok c) (start : motive done b)
    (step : ∀ {done a b c}, motive done b → f b a = .ok c → motive (done ++ [a]) c) :
    motive (done ++ l) c := by
  induction l generalizing done b with
  | nil =>
    obtain rfl : b = c := by simpa using h
    rwa [List.append_nil]
  | cons a l ih =>
    rw [List.foldlM_cons] at h
    obtain ⟨b₁, h₁, h₂⟩ := bind_eq_ok.mp h
    rw [List.append_cons]
    exact ih h₂ (step start h₁)

/-- After a fold that succeeds, each element has what its own step establishes, if no step takes
it away from another. -/
theorem foldlM_establishes {P : α → β → Prop} {f : β → α → Except ε β} {l : List α} {b c : β}
    (h : l.foldlM f b = .ok c) (establish : ∀ a b c, f b a = .ok c → P a c)
    (keep : ∀ x a b c, P x b → f b a = .ok c → P x c) : ∀ a ∈ l, P a c := by
  induction l generalizing b with
  | nil => simp
  | cons a l ih =>
    rw [List.foldlM_cons] at h
    obtain ⟨b₁, h₁, h₂⟩ := bind_eq_ok.mp h
    intro x hx
    rcases List.mem_cons.mp hx with rfl | hx
    · exact foldlM_induction h₂ (establish x b b₁ h₁) fun a _ b c hb => keep x a b c hb
    · exact ih h₂ x hx

/-- A fold fails with the first step that does. -/
theorem foldlM_eq_error {f : β → α → Except ε β} {l : List α} {b : β} {e : ε} :
    l.foldlM f b = .error e ↔ ∃ before a after c, l = before ++ a :: after ∧
      before.foldlM f b = .ok c ∧ f c a = .error e := by
  induction l generalizing b with
  | nil => simp
  | cons x l ih =>
    rw [List.foldlM_cons]
    constructor
    · intro h
      rcases bind_eq_error.mp h with hx | ⟨b', hb', h⟩
      · exact ⟨[], x, l, b, rfl, rfl, hx⟩
      · obtain ⟨before, a, after, c, rfl, hc, ha⟩ := ih.mp h
        have first : (x :: before).foldlM f b = .ok c := by
          rw [List.foldlM_cons]
          exact bind_eq_ok.mpr ⟨b', hb', hc⟩
        exact ⟨x :: before, a, after, c, rfl, first, ha⟩
    · rintro ⟨before, a, after, c, heq, hc, ha⟩
      cases before with
      | nil =>
        obtain ⟨rfl, rfl⟩ := List.cons.inj heq
        obtain rfl : b = c := by simpa using hc
        exact bind_eq_error.mpr (.inl ha)
      | cons y before =>
        obtain ⟨rfl, rfl⟩ := List.cons.inj heq
        rw [List.foldlM_cons] at hc
        obtain ⟨b', hb', hc⟩ := bind_eq_ok.mp hc
        exact bind_eq_error.mpr (.inr ⟨b', hb', ih.mpr ⟨before, a, after, c, rfl, hc, ha⟩⟩)

/-- Computations that are the same for each element of a list have the same results. -/
theorem mapM_congr {f f' : α → Except ε β} {l : List α} (h : ∀ a ∈ l, f a = f' a) :
    l.mapM f = l.mapM f' := by
  induction l with
  | nil => rfl
  | cons a l ih =>
    rw [List.mapM_cons, List.mapM_cons, h a (.head _), ih fun x hx => h x (.tail _ hx)]

/-- What is in the results of a list of computations is the result of one of them. -/
theorem exists_of_mem_mapM {f : α → Except ε β} {l : List α} {bs : List β} {b : β}
    (h : l.mapM f = .ok bs) (hb : b ∈ bs) : ∃ a ∈ l, f a = .ok b := by
  induction l generalizing bs with
  | nil =>
    obtain rfl : [] = bs := by simpa using h
    simp at hb
  | cons a l ih =>
    rw [List.mapM_cons] at h
    obtain ⟨b', hb', h⟩ := bind_eq_ok.mp h
    obtain ⟨bs', hbs', h⟩ := bind_eq_ok.mp h
    cases h
    rcases List.mem_cons.mp hb with rfl | hb
    · exact ⟨a, .head _, hb'⟩
    · obtain ⟨x, hx, hfx⟩ := ih hbs' hb
      exact ⟨x, .tail _ hx, hfx⟩

/-- A list of computations succeeds with the results of all of them. -/
theorem mapM_eq_ok {f : α → Except ε β} {l : List α} {bs : List β} :
    l.mapM f = .ok bs ↔ List.Forall₂ (fun a b => f a = .ok b) l bs := by
  induction l generalizing bs with
  | nil => simp [eq_comm]
  | cons a l ih =>
    simp only [List.mapM_cons, bind_eq_ok, ih, pure_eq_ok, Except.ok.injEq,
      List.forall₂_cons_left_iff]
    exact ⟨fun ⟨b, hb, bs, hbs, heq⟩ => ⟨b, bs, hb, hbs, heq.symm⟩,
      fun ⟨b, bs, hb, hbs, heq⟩ => ⟨b, hb, bs, hbs, heq.symm⟩⟩

/-- A list of computations fails with the first that does. -/
theorem mapM_eq_error {f : α → Except ε β} {l : List α} {e : ε} :
    l.mapM f = .error e ↔ ∃ before a after, l = before ++ a :: after ∧
      (∀ x ∈ before, ∃ b, f x = .ok b) ∧ f a = .error e := by
  induction l with
  | nil => simp
  | cons a l ih =>
    rw [List.mapM_cons]
    constructor
    · intro h
      rcases bind_eq_error.mp h with ha | ⟨b, hb, h⟩
      · exact ⟨[], a, l, rfl, by simp, ha⟩
      rcases bind_eq_error.mp h with hl | ⟨bs, -, h⟩
      · obtain ⟨before, x, after, rfl, hbefore, hx⟩ := ih.mp hl
        exact ⟨a :: before, x, after, rfl, List.forall_mem_cons.mpr ⟨⟨b, hb⟩, hbefore⟩, hx⟩
      · cases h
    · rintro ⟨before, x, after, heq, hbefore, hx⟩
      cases before with
      | nil =>
        obtain ⟨rfl, rfl⟩ := List.cons.inj heq
        exact bind_eq_error.mpr (.inl hx)
      | cons c before =>
        obtain ⟨rfl, rfl⟩ := List.cons.inj heq
        obtain ⟨⟨b, hb⟩, hbefore⟩ := List.forall_mem_cons.mp hbefore
        have hl := ih.mpr ⟨before, x, after, rfl, hbefore, hx⟩
        exact bind_eq_error.mpr (.inr ⟨b, hb, bind_eq_error.mpr (.inl hl)⟩)

/-- Lists of computations that are the same one by one are the same. -/
theorem mapM_forall₂ {γ : Type} {R : α → γ → Prop} {f : α → Except ε β} {f' : γ → Except ε β}
    {l : List α} {l' : List γ} (h : List.Forall₂ R l l') (same : ∀ a c, R a c → f a = f' c) :
    l.mapM f = l'.mapM f' := by
  induction h with
  | nil => rfl
  | cons hac _ ih => rw [List.mapM_cons, List.mapM_cons, same _ _ hac, ih]

/-- If a list of computations fails, one of them does. -/
theorem exists_of_mapM_eq_error {f : α → Except ε β} {l : List α} {e : ε}
    (h : l.mapM f = .error e) : ∃ a ∈ l, f a = .error e := by
  obtain ⟨before, a, after, rfl, -, ha⟩ := mapM_eq_error.mp h
  exact ⟨a, by simp, ha⟩

end NodeScript.Except
