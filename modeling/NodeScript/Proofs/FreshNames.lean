import Mathlib.Data.List.Nodup
import NodeScript.FreshNames

/-!
# Fresh names are fresh

A numbered name tells its base and its number: the number has only digits, so it is what stands
behind the last underscore (`numbered_inj`). As the number counts the requests for the base, a
request never gets a name that is `Taken`.
-/

namespace NodeScript.FreshNames

/-- A name is its base, an underscore, and the digits of its number. -/
theorem toList_numbered (base : String) (k : Nat) :
    (numbered base k).toList = base.toList ++ '_' :: Nat.toDigits 10 k := by
  simp [numbered]

theorem underscore_notMem_toDigits (k : Nat) : '_' ∉ Nat.toDigits 10 k := by
  intro h
  have digit := Nat.isDigit_of_mem_toDigits (by decide) (by decide) h
  exact absurd digit (by decide)

/-- Lists that agree up to the last place of an element agree before it and behind it. -/
theorem append_cons_inj_of_notMem_right {α : Type} {x₁ x₂ z₁ z₂ : List α} {a : α} (h₁ : a ∉ z₁)
    (h₂ : a ∉ z₂) (h : x₁ ++ a :: z₁ = x₂ ++ a :: z₂) : x₁ = x₂ ∧ z₁ = z₂ := by
  -- one list is a first part of the other, and what is left over would have the element behind it
  rcases List.append_eq_append_iff.mp h with ⟨l, hx, hz⟩ | ⟨l, hx, hz⟩
  · cases l <;> simp_all
  · cases l <;> simp_all

/-- A numbered name has one base and one number. -/
theorem numbered_inj {base base' : String} {k k' : Nat} :
    numbered base k = numbered base' k' ↔ base = base' ∧ k = k' := by
  refine ⟨fun h => ?_, fun ⟨hb, hk⟩ => hb ▸ hk ▸ rfl⟩
  have lists := congrArg String.toList h
  rw [toList_numbered, toList_numbered] at lists
  obtain ⟨hb, hk⟩ := append_cons_inj_of_notMem_right (underscore_notMem_toDigits k)
    (underscore_notMem_toDigits k') lists
  have number := congrArg (Nat.ofDigitChars 10 · 0) hk
  exact ⟨String.toList_injective hb, by simpa using number⟩

/-- The name was given out. -/
def Taken (names : FreshNames) (x : String) : Prop :=
  ∃ base k, x = numbered base (k + 1) ∧ k < names.requests.count base

/-- **A request gets a name that was not given out.** -/
theorem not_taken_next (names : FreshNames) (base : String) :
    ¬ names.Taken (names.next base).1 := by
  rintro ⟨base', k, hx, hk⟩
  obtain ⟨rfl, hcount⟩ := numbered_inj.mp hx
  omega

/-- After a request its name is given out, besides those that were before. -/
theorem taken_next {names : FreshNames} {base x : String} :
    (names.next base).2.Taken x ↔ x = (names.next base).1 ∨ names.Taken x := by
  simp only [Taken, requests_next, List.count_cons, next_fst]
  constructor
  · rintro ⟨base', k, rfl, hk⟩
    rcases Nat.lt_or_ge k (names.requests.count base') with old | new
    · exact .inr ⟨base', k, rfl, old⟩
    · -- only the base that was asked for has a name more
      obtain rfl : base = base' := by
        by_contra hne
        simp [hne] at hk
        omega
      obtain rfl : k = names.requests.count base := by
        simp at hk
        omega
      exact .inl rfl
  · rintro (rfl | ⟨base', k, rfl, hk⟩)
    · exact ⟨base, names.requests.count base, rfl, by simp⟩
    · exact ⟨base', k, rfl, by omega⟩

/-- The names given out so far, the first of them first. -/
def given (names : FreshNames) : List String :=
  go names.requests
where
  /-- The answers to requests, of which the latest is first. -/
  go : List String → List String
    | [] => []
    | base :: earlier => go earlier ++ [numbered base (earlier.count base + 1)]

theorem given_next (names : FreshNames) (base : String) :
    (names.next base).2.given = names.given ++ [(names.next base).1] := rfl

/-- What holds before the first request and is kept by every request holds. -/
theorem induction {motive : FreshNames → Prop} (names : FreshNames) (start : motive {})
    (next : ∀ names base, motive names → motive (names.next base).2) : motive names := by
  obtain ⟨requests⟩ := names
  induction requests with
  | nil => exact start
  | cons base earlier ih => exact next ⟨earlier⟩ base ih

theorem mem_given {names : FreshNames} {x : String} : x ∈ names.given ↔ names.Taken x := by
  induction names using FreshNames.induction with
  | start => simp [given, given.go, Taken]
  | next names base ih =>
    rw [given_next, List.mem_append, List.mem_singleton, taken_next, ih, or_comm]

/-- **No name is given out twice.** -/
theorem nodup_given (names : FreshNames) : names.given.Nodup := by
  induction names using FreshNames.induction with
  | start => exact List.nodup_nil
  | next names base ih =>
    rw [given_next]
    have new : (names.next base).1 ∉ names.given := fun given =>
      names.not_taken_next base (mem_given.mp given)
    exact List.concat_eq_append ▸ List.Nodup.concat new ih

/-- Requests are answered alike exactly if the bases that are asked for were asked for equally often
before. -/
theorem nexts_eq_iff {names names' : FreshNames} {bases : List String} :
    names.nexts bases = names'.nexts bases ↔
      ∀ base ∈ bases, names.requests.count base = names'.requests.count base := by
  induction bases generalizing names names' with
  | nil => simp [nexts]
  | cons base bases ih =>
    simp only [nexts, List.cons.injEq, next_fst, numbered_inj, true_and, Nat.add_right_cancel_iff,
      List.forall_mem_cons]
    refine and_congr_right fun _ => ih.trans (forall₂_congr fun other _ => ?_)
    -- the request for the first base counts in both
    simp only [requests_next, List.count_cons, Nat.add_right_cancel_iff]

/-- A request made before shows in the answers exactly if its base is asked for again. -/
theorem nexts_next_eq_iff {names : FreshNames} {base : String} {bases : List String} :
    (names.next base).2.nexts bases = names.nexts bases ↔ ∀ other ∈ bases, other ≠ base := by
  refine nexts_eq_iff.trans (forall₂_congr fun other _ => ?_)
  rw [requests_next]
  by_cases same : base = other
  · simp [same]
  · simp [same, Ne.symm same]

end NodeScript.FreshNames
