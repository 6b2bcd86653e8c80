import NodeScript.NameCounters
import NodeScript.Proofs.FreshNames

/-!
# Each base is numbered for itself

What a sequence of requests for names is answered, however the requests for different bases lie
between each other. No two answers are the same, although one base may look like a name of another
one (`A` and `A_1`), and the answers to the requests for a base are its names from the first one on
(`FreshNames.nexts_in_turn`).

Counters give these names too: they stand at the numbers of requests (`NameCounters.Tallies`), which
every request keeps, so that the two ways of counting answer alike
(`NameCounters.Tallies.nexts_eq`).
-/

namespace NodeScript

/-! ### Counters and requests -/

namespace NameCounters

variable {counters : NameCounters} {names : FreshNames}

/-- The counters stand at the numbers of requests: a base that was asked for has a counter, which
says how often, and no other base has one. -/
def Tallies (counters : NameCounters) (names : FreshNames) : Prop :=
  ∀ base, counters.counts.find? base =
    if base ∈ names.requests then some (names.requests.count base) else none

theorem tallies_start : Tallies {} {} := by
  intro base
  simp

namespace Tallies

theorem getD_find? (h : Tallies counters names) (base : String) :
    (counters.counts.find? base).getD 0 = names.requests.count base := by
  rw [h base]
  by_cases asked : base ∈ names.requests
  · rw [if_pos asked, Option.getD_some]
  · rw [if_neg asked, Option.getD_none, List.count_eq_zero.mpr asked]

/-- A request is answered alike. -/
theorem next_fst (h : Tallies counters names) (base : String) :
    (counters.next base).1 = (names.next base).1 := by
  rw [NameCounters.next_fst, h.getD_find?, FreshNames.next_fst]

/-- After a request the counters stand at the numbers of requests again. -/
theorem next (h : Tallies counters names) (base : String) :
    Tallies (counters.next base).2 (names.next base).2 := by
  intro other
  rw [find?_next, FreshNames.requests_next]
  by_cases same : base = other
  · subst other
    rw [if_pos rfl, if_pos List.mem_cons_self, List.count_cons_self, h.getD_find?]
  · simp [same, Ne.symm same, h other]

/-- **Counters and requests give the same names.** -/
theorem nexts_eq (h : Tallies counters names) (bases : List String) :
    counters.nexts bases = names.nexts bases := by
  induction bases generalizing counters names with
  | nil => rfl
  | cons base bases ih =>
    rw [NameCounters.nexts, FreshNames.nexts, h.next_fst, ih (h.next base)]

end Tallies

end NameCounters

/-! ### The answers to a sequence of requests -/

namespace FreshNames

@[simp] theorem length_nexts (names : FreshNames) (bases : List String) :
    (names.nexts bases).length = bases.length := by
  induction bases generalizing names with
  | nil => rfl
  | cons base bases ih => rw [nexts, List.length_cons, ih, List.length_cons]

theorem given_start : FreshNames.given {} = [] := rfl

/-- The answers follow the names given before them. -/
theorem given_append_nexts (names : FreshNames) (bases : List String) :
    names.given ++ names.nexts bases = FreshNames.given ⟨bases.reverse ++ names.requests⟩ := by
  induction bases generalizing names with
  | nil => simp [nexts]
  | cons base bases ih =>
    calc names.given ++ names.nexts (base :: bases)
      _ = (names.next base).2.given ++ (names.next base).2.nexts bases := by
        rw [nexts, given_next, List.append_assoc, List.singleton_append]
      _ = FreshNames.given ⟨bases.reverse ++ (names.next base).2.requests⟩ := ih _
      _ = FreshNames.given ⟨(base :: bases).reverse ++ names.requests⟩ := by
        rw [requests_next, List.reverse_cons, List.append_assoc, List.singleton_append]

/-- The answers to the requests for one base, in their order. -/
def answersTo (base : String) (bases given : List String) : List String :=
  ((bases.zip given).filter (·.1 = base)).map (·.2)

/-- The answers to the requests for a base go on where those before ended. -/
theorem answersTo_nexts (names : FreshNames) (base : String) (bases : List String) :
    answersTo base bases (names.nexts bases) =
      (List.range' (names.requests.count base + 1) (bases.count base)).map (numbered base) := by
  induction bases generalizing names with
  | nil => rfl
  | cons asked bases ih =>
    have rest := ih (names.next asked).2
    rw [requests_next] at rest
    rw [nexts, answersTo, List.zip_cons_cons]
    by_cases same : asked = base
    · subst asked
      rw [List.count_cons_self] at rest
      rw [List.filter_cons_of_pos (by simp), List.map_cons, ← answersTo, rest,
        List.count_cons_self, List.range'_succ, List.map_cons, next_fst]
    · rw [List.count_cons_of_ne same] at rest
      rw [List.filter_cons_of_neg (by simpa using same), ← answersTo, rest,
        List.count_cons_of_ne same]

/-- **Fresh names are distinct, and each base is numbered for itself.** One name is given to each
request, and no name twice. The requests for a base get its first, second, third name and so on,
wherever requests for other bases lie between. Counters give the same names. -/
theorem nexts_in_turn (bases : List String) :
    NameCounters.nexts {} bases = FreshNames.nexts {} bases ∧
      (FreshNames.nexts {} bases).length = bases.length ∧
      (FreshNames.nexts {} bases).Nodup ∧
      ∀ base, answersTo base bases (FreshNames.nexts {} bases) =
        (List.range' 1 (bases.count base)).map fun k => base ++ "_" ++ toString k := by
  have distinct : (FreshNames.nexts {} bases).Nodup := by
    have all := given_append_nexts {} bases
    rw [given_start, List.nil_append] at all
    exact all ▸ nodup_given _
  exact ⟨NameCounters.tallies_start.nexts_eq bases, length_nexts _ bases, distinct,
    fun base => answersTo_nexts {} base bases⟩

example : nexts {} ["A", "A_1", "", "A", "A_1"] = ["A_1", "A_1_1", "_1", "A_2", "A_1_2"] := by
  decide

end FreshNames

end NodeScript
