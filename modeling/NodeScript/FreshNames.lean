/-!
# Fresh names

Numbered names: the first request for a base gets `base_1`, the second `base_2`, and so on. Every
base is counted for itself, so what a request gets does not depend on how requests for other bases
lie between (`FreshNames.next_fst`).
-/

namespace NodeScript

/-- The requests for names made so far, the latest first. -/
structure FreshNames where
  requests : List String := []
  deriving DecidableEq, Repr

namespace FreshNames

/-- The `k`-th name of a base. -/
def numbered (base : String) (k : Nat) : String :=
  base ++ "_" ++ toString k

/-- The next name of a base. -/
def next (names : FreshNames) (base : String) : String × FreshNames :=
  (numbered base (names.requests.count base + 1), ⟨base :: names.requests⟩)

/-- The names given to a sequence of requests. -/
def nexts (names : FreshNames) : List String → List String
  | [] => []
  | base :: bases => (names.next base).1 :: nexts (names.next base).2 bases

/-- A request is answered by how often the base was asked for before. -/
theorem next_fst (names : FreshNames) (base : String) :
    (names.next base).1 = numbered base (names.requests.count base + 1) := rfl

@[simp] theorem requests_next (names : FreshNames) (base : String) :
    (names.next base).2.requests = base :: names.requests := rfl

end FreshNames

end NodeScript
