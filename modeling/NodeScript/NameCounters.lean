import NodeScript.Directory
import NodeScript.FreshNames

/-!
# Counters of names

Fresh names once more, from a counter for each base instead of the requests themselves. The counter
of a base is set up by the first request for it and counts all of them. A request reads and changes
no counter but that of its base (`NameCounters.find?_next`).
-/

namespace NodeScript

/-- The counters of the bases that were asked for. -/
structure NameCounters where
  counts : Directory Nat := .empty
  deriving DecidableEq, Repr

namespace NameCounters

/-- The next name of a base: its counter, which stands at zero if there is none yet, is counted
up. -/
def next (counters : NameCounters) (base : String) : String × NameCounters :=
  let count := (counters.counts.find? base).getD 0 + 1
  (FreshNames.numbered base count, ⟨counters.counts.insert base count⟩)

/-- The names given to a sequence of requests. -/
def nexts (counters : NameCounters) : List String → List String
  | [] => []
  | base :: bases => (counters.next base).1 :: nexts (counters.next base).2 bases

theorem next_fst (counters : NameCounters) (base : String) :
    (counters.next base).1 =
      FreshNames.numbered base ((counters.counts.find? base).getD 0 + 1) := rfl

/-- After a request the counter of its base is one further, and the others stand where they did. -/
theorem find?_next (counters : NameCounters) (base other : String) :
    (counters.next base).2.counts.find? other =
      if base = other then some ((counters.counts.find? base).getD 0 + 1)
      else counters.counts.find? other :=
  counters.counts.find?_insert base other _

end NameCounters

end NodeScript
