import ProductLine.Solver
/-!
# Minimal unsatisfiable subsets

When the base and the stack have no model, some of their constraints already contradict each
other.  The backend names such constraints by the ids of their formulas.  They are thinned out by
leaving out one after the other: one without which the rest still has no model is dropped for
good, and one without which the rest has a model is kept.
-/
namespace ProductLine

namespace Solver

variable {ω : Type}

/-- The query that has to be answered to explain a contradiction. -/
def subsetQuery : String := "unsatisfiable subset"

/-- Thins out a core.  The ids in `kept` are needed already, those in the list are still to be
tried, and both together contradict each other. -/
def thinOut (s : Solver ω) (session : Session) (kept : List Nat) : List Nat → SolverM ω (List Nat)
  | [] => return kept
  | id :: ids => do
      match ← s.checkAmong session (kept ++ ids) with
      | .unsat _ => s.thinOut session kept ids
      | .sat _ => s.thinOut session (kept ++ [id]) ids
      | .unknown => throw (.inconclusive subsetQuery)

/-- Constraints of the base and the stack that contradict each other and of which none can be left
out, each listed once, or `none` if the base and the stack have a model. -/
def unsatSubset (s : Solver ω) : SolverM ω (Option (List Constraint)) := do
  let (session, origins) ← s.openSession { cores := true }
  match ← s.check session with
  | .sat _ => return none
  | .unsat (some core) =>
      let ids ← s.thinOut session [] core
      return some (ids.filterMap (origins.lookup ·)).eraseDups
  | .unsat none | .unknown => throw (.inconclusive subsetQuery)

end Solver

end ProductLine
