import ProductLine.Solver
/-!
# Counting models

The assignments of some variables that extend to a model are counted up to a limit.  Every model
that is found is counted and then blocked by a clause, so that the next one differs from it in the
counted variables.
-/
namespace ProductLine

/-- The result of a count that may stop early. -/
inductive Count where
  | exact (value : Nat)
  | atLeast (value : Nat)
deriving DecidableEq, Repr

namespace Count

/-- The number that was counted. -/
def value : Count → Nat
  | exact n | atLeast n => n

/-- Whether the count is complete. -/
def isExact : Count → Bool
  | exact _ => true
  | atLeast _ => false

end Count

namespace Solver

variable {ω : Type}

/-- The clause that excludes all assignments that agree with the given one on the variables. -/
def blocking (vars : List Nat) (a : Assignment) : Clause :=
  vars.map (fun var => ⟨var, !a.valuation var⟩)

/-- Counts on, from `found` up to `room` more. -/
def countFrom (s : Solver ω) (vars : List Nat) (monitor : Monitor ω) (session : Session)
    (found : Nat) : (room : Nat) → SolverM ω Count
  -- At the limit it is not asked whether there is one more.
  | 0 => return .atLeast found
  | room + 1 => do
      if ← isCanceled monitor then return .atLeast found
      match ← s.check session with
      | .unsat _ => return .exact found
      | .unknown | .sat none => return .atLeast found
      | .sat (some model) =>
          -- What the model leaves open is false, also for what is blocked.
          let block := blocking vars (.ofModel model s.base.varCount)
          let session ← s.addFormula session (.ofClause block)
          s.countFrom vars monitor session (found + 1) room

/-- Counts the assignments of the variables that extend to a model of the base and the stack, up
to a limit. -/
def count (s : Solver ω) (vars : List Nat) (limit : Nat) (monitor : Monitor ω) :
    SolverM ω Count := do
  let (session, _) ← s.openSession { models := true }
  s.countFrom vars monitor session 0 limit

end Solver

end ProductLine
