import ProductLine.Satisfiability.Experience
import ProductLine.Satisfiability.Splitting
/-!
# Searching for a model

A model of clauses is searched with learned clauses.  What such a search finds is checked.  Should
it find nothing that stands up to the check, the clauses are decided by splitting.

* `Memory.decide` decides clauses under assumptions, and remembers the search;
* `Clause.search` finds a model of clauses.
-/
namespace ProductLine

namespace Clause

/-- The clauses that say that all literals of a list hold. -/
def units (ls : List Lit) : List Clause := ls.map ([·])

/-- Decides clauses under assumptions by splitting.  All assumptions are blamed, last first. -/
def decideBySplitting (cs : List Clause) (assumptions : List Lit) : Outcome :=
  match split (units assumptions ++ cs) with
  | some model => .sat model
  | none => .unsat assumptions.reverse

end Clause

/-- Decides whether clauses have a model in which the assumptions hold. -/
def Memory.decide (m : Memory) (cs : List Clause) (assumptions : List Lit) : Outcome × Memory :=
  let (found, e) := (m.resume cs assumptions).search
  let outcome := (found.outcome? e.varCount assumptions).getD
    (Clause.decideBySplitting cs assumptions)
  (outcome, ⟨cs, e⟩)

/-- A model of clauses, as the list of literals that are true, or `none`. -/
def Clause.search (cs : List Clause) : Option (List Lit) :=
  match (Memory.empty.decide cs []).1 with
  | .sat model => some model
  | .unsat _ => none

end ProductLine
