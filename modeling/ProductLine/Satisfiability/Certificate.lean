import ProductLine.Assignment
import ProductLine.Satisfiability.Search
/-!
# Checking models and unsatisfiable subsets

A model can be checked against the formulas that it should satisfy, and a subset of formulas by
looking for models of it and of its parts.  When there is only one model or minimal subset to find,
this can be seen as well.
-/
namespace ProductLine

namespace Certificate

/-- Whether some formulas have a model. -/
def satisfiable (sets : List ClauseSet) : Bool :=
  (Clause.search (sets.flatMap ClauseSet.clauses)).isSome

/-- Whether an assignment gives values to exactly the variables and satisfies the formulas. -/
def isModel (varCount : Nat) (sets : List ClauseSet) (a : Assignment) : Bool :=
  a.size == varCount && sets.all (ClauseSet.eval a.valuation)

/-- The only assignment of the variables that satisfies the formulas, if there is exactly one. -/
def onlyModel? (varCount : Nat) (sets : List ClauseSet) : Option Assignment := do
  let found ← Clause.search (sets.flatMap ClauseSet.clauses)
  let a := Assignment.ofModel found varCount
  let other := ClauseSet.ofClause (a.lits.map Lit.negate)
  if satisfiable (sets ++ [other]) then none else some a

/-- The items of a list at the given positions. -/
def pick {α : Type} (xs : List α) (positions : List Nat) : List α := positions.filterMap (xs[·]?)

/-- Whether the formulas at the given positions have no model, but have one without any single one
of them. -/
def isMinimal (sets : List ClauseSet) (positions : List Nat) : Bool :=
  !satisfiable (pick sets positions) &&
    positions.all (fun p => satisfiable (pick sets (positions.erase p)))

/-- Whether all formulas together have a model without the one at the position. -/
def isNeeded (sets : List ClauseSet) (position : Nat) : Bool :=
  satisfiable (sets.eraseIdx position)

/-- Whether every minimal subset without a model must be the one at the given positions, because
none of its formulas can be missing. -/
def isOnlySubset (sets : List ClauseSet) (positions : List Nat) : Bool :=
  positions.all (isNeeded sets)

/-- The positions of the formulas without any single one of which the others have a model. -/
def needed (sets : List ClauseSet) : List Nat :=
  (List.range sets.length).filter (isNeeded sets)

end Certificate

end ProductLine
