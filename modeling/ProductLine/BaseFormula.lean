import ProductLine.Constraint
import ProductLine.Formula.ClauseForm
import ProductLine.Propagation
/-!
# Base formulas

The constraints that every query starts from, with their clauses.  Unit propagation on them fixes
the values of some variables, and may already show that they contradict each other.
-/
namespace ProductLine

/-- Constraints with their clause forms and with the values that propagation fixes. -/
structure BaseFormula where
  vars : Variables
  constraints : List Constraint
  /-- The clause form of each constraint. -/
  formulas : List ClauseSet
  /-- The most clauses that a constraint may have. -/
  clauseLimit : Nat
  propagated : Fixed.Propagated

namespace BaseFormula

/-- The clause forms of all constraints, up to the first that has none. -/
def clauseForms (vs : Variables) (limit : Nat) :
    List Constraint → Except ClauseFormError (List ClauseSet)
  | [] => .ok []
  | c :: cs => do
      let formula ← c.formula.clauseForm vs limit
      let formulas ← clauseForms vs limit cs
      return formula :: formulas

/-- Brings the constraints into clause form and propagates the values that they fix. -/
def build (vs : Variables) (limit : Nat) (constraints : List Constraint) :
    Except ClauseFormError BaseFormula := do
  let formulas ← clauseForms vs limit constraints
  return {
    vars := vs
    constraints := constraints
    formulas := formulas
    clauseLimit := limit
    propagated := Fixed.propagate vs.size (formulas.flatMap ClauseSet.clauses) }

/-- The number of variables. -/
def varCount (base : BaseFormula) : Nat := base.vars.size

/-- The literals that propagation fixes, in order of their variables. -/
def impliedLits (base : BaseFormula) : List Lit := base.propagated.fixed.lits

/-- Whether propagation alone shows that the constraints contradict each other. -/
def triviallyUnsat (base : BaseFormula) : Bool := base.propagated.conflict

/-- Whether some clause is false under the fixed values. -/
def refutes (base : BaseFormula) (s : ClauseSet) : Bool :=
  s.clauses.any (fun c =>
    c.all (fun l => base.propagated.fixed.litValue? l == some false))

end BaseFormula

end ProductLine
