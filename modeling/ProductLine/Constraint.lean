import ProductLine.Formula.Infix
/-!
# Constraints

A constraint is a formula with a label.  Labels tell apart constraints that were stated
separately, even when they say the same, so that an explanation can name exactly the constraints
it was given.
-/
namespace ProductLine

/-- A formula that was stated as one constraint, told apart from all others by its label. -/
structure Constraint where
  label : Nat
  formula : Formula
deriving DecidableEq, Inhabited

namespace Constraint

/-- States each formula of a list as a constraint of its own, with labels counting from `first`. -/
def stateAll (first : Nat) : List Formula → List Constraint
  | [] => []
  | f :: fs => ⟨first, f⟩ :: stateAll (first + 1) fs

/-- The infix text of the constraint's formula. -/
def text (c : Constraint) : String := c.formula.text

/-- The text of a constraint where it is told apart from a bare formula. -/
def describe (c : Constraint) : String := "Constraint(" ++ c.text ++ ")"

@[simp] theorem length_stateAll (first : Nat) (fs : List Formula) :
    (stateAll first fs).length = fs.length := by
  induction fs generalizing first with
  | nil => rfl
  | cons f fs ih => simp [stateAll, ih]

end Constraint

end ProductLine
