import ProductLine.Clause
/-!
# Assignments

An assignment gives a value to every variable below its size.  It is built from the literals of a
model, where the last literal of a variable decides and a variable that is left open is false.
-/
namespace ProductLine

/-- A value for each of the first `size` variables. -/
structure Assignment where
  values : Array Bool
deriving DecidableEq, Repr, Inhabited

namespace Assignment

/-- The number of variables that have a value. -/
def size (a : Assignment) : Nat := a.values.size

/-- Gives a literal's variable the value that makes the literal true, if it has a value at all. -/
def satisfy (a : Assignment) (l : Lit) : Assignment :=
  ⟨a.values.setIfInBounds l.var l.positive⟩

/-- The assignment of `varCount` variables that a model describes: later literals win over earlier
ones, literals of other variables do not count, and open variables are false. -/
def ofModel (model : List Lit) (varCount : Nat) : Assignment :=
  model.foldl satisfy ⟨Array.replicate varCount false⟩

/-- The assignment of just the variables that some literal of a list needs. -/
def ofLits (model : List Lit) : Assignment := ofModel model (Clause.varCount model)

/-- The value of a variable, if it has one. -/
def value? (a : Assignment) (var : Nat) : Option Bool := a.values[var]?

/-- Whether the assignment makes a literal true; a literal without a value is not true. -/
def contains (a : Assignment) (l : Lit) : Bool := a.value? l.var == some l.positive

/-- The literals that the assignment makes true, in order of their variables. -/
def lits (a : Assignment) : List Lit :=
  a.values.toList.zipIdx.map (fun (positive, var) => ⟨var, positive⟩)

/-- The variables that are true, in increasing order. -/
def selected (a : Assignment) : List Nat :=
  (a.lits.filter Lit.positive).map Lit.var

/-- The assignment as a valuation of all variables; those without a value are false. -/
def valuation (a : Assignment) (var : Nat) : Bool := (a.value? var).getD false

/-- The signed numbers of the literals, in brackets. -/
def text (a : Assignment) : String :=
  "[" ++ ", ".intercalate (a.lits.map Lit.text) ++ "]"

end Assignment

end ProductLine
