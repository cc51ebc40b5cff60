import ProductLine.Assignment
/-!
# Assignments as rows of literals

A literal is looked up in one step if the assignment has a literal for every variable, each in the
place of its variable.  The literals say again what their places say, so a place may only be given
to a literal of its own variable.

* `StoredAssignment.assignment` is the assignment without the literals;
* `StoredAssignment.put` puts a literal in its place, whatever was there before;
* `StoredAssignment.ofModel` and `StoredAssignment.ofNumbers?` read literals and signed numbers.
-/
namespace ProductLine

/-- An assignment with one literal for each variable. -/
structure StoredAssignment where
  /-- The literals that are true, in the order of their variables. -/
  lits : Array Lit
  /-- Every literal is in the place of its variable. -/
  inPlace : ∀ (i : Nat) (hi : i < lits.size), lits[i].var = i
deriving DecidableEq

namespace StoredAssignment

/-! ## Looking at an assignment -/

/-- The number of variables that have a value. -/
def size (a : StoredAssignment) : Nat := a.lits.size

/-- The value of a variable, if it has one. -/
def value? (a : StoredAssignment) (var : Nat) : Option Bool := a.lits[var]?.map Lit.positive

/-- Whether the assignment makes a literal true: the literal itself is in the place of its
variable. -/
def contains (a : StoredAssignment) (l : Lit) : Bool := a.lits[l.var]? == some l

/-- The variables that are true, in increasing order. -/
def selected (a : StoredAssignment) : List Nat :=
  (a.lits.toList.filter Lit.positive).map Lit.var

/-- The signed numbers of the literals. -/
def numbers (a : StoredAssignment) : List Int := a.lits.toList.map Lit.number

/-- The signed numbers of the literals, in brackets. -/
def text (a : StoredAssignment) : String :=
  "[" ++ ", ".intercalate (a.lits.toList.map Lit.text) ++ "]"

/-- The values without the literals. -/
def assignment (a : StoredAssignment) : Assignment := ⟨a.lits.map Lit.positive⟩

/-! ## Reading literals -/

/-- All variables are false. -/
def allFalse (varCount : Nat) : StoredAssignment where
  lits := (Array.range varCount).map (fun i => ⟨i, false⟩)
  inPlace i hi := by simp

/-- Puts a literal in the place of its variable; a literal without a place is left out. -/
def put (a : StoredAssignment) (l : Lit) : StoredAssignment where
  lits := a.lits.setIfInBounds l.var l
  inPlace i hi := by
    have hi' : i < a.lits.size := by rwa [Array.size_setIfInBounds] at hi
    rw [Array.getElem_setIfInBounds hi']
    split
    · assumption
    · exact a.inPlace i hi'

/-- The assignment of `varCount` variables that a model describes: later literals win over earlier
ones, literals of other variables do not count, and open variables are false. -/
def ofModel (model : List Lit) (varCount : Nat) : StoredAssignment :=
  model.foldl put (allFalse varCount)

/-- The assignment of just the variables that some literal of a list needs. -/
def ofLits (model : List Lit) : StoredAssignment := ofModel model (Clause.varCount model)

/-- The assignment of the literals with the given signed numbers, if all of them name literals. -/
def ofNumbers? (numbers : List Int) : Option StoredAssignment :=
  (numbers.mapM Lit.ofNumber?).map ofLits

end StoredAssignment

end ProductLine
