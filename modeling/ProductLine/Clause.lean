/-!
# Literals, clauses and clause sets

The variables of the solver are numbered from zero.  A literal is a variable with a polarity, a
clause is read as the disjunction of its literals, and a clause set as the conjunction of its
clauses.

* `Lit.Before` is the order of literals;
* `Clause.merge?` joins two clauses, or reports that the result is a tautology;
* `Clause.Normal` is the normal form: literals in strictly increasing order of their variables;
* `ClauseParser` is the type of what reads clauses from bytes.
-/
namespace ProductLine

/-! ## Literals -/

/-- A variable or its negation. -/
structure Lit where
  /-- The variable, counted from zero. -/
  var : Nat
  /-- Whether the literal is the variable itself. -/
  positive : Bool
deriving DecidableEq, Repr, Inhabited, Hashable

namespace Lit

/-- The opposite literal of the same variable. -/
def negate (l : Lit) : Lit := ⟨l.var, !l.positive⟩

/-- The signed number of a literal: variables count from one, and a negative literal has a minus. -/
def number (l : Lit) : Int :=
  if l.positive then (l.var + 1 : Int) else -(l.var + 1 : Int)

/-- The literal with the given signed number; zero names no literal. -/
def ofNumber? (n : Int) : Option Lit :=
  if n = 0 then none else some ⟨n.natAbs - 1, decide (0 < n)⟩

/-- The signed number in decimal. -/
def text (l : Lit) : String := toString l.number

/-- The value of a literal when the variables have the values `v`. -/
def eval (v : Nat → Bool) (l : Lit) : Bool := v l.var == l.positive

/-- The order of literals: by variable, and each variable before its negation. -/
def Before (k l : Lit) : Prop :=
  k.var < l.var ∨ k.var = l.var ∧ k.positive = true ∧ l.positive = false

instance : DecidableRel Before := fun k l =>
  inferInstanceAs
    (Decidable (k.var < l.var ∨ k.var = l.var ∧ k.positive = true ∧ l.positive = false))

@[simp] theorem negate_negate (l : Lit) : l.negate.negate = l := by
  cases l; simp [negate]

@[simp] theorem eval_negate (v : Nat → Bool) (l : Lit) : l.negate.eval v = !l.eval v := by
  cases l with
  | mk var positive => cases positive <;> simp [negate, eval]

end Lit

/-! ## Clauses -/

/-- A disjunction of literals. -/
abbrev Clause := List Lit

namespace Clause

/-- A clause is true when one of its literals is. -/
def eval (v : Nat → Bool) (c : Clause) : Bool := c.any (Lit.eval v)

/-- Literals in strictly increasing order of variables, so none occurs twice and no two oppose. -/
def Normal (c : Clause) : Prop := c.Pairwise (fun k l => k.var < l.var)

/-- Puts a literal into its place among literals in order, behind those that are the same. -/
def insert (l : Lit) : Clause → Clause
  | [] => [l]
  | k :: rest => if l.Before k then l :: k :: rest else k :: insert l rest

/-- The literals of a clause in order. -/
def inOrder (c : Clause) : Clause := c.foldr insert []

/-- Whether two literals that stand next to each other are of the same variable. -/
def neighboursClash : Clause → Bool
  | k :: l :: rest => k.var == l.var || neighboursClash (l :: rest)
  | _ => false

/-- The disjunction of two clauses; `none` if it is a tautology.  Its literals are in order and not
repeated, so that opposite ones stand next to each other. -/
def merge? (c d : Clause) : Option Clause :=
  let joined := (inOrder (c ++ d)).eraseReps
  if neighboursClash joined then none else some joined

/-- The number of variables a clause needs. -/
def varCount (c : Clause) : Nat := c.foldl (fun n l => max n (l.var + 1)) 0

/-- The number of variables that some clauses need. -/
def varCountOf (cs : List Clause) : Nat := cs.foldl (fun n c => max n c.varCount) 0

end Clause

/-! ## Clause sets -/

/-- A conjunction of clauses over the variables below `varCount`. -/
structure ClauseSet where
  varCount : Nat
  clauses : List Clause
deriving DecidableEq, Repr, Inhabited

namespace ClauseSet

/-- A clause set is true when all its clauses are. -/
def eval (v : Nat → Bool) (s : ClauseSet) : Bool := s.clauses.all (Clause.eval v)

/-- The set of one clause, over just the variables it needs. -/
def ofClause (c : Clause) : ClauseSet := ⟨c.varCount, [c]⟩

end ClauseSet

/-- A reader of clauses: from the bytes of an input to the clauses that it lists, or to the cause
why there are none.  Causes are up to the reader. -/
abbrev ClauseParser (ε : Type) : Type := List UInt8 → Except ε ClauseSet

end ProductLine
