import ProductLine.Constraint
import ProductLine.Formula.ClauseForm
/-!
# Constraint stacks

Constraints that hold for a while are pushed on a stack, each with its clause form.  A constraint
that has no clause form leaves the stack as it was; one that contradicts itself is pushed all
the same and has to be popped like any other.
-/
namespace ProductLine

/-! ## Causes of failure -/

/-- Why an operation on a constraint stack failed. -/
inductive StackError where
  /-- The pushed constraint has no clause form. -/
  | clauseForm (cause : ClauseFormError)
  /-- There is nothing to pop. -/
  | empty
  /-- The stack should be cut back to a depth that it does not have. -/
  | imbalance (expected actual : Nat)
deriving DecidableEq, Repr

/-- The wording of a failed stack operation. -/
def StackError.message : StackError → String
  | .clauseForm cause => cause.message
  | .empty => "Pop from an empty constraint stack"
  | .imbalance expected actual =>
      "Constraint stack imbalance: expected depth " ++ toString expected ++ ", found " ++
        toString actual

/-- What is known about a constraint when it is pushed. -/
inductive PushOutcome where
  | applied
  /-- It conflicts with what lies below it, or with itself. -/
  | contradictory
deriving DecidableEq, Repr

/-! ## The stack -/

/-- A pushed constraint with its clause form. -/
structure StackEntry where
  source : Constraint
  formula : ClauseSet
deriving DecidableEq, Inhabited

/-- Pushed constraints, the first pushed one first. -/
abbrev ConstraintStack := List StackEntry

/-- Whether a clause is empty or two unit clauses oppose each other, where `units` are the unit
clauses seen before. -/
def ClauseSet.opposes (units : List Lit) : List Clause → Bool
  | [] => false
  | [] :: _ => true
  | [l] :: cs => l.negate ∈ units || opposes (l :: units) cs
  | (_ :: _ :: _) :: cs => opposes units cs

/-- Whether the set holds an empty clause or two opposite unit clauses. -/
def ClauseSet.triviallyUnsat (s : ClauseSet) : Bool := ClauseSet.opposes [] s.clauses

namespace ConstraintStack

/-- Puts a constraint on top, with its clause form. -/
def push (vs : Variables) (limit : Nat) (c : Constraint) (stack : ConstraintStack) :
    Except StackError (PushOutcome × ConstraintStack) :=
  match c.formula.clauseForm vs limit with
  | .error cause => .error (.clauseForm cause)
  | .ok formula =>
      .ok (if formula.triviallyUnsat then .contradictory else .applied, stack ++ [⟨c, formula⟩])

/-- Takes the topmost constraint off. -/
def pop (stack : ConstraintStack) : Except StackError (Constraint × ConstraintStack) :=
  match stack.getLast? with
  | some entry => .ok (entry.source, stack.dropLast)
  | none => .error .empty

/-- Cuts the stack back to a depth, if it is at least that deep. -/
def truncate (depth : Nat) (stack : ConstraintStack) : Except StackError ConstraintStack :=
  if stack.length < depth then .error (.imbalance depth stack.length)
  else .ok (stack.take depth)

/-- The pushed constraint at a position, counted from the bottom. -/
def sourceOf? (stack : ConstraintStack) (position : Nat) : Option Constraint :=
  (stack[position]?).map StackEntry.source

/-- The clause forms of all entries, from the bottom. -/
def formulas (stack : ConstraintStack) : List ClauseSet := stack.map StackEntry.formula

/-- The constraints of all entries, from the bottom. -/
def sources (stack : ConstraintStack) : List Constraint := stack.map StackEntry.source

end ConstraintStack

end ProductLine
