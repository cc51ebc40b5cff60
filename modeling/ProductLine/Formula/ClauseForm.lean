import ProductLine.Formula.NegationNormal
/-!
# Clause form

A formula is written as clauses without auxiliary variables: conjunctions append the clauses of
their parts, and disjunctions join every choice of one clause from each part.  Tautologies are
dropped.  The number of clauses is checked against a limit on the way, so that a clause form that
would be too large is given up early.

* `Nnf.clauses` lists the clauses of a negation normal form;
* `Formula.clauseForm` is the clause form of a formula over names.
-/
namespace ProductLine

namespace Nnf

/-- Joins every clause of one list with every clause of another, in this order.  The clauses joined
so far are listed last one first in `done`, and `count` is their number.  Fails once there are more
than `limit`. -/
def joinAll (limit : Nat) (right : List Clause) (count : Nat) (done : List Clause) :
    List Clause → Except ClauseFormError (List Clause)
  | [] => .ok done.reverse
  | c :: cs =>
      let joined := right.filterMap c.merge?
      -- Joins that are tautologies have been dropped and do not count.
      if limit < count + joined.length then .error (.tooLarge limit)
      else joinAll limit right (count + joined.length) (joined.reverse ++ done) cs

mutual

/-- The clauses of a negation normal form. -/
def clauses (limit : Nat) : Nnf → Except ClauseFormError (List Clause)
  | const value => .ok (if value then [] else [[]])
  | lit l => .ok [[l]]
  | and fs => conjoin limit 0 fs
  | or fs => disjoin limit [[]] fs

/-- The clauses of all parts in order, when `count` clauses stand before them. -/
def conjoin (limit count : Nat) : List Nnf → Except ClauseFormError (List Clause)
  | [] => .ok []
  | f :: fs => do
      let part ← clauses limit f
      if limit < count + part.length then throw (.tooLarge limit)
      let rest ← conjoin limit (count + part.length) fs
      return part ++ rest

/-- The clauses of `product` joined with every choice of one clause from each part.  The empty
clause is neutral for joining, so a disjunction starts from it alone. -/
def disjoin (limit : Nat) (product : List Clause) :
    List Nnf → Except ClauseFormError (List Clause)
  | [] => .ok product
  | f :: fs => do
      let part ← clauses limit f
      let product ← joinAll limit part 0 [] product
      disjoin limit product fs

end

end Nnf

/-- The number of clauses a single formula may have unless another limit is given. -/
def defaultClauseLimit : Nat := 100000

/-- The clauses of a formula over the variables of a table. -/
def Formula.clauseForm (vs : Variables) (limit : Nat) (f : Formula) :
    Except ClauseFormError ClauseSet := do
  let normal ← f.normalize vs true
  let clauses ← normal.clauses limit
  return ⟨vs.size, clauses⟩

end ProductLine
