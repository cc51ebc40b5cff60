import ProductLine.Variables
/-!
# Negation normal form

Negations are pushed down to the variables, implications and equivalences become conjunctions and
disjunctions, and every name is replaced by its variable.

* `Formula.normalize` gives the normal form of a formula or of its negation;
* `Nnf.eval` is the meaning of a normal form.
-/
namespace ProductLine

/-- A formula without negations except in its literals. -/
inductive Nnf where
  | const (value : Bool)
  | lit (literal : Lit)
  | and (parts : List Nnf)
  | or (parts : List Nnf)
deriving Repr, Inhabited

namespace Nnf

mutual

/-- The value of a normal form when the variables have the values `v`. -/
def eval (v : Nat → Bool) : Nnf → Bool
  | const value => value
  | lit l => l.eval v
  | and fs => evalAll v fs
  | or fs => evalAny v fs

/-- Whether all parts are true. -/
def evalAll (v : Nat → Bool) : List Nnf → Bool
  | [] => true
  | f :: fs => eval v f && evalAll v fs

/-- Whether some part is true. -/
def evalAny (v : Nat → Bool) : List Nnf → Bool
  | [] => false
  | f :: fs => eval v f || evalAny v fs

end

/-- A conjunction, or by De Morgan's law the disjunction that stands for it when negated. -/
def junction (conjunctive : Bool) (parts : List Nnf) : Nnf :=
  if conjunctive then and parts else or parts

end Nnf

namespace Formula

mutual

/-- The negation normal form of a formula (`polarity` true) or of its negation. -/
def normalize (vs : Variables) (polarity : Bool) : Formula → Except ClauseFormError Nnf
  | const value => .ok (.const (value == polarity))
  | var name => do
      let l ← vs.lit name polarity
      return .lit l
  | not f => normalize vs (!polarity) f
  | and fs => do
      let parts ← normalizeAll vs polarity fs
      return .junction polarity parts
  | or fs => do
      let parts ← normalizeAll vs polarity fs
      return .junction (!polarity) parts
  | implies a b => do
      let premise ← normalize vs (!polarity) a
      let conclusion ← normalize vs polarity b
      -- It says that the premise is false or the conclusion true.
      return .junction (!polarity) [premise, conclusion]
  | iff a b => do
      let aTrue ← normalize vs true a
      let aFalse ← normalize vs false a
      let bTrue ← normalize vs true b
      let bFalse ← normalize vs false b
      return if polarity then .and [.or [aFalse, bTrue], .or [aTrue, bFalse]]
        else .or [.and [aTrue, bFalse], .and [aFalse, bTrue]]

/-- The normal forms of a list of formulas, up to the first that has none. -/
def normalizeAll (vs : Variables) (polarity : Bool) :
    List Formula → Except ClauseFormError (List Nnf)
  | [] => .ok []
  | f :: fs => do
      let part ← normalize vs polarity f
      let parts ← normalizeAll vs polarity fs
      return part :: parts

end

end Formula

end ProductLine
