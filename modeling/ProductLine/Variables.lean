import ProductLine.Clause
import ProductLine.Formula
/-!
# Names of variables

Every name is given one variable.  Variables are handed out densely in order of first insertion,
so the variable of a name is its position in the list of names.
-/
namespace ProductLine

/-! ## Causes of failure -/

/-- Why a formula has no clause form over a table of variables. -/
inductive ClauseFormError where
  /-- The formula mentions a name without a variable. -/
  | unknownVariable (name : String)
  /-- The literal has a variable without a name. -/
  | unknownLiteral (literal : Lit)
  /-- More clauses would be needed than the limit allows. -/
  | tooLarge (limit : Nat)
deriving DecidableEq, Repr

/-- The wording of a failure to find a clause form. -/
def ClauseFormError.message : ClauseFormError → String
  | .unknownVariable name => "Unknown variable '" ++ name ++ "'"
  | .unknownLiteral l => "Literal " ++ l.text ++ " does not belong to a known variable"
  | .tooLarge limit =>
      "CNF translation exceeds the limit of " ++ toString limit ++ " clauses"

/-! ## The table -/

/-- Names without repetition; the variable of a name is its position. -/
structure Variables where
  names : List String := []
deriving DecidableEq, Repr, Inhabited

namespace Variables

/-- The number of variables. -/
def size (vs : Variables) : Nat := vs.names.length

/-- The variable of a name. -/
def find? (vs : Variables) (name : String) : Option Nat := vs.names.idxOf? name

/-- The name of a variable. -/
def name? (vs : Variables) (var : Nat) : Option String := vs.names[var]?

/-- Gives the name a variable unless it has one. -/
def insert (vs : Variables) (name : String) : Variables :=
  if name ∈ vs.names then vs else ⟨vs.names ++ [name]⟩

/-- The table of the given names; a repeated name keeps the variable of its first occurrence. -/
def ofNames (names : List String) : Variables := names.foldl insert {}

/-- The literal of a name. -/
def lit (vs : Variables) (name : String) (polarity : Bool) : Except ClauseFormError Lit :=
  match vs.find? name with
  | some var => .ok ⟨var, polarity⟩
  | none => .error (.unknownVariable name)

/-- The formula over names that says what a literal says. -/
def literalFormula (vs : Variables) (l : Lit) : Except ClauseFormError Formula :=
  match vs.name? l.var with
  | some name => .ok (.literal name l.positive)
  | none => .error (.unknownLiteral l)

end Variables

end ProductLine
