import ProductLine.Formula
/-!
# The infix text of a formula

Conjunctions and disjunctions stand in parentheses with `&` and `|` between their parts; a part
that stands alone is written bare, and without parts they are written `true` and `false`.
Negation is a minus sign, and `=>` and `<=>` always stand in parentheses.
-/
namespace ProductLine

namespace Formula

/-- The texts of the parts of a conjunction or disjunction, joined by its operator. -/
def junction (operator empty : String) : List String → String
  | [] => empty
  | [part] => part
  | parts => "(" ++ operator.intercalate parts ++ ")"

mutual

/-- The infix text of a formula. -/
def text : Formula → String
  | const value => if value then "true" else "false"
  | var name => name
  | not f => "-" ++ text f
  | and fs => junction " & " "true" (texts fs)
  | or fs => junction " | " "false" (texts fs)
  | implies a b => "(" ++ text a ++ " => " ++ text b ++ ")"
  | iff a b => "(" ++ text a ++ " <=> " ++ text b ++ ")"

/-- The infix texts of a list of formulas. -/
def texts : List Formula → List String
  | [] => []
  | f :: fs => text f :: texts fs

end

end Formula

end ProductLine
