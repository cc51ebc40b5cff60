import ProductLine.Clause
/-!
# Candidate implications

A pair of literals of which the first may force the second.
-/
namespace ProductLine

/-- The statement that whenever `forcing` is true, so is `forced`. -/
structure Implication where
  forcing : Lit
  forced : Lit
deriving DecidableEq, Repr, Inhabited

/-- Both literals by their signed numbers, with an arrow between them. -/
def Implication.text (p : Implication) : String :=
  p.forcing.text ++ " => " ++ p.forced.text

end ProductLine
