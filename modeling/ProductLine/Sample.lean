import ProductLine.Clause
import ProductLine.Configuration
/-!
# Sampled solutions

A sampling tool gives solutions as lists of literals.  A solution selects the concrete features
whose positive literals it holds; solutions that select the same features as an earlier one are
skipped, and the others become configurations with consecutive numbers.
-/
namespace ProductLine

/-- Configurations that were read off solutions. -/
structure Sample where
  configurations : List Configuration := []
  /-- The number of solutions that were skipped. -/
  duplicates : Nat := 0
deriving DecidableEq, Repr

namespace Sample

/-- The names of the concrete features that a solution selects. -/
def selection (concreteName? : Nat → Option String) (solution : List Lit) : List String :=
  nameSet ((solution.filter Lit.positive).filterMap (fun l => concreteName? l.var))

/-- Reads solutions, where `seen` lists the selections so far and `id` is the next number. -/
def readFrom (concreteName? : Nat → Option String) (seen : List (List String)) (id : Nat) :
    List (List Lit) → Sample
  | [] => {}
  | solution :: solutions =>
      let names := selection concreteName? solution
      if names ∈ seen then
        let rest := readFrom concreteName? seen id solutions
        { rest with duplicates := rest.duplicates + 1 }
      else
        let rest := readFrom concreteName? (names :: seen) (id + 1) solutions
        { rest with configurations := ⟨id, names⟩ :: rest.configurations }

/-- The configurations of a list of solutions, numbered from `firstId`. -/
def ofSolutions (concreteName? : Nat → Option String) (firstId : Nat)
    (solutions : List (List Lit)) : Sample :=
  readFrom concreteName? [] firstId solutions

end Sample

end ProductLine
