/-!
# Configurations

A configuration is a product to be built: the names of its concrete features, as a set, and a
number.  Names are kept in the order of their code points.
-/
namespace ProductLine

/-! ## Sets of names -/

/-- Puts a name in its place among names in increasing order, unless it is there. -/
def insertName (name : String) : List String → List String
  | [] => [name]
  | n :: ns =>
      if name < n then name :: n :: ns
      else if name = n then n :: ns
      else n :: insertName name ns

/-- The names of a list in increasing order and without repetition. -/
def nameSet (names : List String) : List String := names.foldr insertName []

/-! ## Configurations -/

/-- A numbered set of feature names. -/
structure Configuration where
  id : Nat
  /-- The names in increasing order, each once. -/
  features : List String
deriving DecidableEq, Repr, Inhabited

namespace Configuration

/-- The configuration of the given names. -/
def ofNames (id : Nat) (names : List String) : Configuration := ⟨id, nameSet names⟩

/-- The number of features. -/
def size (c : Configuration) : Nat := c.features.length

/-- The number of names that are in exactly one of two configurations. -/
def distance (c d : Configuration) : Nat :=
  (c.features.filter (· ∉ d.features)).length + (d.features.filter (· ∉ c.features)).length

/-- A number in decimal, with zeros in front up to five digits. -/
def paddedId (id : Nat) : String :=
  let digits := toString id
  String.ofList (List.replicate (5 - digits.length) '0') ++ digits

/-- The padded number, and each name after a space. -/
def text (c : Configuration) : String :=
  paddedId c.id ++ String.join (c.features.map (" " ++ ·))

end Configuration

end ProductLine
