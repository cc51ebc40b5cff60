import ProductLine.Build.Choices
import ProductLine.Configuration
/-!
# Feature interactions

A configuration decides each of a list of names: the name is selected or not.  An interaction of
strength `t` is a combination of `t` such decisions.  The decision about the name at position `i`
has the code `2 * i` if the name is selected and `2 * i + 1` if not.

* `Configuration.codes?` are the codes of a configuration's decisions;
* `Configuration.visitInteractions?` acts on the interactions of a configuration one after the
  other, and `Configuration.interactions` lists them.
-/
namespace ProductLine

/-- The position of a name when positions count from `first`, the last one if it is repeated. -/
def positionFrom? (name : String) (first : Nat) : List String → Option Nat
  | [] => none
  | n :: ns => (positionFrom? name (first + 1) ns).or (if n = name then some first else none)

namespace Configuration

/-- Marks the decision about a name as selected, if there is one. -/
def mark? (names : List String) (codes : Array Nat) (name : String) : Option (Array Nat) :=
  match positionFrom? name 0 names with
  | some i => Choice.put? codes i (2 * i)
  | none => some codes

/-- The codes of a configuration's decisions about some names. -/
def codes? (c : Configuration) (names : List String) : Option (Array Nat) :=
  c.features.foldlM (mark? names) ((Array.range names.length).map (2 * · + 1))

/-- Acts on one interaction of a configuration after the other.  If there are fewer names than the
strength asks for, there is one interaction of all of them; there is none for strength zero or
without names. -/
def visitInteractions? {σ : Type} (action : σ → List Nat → σ) (c : Configuration)
    (names : List String) (strength : Nat) (state : σ) : Option σ := do
  let codes ← c.codes? names
  let strength := min strength codes.size
  if strength = 0 then return state
  else Choice.visitFrom? action codes (Array.range strength) state

/-- The interactions of a configuration. -/
def interactions (c : Configuration) (names : List String) (strength : Nat) : List (List Nat) :=
  ((c.visitInteractions? Array.push names strength #[]).getD #[]).toList

end Configuration

end ProductLine
