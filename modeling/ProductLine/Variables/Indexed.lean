import ProductLine.Variables
import Std.Data.HashMap
/-!
# Tables with an index

Names are found faster in a table that has an index with the variable of each name.  The index says
again what the order of the names says already, so every insertion has to keep it up to date.

* `IndexedVariables.table` is the table alone;
* `IndexedVariables.insert` gives a name a variable unless the index has one.
-/
namespace ProductLine

/-- A table in which names do not have to be searched for. -/
structure IndexedVariables where
  /-- The names in the order of their variables. -/
  names : Array String := #[]
  /-- The variable of each name. -/
  vars : Std.HashMap String Nat := ∅

namespace IndexedVariables

/-! ## Looking at a table -/

/-- The number of variables. -/
def size (s : IndexedVariables) : Nat := s.names.size

/-- The variable that the index has for a name. -/
def find? (s : IndexedVariables) (name : String) : Option Nat := s.vars[name]?

/-- The name of a variable. -/
def name? (s : IndexedVariables) (var : Nat) : Option String := s.names[var]?

/-- The table without the index. -/
def table (s : IndexedVariables) : Variables := ⟨s.names.toList⟩

/-- The variables with their names, in order. -/
def entries (s : IndexedVariables) : List (Nat × String) :=
  s.names.toList.zipIdx.map Prod.swap

/-- The literal of a name. -/
def lit (s : IndexedVariables) (name : String) (polarity : Bool) : Except ClauseFormError Lit :=
  match s.find? name with
  | some var => .ok ⟨var, polarity⟩
  | none => .error (.unknownVariable name)

/-- The formula over names that says what a literal says. -/
def literalFormula (s : IndexedVariables) (l : Lit) : Except ClauseFormError Formula :=
  match s.name? l.var with
  | some name => .ok (.literal name l.positive)
  | none => .error (.unknownLiteral l)

/-! ## Insertion -/

/-- Gives the name a variable unless it has one, and tells which variable that is. -/
def insert (s : IndexedVariables) (name : String) : Nat × IndexedVariables :=
  match s.find? name with
  | some var => (var, s)
  | none =>
      let var := s.size
      (var, { names := s.names.push name, vars := s.vars.insert name var })

/-- Gives variables to names, one after the other. -/
def insertAll (s : IndexedVariables) (names : List String) : IndexedVariables :=
  names.foldl (fun s name => (s.insert name).2) s

/-- The table of the given names; a repeated name keeps the variable of its first occurrence. -/
def ofNames (names : List String) : IndexedVariables := insertAll {} names

end IndexedVariables

end ProductLine
