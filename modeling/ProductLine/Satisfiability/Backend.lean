import ProductLine.Clause
/-!
# Backends

A backend answers the satisfiability questions of a session.  A session is the record of what it
has been told: how many variables there are, what has to be answered besides satisfiability, and
the formulas so far, each with the id that the backend gave it.

A backend acts on a world, which is whatever it depends on and changes.  It may refuse to open a
session, any check may fail, and an answer may come without a model or core.
-/
namespace ProductLine

/-! ## Causes of failure -/

/-- Why a backend gave no answer. -/
inductive BackendError where
  /-- The backend cannot be used at all. -/
  | unavailable (reason : String)
  | timeout
  | interrupted
  | failed (reason : String)
deriving DecidableEq, Repr

namespace BackendError

/-- The wording of a backend's failure. -/
def message : BackendError → String
  | unavailable reason => "Satisfiability backend unavailable: " ++ reason
  | timeout => "Satisfiability query timed out"
  | interrupted => "Satisfiability query interrupted"
  | failed reason => "Satisfiability query failed: " ++ reason

/-- Whether the failure ends a whole analysis, and not just the query at hand. -/
def isFatal : BackendError → Bool
  | unavailable _ => true
  | timeout | interrupted | failed _ => false

end BackendError

/-! ## Sessions -/

/-- What a session has to answer besides satisfiability. -/
structure SessionOptions where
  models : Bool := false
  cores : Bool := false
deriving DecidableEq, Repr

/-- What a session has been told. -/
structure Session where
  varCount : Nat
  options : SessionOptions
  /-- The formulas in the order in which they were added, each with its id. -/
  told : List (Nat × ClauseSet)
deriving DecidableEq, Repr

namespace Session

/-- A session that has been told no formula. -/
def start (varCount : Nat) (options : SessionOptions) : Session := ⟨varCount, options, []⟩

/-- The session after one more formula, which was given the id. -/
def add (s : Session) (id : Nat) (formula : ClauseSet) : Session :=
  { s with told := s.told ++ [(id, formula)] }

/-- The ids of all formulas. -/
def ids (s : Session) : List Nat := s.told.map Prod.fst

/-- All formulas. -/
def formulas (s : Session) : List ClauseSet := s.told.map Prod.snd

/-- The formula with an id, if there is one. -/
def formula? (s : Session) (id : Nat) : Option ClauseSet := s.told.lookup id

/-- The formulas with the given ids; unknown ids name none. -/
def among (s : Session) (ids : List Nat) : List ClauseSet := ids.filterMap s.formula?

end Session

/-- A conclusive answer to a check. -/
inductive Answer where
  /-- The formulas hold together, in the model if one is given. -/
  | sat (model : Option (List Lit))
  /-- The formulas contradict each other, and those with the ids already do if they are given. -/
  | unsat (core : Option (List Nat))
deriving DecidableEq, Repr

/-! ## Backends -/

/-- Something that opens sessions and answers their checks, acting on a world. -/
structure Backend (ω : Type) where
  /-- Opens a session over the given number of variables. -/
  opening : Nat → SessionOptions → ω → Except BackendError Unit × ω
  /-- Is told that a formula is added to a session, and gives it an id. -/
  adding : Session → ClauseSet → ω → Nat × ω
  /-- Checks all formulas of a session. -/
  checking : Session → ω → Except BackendError Answer × ω
  /-- Checks the formulas of a session that have the given ids. -/
  checkingAmong : Session → List Nat → ω → Except BackendError Answer × ω

/-- The backend that acts on the first half of a world and leaves the second alone. -/
def Backend.besides {ω : Type} (τ : Type) (b : Backend ω) : Backend (ω × τ) where
  opening varCount options w :=
    let (result, world) := b.opening varCount options w.1
    (result, world, w.2)
  adding s formula w :=
    let (id, world) := b.adding s formula w.1
    (id, world, w.2)
  checking s w :=
    let (result, world) := b.checking s w.1
    (result, world, w.2)
  checkingAmong s ids w :=
    let (result, world) := b.checkingAmong s ids w.1
    (result, world, w.2)

end ProductLine
