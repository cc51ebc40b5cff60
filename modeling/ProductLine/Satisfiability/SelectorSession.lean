import ProductLine.Satisfiability.Backend
import ProductLine.Satisfiability.Engine
/-!
# Sessions with selectors

A session over an engine that decides clauses under assumptions.  To be able to check some of its
formulas only, a session with unsatisfiable cores gives each formula a selector, a variable past
its own ones, and adds every clause of the formula under the condition that the selector holds.  A
check then assumes the selectors of the formulas that take part, and the assumptions that fail
name a core.  A formula without clauses needs no selector.

* `SelectorSession.add`, `check` and `checkAmong` are the operations of a session;
* `Backend.ofEngine` is the backend whose sessions work this way, and `Backend.builtin` the one
  over our own engine.
-/
namespace ProductLine

/-- A session that keeps its formulas as clauses of an engine. -/
structure SelectorSession (μ : Type) where
  varCount : Nat
  options : SessionOptions
  /-- For each formula its selector, if it has one. -/
  selectors : Array (Option Nat)
  /-- The number of selectors handed out. -/
  selectorCount : Nat
  /-- All clauses added so far, those of a formula with a selector under its condition. -/
  clauses : Array Clause
  /-- What the engine remembers. -/
  memory : μ
  /-- The model of the last check, while it is one. -/
  model : Option (List Lit)
  /-- The ids that the last check blamed. -/
  core : Option (List Nat)

namespace SelectorSession

variable {μ : Type}

/-- A session without formulas. -/
def start (varCount : Nat) (options : SessionOptions) (memory : μ) : SelectorSession μ :=
  ⟨varCount, options, #[], 0, #[], memory, none, none⟩

/-- The clause that holds unless the selector does. -/
def guard (selector : Nat) (c : Clause) : Clause := ⟨selector, false⟩ :: c

/-- Adds a formula and gives it its position as id.  A model is out of date once a clause is
added. -/
def add (s : SelectorSession μ) (formula : ClauseSet) : Nat × SelectorSession μ :=
  let id := s.selectors.size
  if formula.clauses.isEmpty then (id, { s with selectors := s.selectors.push none })
  else if s.options.cores then
    let selector := s.varCount + s.selectorCount
    (id, { s with
      selectors := s.selectors.push (some selector)
      selectorCount := s.selectorCount + 1
      clauses := s.clauses ++ formula.clauses.map (guard selector)
      model := none })
  else
    (id, { s with
      selectors := s.selectors.push none
      clauses := s.clauses ++ formula.clauses
      model := none })

/-- The id of the formula that a selector belongs to. -/
def idOf? (s : SelectorSession μ) (l : Lit) : Option Nat := s.selectors.idxOf? (some l.var)

/-- Lets the engine decide the clauses while the given selectors hold. -/
def decide (engine : Engine μ) (s : SelectorSession μ) (selectors : List Nat) :
    Answer × SelectorSession μ :=
  let ⟨varCount, options, ids, selectorCount, clauses, memory, _, _⟩ := s
  let (outcome, memory) := engine.decide memory clauses.toList (selectors.map (⟨·, true⟩))
  let s : SelectorSession μ :=
    ⟨varCount, options, ids, selectorCount, clauses, memory, none, none⟩
  match outcome with
  | .sat model =>
      let model := model.filter (fun l => l.var < varCount)
      (.sat (some model), { s with model := some model })
  | .unsat failed =>
      let core := if options.cores then some (failed.filterMap s.idOf?) else none
      (.unsat core, { s with core := core })

/-- Checks all formulas. -/
def check (engine : Engine μ) (s : SelectorSession μ) : Answer × SelectorSession μ :=
  s.decide engine (s.selectors.toList.filterMap id)

/-- Why a check of some formulas fails in a session without cores. -/
def coreless : BackendError :=
  .failed "session was opened without unsatisfiable core support"

/-- Checks the formulas with the given ids; unknown ids name none. -/
def checkAmong (engine : Engine μ) (s : SelectorSession μ) (ids : List Nat) :
    Except BackendError Answer × SelectorSession μ :=
  if s.options.cores then
    let (answer, s) := s.decide engine (ids.filterMap (fun id => (s.selectors[id]?).join))
    (.ok answer, s)
  else (.error coreless, s)

/-- The session that has been told what the record says. -/
def ofSession (s : Session) (memory : μ) : SelectorSession μ :=
  s.formulas.foldl (fun session formula => (session.add formula).2)
    (start s.varCount s.options memory)

end SelectorSession

/-! ## Backends over an engine -/

/-- The backend that answers every check by an engine, from the record of the session and what the
engine remembers.  It can always be used. -/
def Backend.ofEngine {μ : Type} (engine : Engine μ) : Backend μ where
  opening _ _ m := (.ok (), m)
  -- The ids are those that the session gives, which numbers its formulas.
  adding s _ m := (s.told.length, m)
  checking s m :=
    let (answer, s) := (SelectorSession.ofSession s m).check engine
    (.ok answer, s.memory)
  checkingAmong s ids m :=
    let (answer, s) := (SelectorSession.ofSession s m).checkAmong engine ids
    (answer, s.memory)

/-- The backend over our own engine. -/
def Backend.builtin : Backend Memory := .ofEngine .search

end ProductLine
