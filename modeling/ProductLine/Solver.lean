import ProductLine.Assignment
import ProductLine.BaseFormula
import ProductLine.ConstraintStack
import ProductLine.Monitor
import ProductLine.Satisfiability.Backend
/-!
# Incremental solvers

A solver asks queries about a base formula together with the constraints on a stack.  Every query
opens a session of its own, which is told the base and the stack.

* `Solver.push`, `pushLit` and `pop` change the stack;
* `Solver.inScope` runs a computation and cuts the stack back to where it was;
* `Solver.isSatisfiable`, `solve` and `findModel` ask queries.

Only an unavailable backend fails a query.  Every other failure leaves it unanswered, which is a
result like any other.
-/
namespace ProductLine

/-! ## Causes of failure -/

/-- Why an analysis failed. -/
inductive AnalysisError where
  /-- The backend could not be used. -/
  | unavailable (reason : String)
  /-- A query that needs an answer had none. -/
  | inconclusive (query : String)
  | stack (cause : StackError)
  | clauseForm (cause : ClauseFormError)
deriving DecidableEq, Repr

/-- The wording of a failed analysis. -/
def AnalysisError.message : AnalysisError → String
  | .unavailable reason => "Satisfiability backend unavailable: " ++ reason
  | .inconclusive query => "No conclusive result for the " ++ query ++ " query"
  | .stack cause => cause.message
  | .clauseForm cause => cause.message

/-! ## Solvers -/

/-- A base formula and the backend that answers queries about it. -/
structure Solver (ω : Type) where
  backend : Backend ω
  base : BaseFormula

/-- What changes while a solver is used. -/
structure SolverState (ω : Type) where
  stack : ConstraintStack
  /-- The label of the next constraint that the solver states itself. -/
  nextLabel : Nat
  world : ω

/-- Computations with a solver.  A failure keeps the state in which it happened. -/
abbrev SolverM (ω : Type) := EStateM AnalysisError (SolverState ω)

namespace Solver

variable {ω : Type} {α : Type}

/-- The state in which nothing is pushed. -/
def start (s : Solver ω) (w : ω) : SolverState ω :=
  ⟨[], (s.base.constraints.map (·.label + 1)).foldl max 0, w⟩

/-! ## The stack -/

/-- Pushes a constraint.  It is contradictory in itself, or because the base is, or because a
clause of it is false under the values that the base fixes. -/
def push (s : Solver ω) (c : Constraint) : EStateM StackError (SolverState ω) PushOutcome :=
  fun st =>
    match st.stack.push s.base.vars s.base.clauseLimit c with
    | .error cause => .error cause st
    | .ok (outcome, stack) =>
        let contradictory :=
          s.base.triviallyUnsat || (stack.getLast?.any (fun entry => s.base.refutes entry.formula))
        .ok (if contradictory then .contradictory else outcome) { st with stack := stack }

/-- States a formula as a new constraint and pushes it. -/
def pushFormula (s : Solver ω) (f : Formula) : EStateM StackError (SolverState ω) PushOutcome :=
  fun st => s.push ⟨st.nextLabel, f⟩ { st with nextLabel := st.nextLabel + 1 }

/-- Pushes a constraint that says that the literal is true. -/
def pushLit (s : Solver ω) (l : Lit) : EStateM StackError (SolverState ω) PushOutcome :=
  fun st =>
    match s.base.vars.literalFormula l with
    | .error cause => .error (.clauseForm cause) st
    | .ok f => s.pushFormula f st

/-- Takes the topmost constraint off the stack. -/
def pop : EStateM StackError (SolverState ω) Constraint :=
  fun st =>
    match st.stack.pop with
    | .error cause => .error cause st
    | .ok (c, stack) => .ok c { st with stack := stack }

/-- Cuts the stack back to a depth, if it is that deep. -/
def truncate (depth : Nat) : EStateM StackError (SolverState ω) PUnit :=
  fun st =>
    match st.stack.truncate depth with
    | .error cause => .error cause st
    | .ok stack => .ok ⟨⟩ { st with stack := stack }

/-- Runs a computation, and then cuts the stack back to the depth that it had, also if the
computation fails.  If the computation took off more than it put on, the stack is left as it is;
that is reported unless the computation failed anyway. -/
def inScope (body : SolverM ω α) : SolverM ω α :=
  fun st =>
    match body st with
    | .ok a st' =>
        match truncate st.stack.length st' with
        | .ok _ st' => .ok a st'
        | .error cause st' => .error (.stack cause) st'
    | .error e st' =>
        match truncate st.stack.length st' with
        | .ok _ st' => .error e st'
        -- An imbalance does not hide why the computation failed.
        | .error _ st' => .error e st'

/-- Runs a stack operation and gives its failure as a result. -/
def attempt (operation : EStateM StackError (SolverState ω) α) :
    SolverM ω (Except StackError α) :=
  fun st =>
    match operation st with
    | .ok a st => .ok (.ok a) st
    | .error cause st => .ok (.error cause) st

/-- Runs a stack operation as part of an analysis. -/
def require (operation : EStateM StackError (SolverState ω) α) : SolverM ω α :=
  fun st =>
    match operation st with
    | .ok a st => .ok a st
    | .error cause st => .error (.stack cause) st

/-- Lets the world answer. -/
def ask (question : ω → α × ω) : SolverM ω α :=
  fun st =>
    let (a, w) := question st.world
    .ok a { st with world := w }

/-- Asks the monitor whether the analysis is canceled. -/
def isCanceled (monitor : Monitor ω) : SolverM ω Bool := ask monitor

/-! ## Sessions -/

/-- The constraints that the formulas of a session come from, by the ids of the formulas, the last
one first. -/
abbrev Origins := List (Nat × Constraint)

/-- Tells a session the clause forms of some constraints, and notes which id each constraint got. -/
def tellAll (b : Backend ω) :
    List (Constraint × ClauseSet) → Session → Origins → ω → (Session × Origins) × ω
  | [], session, origins, w => ((session, origins), w)
  | (c, formula) :: stated, session, origins, w =>
      let (id, w) := b.adding session formula w
      tellAll b stated (session.add id formula) ((id, c) :: origins) w

/-- The constraints of the base and of a stack, each with its clause form. -/
def stated (s : Solver ω) (stack : ConstraintStack) : List (Constraint × ClauseSet) :=
  s.base.constraints.zip s.base.formulas ++ stack.map (fun entry => (entry.source, entry.formula))

/-- Opens a session that is told the base and the stack.  Every failure to do so means that the
backend cannot be used, and is reported in full. -/
def openSession (s : Solver ω) (options : SessionOptions) : SolverM ω (Session × Origins) :=
  fun st =>
    match s.backend.opening s.base.varCount options st.world with
    | (.error cause, w) => .error (.unavailable cause.message) { st with world := w }
    | (.ok _, w) =>
        let (opened, w) :=
          tellAll s.backend (s.stated st.stack) (.start s.base.varCount options) [] w
        .ok opened { st with world := w }

/-- Tells a session one more formula. -/
def addFormula (s : Solver ω) (session : Session) (formula : ClauseSet) : SolverM ω Session :=
  fun st =>
    let (id, w) := s.backend.adding session formula st.world
    .ok (session.add id formula) { st with world := w }

/-- What is known after a check. -/
inductive Verdict where
  | sat (model : Option (List Lit))
  | unsat (core : Option (List Nat))
  /-- The backend gave no answer. -/
  | unknown
deriving DecidableEq, Repr

/-- What an answer of the backend means.  Only an unavailable backend fails the analysis. -/
def verdict : Except BackendError Answer → Except AnalysisError Verdict
  | .ok (.sat model) => .ok (.sat model)
  | .ok (.unsat core) => .ok (.unsat core)
  | .error (.unavailable reason) => .error (.unavailable reason)
  | .error .timeout | .error .interrupted | .error (.failed _) => .ok .unknown

/-- Lets the backend answer a check. -/
def answered (question : ω → Except BackendError Answer × ω) : SolverM ω Verdict :=
  fun ⟨stack, nextLabel, w⟩ =>
    let (answer, w) := question w
    match verdict answer with
    | .ok v => .ok v ⟨stack, nextLabel, w⟩
    | .error e => .error e ⟨stack, nextLabel, w⟩

/-- Checks all formulas of a session. -/
def check (s : Solver ω) (session : Session) : SolverM ω Verdict :=
  answered (s.backend.checking session)

/-- Checks the formulas of a session that have the given ids. -/
def checkAmong (s : Solver ω) (session : Session) (ids : List Nat) : SolverM ω Verdict :=
  answered (s.backend.checkingAmong session ids)

/-! ## Queries -/

/-- Whether the base and the stack have a model. -/
inductive Satisfiability where
  | sat
  | unsat
  | unknown
deriving DecidableEq, Repr

/-- Whether the base and the stack have a model, with the model. -/
inductive Solution where
  | sat (model : Assignment)
  | unsat
  | unknown
deriving DecidableEq, Repr

/-- The model, if there is one. -/
def Solution.model? : Solution → Option Assignment
  | sat model => some model
  | unsat | unknown => none

/-- Asks whether the base and the stack have a model. -/
def isSatisfiable (s : Solver ω) : SolverM ω Satisfiability := do
  let (session, _) ← s.openSession {}
  match ← s.check session with
  | .sat _ => return .sat
  | .unsat _ => return .unsat
  | .unknown => return .unknown

/-- Asks for a model of the base and the stack.  An answer without a model is none. -/
def solve (s : Solver ω) : SolverM ω Solution := do
  let (session, _) ← s.openSession { models := true }
  match ← s.check session with
  | .sat (some model) => return .sat (.ofModel model s.base.varCount)
  | .sat none => return .unknown
  | .unsat _ => return .unsat
  | .unknown => return .unknown

/-- A model of the base and the stack; `none` if there is none or none was found. -/
def findModel (s : Solver ω) : SolverM ω (Option Assignment) := do
  return (← s.solve).model?

end Solver

end ProductLine
