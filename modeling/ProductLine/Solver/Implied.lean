import ProductLine.ModelCache
import ProductLine.Solver
/-!
# Implied literals

A literal forces another if every model of the base and the stack that makes the first true makes
the second true.  Candidates are tested in order.  One that a cached model refutes needs no query;
for any other, its first literal and the negation of its second are pushed, and there must be no
model left.  A base without models, or one of which nothing is known, implies nothing.

* `Solver.implied` tests a list of candidates;
* `Solver.impliedInChunks` splits the list into chunks that are tested independently.
-/
namespace ProductLine

/-- The most models that are cached unless another bound is given. -/
def defaultSolutionBuffer : Nat := 1000

namespace Solver

variable {ω : Type}

/-- What is known about a candidate after its test. -/
inductive Finding where
  | implied
  /-- There is a counterexample. -/
  | refuted (model : Assignment)
  /-- The test was inconclusive. -/
  | unknown
deriving DecidableEq, Repr

/-- Assumes some literals and looks for a model.  There is none if an assumption is contradictory
at once; nothing is known if one cannot be made. -/
def testUnder (s : Solver ω) : List Lit → SolverM ω Finding
  | [] => do
      match ← s.solve with
      | .unsat => return .implied
      | .unknown => return .unknown
      | .sat model => return .refuted model
  | l :: ls => do
      match ← attempt (s.pushLit l) with
      | .ok .applied => s.testUnder ls
      | .ok .contradictory => return .implied
      | .error _ => return .unknown

/-- Tests a candidate and leaves the stack as it was. -/
def test (s : Solver ω) (p : Implication) : SolverM ω Finding :=
  inScope (s.testUnder [p.forcing, p.forced.negate])

/-- The implied ones of a list of candidates, up to the first at which the monitor cancels. -/
def impliedFrom (s : Solver ω) (monitor : Monitor ω) (cache : ModelCache) :
    List Implication → SolverM ω (List Implication)
  | [] => return []
  | p :: ps => do
      if ← isCanceled monitor then return []
      -- A cached model that refutes the candidate saves a query.
      if cache.refutes p then s.impliedFrom monitor cache ps
      else
        match ← s.test p with
        | .implied => return p :: (← s.impliedFrom monitor cache ps)
        | .refuted model => s.impliedFrom monitor (cache.add model) ps
        | .unknown => s.impliedFrom monitor cache ps

/-- The candidates that the base and the stack imply, in order, with at most `buffer` models
cached. -/
def implied (s : Solver ω) (buffer : Nat) (monitor : Monitor ω) (ps : List Implication) :
    SolverM ω (List Implication) := do
  if ps.isEmpty then return []
  if ← isCanceled monitor then return []
  match ← s.findModel with
  | none => return []
  | some model => s.impliedFrom monitor ((ModelCache.forRequests ps.length buffer).add model) ps

/-! ## Chunks -/

/-- The consecutive pieces of a list that have `size` items each, except perhaps the last. -/
def chunks {α : Type} (size : Nat) (xs : List α) : List (List α) :=
  (List.range ((xs.length + size - 1) / size)).map (fun i => (xs.drop (i * size)).take size)

/-- The pieces that `threads` threads work on. -/
def share {α : Type} (threads : Nat) (xs : List α) : List (List α) :=
  if threads ≤ 1 ∨ xs.length < 2 then [xs]
  else chunks ((xs.length + threads - 1) / threads) xs

/-- Runs a computation on each item from a fresh solver state; all of them run, also if one
fails. -/
def runEach {α β : Type} (s : Solver ω) (run : α → SolverM ω β) :
    List α → ω → List (Except AnalysisError β) × ω
  | [], w => ([], w)
  | x :: xs, w =>
      let (result, w) :=
        match run x (s.start w) with
        | .ok b st => (Except.ok b, st.world)
        | .error e st => (Except.error e, st.world)
      let (results, w) := runEach s run xs w
      (result :: results, w)

/-- All results joined, or the first failure. -/
def gather {α : Type} : List (Except AnalysisError (List α)) → Except AnalysisError (List α)
  | [] => .ok []
  | result :: results => do
      let xs ← result
      let rest ← gather results
      return xs ++ rest

/-- The candidates that the base implies, in order, tested in one chunk for each thread. -/
def impliedInChunks (s : Solver ω) (threads buffer : Nat) (monitor : Monitor ω)
    (ps : List Implication) (w : ω) : Except AnalysisError (List Implication) × ω :=
  let (results, w) := s.runEach (s.implied buffer monitor) (share threads ps) w
  (gather results, w)

end Solver

end ProductLine
