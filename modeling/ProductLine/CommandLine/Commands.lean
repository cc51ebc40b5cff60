import ProductLine.Analysis
import ProductLine.Build.Buffer
import ProductLine.CommandLine.Report
import ProductLine.Sample
import ProductLine.Satisfiability.SelectorSession
/-!
# Commands

The commands of the tool, as functions from the clauses that were read to what is printed.

* `Command.solve` finds a model or explains why there is none;
* `Command.implied` finds implications and explains them;
* `Command.count` counts configurations;
* `Command.order` lists configurations in build order.
-/
namespace ProductLine

namespace NamedCnf

/-- A solver over the clauses, with our own engine. -/
def solver (cnf : NamedCnf) (options : Options) : Except ToolError (Solver Memory) :=
  match cnf.baseFormula options.clauseLimit with
  | .error cause => .error (.clauseForm cause)
  | .ok base => .ok ⟨.builtin, base⟩

end NamedCnf

/-- The result of a computation from a fresh solver. -/
def Solver.evaluate {α : Type} (s : Solver Memory) (body : SolverM Memory α) : Except ToolError α :=
  match body (s.start .empty) with
  | .ok a _ => .ok a
  | .error cause _ => .error (.analysis cause)

namespace Command

/-! ## Explanations -/

/-- Constraints as comment lines, in the order of their texts. -/
def explanationLines (constraints : List Constraint) : List String :=
  ((constraints.map Constraint.text).mergeSort (fun a b => decide (a ≤ b))).map ("c   " ++ ·)

/-- The lines that explain a contradiction; none if there is nothing to explain. -/
def explanation (subset : Option (List Constraint)) : List String :=
  subset.elim [] explanationLines

/-! ## Solving -/

/-- The line that shows a model. -/
def modelLine (a : Assignment) : String :=
  "v" ++ String.join (a.lits.map (" " ++ ·.text)) ++ " 0"

/-- Finds a model, or says that there is none and perhaps explains it. -/
def solveReport (cnf : NamedCnf) (options : Options) (explain : Bool) :
    Except ToolError Report := do
  let s ← cnf.solver options
  match ← s.evaluate s.solve with
  | .sat model => return ⟨10, ["s SATISFIABLE", modelLine model]⟩
  | .unknown => return .success ["s UNKNOWN"]
  | .unsat =>
      if explain then
        match s.evaluate s.unsatSubset with
        | .ok subset => return ⟨20, "s UNSATISFIABLE" :: explanation subset⟩
        | .error cause => return .failure ["s UNSATISFIABLE"] cause
      else return ⟨20, ["s UNSATISFIABLE"]⟩

/-! ## Implications -/

/-- Reads a candidate implication: two literals with a colon between them. -/
def parsePair (cnf : NamedCnf) (text : String) : Except ToolError Implication :=
  let cs := text.toList
  match cs.dropWhile (· ≠ ':') with
  | [] => .error (.malformedPair text)
  | _ :: forced => do
      let forcing ← (cnf.parseLit (String.ofList (cs.takeWhile (· ≠ ':')))).mapError .clauseForm
      let forced ← (cnf.parseLit (String.ofList forced)).mapError .clauseForm
      return ⟨forcing, forced⟩

/-- Reads candidate implications up to the first that cannot be read. -/
def parsePairs (cnf : NamedCnf) : List String → Except ToolError (List Implication)
  | [] => .ok []
  | text :: texts => do
      let p ← parsePair cnf text
      let ps ← parsePairs cnf texts
      return p :: ps

/-- All implications between two different variables of a list. -/
def allPairs (vars : List Nat) : List Implication :=
  vars.flatMap (fun forcing =>
    (vars.filter (· ≠ forcing)).map (fun forced => ⟨⟨forcing, true⟩, ⟨forced, true⟩⟩))

/-- An implication by the names of its variables. -/
def pairLine (cnf : NamedCnf) (p : Implication) : String :=
  cnf.showLit p.forcing ++ " => " ++ cnf.showLit p.forced

/-- Shows implications with their explanations, up to the first that cannot be explained. -/
def explainedReport (cnf : NamedCnf) (s : Solver Memory) (printed : List String) :
    List Implication → Report
  | [] => .success printed
  | p :: ps =>
      let printed := printed ++ [pairLine cnf p]
      match s.evaluate (Analysis.explain s p) with
      | .ok subset => explainedReport cnf s (printed ++ explanation subset) ps
      | .error cause => .failure printed cause

/-- Tests candidate implications, by default all between concrete variables, and shows those that
are implied. -/
def impliedReport (cnf : NamedCnf) (options : Options) (parallelism : Nat) (explain : Bool)
    (pairs : List String) : Except ToolError Report := do
  let given ← parsePairs cnf pairs
  let candidates := if given.isEmpty then allPairs cnf.concreteVars else given
  let s ← cnf.solver options
  let (result, _) :=
    s.impliedInChunks (options.workerCount parallelism) options.solutionBuffer .never candidates
      .empty
  let implied ← result.mapError .analysis
  if explain then return explainedReport cnf s [] implied
  else return .success (implied.map (pairLine cnf))

/-! ## Counting -/

/-- Counts the assignments of the concrete variables that extend to a model. -/
def countReport (cnf : NamedCnf) (options : Options) : Except ToolError Report := do
  let s ← cnf.solver options
  match ← s.evaluate (s.count cnf.concreteVars options.countLimit .never) with
  | .exact n => return .success ["s exact " ++ toString n]
  | .atLeast n => return .success ["s at-least " ++ toString n]

/-! ## Ordering -/

/-- Lists sampled solutions as configurations in build order. -/
def orderReport (cnf : NamedCnf) (options : Options) (solutions : List UInt8) :
    Except ToolError Report := do
  let solutions ← (Dimacs.parse solutions).mapError .solutions
  let sample := Sample.ofSolutions cnf.concreteName? 1 solutions.clauses
  let names := cnf.concreteVars.filterMap cnf.concreteName?
  let buffer := BuildBuffer.start options.orderingPolicy names options.schedulerCapacity true
  let buffer := sample.configurations.foldl (fun b c => (b.add c).2) buffer
  return .success (buffer.finish.sort.drain.map Configuration.text)

end Command

end ProductLine
