import ProductLine.Enumeration
import ProductLine.Options
import ProductLine.Solver.Counting
import ProductLine.Solver.Implied
import ProductLine.Solver.UnsatSubset
/-!
# Analyses of a feature model

A feature model with the clauses of its rules and the options of its analyses.  Every analysis
starts from a fresh solver.

* `Analysis.falseOptional` finds features that are always selected with their parent although they
  are declared optional;
* `Analysis.explain` gives constraints that are responsible for an implication;
* `Analysis.count` and `Analysis.walk` count and enumerate the configurations.
-/
namespace ProductLine

/-- A feature model that is ready to be analysed. -/
structure Analysis (ω : Type) where
  model : FeatureModel
  /-- A solver whose base is the one of the model. -/
  solver : Solver ω
  options : Options

namespace Analysis

variable {ω : Type}

/-- Brings the rules of a model into clause form. -/
def build (model : FeatureModel) (backend : Backend ω) (options : Options) :
    Except AnalysisError (Analysis ω) :=
  match model.baseFormula options.clauseLimit with
  | .error cause => .error (.clauseForm cause)
  | .ok base => .ok ⟨model, ⟨backend, base⟩, options⟩

/-- The state from which every analysis starts. -/
def start (a : Analysis ω) (w : ω) : SolverState ω := a.solver.start w

/-- For each pair of a parent and a child the candidate that the parent forces the child, in the
order of the children. -/
def candidatesOf (pairs : List (Nat × Nat)) : List Implication :=
  (pairs.mergeSort (fun x y => x.2 ≤ y.2)).map (fun (parent, child) =>
    ⟨⟨parent, true⟩, ⟨child, true⟩⟩)

/-- The candidates for the optional children of groups of independent children. -/
def candidates (m : FeatureModel) : List Implication := candidatesOf m.optionalChildren

/-- The children of the given pairs that are selected whenever their parent is, in increasing
order. -/
def forcedAmong (a : Analysis ω) (pairs : List (Nat × Nat)) (parallelism : Nat)
    (monitor : Monitor ω) (w : ω) : Except AnalysisError (List Nat) × ω :=
  let (implied, w) :=
    a.solver.impliedInChunks (a.options.workerCount parallelism) a.options.solutionBuffer monitor
      (candidatesOf pairs) w
  (implied.map (List.map (fun p => p.forced.var)), w)

/-- The features that are selected whenever their parent is although they are declared optional,
in increasing order.  It does not matter how the pairs are listed. -/
def falseOptional (a : Analysis ω) (parallelism : Nat) (monitor : Monitor ω) (w : ω) :
    Except AnalysisError (List Nat) × ω :=
  a.forcedAmong a.model.optionalChildren parallelism monitor w

/-- Assumes a literal and the negation of another, and gives constraints that contradict each other
and of which none can be left out, or `none` if there is no contradiction. -/
def explain (s : Solver ω) (p : Implication) : SolverM ω (Option (List Constraint)) :=
  Solver.inScope (do
    let _ ← Solver.require (s.pushLit p.forcing)
    let _ ← Solver.require (s.pushLit p.forced.negate)
    s.unsatSubset)

/-- The number of configurations, counted up to the limit of the options. -/
def count (a : Analysis ω) (monitor : Monitor ω) : SolverM ω Count :=
  a.solver.count a.model.concreteFeatures a.options.countLimit monitor

/-- The walk that enumerates the configurations, up to the target of the options. -/
def walk (a : Analysis ω) (monitor : Monitor ω) (sink : Sink ω) : Walk ω where
  model := a.model
  solver := a.solver
  monitor := monitor
  target := a.options.target
  sink := sink

end Analysis

end ProductLine
