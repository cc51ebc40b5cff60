import ProductLine.Build.Pipeline
import ProductLine.Enumeration
import ProductLine.Options
import ProductLine.Solver.Counting
/-!
# Build runs

A builder produces configurations of a feature model and has each of them built by workers.  They
are all valid configurations of the model, or a sample that was computed beforehand.  A builder
runs once; running it again changes nothing.

Configurations are built while others are still being found, and none is looked for any more once
the run is canceled.

* `Builder.produce` supplies a run with the configurations of a source;
* `Builder.run` is a whole run.
-/
namespace ProductLine

/-- Where the configurations of a run come from. -/
inductive BuildSource where
  /-- Every valid configuration of the model. -/
  | allValid
  /-- These configurations. -/
  | sample (configurations : List Configuration)
deriving Repr

/-- Something that builds the configurations of a model once. -/
structure Builder where
  model : FeatureModel
  options : Options
  buffer : BuildBuffer
  started : Bool

/-- How a run ended. -/
inductive RunResult where
  | done (progress : Progress)
  | failed (cause : AnalysisError)
  | crashed
deriving DecidableEq, Repr

namespace Builder

variable {ω : Type}

/-- A builder that has not run. -/
def start (model : FeatureModel) (options : Options) : Builder where
  model := model
  options := options
  buffer :=
    .start options.orderingPolicy (model.concreteFeatures.map model.name)
      options.schedulerCapacity options.bufferFirst
  started := false

/-- Cancels the run. -/
def cancel (b : Builder) : Builder := { b with buffer := b.buffer.cancel }

/-- The part of a sample that is built: as much as the target allows. -/
def sampled (options : Options) (configurations : List Configuration) : List Configuration :=
  options.target.elim configurations configurations.take

/-- The number of configurations to expect after a count. -/
def expectation (options : Options) : Count → Option Nat
  | .exact n => some (options.target.elim n (min n))
  | .atLeast _ => none

/-- A run whose expected number of configurations is known. -/
def announce (p : Pipeline) (expected : Nat) : Pipeline :=
  { p with buffer := p.buffer.expect (some expected) }

/-- Counts the configurations of the model if that is asked for, and announces their number. -/
def announceCount (b : Builder) (solver : Solver ω) (p : Pipeline) (w : ω) :
    Option AnalysisError × Pipeline × ω :=
  if b.options.countFirst then
    match solver.count b.model.concreteFeatures b.options.countLimit
        (fun w => (p.buffer.canceled, w)) (solver.start w) with
    | .ok n st => (none, (expectation b.options n).elim p (announce p), st.world)
    | .error cause st => (some cause, p, st.world)
  else (none, p, w)

/-- The walk that supplies a run with the configurations it finds.  The run is the second half of
the world. -/
def supplying (b : Builder) (build : Configuration → BuildOutcome) (solver : Solver ω) :
    Walk (ω × Pipeline) where
  model := b.model
  solver := ⟨solver.backend.besides Pipeline, solver.base⟩
  monitor := .reading (fun w => w.2.buffer.canceled)
  target := b.options.target
  sink c w :=
    let (wanted, p) := w.2.supply build c
    (wanted, w.1, p)

/-- Supplies a run with the valid configurations of the model as they are found.  Tells why it ended
early, if it did. -/
def supplyValid (b : Builder) (backend : Backend ω) (build : Configuration → BuildOutcome)
    (p : Pipeline) (w : ω) : Option AnalysisError × Pipeline × ω :=
  match b.model.baseFormula b.options.clauseLimit with
  | .error cause => (some (.clauseForm cause), p, w)
  | .ok base =>
      match b.announceCount ⟨backend, base⟩ p w with
      | (some cause, p, w) => (some cause, p, w)
      | (none, p, w) =>
          let walk := b.supplying build ⟨backend, base⟩
          match walk.enumerate (walk.solver.start (w, p)) with
          | .ok _ st => (none, st.solver.world.2, st.solver.world.1)
          | .error cause st => (some cause, st.solver.world.2, st.solver.world.1)

/-- Supplies a run from a source.  Tells why that ended early, if it did. -/
def produce (b : Builder) (backend : Backend ω) (build : Configuration → BuildOutcome)
    (source : BuildSource) (p : Pipeline) (w : ω) : Option AnalysisError × Pipeline × ω :=
  match source with
  | .allValid => b.supplyValid backend build p w
  | .sample configurations =>
      let configurations := sampled b.options configurations
      (none, (announce p configurations.length).supplyAll build configurations, w)

/-- Produces the configurations of a source and builds them.  Gives the result, the configurations
in the order in which workers got them, and the builder afterwards.  A crash counts more than a
failed production. -/
def run (b : Builder) (backend : Backend ω) (parallelism : Nat)
    (build : Configuration → BuildOutcome) (source : BuildSource) (w : ω) :
    RunResult × List Configuration × Builder × ω :=
  if b.started then (.done b.buffer.progress, [], b, w)
  else
    let p := Pipeline.start b.buffer (b.options.workerCount parallelism)
    let (failure, p, w) := b.produce backend build source p w
    let ended := p.close build failure.isSome
    let result :=
      if ended.crashed then .crashed
      else
        match failure with
        | some cause => .failed cause
        | none => .done ended.buffer.progress
    (result, ended.handed.reverse, { b with buffer := ended.buffer, started := true }, w)

end Builder

end ProductLine
