import ProductLine.Build.Buffer
/-!
# Build pipelines

A run of one producer and some workers around a build buffer.  The producer adds its configurations
one after the other, then fixes the order if everything is buffered first, and finally says that it
is done; if production failed it cancels the run instead of fixing the order.  A worker takes a
configuration, builds it, and starts over, until it gets nothing any more.

The configurations may be known from the start, or be supplied while the run goes on; then the
producer waits for them until the supply is closed.

* `Pipeline.step` is a step of one party, if it does not have to wait;
* `Pipeline.run` lets the parties take turns until all of them have stopped or wait;
* `Pipeline.supply` and `Pipeline.close` are the ways to supply configurations.
-/
namespace ProductLine

/-- How a build ends. -/
inductive BuildOutcome where
  | built
  | failed
  /-- The worker crashes, which cancels the run. -/
  | crashed
deriving DecidableEq, Repr

/-- What a worker is doing. -/
inductive WorkerState where
  | idle
  | building (configuration : Configuration)
  | stopped
deriving DecidableEq, Repr

/-- What the producer does next. -/
inductive ProducerState where
  | producing
  | sorting
  | canceling
  | finishing
  | stopped
deriving DecidableEq, Repr

/-- Someone who takes part in a run. -/
inductive Party where
  | producer
  | worker (index : Nat)
deriving DecidableEq, Repr

/-- The state of a run. -/
structure Pipeline where
  buffer : BuildBuffer
  /-- The configurations that are still to be added. -/
  pending : List Configuration
  /-- Whether there will be no others. -/
  closed : Bool
  /-- Whether production fails after these. -/
  failing : Bool
  producer : ProducerState
  workers : List WorkerState
  /-- The configurations that workers got, last first. -/
  handed : List Configuration
  /-- Whether a worker crashed. -/
  crashed : Bool

namespace Pipeline

/-- A run in which nothing has happened yet, and for which no configuration is known. -/
def start (buffer : BuildBuffer) (workers : Nat) : Pipeline where
  buffer := buffer
  pending := []
  closed := false
  failing := false
  producer := .producing
  workers := List.replicate workers .idle
  handed := []
  crashed := false

/-- A run in which nothing has happened yet, and all of whose configurations are known. -/
def startWith (buffer : BuildBuffer) (workers : Nat) (pending : List Configuration)
    (failing : Bool) : Pipeline :=
  { start buffer workers with pending := pending, closed := true, failing := failing }

/-- What the producer does after its last configuration. -/
def afterLast (p : Pipeline) : ProducerState :=
  if p.failing then .canceling
  else if p.buffer.bufferFirst && !p.buffer.canceled then .sorting
  else .finishing

/-- A step of the producer, unless it has to wait or has stopped. -/
def produce (p : Pipeline) : Option Pipeline :=
  match p.producer with
  | .producing =>
      match p.pending with
      | [] => if p.closed then some { p with producer := p.afterLast } else none
      | c :: cs =>
          if p.buffer.addBlocks then none
          else
            let (added, buffer) := p.buffer.add c
            -- A canceled buffer takes nothing any more, so the rest is dropped.
            if added then some { p with buffer := buffer, pending := cs }
            else some { p with buffer := buffer, pending := [] }
  | .sorting => some { p with buffer := p.buffer.sort, producer := .finishing }
  | .canceling => some { p with buffer := p.buffer.cancel, producer := .finishing }
  | .finishing => some { p with buffer := p.buffer.finish, producer := .stopped }
  | .stopped => none

/-- A step of a worker, unless it has to wait or has stopped. -/
def work (build : Configuration → BuildOutcome) (p : Pipeline) (index : Nat) : Option Pipeline :=
  match p.workers[index]? with
  | some .idle =>
      match p.buffer.get with
      | (.ready c, buffer) =>
          some { p with
            buffer := buffer
            workers := p.workers.set index (.building c)
            handed := c :: p.handed }
      | (.finished, buffer) =>
          some { p with buffer := buffer, workers := p.workers.set index .stopped }
      | (.pending, _) => none
  | some (.building c) =>
      match build c with
      | .built =>
          some { p with buffer := p.buffer.record true, workers := p.workers.set index .idle }
      | .failed =>
          some { p with buffer := p.buffer.record false, workers := p.workers.set index .idle }
      | .crashed =>
          some { p with
            buffer := p.buffer.cancel
            workers := p.workers.set index .stopped
            crashed := true }
  | some .stopped | none => none

/-- A step of one party, unless it has to wait or has stopped. -/
def step (build : Configuration → BuildOutcome) (p : Pipeline) : Party → Option Pipeline
  | .producer => p.produce
  | .worker index => p.work build index

/-- Everyone who takes part, the producer first. -/
def parties (p : Pipeline) : List Party :=
  .producer :: (List.range p.workers.length).map .worker

/-- Lets the first party that need not wait take a step, as many times as given. -/
def runFor (build : Configuration → BuildOutcome) : Nat → Pipeline → Pipeline
  | 0, p => p
  | n + 1, p =>
      match p.parties.findSome? (p.step build) with
      | some next => runFor build n next
      | none => p

/-- A bound on the number of steps that are left: one for each configuration to be added, two for
each that is added or in the buffer, one for each that is being built, one more for each worker to
stop, and the last ones of the producer. -/
def stepsLeft (p : Pipeline) : Nat :=
  3 * p.pending.length + 2 * p.buffer.buffered + 2 * p.workers.length + 4

/-- Runs until everyone has stopped or has to wait. -/
def run (build : Configuration → BuildOutcome) (p : Pipeline) : Pipeline :=
  runFor build p.stepsLeft p

/-! ## Supplies -/

/-- Supplies a configuration and runs on with it.  Says whether more are wanted. -/
def supply (build : Configuration → BuildOutcome) (p : Pipeline) (c : Configuration) :
    Bool × Pipeline :=
  let p := { p with pending := p.pending ++ [c] }.run build
  (!p.buffer.canceled, p)

/-- Supplies configurations as long as more are wanted. -/
def supplyAll (build : Configuration → BuildOutcome) (p : Pipeline) :
    List Configuration → Pipeline
  | [] => p
  | c :: cs =>
      match p.supply build c with
      | (true, p) => p.supplyAll build cs
      | (false, p) => p

/-- Says that no more configurations are supplied, and whether production failed, and runs to
the end. -/
def close (build : Configuration → BuildOutcome) (p : Pipeline) (failing : Bool) : Pipeline :=
  { p with closed := true, failing := failing }.run build

end Pipeline

end ProductLine
