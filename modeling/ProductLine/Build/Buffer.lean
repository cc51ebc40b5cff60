import ProductLine.Build.Queue
/-!
# Build buffers

One producer hands configurations to any number of workers through a buffer.  Ordinarily the
producer has to wait while the buffer is full.  If everything is buffered first, the buffer has no
bound, and workers get nothing before the order is fixed.

Every operation is a single step; `addBlocks` and `waitBlocks` say when a producer or worker has to
wait instead.
-/
namespace ProductLine

/-- What a worker gets from the buffer. -/
inductive Fetch where
  | ready (configuration : Configuration)
  /-- Nothing now, but perhaps later. -/
  | pending
  /-- Nothing any more. -/
  | finished
deriving DecidableEq, Repr

/-- How far a run has come. -/
structure Progress where
  /-- Configurations that were added. -/
  emitted : Nat
  built : Nat
  failed : Nat
  /-- Configurations that wait in the buffer. -/
  buffered : Nat
  /-- The number of configurations to come in all, if known. -/
  expected : Option Nat
  finished : Bool
  canceled : Bool
deriving DecidableEq, Repr

/-- A buffer between a producer and workers. -/
structure BuildBuffer where
  queue : BuildQueue
  /-- How many configurations fit. -/
  capacity : Nat
  /-- Whether everything is buffered before anything is built. -/
  bufferFirst : Bool
  /-- Whether the order was fixed. -/
  sorted : Bool
  /-- Whether the producer is done. -/
  finished : Bool
  canceled : Bool
  emitted : Nat
  built : Nat
  failed : Nat
  expected : Option Nat

namespace BuildBuffer

/-- A buffer that holds nothing.  There is always room for at least one configuration. -/
def start (policy : OrderingPolicy) (names : List String) (capacity : Nat) (bufferFirst : Bool) :
    BuildBuffer where
  queue := .empty policy names
  capacity := max capacity 1
  bufferFirst := bufferFirst
  sorted := false
  finished := false
  canceled := false
  emitted := 0
  built := 0
  failed := 0
  expected := none

/-- The number of configurations that wait. -/
def buffered (b : BuildBuffer) : Nat := b.queue.size

/-- Whether a producer has to wait before it can add. -/
def addBlocks (b : BuildBuffer) : Bool :=
  !b.bufferFirst && decide (b.capacity ≤ b.buffered) && !b.canceled

/-- Adds a configuration, unless the run is canceled. -/
def add (b : BuildBuffer) (c : Configuration) : Bool × BuildBuffer :=
  if b.canceled then (false, b)
  else (true, { b with queue := b.queue.add c, emitted := b.emitted + 1 })

/-- Whether workers get nothing because the order is not fixed yet. -/
def heldBack (b : BuildBuffer) : Bool := b.bufferFirst && !b.sorted

/-- Takes the next configuration. -/
def get (b : BuildBuffer) : Fetch × BuildBuffer :=
  if b.canceled then (.finished, b)
  else if b.heldBack then
    -- Where nothing waits there is no order to be fixed either.
    (if b.finished && b.buffered == 0 then .finished else .pending, b)
  else
    match b.queue.pop with
    | some (c, queue) => (.ready c, { b with queue := queue })
    | none => (if b.finished then .finished else .pending, b)

/-- Takes at most `most` configurations, as long as there is one. -/
def drainFor (b : BuildBuffer) : (most : Nat) → List Configuration
  | 0 => []
  | most + 1 =>
      match b.get with
      | (.ready c, b) => c :: b.drainFor most
      | (.pending, _) | (.finished, _) => []

/-- All configurations that wait, in the order in which workers would get them. -/
def drain (b : BuildBuffer) : List Configuration := b.drainFor b.buffered

/-- Whether a worker has to wait for the next configuration. -/
def waitBlocks (b : BuildBuffer) : Bool := b.get.1 == .pending

/-- Fixes the order of all configurations and lets workers have them. -/
def sort (b : BuildBuffer) : BuildBuffer := { b with queue := b.queue.sort, sorted := true }

/-- Says that nothing more will be added. -/
def finish (b : BuildBuffer) : BuildBuffer := { b with finished := true }

/-- Cancels the run. -/
def cancel (b : BuildBuffer) : BuildBuffer := { b with canceled := true }

/-- Counts a build. -/
def record (b : BuildBuffer) (success : Bool) : BuildBuffer :=
  if success then { b with built := b.built + 1 } else { b with failed := b.failed + 1 }

/-- Says how many configurations are to come. -/
def expect (b : BuildBuffer) (expected : Option Nat) : BuildBuffer :=
  { b with expected := expected }

/-- How far the run has come. -/
def progress (b : BuildBuffer) : Progress where
  emitted := b.emitted
  built := b.built
  failed := b.failed
  buffered := b.buffered
  expected := b.expected
  finished := b.finished
  canceled := b.canceled

end BuildBuffer

end ProductLine
