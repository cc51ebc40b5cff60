import ProductLine.Build.Interactions
import Std.Data.HashSet
/-!
# Build queues

Configurations that wait to be built leave the queue in an order that a policy chooses.  Whenever
one is taken, it is the earliest added of those with the highest score.

* first come, first served;
* difference: the distance to the closest configuration taken so far;
* interaction: the number of interactions that no configuration taken so far has.

* `BuildQueue.pop` takes the next configuration;
* `BuildQueue.sort` fixes the order of all that wait.
-/
namespace ProductLine

/-- How the next configuration is chosen. -/
inductive OrderingPolicy where
  | insertion
  | difference
  | interaction (strength : Nat)
deriving DecidableEq, Repr, Inhabited

/-- A configuration whose order is still open. -/
structure Candidate where
  configuration : Configuration
  /-- The distance to the closest configuration taken so far, if distances count.  Before one is
  taken, it is the number of features. -/
  distance : Nat
deriving DecidableEq, Repr

/-- Configurations that wait to be built. -/
structure BuildQueue where
  policy : OrderingPolicy
  /-- The names whose interactions count. -/
  names : List String
  /-- Those whose order is still open, in the order in which they were added. -/
  waiting : List Candidate
  /-- Those whose order is fixed. -/
  ordered : List Configuration
  /-- Those taken so far, last first, if their distance counts. -/
  taken : List Configuration
  /-- The interactions of those taken so far, if they count. -/
  covered : Std.HashSet (List Nat)

namespace BuildQueue

/-- A queue that holds nothing. -/
def empty (policy : OrderingPolicy) (names : List String) : BuildQueue :=
  ⟨policy, names, [], [], [], ∅⟩

/-- The number of configurations that wait. -/
def size (q : BuildQueue) : Nat := q.waiting.length + q.ordered.length

/-- The smallest of some numbers, or `default` if there are none. -/
def smallest (default : Nat) : List Nat → Nat
  | [] => default
  | n :: ns => ns.foldl min n

/-- Adds a configuration. -/
def add (q : BuildQueue) (c : Configuration) : BuildQueue :=
  { q with waiting := q.waiting ++ [⟨c, smallest c.size (q.taken.map c.distance)⟩] }

/-- How much a configuration is wanted next. -/
def score (q : BuildQueue) (x : Candidate) : Nat :=
  match q.policy with
  | .insertion => 0
  | .difference => x.distance
  | .interaction strength =>
      ((x.configuration.interactions q.names strength).filter
        (fun i => !q.covered.contains i)).length

/-- Takes the first of the items with the highest score out of a list of items with their scores. -/
def takeHighest {α : Type} : List (Nat × α) → Option ((Nat × α) × List (Nat × α))
  | [] => none
  | x :: xs =>
      match takeHighest xs with
      | none => some (x, [])
      -- Where scores are equal the earlier item stays the best.
      | some (y, ys) => if x.1 < y.1 then some (y, x :: ys) else some (x, xs)

/-- Takes the first of the items with the highest score out of a list. -/
def takeBest {α : Type} (score : α → Nat) (xs : List α) : Option (α × List α) :=
  (takeHighest (xs.map (fun x => (score x, x)))).map
    (fun (best, rest) => (best.2, rest.map Prod.snd))

/-- Remembers what the scores of others depend on once a configuration is taken. -/
def record (q : BuildQueue) (c : Configuration) : BuildQueue :=
  match q.policy with
  | .insertion => q
  | .difference =>
      let closer := fun (x : Candidate) =>
        let distance := x.configuration.distance c
        -- Up to the first one that is taken the number of features stood in for a distance.
        { x with distance := if q.taken.isEmpty then distance else min x.distance distance }
      { q with taken := c :: q.taken, waiting := q.waiting.map closer }
  | .interaction strength =>
      { q with covered := q.covered.insertMany (c.interactions q.names strength) }

/-- Takes the configuration that the policy chooses among those whose order is open. -/
def choose (q : BuildQueue) : Option (Configuration × BuildQueue) :=
  match takeBest q.score q.waiting with
  | none => none
  | some (x, rest) => some (x.configuration, { q with waiting := rest }.record x.configuration)

/-- Takes the next configuration: the first whose order is fixed, or else the one that the policy
chooses. -/
def pop (q : BuildQueue) : Option (Configuration × BuildQueue) :=
  match q.ordered with
  | c :: rest => some (c, { q with ordered := rest })
  | [] => q.choose

/-- Fixes the order of as many configurations as given. -/
def sortFor : Nat → BuildQueue → BuildQueue
  | 0, q => q
  | n + 1, q =>
      match q.choose with
      | none => q
      | some (c, q) => sortFor n { q with ordered := q.ordered ++ [c] }

/-- Fixes the order of all configurations. -/
def sort (q : BuildQueue) : BuildQueue := sortFor q.waiting.length q

end BuildQueue

end ProductLine
