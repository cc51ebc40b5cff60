import ProductLine.Assignment
import ProductLine.Implication
import ProductLine.RingBuffer
/-!
# Model caches

Recently found models are kept, because a model in which the first literal of an implication is
true and the second is false refutes the implication without a query.
-/
namespace ProductLine

/-- The most recent models, at most as many as the buffer has room for. -/
abbrev ModelCache := RingBuffer Assignment

namespace ModelCache

/-- A cache for the given number of requests, never larger than `most`. -/
def forRequests (requests most : Nat) : ModelCache := RingBuffer.empty (min requests most)

/-- Keeps a model, in place of the oldest one if there is no room. -/
def add (cache : ModelCache) (model : Assignment) : ModelCache := (cache.push model).2

/-- Whether some kept model makes the literal true. -/
def contains (cache : ModelCache) (l : Lit) : Bool := cache.toList.any (·.contains l)

/-- Whether some kept model is a counterexample to the implication. -/
def refutes (cache : ModelCache) (p : Implication) : Bool :=
  cache.toList.any (fun model => model.contains p.forcing && model.contains p.forced.negate)

end ModelCache

end ProductLine
