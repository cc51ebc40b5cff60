import ProductLine.Satisfiability.Learner.Propagation
/-!
# Learning from contradictions

When a clause has become false, it is resolved with the clauses from which its literals became
false, the last one first, until only one of its literals has become false at the current level.
What comes out is learned: had it been known, that literal would have become true at an earlier
level, where the search goes on.

* `Learner.analyze` derives the clause, and `Learner.shorten` makes it shorter where that is easy;
* `Learner.learn` goes back and adds it;
* `Preferences.reward` prefers the variables that had part in the contradiction.
-/
namespace ProductLine

/-! ## Preferences -/

namespace Preferences

/-- Merges two lists of variables in order of their scores. -/
def merge (scores : Array Nat) : List Nat → List Nat → List Nat
  | [], ns => ns
  | ms, [] => ms
  | m :: ms, n :: ns =>
      if scores.getD n 0 ≤ scores.getD m 0 then m :: merge scores ms (n :: ns)
      else n :: merge scores (m :: ms) ns
termination_by ms ns => ms.length + ns.length

/-- Raises the scores of the variables of some literals.  What a score gains grows by a hundredth
each time; when it gets too large all scores are made smaller. -/
def reward (p : Preferences) (ls : List LitCode) : Preferences :=
  let marked : Array Bool := ls.foldl (fun marked (l : LitCode) => marked.setIfInBounds l.var true)
    (.replicate p.scores.size false)
  let (raised, others) := p.order.partition (marked.getD · false)
  let scores := raised.foldl (fun (scores : Array Nat) n => scores.modify n (· + p.gain)) p.scores
  let order := merge scores raised others
  let gain := p.gain + p.gain / 100
  -- Making all scores smaller keeps the order of the variables.
  if gain < 1 <<< 55 then { p with scores := scores, gain := gain, order := order }
  else { p with scores := scores.map (· >>> 45), gain := gain >>> 45, order := order }

end Preferences

/-! ## Learned clauses -/

namespace Learner

variable {given : List Clause}

/-- Whether more than one literal of a clause got its value at the current level. -/
def isShared (s : Learner given) (c : CodedClause) : Bool :=
  1 < c.countP (fun l => s.levelOf l == s.level)

/-- Resolves a false clause with reasons of the first so many true literals, the last one first,
until only one of its literals is of the current level.  Gives the literals of all clauses that
took part as well. -/
def analyze (s : Learner given) (involved : List LitCode) (c : Consequence given) :
    (count : Nat) → List LitCode × Consequence given
  | 0 => (involved, c)
  | count + 1 =>
      let l : LitCode := s.trail.getD count 0
      if c.lits.contains l.opposite then
        if s.isShared c.lits then
          -- The reason says why the literal is false, and takes its place.
          match s.reason? l with
          | some r => s.analyze (r.lits.reverseAux involved) (c.resolve l r) count
          | none => (involved, c)
        else (involved, c)
      else s.analyze involved c count

/-- Resolves literals of a clause away where that adds no others. -/
def shorten (s : Learner given) (c : Consequence given) : Consequence given :=
  c.lits.foldl
    (fun c (l : LitCode) =>
      match s.reason? l with
      | some r =>
          let d := c.resolve l.opposite r
          if d.lits.length < c.lits.length then d else c
      | none => c)
    c

/-- The literal of a clause that got its value at the highest level. -/
def latest? (s : Learner given) : CodedClause → Option LitCode
  | [] => none
  | l :: c =>
      match s.latest? c with
      | some k => if s.levelOf k ≤ s.levelOf l then some l else some k
      | none => some l

/-- Adds a clause all of whose literals are false, after going back to where it has one that is
not.  That literal follows there. -/
def learn (s : Learner given) (c : Consequence given) : Learner given :=
  match s.latest? c.lits with
  | none => s
  | some l =>
      match s.latest? (c.lits.filter (· ≠ l)) with
      -- A single literal is true at level zero.
      | none => (s.backTo 0).announceLesson.keepReason c l
      | some k =>
          let s := (s.backTo (s.levelOf k)).announceLesson
          let i := s.clauses.size
          (s.watch c l k).assign l (some i)

/-- The clause that is derived when the clause at a position has become false, and the literals of
all clauses that took part. -/
def lesson (s : Learner given) (i : Nat) : List LitCode × Consequence given :=
  let c := s.clause i
  let (involved, c) := s.analyze c.lits c s.trail.size
  (involved, s.shorten (s.reduce c))

/-- Learns a clause that was derived from a contradiction. -/
def improve (s : Learner given) (involved : List LitCode) (c : Consequence given) :
    Learner given :=
  let s := s.learn c
  let preferences := s.preferences.reward involved
  { s with preferences := preferences, ahead := preferences.order }

end Learner

end ProductLine
