import ProductLine.Satisfiability.Learner
/-!
# Propagation in a learner

When a literal becomes false, the clauses that are watched at it are visited.  Such a clause is
watched at another literal from then on, if it has one that is not false.  If it has none, the
other literal at which it is watched must be true.

* `Learner.visit` visits the clauses that are watched at a literal;
* `Learner.propagate` goes on until nothing more follows or a clause is false.
-/
namespace ProductLine

namespace Learner

variable {given : List Clause}

/-- Makes a literal true that follows from the clause at a position.  At level zero it follows by
itself, so it becomes a clause of its own. -/
def derive (s : Learner given) (l : LitCode) (i : Nat) : Learner given :=
  if s.level = 0 then s.announceLesson.keepReason (s.reduce (s.clause i)) l
  else s.assign l (some i)

/-- The first literal of a clause that is neither false nor the given one. -/
def replacement? (truths : Array Truth) (other : LitCode) : CodedClause → Option LitCode
  | [] => none
  | l :: c =>
      if l = other then replacement? truths other c
      else
        match truths.getD l .unknown with
        | .fails => replacement? truths other c
        | _ => some l

/-- Watches the clause at a position at the given literals instead, the second being new. -/
def rewatch (s : Learner given) (i : Nat) (other l : LitCode) : Learner given :=
  { s with
    first := s.first.setIfInBounds i other
    second := s.second.setIfInBounds i l
    watchers := s.watchers.modify l (i :: ·) }

/-- Visits the clauses at some positions, which are watched at a literal that became false; those in
`kept` stay there.  Gives the position of a clause that became false, if one did. -/
def visit (l : LitCode) (kept : List Nat) :
    List Nat → Learner given → Option Nat × Learner given
  | [], s => (none, { s with watchers := s.watchers.setIfInBounds l kept })
  | i :: is, s =>
      let k := s.first.getD i 0
      let other := if k = l then s.second.getD i 0 else k
      match s.truth other with
      | .holds => visit l (i :: kept) is s
      | truth =>
          match replacement? s.truths other (s.clause i).lits with
          | some k => visit l kept is (s.rewatch i other k)
          | none =>
              if truth = .fails then
                let kept := is.reverseAux (i :: kept)
                (some i, { s with watchers := s.watchers.setIfInBounds l kept })
              else visit l (i :: kept) is (s.derive other i)

/-- Derives what follows from at most as many true literals as given. -/
def propagateFor : Nat → Learner given → Option Nat × Learner given
  | 0, s => (none, s)
  | most + 1, s =>
      if h : s.visited < s.trail.size then
        let l := s.trail[s.visited].opposite
        let is := s.watchers.getD l []
        match visit l [] is { s with visited := s.visited + 1 } with
        | (none, s) => propagateFor most s
        | (some i, s) => (some i, s)
      else (none, s)

/-- Derives all that follows, up to a clause that becomes false; gives the position of that. -/
def propagate (s : Learner given) : Option Nat × Learner given :=
  propagateFor (s.levels.size + 1) s

end Learner

end ProductLine
