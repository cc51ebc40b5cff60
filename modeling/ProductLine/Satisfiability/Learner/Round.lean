import ProductLine.Satisfiability.Learner.Contradiction
/-!
# Rounds of a search

In a search, literals are chosen until all variables have values, or until a clause without
literals has been derived.  After a number of contradictions it is broken off.

* `Learner.explore` is such a round;
* `Finding.outcome?` is the answer that comes out of it, if it stands up to a check.
-/
namespace ProductLine

/-- The answer to the question whether clauses hold under assumptions. -/
inductive Outcome where
  /-- The clauses and assumptions hold together in this model, which may leave variables open. -/
  | sat (model : List Lit)
  /-- These assumptions cannot all hold together with the clauses. -/
  | unsat (failed : List Lit)
deriving DecidableEq, Repr

/-- What comes out of a search for a model of the given clauses. -/
inductive Finding (given : List Clause) where
  /-- What is known of each literal when all variables have values. -/
  | model (truths : Array Truth)
  /-- A clause without literals, which follows from the assumptions that it uses. -/
  | refuted (c : Consequence given)
  /-- The search was broken off. -/
  | nothing

/-- The answer that a finding about the first variables gives.  A model must satisfy the clauses and
the assumptions.  In a contradiction the assumptions that it uses are blamed, last first; it must
not use any others. -/
def Finding.outcome? {given : List Clause} (varCount : Nat) (assumptions : List Lit) :
    Finding given → Option Outcome
  | model truths =>
      let value := fun n => truths.getD (2 * n) .unknown == .holds
      if given.all (Clause.eval value) && assumptions.all (Lit.eval value) then
        some (.sat ((List.range varCount).map (fun n => ⟨n, value n⟩)))
      else none
  | refuted c =>
      let codes := assumptions.map Lit.code
      if c.lits.isEmpty && c.uses.isSubset (.ofList codes) then
        some (.unsat (assumptions.reverse.filter (c.uses.contains ·.code)))
      else none
  | nothing => none

namespace Learner

variable {given : List Clause}

/-- The variables of a list from the first one on that has no value. -/
def skipKnown (truths : Array Truth) : List Nat → List Nat
  | [] => []
  | n :: ns =>
      match truths.getD (2 * n) .unknown with
      | .unknown => n :: ns
      | _ => skipKnown truths ns

/-- Searches up to a number of contradictions, and in at most as many steps as given.  Gives what is
found, and what is known by then. -/
def exploreFor : (steps contradictions : Nat) → Learner given → Finding given × Learner given
  | 0, _, s => (.nothing, s)
  | steps + 1, contradictions, s =>
      match s.propagate with
      | (some i, s) =>
          let (involved, c) := s.lesson i
          match c.lits, contradictions with
          | [], _ => (.refuted c, { s with contradiction := some c })
          | _ :: _, 0 => (.nothing, s)
          | _ :: _, contradictions + 1 => exploreFor steps contradictions (s.improve involved c)
      | (none, s) =>
          match skipKnown s.truths s.ahead with
          | [] => (.model s.truths, s)
          | n :: ns =>
              let l := if s.preferences.phases.getD n false then 2 * n else 2 * n + 1
              exploreFor steps contradictions ({ s with ahead := ns }.choose l)

/-- Searches up to a number of contradictions.  Between two of them there are not more steps than
variables. -/
def explore (s : Learner given) (contradictions : Nat) : Finding given × Learner given :=
  match s.contradiction with
  | some c => (.refuted c, s)
  | none => exploreFor ((contradictions + 1) * (s.levels.size + 2)) contradictions s

end Learner

end ProductLine
