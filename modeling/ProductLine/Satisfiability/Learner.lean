import ProductLine.Satisfiability.Consequence
/-!
# Searching with learned clauses

A learner looks for a model of given clauses.  It makes literals true one after the other, derives
what follows from them, and where a clause becomes false it learns a clause from that, so that it
does not fail for the same reason twice.

Literals are made true at levels.  At level zero only those are true that follow from the clauses
and the assumptions, and every further level starts with a literal that was chosen.  Going back to a
level makes the literals of later levels unknown again.

Each clause with two literals or more is watched at two of them.  As long as these are not false,
nothing follows from the clause.

This module holds what a learner remembers.  All its clauses are consequences of the given ones by
their type, so whatever it concludes from them is right, however it was led there.

* `Learner.assign` makes a literal true, and `Learner.backTo` goes back to a level;
* `Learner.keep` and `Learner.watch` add a clause, and `Learner.insert` adds one at level zero.
-/
namespace ProductLine

/-- What is known of a literal. -/
inductive Truth where
  | unknown
  | holds
  | fails
deriving DecidableEq, Repr, Inhabited

/-- Which variable a learner tries next, and how. -/
structure Preferences where
  /-- For each variable whether it is tried with the value true. -/
  phases : Array Bool
  /-- How often each variable had part in a contradiction, the later ones counting more. -/
  scores : Array Nat
  /-- How much the next contradiction counts. -/
  gain : Nat
  /-- The variables, those with higher scores first. -/
  order : List Nat

/-- What is remembered in a search for a model of the given clauses. -/
structure Learner (given : List Clause) where
  clauses : Array (Consequence given)
  /-- A clause without literals, if one was derived. -/
  contradiction : Option (Consequence given)
  /-- The positions of the clauses that were learned, the last one first. -/
  lessons : List Nat
  /-- The literals at which each clause is watched. -/
  first : Array LitCode
  second : Array LitCode
  /-- For each literal the positions of the clauses that are watched at it. -/
  watchers : Array (List Nat)
  /-- What is known of each literal. -/
  truths : Array Truth
  /-- For each variable the level at which it got its value. -/
  levels : Array Nat
  /-- For each variable the position of the clause from which its value follows, unless it was
  chosen. -/
  reasons : Array (Option Nat)
  /-- The literals that are true, in the order in which they became so. -/
  trail : Array LitCode
  /-- For each level after zero how many literals were true before it. -/
  starts : Array Nat
  /-- Of how many literals the consequences are derived. -/
  visited : Nat
  preferences : Preferences
  /-- The end of the order of preference, from which on there may be variables without a value. -/
  ahead : List Nat

/-- How often each literal of the first variables occurs in some clauses. -/
def Clause.occurrences (varCount : Nat) (cs : List Clause) : Array Nat :=
  cs.foldl (fun counts c => c.foldl (fun counts l => counts.modify l.code (· + 1)) counts)
    (.replicate (2 * varCount) 0)

/-- The preferences among the first variables at the start of a search.  A variable is tried with
the value that makes more clauses true. -/
def Preferences.start (varCount : Nat) (cs : List Clause) : Preferences where
  phases :=
    let counts := Clause.occurrences varCount cs
    .ofFn (n := varCount) (fun n => counts.getD (2 * n + 1) 0 < counts.getD (2 * n) 0)
  scores := .replicate varCount 0
  gain := 1000
  order := List.range varCount

namespace Learner

variable {given : List Clause}

/-- A learner without clauses, about the first variables. -/
def start (given : List Clause) (varCount : Nat) (preferences : Preferences) : Learner given where
  clauses := #[]
  contradiction := none
  lessons := []
  first := #[]
  second := #[]
  watchers := .replicate (2 * varCount) []
  truths := .replicate (2 * varCount) .unknown
  levels := .replicate varCount 0
  reasons := .replicate varCount none
  trail := #[]
  starts := #[]
  visited := 0
  preferences := preferences
  ahead := preferences.order

/-! ## Looking up -/

/-- What is known of a literal. -/
@[inline] def truth (s : Learner given) (l : LitCode) : Truth := s.truths.getD l .unknown

/-- The current level. -/
@[inline] def level (s : Learner given) : Nat := s.starts.size

/-- The level at which a literal got its value. -/
@[inline] def levelOf (s : Learner given) (l : LitCode) : Nat := s.levels.getD l.var 0

/-- The clause at a position. -/
@[inline] def clause (s : Learner given) (i : Nat) : Consequence given :=
  s.clauses.getD i default

/-- The clause from which the value of a literal follows. -/
def reason? (s : Learner given) (l : LitCode) : Option (Consequence given) :=
  (s.reasons.getD l.var none).map s.clause

/-! ## Values -/

/-- Makes a literal true, because of the clause at a position or by choice. -/
def assign (s : Learner given) (l : LitCode) (reason : Option Nat) : Learner given :=
  { s with
    truths := (s.truths.setIfInBounds l .holds).setIfInBounds l.opposite .fails
    levels := s.levels.setIfInBounds l.var s.starts.size
    reasons := s.reasons.setIfInBounds l.var reason
    trail := s.trail.push l }

/-- Starts a level. -/
def deepen (s : Learner given) : Learner given :=
  { s with starts := s.starts.push s.trail.size }

/-- Chooses a literal to be true. -/
def choose (s : Learner given) (l : LitCode) : Learner given := s.deepen.assign l none

/-- Makes the variables of later levels unknown again.  Each will be tried with the value that it
had. -/
def backTo (s : Learner given) (level : Nat) : Learner given :=
  if level < s.level then
    let size := s.starts.getD level 0
    let undone : Array LitCode := s.trail.extract size s.trail.size
    { s with
      truths := undone.foldl
        (fun t (l : LitCode) => (t.setIfInBounds l .unknown).setIfInBounds l.opposite .unknown)
        s.truths
      trail := s.trail.shrink size
      starts := s.starts.shrink level
      visited := size
      preferences.phases := undone.foldl
        (fun p (l : LitCode) => p.setIfInBounds l.var l.positive) s.preferences.phases
      ahead := s.preferences.order }
  else s

/-! ## Clauses -/

/-- The clauses that were learned, the last one first. -/
def learned (s : Learner given) : List (Consequence given) := s.lessons.map s.clause

/-- Says that the next clause is a learned one. -/
def announceLesson (s : Learner given) : Learner given :=
  { s with lessons := s.clauses.size :: s.lessons }

/-- Adds a clause that is not watched. -/
def keep (s : Learner given) (c : Consequence given) : Learner given :=
  { s with clauses := s.clauses.push c, first := s.first.push 0, second := s.second.push 0 }

/-- Adds a clause that is watched at two of its literals. -/
def watch (s : Learner given) (c : Consequence given) (k l : LitCode) : Learner given :=
  let i := s.clauses.size
  { s with
    clauses := s.clauses.push c
    first := s.first.push k
    second := s.second.push l
    watchers := (s.watchers.modify k (i :: ·)).modify l (i :: ·) }

/-- Adds a clause of which the given literal follows. -/
def keepReason (s : Learner given) (c : Consequence given) (l : LitCode) : Learner given :=
  let i := s.clauses.size
  (s.keep c).assign l (some i)

/-- Leaves out the literals of a clause that are false whatever is chosen. -/
def reduce (s : Learner given) (c : Consequence given) : Consequence given :=
  c.reduce (fun l => if s.levelOf l = 0 then s.reason? l else none)

/-- Adds a clause at level zero; it may be a learned one. -/
def insert (isLesson : Bool) (s : Learner given) (c : Consequence given) : Learner given :=
  let c := s.reduce c
  let s := if isLesson then s.announceLesson else s
  match c.lits with
  | [] => { s.keep c with contradiction := some c }
  | [l] => if s.truth l = .unknown then s.keepReason c l else s.keep c
  | k :: l :: _ => s.watch c k l

/-- The learner when more clauses are given. -/
def weaken {more : List Clause} (h : given ⊆ more) (s : Learner given) : Learner more :=
  { s with
    clauses := s.clauses.map (Consequence.weaken h)
    contradiction := s.contradiction.map (Consequence.weaken h) }

end Learner

end ProductLine
