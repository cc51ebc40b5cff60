import ProductLine.Clause
/-!
# Unit propagation

A clause all but one of whose literals are false fixes the remaining one.  Propagation sweeps over
the clauses in order until a sweep fixes nothing, or until some clause is false.

* `Fixed.examine` says what the fixed values make of a clause;
* `Fixed.sweep` goes once over a list of clauses;
* `Fixed.propagate` repeats the sweep.  Every sweep but the last fixes a variable, so there are at
  most one more sweeps than variables.
-/
namespace ProductLine

/-- For each variable the value that is fixed, if any. -/
abbrev Fixed := Array (Option Bool)

namespace Fixed

/-- No variable is fixed. -/
def none (varCount : Nat) : Fixed := Array.replicate varCount Option.none

/-- The fixed value of a variable. -/
def value? (fixed : Fixed) (var : Nat) : Option Bool := (fixed[var]?).join

/-- The value of a literal, if its variable is fixed. -/
def litValue? (fixed : Fixed) (l : Lit) : Option Bool :=
  (fixed.value? l.var).map (· == l.positive)

/-- The literals that are true, in order of their variables. -/
def lits (fixed : Fixed) : List Lit :=
  fixed.toList.zipIdx.filterMap (fun (value, var) => value.map (⟨var, ·⟩))

/-- What the fixed values make of a clause. -/
inductive Status where
  /-- Some literal is true. -/
  | satisfied
  /-- All literals are false. -/
  | falsified
  /-- All literals are false except this one, which is open. -/
  | unit (literal : Lit)
  /-- No literal is true and more than one is open. -/
  | undecided
deriving DecidableEq, Repr

/-- The status of a clause. -/
def examine (fixed : Fixed) (c : Clause) : Status :=
  if c.any (fun l => fixed.litValue? l == some true) then .satisfied
  else
    match c.filter (fun l => fixed.litValue? l == Option.none) with
    | [] => .falsified
    | [l] => .unit l
    | _ :: _ :: _ => .undecided

/-- Makes a literal true. -/
def fix (fixed : Fixed) (l : Lit) : Fixed := fixed.setIfInBounds l.var (some l.positive)

/-- The values after a sweep or a propagation, and whether a false clause ended it. -/
structure Propagated where
  fixed : Fixed
  conflict : Bool
deriving DecidableEq, Repr

/-- Goes once over the clauses, fixing the open literal of each unit clause, and stops at a false
clause. -/
def sweep (fixed : Fixed) : List Clause → Propagated
  | [] => ⟨fixed, false⟩
  | c :: cs =>
      match fixed.examine c with
      | .falsified => ⟨fixed, true⟩
      | .unit l => sweep (fixed.fix l) cs
      | .satisfied | .undecided => sweep fixed cs

/-- Sweeps at most `rounds` times, until nothing changes or a clause is false. -/
def propagateFor (cs : List Clause) : Nat → Fixed → Propagated
  | 0, fixed => ⟨fixed, false⟩
  | rounds + 1, fixed =>
      let swept := fixed.sweep cs
      if swept.conflict || swept.fixed == fixed then swept
      else propagateFor cs rounds swept.fixed

/-- The values that unit propagation fixes among the first `varCount` variables. -/
def propagate (varCount : Nat) (cs : List Clause) : Propagated :=
  propagateFor cs (varCount + 1) (none varCount)

end Fixed

end ProductLine
