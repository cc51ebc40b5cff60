import ProductLine.Clause
import Std.Data.HashMap
import Std.Data.HashSet
/-!
# Deriving contradictions from assumptions

Assumptions are made one after the other.  After each of them, whatever follows by unit propagation
is derived: the last literal of a clause whose other literals are all false.  An assumption that is
false by then contradicts the assumptions from which its negation was derived.

When a whole clause becomes false instead, a clause is learned from the derivation, namely that the
last fact behind the contradiction cannot hold together with the earlier ones.  With it the
derivation starts over.

* `Derivation.propagate` derives what follows from known facts;
* `Derivation.learn` is the clause learned from a contradiction;
* `Derivation.blame?` finds assumptions that contradict some clauses together, as far as this
  derives it.
-/
namespace ProductLine

/-- A literal that is known to be true. -/
structure Fact where
  lit : Lit
  /-- The number of assumptions that were made by then. -/
  level : Nat
  /-- The clause from which it follows, unless it is an assumption. -/
  reason : Option Clause
deriving Repr

/-- What is known at some time. -/
structure Derivation where
  /-- The clauses in which each literal occurs. -/
  occurrences : Std.HashMap Lit (List Clause)
  /-- The fact about each variable. -/
  known : Std.HashMap Nat Fact
  /-- All facts, last first. -/
  trail : List Fact

namespace Derivation

/-- The clauses in which each literal occurs, those with two literals first. -/
def occurrencesIn (cs : List Clause) : Std.HashMap Lit (List Clause) :=
  let (short, long) := cs.partition (fun c => c.length ≤ 2)
  (short ++ long).foldr
    (fun c table => c.foldl (fun table l => table.insert l (c :: table.getD l [])) table) ∅

/-- Whether a literal is true, if that is known. -/
def value? (d : Derivation) (l : Lit) : Option Bool :=
  d.known[l.var]?.map (fun f => f.lit.positive == l.positive)

/-- Adds a fact. -/
def note (d : Derivation) (f : Fact) : Derivation :=
  { d with known := d.known.insert f.lit.var f, trail := f :: d.trail }

/-! ## Propagation -/

/-- A clause that became false, and what is known by then. -/
abbrev Contradiction := Clause × Derivation

/-- Goes over some clauses and derives what each of them gives.  The derived literals are gathered
in `found`, last first. -/
def visit (level : Nat) (found : List Lit) :
    List Clause → Derivation → Except Contradiction (List Lit × Derivation)
  | [], d => .ok (found.reverse, d)
  | c :: cs, d =>
      if c.any (fun l => d.value? l == some true) then visit level found cs d
      else
        match c.filter (fun l => d.value? l == none) with
        | [] => .error (c, d)
        | [l] => visit level (l :: found) cs (d.note ⟨l, level, some c⟩)
        | _ :: _ :: _ => visit level found cs d

/-- Derives what follows from the literals of a queue and from what follows from them, going over at
most as many literals as given. -/
def propagate (level : Nat) : (most : Nat) → (queue : List Lit) → Derivation →
    Except Contradiction Derivation
  | 0, _, d => .ok d
  | _ + 1, [], d => .ok d
  | most + 1, l :: queue, d => do
      let (found, d) ← visit level [] (d.occurrences.getD l.negate []) d
      propagate level most (queue ++ found) d

/-! ## Contradictions -/

/-- The assumptions behind the facts about some variables, last first. -/
def assumed (vars : Std.HashSet Nat) : List Fact → List Lit
  | [] => []
  | f :: fs =>
      if vars.contains f.lit.var then
        match f.reason with
        | none => f.lit :: assumed vars fs
        | some c => assumed (vars.insertMany (c.map Lit.var)) fs
      else assumed vars fs

/-- The clause that is learned when the facts about some variables contradict each other.  They are
traced back to a single fact at the last level. -/
def learn (level : Nat) (vars : Std.HashSet Nat) : List Fact → Clause
  | [] => []
  | f :: fs =>
      if vars.contains f.lit.var then
        let others := fs.filter (fun g => vars.contains g.lit.var)
        match f.reason, others.any (fun g => g.level == level) with
        | some c, true => learn level (vars.insertMany (c.map Lit.var)) fs
        | _, _ => f.lit.negate :: (others.filter (fun g => 0 < g.level)).map (·.lit.negate)
      else learn level vars fs

/-! ## Assumptions -/

/-- What comes of making assumptions. -/
inductive Attempt where
  /-- No contradiction was derived. -/
  | consistent
  /-- These assumptions contradict each other. -/
  | refuted (assumptions : List Lit)
  /-- A clause became false; this one was learned from it. -/
  | learned (clause : Clause)

/-- Makes assumptions one after the other.  Each is propagated over at most `most` literals. -/
def assume (most : Nat) : List Lit → (level : Nat) → Derivation → Attempt
  | [], _, _ => .consistent
  | l :: ls, level, d =>
      match d.value? l with
      | some true => assume most ls level d
      | some false => .refuted (l :: assumed {l.var} d.trail)
      | none =>
          match propagate (level + 1) most [l] (d.note ⟨l, level + 1, none⟩) with
          | .ok d => assume most ls (level + 1) d
          | .error (c, d) => .learned (learn (level + 1) (.ofList (c.map Lit.var)) d.trail)

/-- Derives what follows from clauses alone, and then makes assumptions. -/
def attempt (cs : List Clause) (ls : List Lit) : Attempt :=
  let cs := cs.map List.eraseDups
  let most := cs.length + ls.length
  let start : Derivation := ⟨occurrencesIn cs, ∅, []⟩
  let derived := do
    let (found, d) ← visit 0 [] (cs.filter (fun c => c.length ≤ 1)) start
    propagate 0 most found d
  match derived with
  | .ok d => assume most ls 0 d
  | .error _ => .refuted []

/-- Assumptions that contradict the clauses together: one of them first, and then those from which
its negation was derived, last first.  `none` if no contradiction is derived.  At most as many
clauses as given are learned. -/
def blame? (ls : List Lit) : (most : Nat) → List Clause → Option (List Lit)
  | 0, _ => none
  | most + 1, cs =>
      match attempt cs ls with
      | .consistent => none
      | .refuted failed => some failed
      | .learned c => blame? ls most (cs ++ [c])

end Derivation

end ProductLine
