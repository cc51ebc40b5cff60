import Mathlib.Order.Lattice
import Mathlib.Tactic.Common
import ProductLine.Proofs.Formula.ClauseForm
/-!
# How many variables clauses need

The number of variables that a clause needs is the least one that leaves its literals in range.

* `Clause.inRange_iff` and `Clause.inRange_of_mem` say so for a clause and for a list of clauses;
* `ClauseParser.Counts` asks of a parser that its clauses are in range.
-/
namespace ProductLine

/-- A maximum that is gathered along a list is bounded where all its items are. -/
theorem foldl_max_le_iff {α : Type} {f : α → Nat} {xs : List α} {first bound : Nat} :
    xs.foldl (fun n x => max n (f x)) first ≤ bound ↔ first ≤ bound ∧ ∀ x ∈ xs, f x ≤ bound := by
  induction xs generalizing first with
  | nil => simp
  | cons x xs ih => rw [List.foldl_cons, ih, Nat.max_le, List.forall_mem_cons, and_assoc]

namespace Clause

/-- A clause is in range if it has no more variables than there are. -/
theorem inRange_iff {n : Nat} {c : Clause} : c.InRange n ↔ c.varCount ≤ n := by
  rw [varCount, foldl_max_le_iff]
  exact ⟨fun h => ⟨Nat.zero_le n, h⟩, And.right⟩

/-- The clauses of a list are in the range of the variables that it needs. -/
theorem inRange_of_mem {c : Clause} {cs : List Clause} (h : c ∈ cs) : c.InRange (varCountOf cs) :=
  inRange_iff.2 ((foldl_max_le_iff.1 (Nat.le_refl (varCountOf cs))).2 c h)

end Clause

/-- The parser counts the variables of the clauses that it reads. -/
def ClauseParser.Counts {ε : Type} (parse : ClauseParser ε) : Prop :=
  ∀ ⦃bytes s⦄, parse bytes = .ok s → s.InRange s.varCount

end ProductLine
