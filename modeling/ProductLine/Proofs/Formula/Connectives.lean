import Mathlib.Data.List.Pairwise
import Mathlib.Tactic.Common
import ProductLine.Formula
/-!
# When a formula is true

Each connective is read as what it says of its parts.

* `Formula.eval_and` and its neighbours are about one connective each;
* `Formula.eval_exclusions` says that the exclusions of a list speak of pairs of its items;
* `Formula.eval_atMostOne_iff` says that two items which are both true stand at the same position.
-/
namespace ProductLine

namespace Formula

variable (w : String → Bool)

/-! ## Connectives -/

theorem evalAll_eq (fs : List Formula) : evalAll w fs = fs.all (eval w) := by
  induction fs with
  | nil => rfl
  | cons f fs ih => rw [evalAll, ih, List.all_cons]

theorem evalAny_eq (fs : List Formula) : evalAny w fs = fs.any (eval w) := by
  induction fs with
  | nil => rfl
  | cons f fs ih => rw [evalAny, ih, List.any_cons]

theorem eval_and (fs : List Formula) : (and fs).eval w = true ↔ ∀ f ∈ fs, f.eval w = true := by
  rw [eval, evalAll_eq, List.all_eq_true]

theorem eval_or (fs : List Formula) : (or fs).eval w = true ↔ ∃ f ∈ fs, f.eval w = true := by
  rw [eval, evalAny_eq, List.any_eq_true]

/-- An implication is true if its second part is true whenever its first one is. -/
theorem eval_implies (f g : Formula) :
    (implies f g).eval w = true ↔ (f.eval w = true → g.eval w = true) := by
  rw [eval]
  cases f.eval w <;> simp

/-- A negated formula has the opposite value. -/
theorem eval_negated (f : Formula) : f.negated.eval w = !f.eval w := by
  cases f <;> simp [negated, eval]

/-! ## At most one -/

/-- Every pair of positions is excluded. -/
theorem eval_exclusions (fs : List Formula) :
    (∀ f ∈ exclusions fs, f.eval w = true) ↔
      fs.Pairwise (fun f g => f.eval w = true → ¬ g.eval w = true) := by
  induction fs with
  | nil => simp [exclusions]
  | cons f fs ih =>
    rw [exclusions, List.forall_mem_append, ih, List.pairwise_cons]
    refine and_congr_left' ?_
    rw [List.forall_mem_map]
    refine forall₂_congr ?_
    intro g hg
    rw [eval_or]
    simp only [List.mem_cons, List.not_mem_nil, or_false, exists_eq_or_imp, exists_eq_left,
      eval_negated]
    cases f.eval w <;> simp

/-- At most one of several formulas is true if no two of them are true together. -/
theorem eval_atMostOne (fs : List Formula) : (atMostOne fs).eval w = true ↔
    fs.Pairwise (fun f g => f.eval w = true → ¬ g.eval w = true) := by
  rw [atMostOne, eval_and, eval_exclusions]

/-- **At most one position holds a true formula.**  This is what the exclusions of a list say
together, whatever formulas it holds and however often, negations among them. -/
theorem eval_atMostOne_iff (fs : List Formula) : (atMostOne fs).eval w = true ↔
    ∀ i j (hi : i < fs.length) (hj : j < fs.length),
      fs[i].eval w = true → fs[j].eval w = true → i = j := by
  rw [eval_atMostOne, List.pairwise_iff_getElem]
  constructor
  · intro h i j hi hj hwi hwj
    rcases Nat.lt_trichotomy i j with hlt | heq | hlt
    · exact absurd hwj (h i j hi hj hlt hwi)
    · exact heq
    · exact absurd hwi (h j i hj hi hlt hwj)
  · intro h i j hi hj hlt hwi hwj
    exact Nat.ne_of_lt hlt (h i j hi hj hwi hwj)

end Formula

end ProductLine
