import Mathlib.Data.Finset.Card
import Mathlib.Data.Finset.SDiff
import Mathlib.Data.Finset.SymmDiff
import Mathlib.Data.String.Basic
import Mathlib.Tactic.Common
import ProductLine.Configuration
/-!
# Configurations are sets of names

The names of a configuration are in increasing order, so none is repeated, and what is computed from
the list is a fact about the set of its names.

* `mem_nameSet` and `nodup_nameSet` are about the lists that stand for sets;
* `Configuration.selected` is the set, and `Configuration.distance_eq_card` the distance of two.
-/
namespace ProductLine

/-! ## Lists that stand for sets -/

theorem mem_insertName {name n : String} {ns : List String} :
    n ∈ insertName name ns ↔ n = name ∨ n ∈ ns := by
  induction ns with
  | nil => simp [insertName]
  | cons other ns ih =>
    rw [insertName]
    split
    · simp
    · split
      · rename_i heq
        simp [heq]
      · rw [List.mem_cons, ih, List.mem_cons, or_left_comm]

/-- The set of some names has these names. -/
theorem mem_nameSet {n : String} {names : List String} : n ∈ nameSet names ↔ n ∈ names := by
  induction names with
  | nil => simp [nameSet]
  | cons name names ih =>
    rw [nameSet, List.foldr_cons, ← nameSet, mem_insertName, ih, List.mem_cons]

theorem pairwise_insertName {name : String} {ns : List String} (h : ns.Pairwise (· < ·)) :
    (insertName name ns).Pairwise (· < ·) := by
  induction ns with
  | nil => simp [insertName]
  | cons n ns ih =>
    obtain ⟨hn, hns⟩ := List.pairwise_cons.1 h
    rw [insertName]
    split
    · rename_i hlt
      refine List.pairwise_cons.2 ⟨?_, h⟩
      exact List.forall_mem_cons.2 ⟨hlt, fun k hk => lt_trans hlt (hn k hk)⟩
    · split
      · exact h
      · rename_i hge hne
        refine List.pairwise_cons.2 ⟨?_, ih hns⟩
        intro k hk
        rcases mem_insertName.1 hk with rfl | hk
        · exact lt_of_le_of_ne (not_lt.1 hge) (Ne.symm hne)
        · exact hn k hk

/-- The names are in increasing order. -/
theorem pairwise_nameSet (names : List String) : (nameSet names).Pairwise (· < ·) := by
  induction names with
  | nil => exact .nil
  | cons name names ih => exact pairwise_insertName ih

/-- The set of some names has no repetitions. -/
theorem nodup_nameSet (names : List String) : (nameSet names).Nodup :=
  (pairwise_nameSet names).imp ne_of_lt

/-! ## Configurations -/

namespace Configuration

variable {c d : Configuration}

/-- The set of the names of a configuration. -/
def selected (c : Configuration) : Finset String := c.features.toFinset

@[simp] theorem mem_selected {name : String} : name ∈ c.selected ↔ name ∈ c.features :=
  List.mem_toFinset

/-- The size of a configuration is the number of features that it selects. -/
theorem size_eq_card (h : c.features.Nodup) : c.size = c.selected.card :=
  (List.toFinset_card_of_nodup h).symm

/-- The features of one configuration that another lacks are counted without repetitions. -/
theorem length_filter_eq_card (h : c.features.Nodup) (d : Configuration) :
    (c.features.filter (· ∉ d.features)).length = (c.selected \ d.selected).card := by
  rw [← List.toFinset_card_of_nodup (h.filter _)]
  congr 1
  ext name
  simp

/-- The distance is the size of the symmetric difference. -/
theorem distance_eq_card (hc : c.features.Nodup) (hd : d.features.Nodup) :
    c.distance d = (symmDiff c.selected d.selected).card := by
  rw [distance, length_filter_eq_card hc, length_filter_eq_card hd, symmDiff_def,
    Finset.sup_eq_union, Finset.card_union_of_disjoint disjoint_sdiff_sdiff]

end Configuration

end ProductLine
