import ProductLine.FeatureModel
/-!
# Relevant features

A feature matters for a product if it is concrete or has a concrete descendant.

* `FeatureModel.isRelevant` decides this;
* `FeatureModel.weight` counts a feature and its descendants, which bounds walks over the tree.
-/
namespace ProductLine

namespace FeatureModel

/-- Whether a feature is concrete or has a concrete descendant. -/
def isRelevant (m : FeatureModel) (i : Nat) : Bool :=
  (m.feature i).concrete || (m.children i).attach.any (fun c => m.isRelevant c.1)
termination_by m.size - i
decreasing_by
  have := lt_of_mem_children c.2
  omega

/-- The children that are relevant. -/
def relevantChildren (m : FeatureModel) (i : Nat) : List Nat :=
  (m.children i).filter m.isRelevant

/-- The number of features in the tree below and including a feature. -/
def weight (m : FeatureModel) (i : Nat) : Nat :=
  1 + (m.children i).attach.foldr (fun c n => m.weight c.1 + n) 0
termination_by m.size - i
decreasing_by
  have := lt_of_mem_children c.2
  omega

/-- The total weight of a list of features. -/
def totalWeight (m : FeatureModel) (is : List Nat) : Nat :=
  is.foldr (fun i n => m.weight i + n) 0

/-- The weight of a feature is one more than that of its children. -/
theorem weight_eq (m : FeatureModel) (i : Nat) :
    m.weight i = 1 + m.totalWeight (m.children i) := by
  rw [weight, totalWeight, List.foldr_attach (f := fun c n => m.weight c + n)]

@[simp] theorem totalWeight_nil (m : FeatureModel) : m.totalWeight [] = 0 := rfl

@[simp] theorem totalWeight_cons (m : FeatureModel) (i : Nat) (is : List Nat) :
    m.totalWeight (i :: is) = m.weight i + m.totalWeight is := rfl

@[simp] theorem totalWeight_append (m : FeatureModel) (is js : List Nat) :
    m.totalWeight (is ++ js) = m.totalWeight is + m.totalWeight js := by
  induction is with
  | nil => simp
  | cons i is ih => simp only [List.cons_append, totalWeight_cons, ih]; omega

/-- Leaving out features never adds weight. -/
theorem totalWeight_le_of_sublist (m : FeatureModel) {is js : List Nat} (h : is.Sublist js) :
    m.totalWeight is ≤ m.totalWeight js := by
  induction h with
  | slnil => simp
  | cons _ _ ih => simp only [totalWeight_cons]; omega
  | cons_cons _ _ ih => simp only [totalWeight_cons]; omega

/-- A list splits its weight into what a test accepts and what it refuses. -/
theorem totalWeight_filter_add (m : FeatureModel) (p : Nat → Bool) (is : List Nat) :
    m.totalWeight (is.filter p) + m.totalWeight (is.filter (fun i => !p i)) =
      m.totalWeight is := by
  induction is with
  | nil => simp
  | cons i is ih =>
      cases h : p i <;> simp only [List.filter_cons, h, totalWeight_cons] <;> simp <;> omega

/-- The relevant children of a feature weigh less than the feature. -/
theorem totalWeight_relevantChildren_lt (m : FeatureModel) (i : Nat) :
    m.totalWeight (m.relevantChildren i) < m.weight i := by
  have := m.totalWeight_le_of_sublist (List.filter_sublist (l := m.children i) (p := m.isRelevant))
  rw [weight_eq]
  unfold relevantChildren
  omega

end FeatureModel

end ProductLine
