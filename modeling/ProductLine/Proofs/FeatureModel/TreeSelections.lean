import Mathlib.Tactic.Common
import ProductLine.Proofs.FeatureModel.Selections
/-!
# The rules of a tree say what the tree says

A selection gives a value to each feature, and so to each name.  The rules of the tree are true of
it exactly if it holds the root, with every feature its parent, and with every feature the children
that its group asks for.

* `FeatureModel.GroupObeyed` is what the group of a feature asks for;
* `FeatureModel.treeRules_valuation_iff` is about the values that a selection gives to names;
* `FeatureModel.treeSelection_setMandatory_iff` says which mandatory flags do not matter.
-/
namespace ProductLine

namespace FeatureModel

variable {m : FeatureModel} {selected : Nat → Bool}

/-! ## Groups -/

/-- The selected children of a feature are what its group asks for.  Without children an OR or
ALTERNATIVE group asks for nothing, and only AND groups look at the mandatory flag. -/
def GroupObeyed (m : FeatureModel) (selected : Nat → Bool) (i : Nat) : Prop :=
  match (m.feature i).group with
  | .and => ∀ c ∈ m.children i, (m.feature c).mandatory = true → selected c = true
  | .or => m.children i ≠ [] → ∃ c ∈ m.children i, selected c = true
  | .alternative => m.children i ≠ [] → ∃! c, c ∈ m.children i ∧ selected c = true

/-- What the three kinds of groups ask for, taken together. -/
theorem groupObeyed_iff (i : Nat) : m.GroupObeyed selected i ↔
    ((m.feature i).group = .and →
      ∀ c ∈ m.children i, (m.feature c).mandatory = true → selected c = true) ∧
    ((m.feature i).group = .or → m.children i ≠ [] → ∃ c ∈ m.children i, selected c = true) ∧
    ((m.feature i).group = .alternative → m.children i ≠ [] →
      ∃ c ∈ m.children i, selected c = true ∧ ∀ d ∈ m.children i, selected d = true → d = c) := by
  unfold GroupObeyed
  cases (m.feature i).group with
  | and => simp
  | or => simp
  | alternative => simp [ExistsUnique, and_assoc]

/-- Only the values of its children matter to the group of a feature. -/
theorem groupObeyed_congr {other : Nat → Bool} {i : Nat}
    (h : ∀ c ∈ m.children i, other c = selected c) :
    m.GroupObeyed other i ↔ m.GroupObeyed selected i := by
  unfold GroupObeyed
  cases (m.feature i).group with
  | and => exact forall₂_congr (fun c hc => by rw [h c hc])
  | or =>
    exact imp_congr_right (fun _ => exists_congr (fun c =>
      and_congr_right (fun hc => by rw [h c hc])))
  | alternative =>
    exact imp_congr_right (fun _ => existsUnique_congr (fun c =>
      and_congr_right (fun hc => by rw [h c hc])))

/-- In a tree every feature but the root has a parent, so a selection holds the parents of its
features. -/
theorem WellFormed.treeSelection_iff (h : m.WellFormed) : m.TreeSelection selected ↔
    selected 0 = true ∧
    (∀ i, 0 < i → i < m.size → selected i = true →
      ∃ p, (m.feature i).parent = some p ∧ selected p = true) ∧
    ∀ i, i < m.size → selected i = true → m.GroupObeyed selected i := by
  constructor
  · intro htree
    refine ⟨htree.root, ?_, ?_⟩
    · intro i hpos hi hselected
      obtain ⟨p, hp, -⟩ := h.parent i hpos hi
      exact ⟨p, hp, htree.parent i p hi hselected hp⟩
    · intro i hi hselected
      rw [groupObeyed_iff]
      exact ⟨htree.mandatory i hi hselected, htree.atLeastOne i hi hselected,
        htree.exactlyOne i hi hselected⟩
  · rintro ⟨hroot, hparents, hgroups⟩
    have hgroup (i : Nat) (hi : i < m.size) (hselected : selected i = true) :=
      (groupObeyed_iff i).1 (hgroups i hi hselected)
    refine ⟨hroot, ?_, fun i hi hs => (hgroup i hi hs).1, fun i hi hs => (hgroup i hi hs).2.1,
      fun i hi hs => (hgroup i hi hs).2.2⟩
    intro i p hi hselected hp
    rcases Nat.eq_zero_or_pos i with rfl | hpos
    · rw [h.root] at hp
      cases hp
    · obtain ⟨q, hq, hselected'⟩ := hparents i hpos hi hselected
      rw [hp] at hq
      cases hq
      exact hselected'

/-! ## Values of names -/

/-- Under a selection the name of a feature has the value of the feature. -/
theorem WellFormed.valuation_name (h : m.WellFormed) {i : Nat} (hi : i < m.size) :
    m.vars.valuation selected (m.name i) = selected i := by
  rw [vars, Variables.ofNames_eq h.names]
  exact Variables.agree_valuation _ selected _ i (h.find?_name hi)

/-- The rules are true under the values that a selection gives to names exactly if the tree allows
the selection. -/
theorem WellFormed.treeRules_valuation_iff (h : m.WellFormed) :
    (∀ f ∈ m.treeRules, f.eval (m.vars.valuation selected) = true) ↔
      m.TreeSelection selected := by
  rw [treeRules_iff, h.treeSelection_iff, h.treeSelection_iff, h.valuation_name h.pos]
  refine and_congr_right' (and_congr ?_ ?_)
  · refine forall_congr' (fun i => imp_congr_right (fun hpos => forall_congr' (fun hi => ?_)))
    rw [h.valuation_name hi]
    refine imp_congr_right (fun _ => exists_congr (fun p => and_congr_right (fun hp => ?_)))
    obtain ⟨q, hq, hlt⟩ := h.parent i hpos hi
    rw [hp] at hq
    cases hq
    rw [h.valuation_name (Nat.lt_trans hlt hi)]
  · refine forall₂_congr (fun i hi => ?_)
    rw [h.valuation_name hi]
    refine imp_congr_right (fun _ => groupObeyed_congr (fun c hc => ?_))
    exact h.valuation_name (mem_children.1 hc).2.1

/-! ## Mandatory flags -/

section SetMandatory

variable {i j : Nat} {mandatory : Bool}

@[simp] theorem size_setMandatory : (m.setMandatory i mandatory).size = m.size := by
  rw [setMandatory, size_change]

/-- Only the flag of the given feature changes. -/
theorem feature_setMandatory : (m.setMandatory i mandatory).feature j =
    if i = j ∧ j < m.size then { m.feature j with mandatory := mandatory } else m.feature j := by
  simp only [feature, setMandatory, change, Array.getElem?_modify]
  rcases Nat.lt_or_ge j m.features.size with hj | hj
  · simp only [Array.getElem?_eq_getElem hj, size, hj, and_true]
    split <;> rfl
  · simp [size, Nat.not_lt.2 hj]

@[simp] theorem parent_setMandatory :
    ((m.setMandatory i mandatory).feature j).parent = (m.feature j).parent := by
  rw [setMandatory, parent_change]
  exact fun _ => rfl

@[simp] theorem group_setMandatory :
    ((m.setMandatory i mandatory).feature j).group = (m.feature j).group := by
  rw [feature_setMandatory]
  split <;> rfl

@[simp] theorem children_setMandatory :
    (m.setMandatory i mandatory).children j = m.children j := by
  rw [setMandatory, children_change]
  exact fun _ => rfl

theorem mandatory_setMandatory_of_ne (h : i ≠ j) :
    ((m.setMandatory i mandatory).feature j).mandatory = (m.feature j).mandatory := by
  rw [feature_setMandatory, if_neg (fun hij => h hij.1)]

/-- The mandatory flag of a feature matters only if its parent has an AND group. -/
theorem WellFormed.treeSelection_setMandatory_iff (h : m.WellFormed)
    (hi : ∀ p, (m.feature i).parent = some p → (m.feature p).group ≠ .and) :
    (m.setMandatory i mandatory).TreeSelection selected ↔ m.TreeSelection selected := by
  have hchanged : (m.setMandatory i mandatory).WellFormed :=
    h.change i (fun _ => rfl) (fun _ => rfl)
  have hgroup (j : Nat) :
      (m.setMandatory i mandatory).GroupObeyed selected j ↔ m.GroupObeyed selected j := by
    unfold GroupObeyed
    rw [group_setMandatory, children_setMandatory]
    cases hkind : (m.feature j).group with
    | and =>
      refine forall₂_congr (fun c hc => ?_)
      rw [mandatory_setMandatory_of_ne]
      rintro rfl
      exact hi j (mem_children.1 hc).2.2 hkind
    | or => exact Iff.rfl
    | alternative => exact Iff.rfl
  rw [h.treeSelection_iff, hchanged.treeSelection_iff]
  simp only [size_setMandatory, parent_setMandatory, hgroup]

end SetMandatory

/-! ## The rules of a tree -/

/-- **The rules of a tree say what the tree says.**  They are true under a selection exactly if the
root is selected, the parent of every other selected feature is, and every selected feature has the
children that its group asks for: all mandatory ones if the group is an AND group, at least one if
it is an OR group with children, and exactly one if it is an ALTERNATIVE group with children.  So a
mandatory flag below another group than an AND group changes nothing. -/
theorem treeRules_iff_selection (hm : m.Built) (selected : Nat → Bool) :
    ((∀ f ∈ m.treeRules, f.eval (m.vars.valuation selected) = true) ↔
      selected 0 = true ∧
      (∀ i, 0 < i → i < m.size → selected i = true →
        ∃ p, (m.feature i).parent = some p ∧ selected p = true) ∧
      ∀ i, i < m.size → selected i = true →
        match (m.feature i).group with
        | .and => ∀ c ∈ m.children i, (m.feature c).mandatory = true → selected c = true
        | .or => m.children i ≠ [] → ∃ c ∈ m.children i, selected c = true
        | .alternative => m.children i ≠ [] → ∃! c, c ∈ m.children i ∧ selected c = true) ∧
    ∀ i mandatory, (∀ p, (m.feature i).parent = some p → (m.feature p).group ≠ .and) →
      ((∀ f ∈ (m.setMandatory i mandatory).treeRules,
          f.eval ((m.setMandatory i mandatory).vars.valuation selected) = true) ↔
        ∀ f ∈ m.treeRules, f.eval (m.vars.valuation selected) = true) := by
  have hformed := hm.wellFormed
  refine ⟨hformed.treeRules_valuation_iff.trans hformed.treeSelection_iff, ?_⟩
  intro i mandatory hi
  have hchanged : (m.setMandatory i mandatory).WellFormed :=
    hformed.change i (fun _ => rfl) (fun _ => rfl)
  rw [hchanged.treeRules_valuation_iff, hformed.treeRules_valuation_iff]
  exact hformed.treeSelection_setMandatory_iff hi

/-- A root with a mandatory and an optional child.  At least one feature below the first is needed,
and exactly one below the second. -/
def threeGroups : FeatureModel where
  features := #[{ name := "R", parent := none },
    { name := "A", parent := some 0, group := .or, mandatory := true },
    { name := "B", parent := some 0, group := .alternative }, { name := "C", parent := some 1 },
    { name := "D", parent := some 1 }, { name := "E", parent := some 2 },
    { name := "F", parent := some 2, mandatory := true }]
  constraints := []

theorem built_threeGroups : threeGroups.Built := by
  have hupper : Built ⟨#[{ name := "R", parent := none },
      { name := "A", parent := some 0, group := .or, mandatory := true },
      { name := "B", parent := some 0, group := .alternative }], []⟩ :=
    .apply (e := .setGroup "B" .alternative) (.apply (e := .setGroup "A" .or)
      (.apply (e := .add "R" "B")
        (.apply (e := .addMandatory "R" "A") (.root "R") rfl) rfl) rfl) rfl
  exact .apply (e := .addMandatory "B" "F") (.apply (e := .add "B" "E") (.apply (e := .add "A" "D")
    (.apply (e := .add "A" "C") hupper rfl) rfl) rfl) rfl

/-- The rules are true of a selection with one feature of each lower group, so the second group has
exactly one, although the other one is called mandatory.  With both of them they are not true,
whether it is called so or not. -/
theorem treeRules_iff_selection_threeGroups :
    (∀ f ∈ threeGroups.treeRules,
      f.eval (threeGroups.vars.valuation (fun i => i ∈ [0, 1, 2, 3, 5])) = true) ∧
    (∃! c, c ∈ threeGroups.children 2 ∧ decide (c ∈ [0, 1, 2, 3, 5]) = true) ∧
    ¬ ∀ f ∈ (threeGroups.setMandatory 6 false).treeRules,
      f.eval ((threeGroups.setMandatory 6 false).vars.valuation
        (fun i => i ∈ [0, 1, 2, 3, 5, 6])) = true := by
  have hrules : ∀ f ∈ threeGroups.treeRules,
      f.eval (threeGroups.vars.valuation (fun i => i ∈ [0, 1, 2, 3, 5])) = true := by
    decide
  obtain ⟨hiff, -⟩ := treeRules_iff_selection built_threeGroups (fun i => i ∈ [0, 1, 2, 3, 5])
  obtain ⟨-, hflag⟩ := treeRules_iff_selection built_threeGroups (fun i => i ∈ [0, 1, 2, 3, 5, 6])
  refine ⟨hrules, (hiff.1 hrules).2.2 2 (by decide) (by decide) (by decide), ?_⟩
  rw [hflag 6 false (by rintro p ⟨⟩; decide)]
  decide

end FeatureModel

end ProductLine
