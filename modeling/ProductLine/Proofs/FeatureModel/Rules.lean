import Mathlib.Data.List.Nodup
import Mathlib.Data.List.Pairwise
import Mathlib.Tactic.Common
import ProductLine.FeatureModel.Rules
import ProductLine.Proofs.FeatureModel.Tree
import ProductLine.Proofs.Formula.Connectives
/-!
# What the rules of a feature model mean

The rules are true exactly of the selections that the tree allows, and the concrete features of such
a selection are what a product consists of.

* `FeatureModel.parentRules_iff` and `FeatureModel.groupRules_iff` are about one feature;
* `FeatureModel.treeRules_iff` is about the tree.
-/
namespace ProductLine

namespace FeatureModel

variable {m : FeatureModel} {w : String → Bool}

@[simp] theorem eval_selected (m : FeatureModel) (w : String → Bool) (i : Nat) :
    (m.selected i).eval w = w (m.name i) := by
  rw [selected, Formula.eval]

/-! ## The rules of a feature -/

/-- A feature comes with its parent. -/
theorem parentRules_iff (i : Nat) : (∀ f ∈ m.parentRules i, f.eval w = true) ↔
    ∀ p, (m.feature i).parent = some p → w (m.name i) = true → w (m.name p) = true := by
  unfold parentRules
  cases (m.feature i).parent with
  | none => simp
  | some p => simp [Formula.eval_implies]

/-- No two of some features are selected. -/
theorem eval_atMostOne_selected {cs : List Nat} (hcs : cs.Nodup) :
    (Formula.atMostOne (cs.map m.selected)).eval w = true ↔
      ∀ c ∈ cs, ∀ d ∈ cs, w (m.name c) = true → w (m.name d) = true → d = c := by
  rw [Formula.eval_atMostOne, List.pairwise_map]
  simp only [eval_selected]
  constructor
  · intro h c hc d hd hcw hdw
    by_contra hne
    have hsymm : Std.Symm (fun c d => w (m.name c) = true → ¬ w (m.name d) = true) :=
      ⟨fun a b hab hb ha => hab ha hb⟩
    exact h.forall hd hc hne hdw hcw
  · intro h
    refine hcs.pairwise_of_forall_ne ?_
    intro c hc d hd hne hcw hdw
    exact hne (h c hc d hd hcw hdw).symm

/-- The children of a feature obey the kind of its group. -/
theorem groupRules_iff (i : Nat) : (∀ f ∈ m.groupRules i, f.eval w = true) ↔
    ((m.feature i).group = .and → w (m.name i) = true →
      ∀ c ∈ m.children i, (m.feature c).mandatory = true → w (m.name c) = true) ∧
    ((m.feature i).group = .or → w (m.name i) = true → m.children i ≠ [] →
      ∃ c ∈ m.children i, w (m.name c) = true) ∧
    ((m.feature i).group = .alternative → m.children i ≠ [] →
      (w (m.name i) = true → ∃ c ∈ m.children i, w (m.name c) = true) ∧
      ∀ c ∈ m.children i, ∀ d ∈ m.children i,
        w (m.name c) = true → w (m.name d) = true → d = c) := by
  have hor : (Formula.implies (m.selected i) (.or ((m.children i).map m.selected))).eval w = true ↔
      (w (m.name i) = true → ∃ c ∈ m.children i, w (m.name c) = true) := by
    rw [Formula.eval_implies, Formula.eval_or]
    simp
  by_cases hempty : m.children i = []
  · simp [groupRules, hempty]
  · unfold groupRules
    simp only [List.isEmpty_iff, hempty, if_false]
    cases (m.feature i).group with
    | and =>
      simp only [List.forall_mem_map, List.mem_filter, Formula.eval_implies, eval_selected]
      simp only [reduceCtorEq, false_implies, and_true, true_implies]
      exact ⟨fun h hi c hc hcm => h c ⟨hc, hcm⟩ hi, fun h c hc hi => h hi c hc.1 hc.2⟩
    | or =>
      rw [List.forall_mem_singleton, hor]
      simp [hempty]
    | alternative =>
      rw [List.forall_mem_cons, hor]
      simp only [reduceCtorEq, false_implies, true_and, true_implies, ne_eq, hempty,
        not_false_eq_true]
      refine and_congr_right' ?_
      split
      · rw [List.forall_mem_singleton, eval_atMostOne_selected (m.nodup_children i)]
      · -- A single child needs no rule to be the only one.
        rename_i hone
        obtain ⟨c, hc⟩ : ∃ c, m.children i = [c] := by
          rw [← List.length_eq_one_iff]
          have := List.length_pos_iff.2 hempty
          omega
        simp [hc]

/-! ## The rules of the tree -/

/-- **The rules mean what the tree says.**  They are true exactly if the selected features are a
selection that the tree allows. -/
theorem treeRules_iff : (∀ f ∈ m.treeRules, f.eval w = true) ↔
    m.TreeSelection (fun i => w (m.name i)) := by
  have hrules : (∀ f ∈ m.treeRules, f.eval w = true) ↔ w (m.name 0) = true ∧
      ∀ i < m.size, (∀ f ∈ m.parentRules i, f.eval w = true) ∧
        ∀ f ∈ m.groupRules i, f.eval w = true := by
    simp only [treeRules, List.forall_mem_cons, eval_selected, List.mem_flatMap, List.mem_range,
      List.mem_append]
    refine and_congr_right' ⟨fun h i hi => ⟨fun f hf => h f ⟨i, hi, .inl hf⟩,
      fun f hf => h f ⟨i, hi, .inr hf⟩⟩, ?_⟩
    rintro h f ⟨i, hi, hf | hf⟩
    · exact (h i hi).1 f hf
    · exact (h i hi).2 f hf
  rw [hrules]
  constructor
  · rintro ⟨hroot, hrules⟩
    refine ⟨hroot, ?_, ?_, ?_, ?_⟩
    · intro i p hi hw hp
      exact (parentRules_iff i).1 (hrules i hi).1 p hp hw
    · intro i hi hw hgroup
      exact ((groupRules_iff i).1 (hrules i hi).2).1 hgroup hw
    · intro i hi hw hgroup
      exact ((groupRules_iff i).1 (hrules i hi).2).2.1 hgroup hw
    · intro i hi hw hgroup hchildren
      obtain ⟨hsome, honly⟩ := ((groupRules_iff i).1 (hrules i hi).2).2.2 hgroup hchildren
      obtain ⟨c, hc, hcw⟩ := hsome hw
      exact ⟨c, hc, hcw, fun d hd hdw => honly c hc d hd hcw hdw⟩
  · intro h
    refine ⟨h.root, fun i hi => ⟨?_, ?_⟩⟩
    · exact (parentRules_iff i).2 (fun p hp hw => h.parent i p hi hw hp)
    · refine (groupRules_iff i).2 ⟨?_, ?_, ?_⟩
      · exact fun hgroup hw => h.mandatory i hi hw hgroup
      · exact fun hgroup hw => h.atLeastOne i hi hw hgroup
      · intro hgroup hchildren
        refine ⟨?_, ?_⟩
        · intro hw
          obtain ⟨c, hc, hcw, -⟩ := h.exactlyOne i hi hw hgroup hchildren
          exact ⟨c, hc, hcw⟩
        · -- Selected children have a selected parent, so its group decides here as well.
          intro c hc d hd hcw hdw
          have hparent := mem_children.1 hc
          have hw := h.parent c i hparent.2.1 hcw hparent.2.2
          obtain ⟨e, -, -, honly⟩ := h.exactlyOne i hi hw hgroup hchildren
          rw [honly c hc hcw, honly d hd hdw]

/-- With a feature, a selection of the tree holds all features above it. -/
theorem TreeSelection.of_below {selected : Nat → Bool} (h : m.TreeSelection selected) {i j : Nat}
    (hij : m.Below i j) (hj : selected j = true) : selected i = true := by
  induction hij with
  | refl => exact hj
  | child _ hc ih =>
    have hc := mem_children.1 hc
    exact ih (h.parent _ _ hc.2.1 hj hc.2.2)

end FeatureModel

end ProductLine
