import ProductLine.Proofs.FeatureModel.Rules
import ProductLine.Proofs.FeatureModel.Selections
import ProductLine.Proofs.Formula.Failures
/-!
# Why a feature model has no base formula

The rules of a model and its cross-tree constraints are formulas over the names of its features.
All of these have variables, so bringing them into clause form fails for nothing but the limit.

* `FeatureModel.WellFormed.over_of_mem_treeRules` is about the rules of the tree;
* `FeatureModel.Built.over_of_mem_allConstraints` is about all that a model states, and
  `FeatureModel.Built.eq_tooLarge_of_baseFormula` about its base formula.
-/
namespace ProductLine

/-! ## Many constraints -/

/-- Stated constraints come from the formulas. -/
theorem Constraint.formula_mem_of_mem_stateAll {first : Nat} {fs : List Formula} {c : Constraint}
    (h : c ∈ stateAll first fs) : c.formula ∈ fs := by
  induction fs generalizing first with
  | nil => cases h
  | cons f fs ih =>
    rcases List.mem_cons.1 h with rfl | h
    · exact List.mem_cons_self
    · exact List.mem_cons_of_mem f (ih h)

/-- A constraint without a clause form is why many have none. -/
theorem BaseFormula.exists_of_clauseForms {vs : Variables} {limit : Nat} {cs : List Constraint}
    {e : ClauseFormError} (h : clauseForms vs limit cs = .error e) :
    ∃ c ∈ cs, c.formula.clauseForm vs limit = .error e := by
  induction cs with
  | nil => cases h
  | cons c cs ih =>
    rw [clauseForms] at h
    rcases bind_eq_error.1 h with h | ⟨set, -, h⟩
    · exact ⟨c, List.mem_cons_self, h⟩
    · rcases bind_eq_error.1 h with h | ⟨sets, -, h⟩
      · obtain ⟨d, hd, hform⟩ := ih h
        exact ⟨d, List.mem_cons_of_mem c hd, hform⟩
      · cases h

namespace FeatureModel

variable {m : FeatureModel}

/-! ## Formulas over the names of features -/

theorem name_mem_names {i : Nat} (hi : i < m.size) : m.name i ∈ m.names :=
  List.mem_of_getElem? (getElem?_names hi)

theorem over_selected {i : Nat} (hi : i < m.size) : (m.selected i).Over m.names := by
  rw [selected, Formula.over_var]
  exact name_mem_names hi

/-- The rules between a feature and its parent are over the names of features. -/
theorem WellFormed.over_of_mem_parentRules (h : m.WellFormed) {i : Nat} (hi : i < m.size)
    {f : Formula} (hf : f ∈ m.parentRules i) : f.Over m.names := by
  unfold parentRules at hf
  cases hparent : (m.feature i).parent with
  | none =>
    rw [hparent] at hf
    cases hf
  | some p =>
    rw [hparent] at hf
    obtain rfl := List.mem_singleton.1 hf
    have hpos : 0 < i := by
      rcases Nat.eq_zero_or_pos i with rfl | hpos
      · rw [h.root] at hparent
        cases hparent
      · exact hpos
    obtain ⟨q, hq, hlt⟩ := h.parent i hpos hi
    obtain rfl := Option.some.inj (hparent.symm.trans hq)
    exact Formula.over_implies.2 ⟨over_selected hi, over_selected (Nat.lt_trans hlt hi)⟩

/-- The rules of a group are over the names of features. -/
theorem over_of_mem_groupRules {i : Nat} (hi : i < m.size) {f : Formula}
    (hf : f ∈ m.groupRules i) : f.Over m.names := by
  have hchild {c : Nat} (hc : c ∈ m.children i) : (m.selected c).Over m.names :=
    over_selected (mem_children.1 hc).2.1
  have hchildren : ∀ g ∈ (m.children i).map m.selected, g.Over m.names :=
    List.forall_mem_map.2 fun c hc => hchild hc
  have hsome : (Formula.implies (m.selected i) (.or ((m.children i).map m.selected))).Over
      m.names :=
    Formula.over_implies.2 ⟨over_selected hi, Formula.over_or.2 hchildren⟩
  unfold groupRules at hf
  dsimp only at hf
  split at hf
  · cases hf
  · cases hgroup : (m.feature i).group with
    | and =>
      rw [hgroup] at hf
      obtain ⟨c, hc, rfl⟩ := List.mem_map.1 hf
      exact Formula.over_implies.2 ⟨over_selected hi, hchild (List.mem_filter.1 hc).1⟩
    | or =>
      rw [hgroup] at hf
      exact List.mem_singleton.1 hf ▸ hsome
    | alternative =>
      rw [hgroup] at hf
      rcases List.mem_cons.1 hf with rfl | hf
      · exact hsome
      · split at hf
        · exact List.mem_singleton.1 hf ▸ Formula.over_atMostOne hchildren
        · cases hf

/-- The rules of the tree are over the names of the features. -/
theorem WellFormed.over_of_mem_treeRules (h : m.WellFormed) {f : Formula} (hf : f ∈ m.treeRules) :
    f.Over m.names := by
  rcases List.mem_cons.1 hf with rfl | hf
  · exact over_selected h.pos
  · obtain ⟨i, hi, hf⟩ := List.mem_flatMap.1 hf
    rw [List.mem_range] at hi
    rcases List.mem_append.1 hf with hf | hf
    · exact h.over_of_mem_parentRules hi hf
    · exact over_of_mem_groupRules hi hf

/-- So is all that a model states. -/
theorem Built.over_of_mem_allConstraints (h : m.Built) {c : Constraint}
    (hc : c ∈ m.allConstraints) : c.formula.Over m.names := by
  rcases List.mem_append.1 (Constraint.formula_mem_of_mem_stateAll hc) with hf | hf
  · exact h.wellFormed.over_of_mem_treeRules hf
  · exact fun name hname => h.mem_names_of_mem_constraints hf hname

/-- A base formula is missing only if a constraint has too many clauses. -/
theorem Built.eq_tooLarge_of_baseFormula (h : m.Built) {limit : Nat} {e : ClauseFormError}
    (he : m.baseFormula limit = .error e) : e = .tooLarge limit := by
  have hvars : m.vars = ⟨m.names⟩ := Variables.ofNames_eq h.wellFormed.names
  rcases bind_eq_error.1 he with he | ⟨sets, -, he⟩
  · rw [hvars] at he
    obtain ⟨c, hc, hform⟩ := BaseFormula.exists_of_clauseForms he
    exact Formula.eq_tooLarge_of_clauseForm (h.over_of_mem_allConstraints hc) hform
  · cases he

end FeatureModel

end ProductLine
