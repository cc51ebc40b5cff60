import ProductLine.Analysis
import ProductLine.Proofs.FeatureModel.Rules
import ProductLine.Proofs.Variables
/-!
# Models of the base are selections

A solver whose base states the rules of a feature model knows features as variables.  Its models are
the selections under which the rules and the cross-tree constraints are true.

* `FeatureModel.StatedBy` says that a base formula states the rules of a model;
* `FeatureModel.ValidSelection` says in terms of the tree what its models are, and
  `FeatureModel.StatedBy.models_iff` and `FeatureModel.StatedBy.models_reading_iff` go back and
  forth.
-/
namespace ProductLine

/-- Constraints stated from formulas hold exactly if the formulas are true. -/
theorem Constraint.hold_stateAll {w : String → Bool} (first : Nat) {fs : List Formula} :
    Hold w (stateAll first fs) ↔ ∀ f ∈ fs, f.eval w = true := by
  induction fs generalizing first with
  | nil => simp [Hold, stateAll]
  | cons f fs ih =>
    rw [stateAll, List.forall_mem_cons, ← ih (first + 1)]
    exact List.forall_mem_cons

namespace FeatureModel

variable {m : FeatureModel}

/-! ## Features as variables -/

/-- In a well-formed model each feature is found by its name. -/
theorem WellFormed.find?_name (h : m.WellFormed) {i : Nat} (hi : i < m.size) :
    (Variables.mk m.names).find? (m.name i) = some i :=
  Variables.find?_of_name? h.names (getElem?_names hi)

/-- A name is found exactly at the feature that has it. -/
theorem WellFormed.find?_eq_some_iff (h : m.WellFormed) {name : String} {i : Nat} :
    m.find? name = some i ↔ i < m.size ∧ m.name i = name := by
  constructor
  · intro hfind
    have hname : m.names[i]? = some name := Variables.name?_of_find? hfind
    have hi : i < m.size := by
      rw [← length_names]
      exact (List.getElem?_eq_some_iff.1 hname).1
    rw [getElem?_names hi] at hname
    exact ⟨hi, Option.some.inj hname⟩
  · rintro ⟨hi, rfl⟩
    exact h.find?_name hi

/-- A name is required with success exactly if a feature has it. -/
theorem WellFormed.require_eq_ok_iff (h : m.WellFormed) {name : String} {i : Nat} :
    m.require name = .ok i ↔ i < m.size ∧ m.name i = name := by
  rw [← h.find?_eq_some_iff, require]
  cases m.find? name <;> simp

/-- Features of a well-formed model are told apart by their names. -/
theorem WellFormed.name_inj (h : m.WellFormed) {i j : Nat} (hi : i < m.size) (hj : j < m.size)
    (heq : m.name i = m.name j) : i = j := by
  have hfind := h.find?_name hi
  rw [heq, h.find?_name hj] at hfind
  exact (Option.some.inj hfind).symm

theorem lt_size_of_mem_concreteFeatures {i : Nat} (h : i ∈ m.concreteFeatures) : i < m.size :=
  List.mem_range.1 (List.mem_filter.1 h).1

/-! ## The base of a model -/

/-- The base formula states the rules and constraints of the model. -/
structure StatedBy (m : FeatureModel) (base : BaseFormula) : Prop where
  model : m.WellFormed
  built : base.Built
  vars : base.vars = ⟨m.names⟩
  constraints : base.constraints = m.allConstraints

/-- The base formula of a well-formed model states its rules and constraints. -/
theorem statedBy_of_baseFormula (hm : m.WellFormed) {limit : Nat} {base : BaseFormula}
    (hbase : m.baseFormula limit = .ok base) : m.StatedBy base ∧ base.clauseLimit = limit := by
  have hvars : m.vars = ⟨m.names⟩ := Variables.ofNames_eq hm.names
  have hbuilt := BaseFormula.built_of_build (hvars ▸ hm.names : m.vars.names.Nodup) hbase
  obtain ⟨sets, -, rfl⟩ := BaseFormula.build_eq_ok.1 hbase
  exact ⟨⟨hm, hbuilt, hvars, rfl⟩, rfl⟩

/-- The tree allows the selection, and the cross-tree constraints are true under it. -/
def ValidSelection (m : FeatureModel) (w : String → Bool) : Prop :=
  m.TreeSelection (fun i => w (m.name i)) ∧ ∀ f ∈ m.constraints, f.eval w = true

/-- A selection is valid if every rule and constraint is true in it. -/
theorem validSelection_iff {w : String → Bool} :
    m.ValidSelection w ↔ ∀ f ∈ m.treeRules ++ m.constraints, f.eval w = true := by
  rw [List.forall_mem_append, treeRules_iff, ValidSelection]

namespace StatedBy

variable {ω : Type} {s : Solver ω}

theorem ready (h : m.StatedBy s.base) : s.Ready [] := ⟨h.built, ConstraintStack.translated_nil⟩

theorem varCount {base : BaseFormula} (h : m.StatedBy base) : base.varCount = m.size := by
  rw [BaseFormula.varCount, Variables.size, h.vars, length_names]

/-- A model of the base is a selection under which the rules and constraints are true. -/
theorem models_iff (h : m.StatedBy s.base) (v : Nat → Bool) : s.Models [] v ↔
    ∀ f ∈ m.treeRules ++ m.constraints, f.eval (s.base.vars.valuation v) = true := by
  rw [Solver.Models, h.constraints, ← Constraint.hold_stateAll 0]
  simp [ConstraintStack.sources, allConstraints]

/-- The same for a selection that is given by names. -/
theorem models_reading_iff (h : m.StatedBy s.base) (w : String → Bool) :
    s.Models [] (s.base.vars.reading w) ↔
      ∀ f ∈ m.treeRules ++ m.constraints, f.eval w = true := by
  rw [h.ready.models_iff,
    Constraint.eval_iff_hold h.ready.translates (s.base.vars.agree_reading w),
    h.constraints, ← Constraint.hold_stateAll 0]
  simp [ConstraintStack.sources, allConstraints]

/-- The value of a feature's name is that of its variable. -/
theorem valuation_name (h : m.StatedBy s.base) (v : Nat → Bool) {i : Nat} (hi : i < m.size) :
    s.base.vars.valuation v (m.name i) = v i := by
  rw [h.vars]
  exact Variables.agree_valuation _ v _ i (h.model.find?_name hi)

/-- The variable of a feature reads the value of its name. -/
theorem reading_eq (h : m.StatedBy s.base) (w : String → Bool) {i : Nat} (hi : i < m.size) :
    s.base.vars.reading w i = w (m.name i) := by
  rw [h.vars, Variables.reading, Variables.name?, getElem?_names hi, Option.getD_some]

/-- There is a model of the base exactly if there is a valid selection. -/
theorem exists_models_iff (h : m.StatedBy s.base) :
    (∃ v, s.Models [] v) ↔ ∃ w, m.ValidSelection w := by
  constructor
  · rintro ⟨v, hv⟩
    exact ⟨_, validSelection_iff.2 ((h.models_iff v).1 hv)⟩
  · rintro ⟨w, hw⟩
    exact ⟨_, (h.models_reading_iff w).2 (validSelection_iff.1 hw)⟩

end StatedBy

end FeatureModel

/-- An analysis is about the model, uses the backend and keeps to the options, and its base states
the rules of the model. -/
theorem Analysis.build_eq_ok {ω : Type} {model : FeatureModel} {backend : Backend ω}
    {options : Options} {a : Analysis ω} (hm : model.WellFormed)
    (h : build model backend options = .ok a) :
    ∃ base, a = ⟨model, ⟨backend, base⟩, options⟩ ∧
      model.baseFormula options.clauseLimit = .ok base ∧ model.StatedBy base ∧
      base.clauseLimit = options.clauseLimit := by
  unfold build at h
  split at h
  · cases h
  · rename_i base hbase
    cases h
    exact ⟨base, rfl, hbase, FeatureModel.statedBy_of_baseFormula hm hbase⟩

end ProductLine
