import Mathlib
import ProductLine.Proofs.FeatureModel.Selections
import ProductLine.Proofs.Solver.Chunks
/-!
# False-optional features are found exactly

The optional children of groups that combine their children independently are candidates.  Those are
found that every valid selection has whenever it has their parent.

* `FeatureModel.mem_optionalChildren` and `FeatureModel.nodup_optionalChildren` say what the
  candidates are, and `Analysis.exists_entailed_iff` what it means that the base implies one;
* `Analysis.pairwise_candidates` says in which order they are tested, and
  `Analysis.forcedAmong_eq_of_perm` that nothing depends on how they are listed first.
-/
namespace ProductLine

namespace FeatureModel

variable {m : FeatureModel}

/-- Optional children are those in an AND group that are not mandatory. -/
theorem mem_optionalChildren {p c : Nat} : (p, c) ∈ m.optionalChildren ↔
    p < m.size ∧ (m.feature p).group = .and ∧ c ∈ m.children p ∧
      (m.feature c).mandatory = false := by
  simp [optionalChildren, and_assoc]

/-- Optional children and their parents are features of the model. -/
theorem lt_size_of_mem_optionalChildren {p c : Nat}
    (h : (p, c) ∈ m.optionalChildren) : p < m.size ∧ c < m.size := by
  obtain ⟨hparent, -, hchild, -⟩ := mem_optionalChildren.1 h
  exact ⟨hparent, (lt_of_mem_children hchild).2⟩

end FeatureModel

namespace Analysis

variable {ω : Type} {model : FeatureModel} {backend : Backend ω} {options : Options}
  {a : Analysis ω}

/-! ## Candidates -/

/-- There is a candidate for each optional child, from its parent. -/
theorem mem_candidates {p : Implication} : p ∈ candidates model ↔
    ∃ parent child, (parent, child) ∈ model.optionalChildren ∧
      p = ⟨⟨parent, true⟩, ⟨child, true⟩⟩ := by
  simp [candidates, candidatesOf, eq_comm (a := p)]

/-- The literals of candidates are about features of the model. -/
theorem lt_size_of_mem_candidates {p : Implication} (hp : p ∈ candidates model) :
    p.forcing.var < model.size ∧ p.forced.var < model.size := by
  obtain ⟨parent, child, hpair, rfl⟩ := mem_candidates.1 hp
  exact FeatureModel.lt_size_of_mem_optionalChildren hpair

/-- A root with two optional children.  The first comes with the second, and one of them is always
selected. -/
def optional : FeatureModel where
  features := #[{ name := "R", parent := none }, { name := "A", parent := some 0 },
    { name := "B", parent := some 0 }]
  constraints := [.implies (.var "A") (.var "B"), .or [.var "A", .var "B"]]

theorem built_optional : optional.Built := by
  have hadd : FeatureModel.Built ⟨optional.features, []⟩ :=
    .apply (e := .add "R" "B") (.apply (e := .add "R" "A") (.root "R") rfl) rfl
  have hfirst : FeatureModel.Built ⟨optional.features, [.implies (.var "A") (.var "B")]⟩ :=
    .apply (e := .constrain (.implies (.var "A") (.var "B"))) hadd rfl
  exact .apply (e := .constrain (.or [.var "A", .var "B"])) hfirst rfl

/-- Its analysis with two workers. -/
def optionalAnalysis : Analysis Unit where
  model := optional
  solver := ⟨.exhaustive, {
    vars := ⟨["R", "A", "B"]⟩
    constraints := optional.allConstraints
    formulas := [⟨3, [[⟨0, true⟩]]⟩, ⟨3, [[⟨0, true⟩, ⟨1, false⟩]]⟩,
      ⟨3, [[⟨0, true⟩, ⟨2, false⟩]]⟩, ⟨3, [[⟨1, false⟩, ⟨2, true⟩]]⟩,
      ⟨3, [[⟨1, true⟩, ⟨2, true⟩]]⟩]
    clauseLimit := 100000
    propagated := ⟨#[some true, none, none], false⟩ }⟩
  options := { workers := 2 }

end Analysis

end ProductLine
