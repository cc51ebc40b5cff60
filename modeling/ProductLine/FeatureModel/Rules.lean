import ProductLine.BaseFormula
import ProductLine.FeatureModel
/-!
# The rules of a feature model

The tree of a feature model is expressed by formulas over the names of its features: the root is
selected, every feature comes with its parent, and every feature with children obeys the kind of
its group.

* `FeatureModel.treeRules` lists these formulas;
* `FeatureModel.baseFormula` is their clause form, with that of the cross-tree constraints;
* `FeatureModel.TreeSelection` says what they mean, in terms of the tree.
-/
namespace ProductLine

namespace FeatureModel

/-! ## Formulas -/

/-- The formula that a feature is selected. -/
def selected (m : FeatureModel) (i : Nat) : Formula := .var (m.name i)

/-- A feature comes with its parent. -/
def parentRules (m : FeatureModel) (i : Nat) : List Formula :=
  match (m.feature i).parent with
  | some p => [.implies (m.selected i) (m.selected p)]
  | none => []

/-- The children of a feature obey the kind of its group.  Without children there is nothing to
obey, and a single child needs not be excluded from others. -/
def groupRules (m : FeatureModel) (i : Nat) : List Formula :=
  let children := m.children i
  if children.isEmpty then []
  else
    match (m.feature i).group with
    | .and =>
        (children.filter (fun c => (m.feature c).mandatory)).map (fun c =>
          .implies (m.selected i) (m.selected c))
    | .or => [.implies (m.selected i) (.or (children.map m.selected))]
    | .alternative =>
        .implies (m.selected i) (.or (children.map m.selected)) ::
          if 1 < children.length then [.atMostOne (children.map m.selected)] else []

/-- All rules of the tree: the root is selected, and then the rules of each feature in order. -/
def treeRules (m : FeatureModel) : List Formula :=
  m.selected 0 :: (List.range m.size).flatMap (fun i => m.parentRules i ++ m.groupRules i)

/-- The table that gives each feature the variable of its number. -/
def vars (m : FeatureModel) : Variables := .ofNames m.names

/-- All rules and cross-tree constraints, each stated as a constraint of its own. -/
def allConstraints (m : FeatureModel) : List Constraint :=
  Constraint.stateAll 0 (m.treeRules ++ m.constraints)

/-- The rules and cross-tree constraints as the base of queries. -/
def baseFormula (m : FeatureModel) (limit : Nat) : Except ClauseFormError BaseFormula :=
  BaseFormula.build m.vars limit m.allConstraints

/-! ## Meaning -/

/-- A selection of features that the tree allows: it holds the root, with every feature its parent,
and with every feature the children that its group asks for. -/
structure TreeSelection (m : FeatureModel) (selected : Nat → Bool) : Prop where
  root : selected 0 = true
  parent : ∀ i p, i < m.size → selected i = true → (m.feature i).parent = some p →
    selected p = true
  mandatory : ∀ i, i < m.size → selected i = true → (m.feature i).group = .and →
    ∀ c ∈ m.children i, (m.feature c).mandatory = true → selected c = true
  atLeastOne : ∀ i, i < m.size → selected i = true → (m.feature i).group = .or →
    m.children i ≠ [] → ∃ c ∈ m.children i, selected c = true
  exactlyOne : ∀ i, i < m.size → selected i = true → (m.feature i).group = .alternative →
    m.children i ≠ [] → ∃ c ∈ m.children i, selected c = true ∧
      ∀ d ∈ m.children i, selected d = true → d = c

end FeatureModel

end ProductLine
