import ProductLine.Formula
/-!
# Feature models

A feature model is a tree of features together with cross-tree constraints.  Features are numbered
in the order in which they are added, from the root, which is zero; so every other feature has a
greater number than its parent.  The children of a feature are the later features that name it as
their parent.

* `FeatureModel.add` adds a feature, and `FeatureModel.constrain` a cross-tree constraint;
* `FeatureModel.apply` makes a change that names its features.
-/
namespace ProductLine

/-! ## Causes of failure -/

/-- Why a feature model cannot be changed as asked. -/
inductive ModelError where
  | duplicateFeature (name : String)
  | unknownFeature (name : String)
  /-- The name of the root is taken from the start. -/
  | rootPresent (root : String)
deriving DecidableEq, Repr

/-- The wording of a refused change. -/
def ModelError.message : ModelError → String
  | .duplicateFeature name => "Duplicate feature '" ++ name ++ "'"
  | .unknownFeature name => "Unknown feature '" ++ name ++ "'"
  | .rootPresent root => "The model already has the root feature '" ++ root ++ "'"

/-! ## Features -/

/-- How the children of a feature are combined. -/
inductive GroupKind where
  /-- Children are independent, and mandatory ones come with their parent. -/
  | and
  /-- At least one child comes with the parent. -/
  | or
  /-- Exactly one child comes with the parent. -/
  | alternative
deriving DecidableEq, Repr, Inhabited

/-- A feature of a model. -/
structure Feature where
  name : String
  /-- The number of the parent; the root has none. -/
  parent : Option Nat
  /-- How the children are combined. -/
  group : GroupKind := .and
  /-- Whether the feature comes with its parent, if that combines its children independently. -/
  mandatory : Bool := false
  /-- Whether the feature is part of a product, and does not just structure the model. -/
  concrete : Bool := true
deriving DecidableEq, Repr, Inhabited

/-- A tree of features with cross-tree constraints. -/
structure FeatureModel where
  features : Array Feature
  /-- The cross-tree constraints. -/
  constraints : List Formula

namespace FeatureModel

/-! ## Looking at a model -/

/-- The model of just a root. -/
def root (name : String) : FeatureModel := ⟨#[{ name := name, parent := none }], []⟩

/-- The number of features. -/
def size (m : FeatureModel) : Nat := m.features.size

/-- The feature with a number; a number that is not in use stands for a nameless leaf. -/
def feature (m : FeatureModel) (i : Nat) : Feature :=
  (m.features[i]?).getD { name := "", parent := none, concrete := false }

/-- The name of a feature. -/
def name (m : FeatureModel) (i : Nat) : String := (m.feature i).name

/-- The names of all features in the order of their numbers. -/
def names (m : FeatureModel) : List String := m.features.toList.map Feature.name

/-- The number of the feature with a name. -/
def find? (m : FeatureModel) (name : String) : Option Nat := m.names.idxOf? name

/-- The number of the feature with a name, which must be there. -/
def require (m : FeatureModel) (name : String) : Except ModelError Nat :=
  match m.find? name with
  | some i => .ok i
  | none => .error (.unknownFeature name)

/-- The children of a feature in the order in which they were added. -/
def children (m : FeatureModel) (i : Nat) : List Nat :=
  (List.range' (i + 1) (m.size - (i + 1))).filter (fun c => (m.feature c).parent == some i)

/-- Whether a feature has no children. -/
def isLeaf (m : FeatureModel) (i : Nat) : Bool := (m.children i).isEmpty

/-- The concrete features in the order of their numbers. -/
def concreteFeatures (m : FeatureModel) : List Nat :=
  (List.range m.size).filter (fun i => (m.feature i).concrete)

/-- The name of a feature, if there is one with this number and it is concrete. -/
def concreteName? (m : FeatureModel) (i : Nat) : Option String :=
  ((m.features[i]?).filter Feature.concrete).map Feature.name

/-- Pairs of a feature and a child that does not have to come with it by declaration: the children
that are not mandatory, of features that combine them independently. -/
def optionalChildren (m : FeatureModel) : List (Nat × Nat) :=
  ((List.range m.size).filter (fun i => (m.feature i).group == .and)).flatMap (fun i =>
    ((m.children i).filter (fun c => !(m.feature c).mandatory)).map (i, ·))

/-- A child of a feature has a greater number, which is in use. -/
theorem lt_of_mem_children {m : FeatureModel} {i c : Nat} (h : c ∈ m.children i) :
    i < c ∧ c < m.size := by
  have hc := (List.mem_filter.1 h).1
  rw [List.mem_range'_1] at hc
  omega

/-! ## Changing a model -/

/-- Adds an optional concrete feature below a parent; its number is the old size. -/
def add (m : FeatureModel) (parent : Nat) (name : String) : Except ModelError FeatureModel :=
  if name ∈ m.names then
    .error (if name = m.name 0 then .rootPresent name else .duplicateFeature name)
  else .ok { m with features := m.features.push { name := name, parent := some parent } }

/-- Changes one feature. -/
def change (m : FeatureModel) (i : Nat) (f : Feature → Feature) : FeatureModel :=
  { m with features := m.features.modify i f }

/-- Says how the children of a feature are combined. -/
def setGroup (m : FeatureModel) (i : Nat) (group : GroupKind) : FeatureModel :=
  m.change i (fun f => { f with group := group })

/-- Says whether a feature is mandatory. -/
def setMandatory (m : FeatureModel) (i : Nat) (mandatory : Bool) : FeatureModel :=
  m.change i (fun f => { f with mandatory := mandatory })

/-- Says whether a feature is abstract. -/
def setAbstract (m : FeatureModel) (i : Nat) (isAbstract : Bool) : FeatureModel :=
  m.change i (fun f => { f with concrete := !isAbstract })

/-- Adds a cross-tree constraint, all of whose names must be features. -/
def constrain (m : FeatureModel) (f : Formula) : Except ModelError FeatureModel :=
  match f.names.find? (· ∉ m.names) with
  | some name => .error (.unknownFeature name)
  | none => .ok { m with constraints := m.constraints ++ [f] }

/-! ## Changes by name -/

/-- A change to a model that names its features. -/
inductive Edit where
  | add (parent name : String)
  | addMandatory (parent name : String)
  | setGroup (name : String) (group : GroupKind)
  | setMandatory (name : String) (mandatory : Bool)
  | setAbstract (name : String) (isAbstract : Bool)
  | constrain (formula : Formula)
deriving DecidableEq, Repr

/-- The model after a change. -/
def apply (m : FeatureModel) : Edit → Except ModelError FeatureModel
  | .add parent name => do
      let parent ← m.require parent
      m.add parent name
  | .addMandatory parent name => do
      let parent ← m.require parent
      let next ← m.add parent name
      return next.setMandatory m.size true
  | .setGroup name group => do
      let i ← m.require name
      return m.setGroup i group
  | .setMandatory name mandatory => do
      let i ← m.require name
      return m.setMandatory i mandatory
  | .setAbstract name isAbstract => do
      let i ← m.require name
      return m.setAbstract i isAbstract
  | .constrain f => m.constrain f

/-- The model after some changes, the first of which that is refused fails them all. -/
def applyAll (m : FeatureModel) : List Edit → Except ModelError FeatureModel
  | [] => .ok m
  | e :: es => do
      let m ← m.apply e
      m.applyAll es

end FeatureModel

end ProductLine
