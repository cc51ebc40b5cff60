import ProductLine.FeatureModel
import ProductLine.Variables
/-!
# Feature models with child lists and an index

A feature model can be walked through and searched faster if each feature has the list of its
children and an index has the number of each name.  Both say again what the features say already, so
every operation has to keep them up to date.

* `IndexedModel.model` is the feature model alone, and `IndexedModel.isRelevantWithin` asks whether
  a feature matters by following the lists of children;
* `IndexedModel.insert` adds a feature, and enters it into the index and into the list of its
  parent;
* `IndexedModel.add`, `IndexedModel.addMandatory` and `IndexedModel.constrain` may be refused;
* `IndexedModel.perform` carries out any operation, and `IndexedModel.apply` one that names its
  features.
-/
namespace ProductLine

/-- A feature with its children, in the order in which they were added. -/
structure IndexedFeature extends Feature where
  children : List Nat := []
deriving Repr

/-- A feature model in which neither children nor names have to be searched for. -/
structure IndexedModel where
  features : Array IndexedFeature
  /-- The number of each name, the latest first. -/
  ids : List (String × Nat)
  /-- The cross-tree constraints. -/
  constraints : List Formula

namespace IndexedModel

/-! ## Looking at a model -/

/-- The number of features. -/
def size (s : IndexedModel) : Nat := s.features.size

/-- The feature with a number; a number that is not in use stands for a nameless leaf. -/
def feature (s : IndexedModel) (i : Nat) : IndexedFeature :=
  (s.features[i]?).getD { name := "", parent := none, concrete := false }

/-- The name of a feature. -/
def name (s : IndexedModel) (i : Nat) : String := (s.feature i).name

/-- The listed children of a feature. -/
def children (s : IndexedModel) (i : Nat) : List Nat := (s.feature i).children

/-- The number that the index has for a name. -/
def find? (s : IndexedModel) (name : String) : Option Nat := s.ids.lookup name

/-- The number that the index has for a name, which must be there. -/
def require (s : IndexedModel) (name : String) : Except ModelError Nat :=
  match s.find? name with
  | some i => .ok i
  | none => .error (.unknownFeature name)

/-- The table that gives each feature the variable of its number. -/
def vars (s : IndexedModel) : Variables := .ofNames (s.features.toList.map (·.name))

/-- Whether a feature is concrete or has a concrete descendant, if no more than `depth` features in
a row have to be asked. -/
def isRelevantWithin (s : IndexedModel) : (depth : Nat) → (i : Nat) → Option Bool
  | 0, _ => none
  | depth + 1, i =>
      if (s.feature i).concrete then some true
      else (s.children i).anyM (s.isRelevantWithin depth)

/-- The feature model without lists and index. -/
def model (s : IndexedModel) : FeatureModel :=
  ⟨s.features.map IndexedFeature.toFeature, s.constraints⟩

/-! ## Changing a model -/

/-- Adds an optional concrete feature, whose number is the old size, and tells the index and the
parent about it. -/
def insert (s : IndexedModel) (name : String) (parent : Option Nat) : Nat × IndexedModel :=
  let i := s.size
  let features := s.features.push { name := name, parent := parent }
  (i, { s with
    features :=
      match parent with
      | some p => features.modify p (fun x => { x with children := x.children ++ [i] })
      | none => features
    ids := (name, i) :: s.ids })

/-- The model of just a root. -/
def root (name : String) : IndexedModel := (insert ⟨#[], [], []⟩ name none).2

/-- Adds an optional concrete feature below a parent. -/
def add (parent : Nat) (name : String) : EStateM ModelError IndexedModel Nat :=
  fun s =>
    if (s.find? name).isSome then
      .error (if name = s.name 0 then .rootPresent name else .duplicateFeature name) s
    else
      let (i, s) := s.insert name (some parent)
      .ok i s

/-- Changes one feature, but not its children. -/
def change (i : Nat) (f : Feature → Feature) : EStateM ModelError IndexedModel PUnit :=
  fun s =>
    .ok ⟨⟩ { s with
      features := s.features.modify i (fun x => { x with toFeature := f x.toFeature }) }

/-- Says how the children of a feature are combined. -/
def setGroup (i : Nat) (group : GroupKind) : EStateM ModelError IndexedModel PUnit :=
  change i (fun f => { f with group := group })

/-- Says whether a feature is mandatory. -/
def setMandatory (i : Nat) (mandatory : Bool) : EStateM ModelError IndexedModel PUnit :=
  change i (fun f => { f with mandatory := mandatory })

/-- Says whether a feature is abstract. -/
def setAbstract (i : Nat) (isAbstract : Bool) : EStateM ModelError IndexedModel PUnit :=
  change i (fun f => { f with concrete := !isAbstract })

/-- Adds a mandatory concrete feature below a parent. -/
def addMandatory (parent : Nat) (name : String) : EStateM ModelError IndexedModel Nat := do
  let i ← add parent name
  setMandatory i true
  return i

/-- Adds a cross-tree constraint, all of whose names must be in the index. -/
def constrain (f : Formula) : EStateM ModelError IndexedModel Formula :=
  fun s =>
    match f.names.find? (fun name => (s.find? name).isNone) with
    | some name => .error (.unknownFeature name) s
    | none => .ok f { s with constraints := s.constraints ++ [f] }

/-! ## Operations -/

/-- A change to a model that gives its features by number. -/
inductive Operation where
  | add (parent : Nat) (name : String)
  | addMandatory (parent : Nat) (name : String)
  | setGroup (i : Nat) (group : GroupKind)
  | setMandatory (i : Nat) (mandatory : Bool)
  | setAbstract (i : Nat) (isAbstract : Bool)
  | constrain (formula : Formula)
deriving DecidableEq, Repr

/-- The change with numbers for the names of its features, which must be in the index. -/
def resolve (s : IndexedModel) : FeatureModel.Edit → Except ModelError Operation
  | .add parent name => do return .add (← s.require parent) name
  | .addMandatory parent name => do return .addMandatory (← s.require parent) name
  | .setGroup name group => do return .setGroup (← s.require name) group
  | .setMandatory name mandatory => do return .setMandatory (← s.require name) mandatory
  | .setAbstract name isAbstract => do return .setAbstract (← s.require name) isAbstract
  | .constrain f => return .constrain f

/-- Carries out an operation. -/
def perform : Operation → EStateM ModelError IndexedModel PUnit
  | .add parent name => do
      let _ ← add parent name
  | .addMandatory parent name => do
      let _ ← addMandatory parent name
  | .setGroup i group => setGroup i group
  | .setMandatory i mandatory => setMandatory i mandatory
  | .setAbstract i isAbstract => setAbstract i isAbstract
  | .constrain f => do
      let _ ← constrain f

/-- Makes a change that names its features. -/
def apply (e : FeatureModel.Edit) : EStateM ModelError IndexedModel PUnit :=
  fun s =>
    match s.resolve e with
    | .ok op => perform op s
    | .error cause => .error cause s

end IndexedModel

end ProductLine
