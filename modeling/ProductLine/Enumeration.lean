import ProductLine.Configuration
import ProductLine.FeatureModel.Relevance
import ProductLine.FeatureModel.Rules
import ProductLine.Solver
/-!
# Enumerating the configurations of a feature model

The tree is walked with a list of selected concrete features and a frontier of features whose
children still have to be decided.  The first feature of the frontier branches over what its group
allows:

* independent children: the mandatory ones are always taken, with every set of the others;
* at least one child: every nonempty set;
* exactly one child: every child.

Only relevant children are decided.  When a group that needs a child has children that are not
relevant, one of those may be the child, so one more branch takes no relevant one.

When the frontier is empty, the solver is asked whether exactly the selected concrete features make
a product.  Different branches can end with the same features, so those that were handed over are
remembered.

* `Walk.expand` walks a subtree, and `Walk.complete` ends a branch;
* `Walk.enumerate` runs the whole walk.
-/
namespace ProductLine

/-! ## Branching -/

/-- Whether a walk goes on. -/
inductive Flow where
  | next
  | stop
deriving DecidableEq, Repr

/-- Visits the items of a list in order until a visit says stop. -/
def visitEach {m : Type → Type} [Monad m] {α : Type} :
    (xs : List α) → ((x : α) → x ∈ xs → m Flow) → m Flow
  | [], _ => return .next
  | x :: xs, visit => do
      match ← visit x (.head xs) with
      | .stop => return .stop
      | .next => visitEach xs (fun y h => visit y (.tail x h))

/-- Visits `picked` together with every choice from a list of further items, until a visit says
stop.  An item is left out before it is taken.  Nothing picked at all is a choice only if
`withEmpty` says so.  What is visited is always a part of `all`, in order. -/
def visitSubsetsFrom {m : Type → Type} [Monad m] {α : Type} (withEmpty : Bool) (all : List α)
    (visit : (part : List α) → part.Sublist all → m Flow) :
    (picked rest : List α) → (picked ++ rest).Sublist all → m Flow
  | picked, [], h =>
      if picked.isEmpty && !withEmpty then return .next
      else visit picked (by simpa using h)
  | picked, x :: rest, h => do
      match ← visitSubsetsFrom withEmpty all visit picked rest
          (.trans (.append_left (.cons x (.refl rest)) picked) h) with
      | .stop => return .stop
      | .next => visitSubsetsFrom withEmpty all visit (picked ++ [x]) rest (by simpa using h)

/-- Visits every choice from a list, until a visit says stop. -/
def visitSubsets {m : Type → Type} [Monad m] {α : Type} (withEmpty : Bool) (all : List α)
    (visit : (part : List α) → part.Sublist all → m Flow) : m Flow :=
  visitSubsetsFrom withEmpty all visit [] all (.refl all)

/-! ## Walks -/

/-- What happened in a walk. -/
structure Summary where
  /-- Configurations handed over. -/
  emitted : Nat := 0
  /-- Ended branches without a product. -/
  discarded : Nat := 0
  /-- Ended branches with features that were handed over before. -/
  duplicates : Nat := 0
  /-- Branches cut because the features selected so far contradict the rules. -/
  pruned : Nat := 0
  /-- The monitor or the receiver ended the walk. -/
  canceled : Bool := false
  /-- The walk ended at its target. -/
  targetReached : Bool := false
deriving DecidableEq, Repr

/-- Takes a configuration and says whether to go on; it acts on the same world as the backend. -/
abbrev Sink (ω : Type) := Configuration → ω → Bool × ω

/-- What a walk depends on. -/
structure Walk (ω : Type) where
  model : FeatureModel
  /-- A solver whose base is the one of the model. -/
  solver : Solver ω
  monitor : Monitor ω
  /-- The walk ends when this many configurations were handed over. -/
  target : Option Nat
  sink : Sink ω

/-- What changes during a walk. -/
structure WalkState (ω : Type) where
  solver : SolverState ω
  /-- The number of the next configuration. -/
  nextId : Nat := 1
  /-- The features of the configurations handed over, last first. -/
  seen : List (List Nat) := []
  summary : Summary := {}

/-- Computations of a walk. -/
abbrev WalkM (ω : Type) := EStateM AnalysisError (WalkState ω)

namespace Walk

variable {ω : Type} {α : Type}

/-- Uses the solver. -/
def solving (body : SolverM ω α) : WalkM ω α :=
  fun st =>
    match body st.solver with
    | .ok a solver => .ok a { st with solver := solver }
    | .error e solver => .error e { st with solver := solver }

/-- Records something in the summary. -/
def note (f : Summary → Summary) : WalkM ω Unit :=
  modify (fun st => { st with summary := f st.summary })

/-- Whether enough configurations were handed over. -/
def targetReached (k : Walk ω) (summary : Summary) : Bool :=
  k.target.any (· ≤ summary.emitted)

/-- Whether the selected features can all be part of a product.  An inconclusive answer does not
rule it out; a formula that cannot be pushed does. -/
def isFeasible (k : Walk ω) (selected : List Nat) : WalkM ω Bool :=
  solving (Solver.inScope (do
    match ← Solver.attempt (k.solver.pushFormula (.and (selected.map k.model.selected))) with
    | .ok .applied => return (← k.solver.isSatisfiable) != .unsat
    | .ok .contradictory | .error _ => return false))

/-- The formula that exactly the given concrete features are selected, and no other concrete
ones. -/
def exactly (m : FeatureModel) (key : List Nat) : Formula :=
  .and (m.concreteFeatures.map (fun i => .literal (m.name i) (decide (i ∈ key))))

/-- Asks the solver for a product with exactly the given concrete features, and checks it. -/
def isProduct (k : Walk ω) (key : List Nat) : WalkM ω Bool :=
  solving (Solver.inScope (do
    match ← Solver.attempt (k.solver.pushFormula (exactly k.model key)) with
    | .ok .applied =>
        match ← k.solver.findModel with
        | some a =>
            return k.model.concreteFeatures.all (fun i => a.value? i == some (decide (i ∈ key)))
        | none => return false
    | .ok .contradictory | .error _ => return false))

/-- Puts a number in its place among numbers in increasing order, unless it is there. -/
def insertFeature (i : Nat) : List Nat → List Nat
  | [] => [i]
  | j :: js =>
      if i < j then i :: j :: js
      else if i = j then j :: js
      else j :: insertFeature i js

/-- The numbers of a list in increasing order and without repetition. -/
def keyOf (selected : List Nat) : List Nat := selected.foldr insertFeature []

/-- Hands a configuration over. -/
def emit (k : Walk ω) (key : List Nat) : WalkM ω Flow := do
  let st ← get
  let c := Configuration.ofNames st.nextId (key.map k.model.name)
  set { st with
    nextId := st.nextId + 1
    seen := key :: st.seen
    summary := { st.summary with emitted := st.summary.emitted + 1 } }
  -- A configuration that is refused has been handed over all the same.
  if !(← solving (Solver.ask (k.sink c))) then
    note (fun s => { s with canceled := true })
    return .stop
  if k.targetReached (← get).summary then
    note (fun s => { s with targetReached := true })
    return .stop
  return .next

/-- Ends a branch: hands its features over if they make a product that was not handed over yet. -/
def complete (k : Walk ω) (selected : List Nat) : WalkM ω Flow := do
  let key := keyOf selected
  if key ∈ (← get).seen then
    note (fun s => { s with duplicates := s.duplicates + 1 })
    return .next
  if ← k.isProduct key then k.emit key
  else
    note (fun s => { s with discarded := s.discarded + 1 })
    return .next

/-- What happens before a feature is decided: the walk may end, or the branch be cut. -/
inductive Gate where
  | enter
  | leave (flow : Flow)

/-- Looks whether to end the walk or cut the branch. -/
def gate (k : Walk ω) (selected : List Nat) : WalkM ω Gate := do
  if ← solving (Solver.isCanceled k.monitor) then
    note (fun s => { s with canceled := true })
    return .leave .stop
  if k.targetReached (← get).summary then
    note (fun s => { s with targetReached := true })
    return .leave .stop
  -- The rules of the tree alone never exclude what a walk selects.
  if k.model.constraints.isEmpty then return .enter
  if ← k.isFeasible selected then return .enter
  note (fun s => { s with pruned := s.pruned + 1 })
  return .leave .next

/-- Walks all ways to decide the features of a frontier below the selected ones. -/
def expand (k : Walk ω) (selected frontier : List Nat) : WalkM ω Flow := do
  match ← k.gate selected with
  | .leave flow => return flow
  | .enter =>
    match frontier with
    | [] => k.complete selected
    | current :: rest =>
      let selected := if (k.model.feature current).concrete then selected ++ [current] else selected
      let children := k.model.relevantChildren current
      -- Some child may be left out of the walk, and be selected instead of the others.
      let irrelevant := decide (children.length < (k.model.children current).length)
      if children.isEmpty then k.expand selected rest
      else
        match (k.model.feature current).group with
        | .and =>
          let mandatory := children.filter (fun c => (k.model.feature c).mandatory)
          let optional := children.filter (fun c => !(k.model.feature c).mandatory)
          visitSubsets true optional (fun picked _ =>
            k.expand selected (picked ++ (rest ++ mandatory)))
        | .or =>
          visitSubsets irrelevant children (fun picked _ => k.expand selected (picked ++ rest))
        | .alternative =>
          match ← visitEach children (fun child _ => k.expand selected (child :: rest)) with
          | .stop => return .stop
          | .next => if irrelevant then k.expand selected rest else return .next
termination_by k.model.totalWeight frontier
decreasing_by
  -- A feature without relevant children only leaves the frontier.
  · have := k.model.totalWeight_relevantChildren_lt current
    simp only [FeatureModel.totalWeight_cons]
    omega
  -- The picked children and the mandatory ones together weigh less than their parent.
  · have hlt := k.model.totalWeight_relevantChildren_lt current
    have hle : k.model.totalWeight picked ≤ k.model.totalWeight
        ((k.model.relevantChildren current).filter (fun c => !(k.model.feature c).mandatory)) :=
      k.model.totalWeight_le_of_sublist ‹_›
    have hsum := k.model.totalWeight_filter_add (fun c => (k.model.feature c).mandatory)
      (k.model.relevantChildren current)
    simp only [FeatureModel.totalWeight_cons, FeatureModel.totalWeight_append]
    omega
  · have hlt := k.model.totalWeight_relevantChildren_lt current
    have hle : k.model.totalWeight picked ≤
        k.model.totalWeight (k.model.relevantChildren current) :=
      k.model.totalWeight_le_of_sublist ‹_›
    simp only [FeatureModel.totalWeight_cons, FeatureModel.totalWeight_append]
    omega
  · have hlt := k.model.totalWeight_relevantChildren_lt current
    have hle : k.model.totalWeight [child] ≤
        k.model.totalWeight (k.model.relevantChildren current) :=
      k.model.totalWeight_le_of_sublist (List.singleton_sublist.2 ‹_›)
    simp only [FeatureModel.totalWeight_cons, FeatureModel.totalWeight_nil] at hle ⊢
    omega
  · have := k.model.totalWeight_relevantChildren_lt current
    simp only [FeatureModel.totalWeight_cons]
    omega

/-- Runs the whole walk from a state of the solver. -/
def enumerate (k : Walk ω) (st : SolverState ω) :
    EStateM.Result AnalysisError (WalkState ω) Flow :=
  k.expand [] [0] { solver := st }

end Walk

end ProductLine
