import ProductLine.Enumeration
/-!
# The calls of a walk

A walk calls itself for every frontier that deciding a feature leads to.  Where the frontiers are
choices from a list, they are put together in one buffer, which all calls on the way to them share.

* `expandSubsets` makes a call for every choice from a list, and `expandSubsetsFrom` goes through
  the choices with the buffer;
* `Walk.expandBy` decides a feature, where it is left open what its calls do;
* `Walk.enumerateWithin` runs a walk in which calls are nested up to a depth, and writes down which
  calls are open at every call.
-/
namespace ProductLine

/-! ## Choices in a buffer -/

section Subsets

variable {ε σ α : Type}

/-- Puts an item into the buffer for the time of a computation.  The last item is taken out again
whatever comes of the computation. -/
def withPicked (x : α) (body : EStateM ε (σ × Array α) Flow) : EStateM ε (σ × Array α) Flow :=
  fun (st, picked) =>
    match body (st, picked.push x) with
    | .ok flow (st, picked) => .ok flow (st, picked.pop)
    | .error e (st, picked) => .error e (st, picked.pop)

/-- Uses what is in the buffer. -/
def usePicked (body : Array α → EStateM ε σ Flow) : EStateM ε (σ × Array α) Flow :=
  fun (st, picked) =>
    match body picked st with
    | .ok flow st => .ok flow (st, picked)
    | .error e st => .error e (st, picked)

/-- Calls for what is picked together with every choice from a list of further items, each in front
of `tail`, until a call says stop or fails.  An item is left out before it is taken.  Nothing picked
at all is a choice only if `withEmpty` says so. -/
def expandSubsetsFrom (call : List α → EStateM ε σ Flow) (withEmpty : Bool) (tail : List α) :
    (choices : List α) → EStateM ε (σ × Array α) Flow
  | [] =>
      usePicked (fun picked =>
        if picked.isEmpty && !withEmpty then return .next else call (picked.toList ++ tail))
  | choice :: remaining => do
      match ← expandSubsetsFrom call withEmpty tail remaining with
      | .stop => return .stop
      | .next => withPicked choice (expandSubsetsFrom call withEmpty tail remaining)

/-- Calls for every choice from a list, from an empty buffer that is not needed afterwards. -/
def expandSubsets (call : List α → EStateM ε σ Flow) (withEmpty : Bool) (tail choices : List α) :
    EStateM ε σ Flow :=
  fun st =>
    match expandSubsetsFrom call withEmpty tail choices (st, #[]) with
    | .ok flow (st, _) => .ok flow st
    | .error e (st, _) => .error e st

end Subsets

/-! ## Nested calls -/

namespace Walk

variable {ε σ ω α : Type}

/-- Walks the ways to decide the first feature of a frontier below the selected ones, where it is
left open what is asked before, what ends a branch, and what the calls for the next frontiers do. -/
def expandBy (m : FeatureModel) (gate : List Nat → EStateM ε σ Gate)
    (complete : List Nat → EStateM ε σ Flow) (call : List Nat → List Nat → EStateM ε σ Flow)
    (selected frontier : List Nat) : EStateM ε σ Flow := do
  match ← gate selected with
  | .leave flow => return flow
  | .enter =>
    match frontier with
    | [] => complete selected
    | current :: rest =>
      let selected := if (m.feature current).concrete then selected ++ [current] else selected
      let children := m.relevantChildren current
      let irrelevant := decide (children.length < (m.children current).length)
      if children.isEmpty then call selected rest
      else
        match (m.feature current).group with
        | .and =>
          let mandatory := children.filter (fun c => (m.feature c).mandatory)
          let optional := children.filter (fun c => !(m.feature c).mandatory)
          expandSubsets (call selected) true (rest ++ mandatory) optional
        | .or => expandSubsets (call selected) irrelevant rest children
        | .alternative =>
          match ← visitEach children (fun child _ => call selected (child :: rest)) with
          | .stop => return .stop
          | .next => if irrelevant then call selected rest else return .next

/-- A call for a frontier below some selected features. -/
structure Call where
  selected : List Nat
  frontier : List Nat
deriving DecidableEq, Repr

/-- Why a walk with nested calls ended early. -/
inductive Halt where
  /-- A call would have been nested deeper than allowed. -/
  | tooDeep
  | failed (cause : AnalysisError)
deriving DecidableEq, Repr

/-- Computations of a walk that writes down its branches: for each call the calls that were open
then, itself first. -/
abbrev TracedM (ω : Type) := EStateM Halt (WalkState ω × List (List Call))

/-- Does something that is not a call. -/
def untraced (body : WalkM ω α) : TracedM ω α :=
  fun (st, branches) =>
    match body st with
    | .ok a st => .ok a (st, branches)
    | .error e st => .error (.failed e) (st, branches)

/-- Walks all ways to decide the features of a frontier, with calls nested at most `depth` deep
inside those that are open. -/
def expandWithin (k : Walk ω) : (depth : Nat) → (outer : List Call) →
    (selected frontier : List Nat) → TracedM ω Flow
  | 0, _, _, _ => throw .tooDeep
  | depth + 1, outer, selected, frontier => do
      let branch := ⟨selected, frontier⟩ :: outer
      modify (fun st => (st.1, branch :: st.2))
      expandBy k.model (fun selected => untraced (k.gate selected))
        (fun selected => untraced (k.complete selected)) (k.expandWithin depth branch)
        selected frontier

/-- Runs the whole walk from a state of the solver, with calls nested at most `depth` deep. -/
def enumerateWithin (k : Walk ω) (depth : Nat) (st : SolverState ω) :
    EStateM.Result Halt (WalkState ω × List (List Call)) Flow :=
  k.expandWithin depth [] [] [0] ({ solver := st }, [])

end Walk

end ProductLine
