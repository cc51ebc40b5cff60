import Mathlib.Tactic.Common
import ProductLine.Proofs.Ends
import ProductLine.Proofs.Enumeration.Subsets
/-!
# Following visits

A walk is made of visits that come one after the other until one says stop.  Whatever is kept by
doing nothing and by two visits in a row is kept by a whole walk, if it is kept where branches are
entered and where they end.

* `Walk.expandBy_eq` says that calls are made for the frontiers that deciding a feature leads to,
  and `Walk.expand_eq` that a walk visits these;
* `Visiting` says that a property of computations, which may mention the items that they go through,
  is kept so;
* `Visiting.visitAll` follows visits of lists, and `Visiting.expand` follows a walk;
* `Leads` is such a property: it tells apart the states in which a walk goes on, was stopped, or
  failed.
-/
namespace ProductLine

namespace Walk

/-! ## What a walk visits -/

section Decided

variable {ε σ : Type} {gate : List Nat → EStateM ε σ Gate} {complete : List Nat → EStateM ε σ Flow}
  {call : List Nat → List Nat → EStateM ε σ Flow}

/-- Whatever its calls do, a feature is decided by calls for the frontiers that deciding it leads
to. -/
theorem expandBy_eq (m : FeatureModel) (selected frontier : List Nat) :
    expandBy m gate complete call selected frontier = (do
      match ← gate selected with
      | .leave flow => return flow
      | .enter =>
        match frontier with
        | [] => complete selected
        | current :: rest =>
          visitAll (call (m.select current selected)) (m.nextFrontiers current rest)) := by
  rw [expandBy.eq_def]
  refine congrArg (gate selected >>= ·) (funext fun gate => ?_)
  cases gate with
  | leave flow => rfl
  | enter =>
    cases frontier with
    | nil => rfl
    | cons current rest =>
      simp only [FeatureModel.nextFrontiers, FeatureModel.select]
      generalize (if (m.feature current).concrete then selected ++ [current] else selected) =
        selected
      split
      · exact (visitAll_singleton rest).symm
      · cases (m.feature current).group with
        | and => rw [visitAll_map, ← expandSubsets_eq]
        | or => rw [visitAll_map, ← expandSubsets_eq]
        | alternative =>
          dsimp only
          rw [visitAll_append, visitAll_map]
          refine congrArg (visitAll (fun c => call selected (c :: rest)) _ >>= ·)
            (funext fun flow => ?_)
          cases flow with
          | stop => rfl
          | next =>
            dsimp only
            split
            · exact (visitAll_singleton rest).symm
            · rfl

end Decided

variable {ω : Type}

/-- A walk decides a feature by walks for its calls, and goes through choices without a buffer. -/
theorem expand_eq_expandBy (k : Walk ω) (selected frontier : List Nat) :
    k.expand selected frontier =
      expandBy k.model k.gate k.complete k.expand selected frontier := by
  rw [expand.eq_def, expandBy.eq_def]
  refine congrArg (k.gate selected >>= ·) (funext fun gate => ?_)
  cases gate with
  | leave flow => rfl
  | enter =>
    cases frontier with
    | nil => rfl
    | cons current rest =>
      dsimp only
      split
      · rfl
      · cases (k.model.feature current).group with
        | and => exact (visitSubsets_eq ..).trans (expandSubsets_eq ..).symm
        | or => exact (visitSubsets_eq ..).trans (expandSubsets_eq ..).symm
        | alternative => rfl

/-- Below a feature a walk visits the frontiers that deciding it leads to. -/
theorem expand_eq (k : Walk ω) (selected frontier : List Nat) :
    k.expand selected frontier = (do
      match ← k.gate selected with
      | .leave flow => return flow
      | .enter =>
        match frontier with
        | [] => k.complete selected
        | current :: rest =>
          visitAll (k.expand (k.model.select current selected))
            (k.model.nextFrontiers current rest)) := by
  rw [expand_eq_expandBy, expandBy_eq]

end Walk

variable {ε σ α κ : Type}

/-! ## What visits keep -/

/-- The property is true of doing nothing for no items.  If it is true of two computations, it is
true of both in a row, where the second one takes place unless the first one said stop. -/
structure Visiting (T : List κ → EStateM ε σ Flow → Prop) : Prop where
  nil : T [] (pure .next)
  bind : ∀ {items more : List κ} {x : EStateM ε σ Flow} {f : Flow → EStateM ε σ Flow},
    T items x → f .stop = pure .stop → T more (f .next) → T (items ++ more) (x >>= f)

namespace Visiting

variable {T : List κ → EStateM ε σ Flow → Prop}

/-- Visiting the items of a list. -/
theorem visitAll (hT : Visiting T) {f : α → List κ} {visit : α → EStateM ε σ Flow} {xs : List α}
    (h : ∀ x ∈ xs, T (f x) (visit x)) : T (xs.flatMap f) (ProductLine.visitAll visit xs) := by
  induction xs with
  | nil => exact hT.nil
  | cons x xs ih =>
    obtain ⟨hx, hxs⟩ := List.forall_mem_cons.1 h
    rw [List.flatMap_cons, visitAll_cons]
    exact hT.bind hx rfl (ih hxs)

/-! ## Walks -/

variable {ω : Type} {k : Walk ω} {T : List (List Nat) → WalkM ω Flow → Prop}

/-- **Following a walk.**  The property may take more where a branch is entered than before:
`entered` is what it comes to there.  It is true of a walk if it is true of looking whether to enter
a branch, whenever what follows the entry has the property `entered`, and if `entered` is true of
the ends of branches. -/
theorem expand (hT : Visiting T) {entered : List (List Nat) → WalkM ω Flow → Prop}
    (hmono : ∀ {items x}, T items x → entered items x)
    (hgate : ∀ {selected frontier}, k.model.Partway selected frontier →
      ∀ {f}, (∀ flow, f (.leave flow) = pure flow) →
      entered ((k.model.completions selected frontier).map Walk.keyOf) (f .enter) →
      T ((k.model.completions selected frontier).map Walk.keyOf) (k.gate selected >>= f))
    (hcomplete : ∀ {selected}, k.model.Partway selected [] →
      entered [Walk.keyOf selected] (k.complete selected))
    {selected frontier : List Nat} (h : k.model.Partway selected frontier) :
    T ((k.model.completions selected frontier).map Walk.keyOf) (k.expand selected frontier) := by
  induction selected, frontier using k.model.branch_induction with
  | nil selected =>
    rw [Walk.expand_eq]
    refine hgate h (fun _ => rfl) ?_
    rw [FeatureModel.completions_nil]
    exact hcomplete h
  | cons selected current rest ih =>
    rw [Walk.expand_eq]
    refine hgate h (fun _ => rfl) ?_
    rw [FeatureModel.completions_cons, List.map_flatMap]
    exact hmono (hT.visitAll fun f hf => ih f hf (h.next hf))

end Visiting

/-! ## States on the way -/

/-- From a state with `before` the computation leads to a `going` one if it says next, to a
`stopped` one if it says stop, and to a `failed` one if it fails. -/
def Leads (before going stopped failed : σ → Prop) (x : EStateM ε σ Flow) : Prop :=
  ∀ st, before st →
    Ends (fun flow st' => match flow with | .next => going st' | .stop => stopped st')
      (fun _ st' => failed st') (x st)

/-- It leads to the same states from fewer. -/
theorem Leads.restrict {before before' going stopped failed : σ → Prop} {x : EStateM ε σ Flow}
    (h : Leads before going stopped failed x) (himp : ∀ st, before' st → before st) :
    Leads before' going stopped failed x :=
  fun st hst => h st (himp st hst)

/-- A walk leads on as its visits do. -/
theorem visiting_leads {going stopped failed : σ → Prop} :
    Visiting (fun (_ : List κ) (x : EStateM ε σ Flow) => Leads going going stopped failed x) where
  nil _ hst := hst
  bind hx hstop hnext st hst := by
    refine Ends.bind (hx st hst) ?_
    rintro (_ | _) st' hst'
    · exact hnext st' hst'
    · rw [hstop]
      exact hst'

end ProductLine
