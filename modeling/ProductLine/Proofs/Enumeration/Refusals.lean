import ProductLine.Proofs.Enumeration.Walk
import ProductLine.Proofs.FeatureModel.Failures
/-!
# Formulas that a walk cannot push

A question of a walk is about a formula that is pushed first.  A formula that cannot be pushed is
taken for one without a model, so the branch is given up.  Here it is left open what is done then.
If the walk is the same whatever that is, no formula was refused.

* `Walk.exploreBy` is a walk for which both questions are left open, and `Walk.enumerateOr` one for
  which only refused formulas are;
* `Walk.enumerateOr_eq` says that a walk about a model meets at most formulas with too many clauses,
  and not even those if the limit leaves room for the concrete features.
-/
namespace ProductLine

namespace Walk

open Solver (inScope attempt)

variable {ω : Type} {k : Walk ω}

/-! ## Questions that are left open -/

/-- What happens before a feature is decided, where `feasible` answers whether the selected features
can be part of a product. -/
def gateBy (k : Walk ω) (feasible : List Nat → WalkM ω Bool) (selected : List Nat) :
    WalkM ω Gate := do
  if ← solving (Solver.isCanceled k.monitor) then
    note (fun s => { s with canceled := true })
    return .leave .stop
  if k.targetReached (← get).summary then
    note (fun s => { s with targetReached := true })
    return .leave .stop
  if k.model.constraints.isEmpty then return .enter
  if ← feasible selected then return .enter
  note (fun s => { s with pruned := s.pruned + 1 })
  return .leave .next

/-- The end of a branch, where `product` answers whether its features make a product. -/
def completeBy (k : Walk ω) (product : List Nat → WalkM ω Bool) (selected : List Nat) :
    WalkM ω Flow := do
  let key := keyOf selected
  if (← get).seen.contains key then
    note (fun s => { s with duplicates := s.duplicates + 1 })
    return .next
  if ← product key then k.emit key
  else
    note (fun s => { s with discarded := s.discarded + 1 })
    return .next

theorem gateBy_eq {feasible : List Nat → WalkM ω Bool} {selected : List Nat}
    (h : feasible selected = k.isFeasible selected) :
    k.gateBy feasible selected = k.gate selected := by
  rw [gateBy, h]
  rfl

theorem completeBy_eq {product : List Nat → WalkM ω Bool}
    (h : ∀ key, product key = k.isProduct key) (selected : List Nat) :
    k.completeBy product selected = k.complete selected := by
  simp only [completeBy, complete, h, List.contains_iff_mem]

/-- A walk below the selected features for which both questions are left open. -/
def exploreBy (k : Walk ω) (feasible product : List Nat → WalkM ω Bool)
    (selected frontier : List Nat) : WalkM ω Flow := do
  match ← k.gateBy feasible selected with
  | .leave flow => return flow
  | .enter =>
    match frontier with
    | [] => k.completeBy product selected
    | current :: rest =>
      visitEach (k.model.nextFrontiers current rest) (fun f _ =>
        k.exploreBy feasible product (k.model.select current selected) f)
termination_by k.model.totalWeight frontier
decreasing_by exact FeatureModel.totalWeight_lt_of_mem_nextFrontiers ‹_›

/-- It is the walk itself if both questions are answered as the walk answers them, wherever they are
asked on the way. -/
theorem exploreBy_eq_expand {feasible product : List Nat → WalkM ω Bool}
    (hfeasible : ∀ {selected frontier}, k.model.Partway selected frontier →
      feasible selected = k.isFeasible selected)
    (hproduct : ∀ key, product key = k.isProduct key) {selected frontier : List Nat}
    (h : k.model.Partway selected frontier) :
    k.exploreBy feasible product selected frontier = k.expand selected frontier := by
  induction selected, frontier using k.model.branch_induction with
  | nil selected =>
    rw [exploreBy.eq_def, gateBy_eq (hfeasible h), completeBy_eq hproduct]
    refine Eq.trans ?_ (k.expand_eq selected []).symm
    refine congrArg (k.gate selected >>= ·) (funext fun gate => ?_)
    cases gate <;> rfl
  | cons selected current rest ih =>
    rw [exploreBy.eq_def, gateBy_eq (hfeasible h)]
    refine Eq.trans ?_ (k.expand_eq selected (current :: rest)).symm
    refine congrArg (k.gate selected >>= ·) (funext fun gate => ?_)
    cases gate with
    | leave flow => rfl
    | enter =>
      refine congrArg (visitEach (k.model.nextFrontiers current rest)) (funext₂ fun f hf => ?_)
      exact ih f hf (h.next hf)

/-! ## Refused formulas -/

/-- Asks about the base and a further formula, in a scope of its own.  If the formula is
contradictory at once the answer is no, and if it cannot be pushed `refused` answers. -/
def askUnder (s : Solver ω) (refused : StackError → SolverM ω Bool) (f : Formula)
    (question : SolverM ω Bool) : WalkM ω Bool :=
  solving (inScope (do
    match ← attempt (s.pushFormula f) with
    | .ok .applied => question
    | .ok .contradictory => return false
    | .error cause => refused cause))

/-- The question whether the selected features can be part of a product. -/
def isFeasibleOr (k : Walk ω) (refused : StackError → SolverM ω Bool) (selected : List Nat) :
    WalkM ω Bool :=
  askUnder k.solver refused (.and (selected.map k.model.selected))
    (do return (← k.solver.isSatisfiable) != .unsat)

/-- The question whether exactly the given concrete features make a product. -/
def isProductOr (k : Walk ω) (refused : StackError → SolverM ω Bool) (key : List Nat) :
    WalkM ω Bool :=
  askUnder k.solver refused (exactly k.model key) (do
    match ← k.solver.findModel with
    | some a =>
        return k.model.concreteFeatures.all (fun i => a.value? i == some (decide (i ∈ key)))
    | none => return false)

/-- A walk in which `refused` answers every question about a formula that cannot be pushed. -/
def enumerateOr (k : Walk ω) (refused : StackError → SolverM ω Bool) (st : SolverState ω) :
    EStateM.Result AnalysisError (WalkState ω) Flow :=
  k.exploreBy (k.isFeasibleOr refused) (k.isProductOr refused) [] [0] { solver := st }

/-- A formula is refused only because it has no clause form. -/
theorem askUnder_congr {s : Solver ω} {refused refused' : StackError → SolverM ω Bool} {f : Formula}
    (h : ∀ cause, f.clauseForm s.base.vars s.base.clauseLimit = .error cause →
      refused (.clauseForm cause) = refused' (.clauseForm cause)) (question : SolverM ω Bool) :
    askUnder s refused f question = askUnder s refused' f question := by
  refine congrArg (fun body => solving (inScope body)) (funext fun st => ?_)
  cases hf : f.clauseForm s.base.vars s.base.clauseLimit with
  | error cause =>
    have hattempt := Solver.attempt_pushFormula_of_error hf st
    rw [run_bind_of_ok hattempt, run_bind_of_ok hattempt]
    exact congrFun (h cause hf) _
  | ok set =>
    obtain ⟨outcome, hpush, -⟩ := Solver.push_contradictory_iff (c := ⟨st.nextLabel, f⟩) hf
      { st with nextLabel := st.nextLabel + 1 }
    have hattempt : attempt (s.pushFormula f) st = .ok (.ok outcome) _ := Solver.attempt_of_ok hpush
    rw [run_bind_of_ok hattempt, run_bind_of_ok hattempt]
    cases outcome <;> rfl

/-- A partial selection whose formula is refused counts as not feasible. -/
theorem isFeasible_eq (k : Walk ω) (selected : List Nat) :
    k.isFeasible selected = k.isFeasibleOr (fun _ => pure false) selected := by
  refine congrArg (fun body => solving (inScope (_ >>= body))) (funext fun result => ?_)
  rcases result with cause | (_ | _) <;> rfl

/-- A complete selection whose formula is refused counts as no product. -/
theorem isProduct_eq (k : Walk ω) (key : List Nat) :
    k.isProduct key = k.isProductOr (fun _ => pure false) key := by
  refine congrArg (fun body => solving (inScope (_ >>= body))) (funext fun result => ?_)
  rcases result with cause | (_ | _) <;> rfl

/-- **A walk about a model meets no refused formula**, except that one may have too many clauses if
the limit leaves no room for the concrete features.  What is done with a refused formula makes no
difference to the walk, if those with too many clauses are treated as the walk treats them or the
limit leaves room for all concrete features. -/
theorem enumerateOr_eq (hm : k.model.Built) {limit : Nat}
    (hbase : k.model.baseFormula limit = .ok k.solver.base)
    {refused : StackError → SolverM ω Bool}
    (h : refused (.clauseForm (.tooLarge limit)) = pure false ∨
      k.model.concreteFeatures.length ≤ limit) (st : SolverState ω) :
    k.enumerateOr refused st = k.enumerate st := by
  obtain ⟨hstated, hlimit⟩ := FeatureModel.statedBy_of_baseFormula hm.wellFormed hbase
  -- All formulas that are pushed are conjunctions of literals of concrete features.
  have hrefused {is : List Nat} (sign : Nat → Bool)
      (hconcrete : ∀ i ∈ is, i ∈ k.model.concreteFeatures)
      (hlength : is.length ≤ k.model.concreteFeatures.length) (cause : ClauseFormError)
      (hcause : (Formula.and (is.map (fun i => .literal (k.model.name i) (sign i)))).clauseForm
        k.solver.base.vars k.solver.base.clauseLimit = .error cause) :
      refused (.clauseForm cause) = pure false := by
    have hrange : ∀ i ∈ is, i < k.model.size :=
      fun i hi => FeatureModel.lt_size_of_mem_concreteFeatures (hconcrete i hi)
    rcases h with h | h
    · rw [hstated.vars, hlimit] at hcause
      have hover : (Formula.and (is.map (fun i => .literal (k.model.name i) (sign i)))).Over
          k.model.names := by
        rw [Formula.over_and, List.forall_mem_map]
        exact fun i hi => Formula.over_literal.2 (FeatureModel.name_mem_names (hrange i hi))
      rw [Formula.eq_tooLarge_of_clauseForm hover hcause, h]
    · have hk : k.Founded := founded_of_baseFormula hm.wellFormed hbase h
      rw [hk.clauseForm_literals sign hrange hlength] at hcause
      cases hcause
  refine congrFun (exploreBy_eq_expand ?_ ?_ (FeatureModel.partway_root hm.wellFormed.pos)) _
  · intro selected frontier hpartway
    rw [isFeasible_eq]
    exact askUnder_congr (hrefused (fun _ => true) hpartway.concrete hpartway.length_le) _
  · intro key
    rw [isProduct_eq]
    exact askUnder_congr
      (hrefused (fun i => decide (i ∈ key)) (fun _ hi => hi) (Nat.le_refl _)) _

end Walk

end ProductLine
