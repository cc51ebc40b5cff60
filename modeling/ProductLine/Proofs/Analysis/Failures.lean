import Mathlib
import ProductLine.Proofs.Analysis.Agreement
import ProductLine.Proofs.Analysis.Explanation
import ProductLine.Proofs.Analysis.FalseOptional
import ProductLine.Proofs.Calls.Conclusions
import ProductLine.Proofs.Enumeration.Refusals
/-!
# Translation errors of analyses

An analysis of a feature model only speaks of the features of the model.  So what it states can be
brought into clause form, unless that takes too many clauses.

* `AnalysisError.translation?` is the translation error that a failure reports;
* `Analysis.Fails` says with which failures the analyses of a model end;
* `Analysis.Fails.translation?_eq_none` says that none of them is a translation error;
* `Analysis.translation_tooLarge` is about all translation errors that a model can meet.
-/
namespace ProductLine

/-- The translation error that a failure reports, if it does. -/
def AnalysisError.translation? : AnalysisError → Option ClauseFormError
  | clauseForm cause | stack (.clauseForm cause) => some cause
  | _ => none

variable {ω α β : Type}

/-! ## Failures of computations -/

namespace Solver

variable {s : Solver ω} {e : AnalysisError}

/-- A call fails because of its backend. -/
theorem translation?_of_call {c : Call ω α} {st st' : SolverState ω}
    (h : s.call c st = .error e st') : e.translation? = none := by
  have hends := s.recorded_ends c st
  rw [call_recording] at h
  cases hrun : s.recorded c st with
  | ok result st'' =>
    rw [hrun] at h
    cases h
  | error cause st'' =>
    rw [hrun] at h hends
    cases h
    have hfails : FailsAfter c.NeedsAnswers e (s.replies c st) := hends
    generalize s.replies c st = replies at hfails
    cases hfails with
    | unavailable => rfl
    | inconclusive => rfl

theorem exists_imbalance_of_truncate {depth : Nat} {cause : StackError} {st st' : SolverState ω}
    (h : truncate depth st = .error cause st') :
    ∃ expected actual, cause = .imbalance expected actual := by
  unfold truncate ConstraintStack.truncate at h
  split at h
  · rename_i herror
    split at herror
    · cases herror
      cases h
      exact ⟨_, _, rfl⟩
    · cases herror
  · cases h

/-- A scope fails as its computation does, or because the stack is too short at its end. -/
theorem translation?_of_inScope {body : SolverM ω α} {st st' : SolverState ω}
    (hbody : ∀ st'', body st = .error e st'' → e.translation? = none)
    (h : inScope body st = .error e st') : e.translation? = none := by
  unfold inScope at h
  cases hrun : body st with
  | ok a st'' =>
    simp only [hrun] at h
    split at h
    · cases h
    · rename_i htruncate
      cases h
      obtain ⟨expected, actual, rfl⟩ := exists_imbalance_of_truncate htruncate
      rfl
  | error cause st'' =>
    simp only [hrun] at h
    split at h
    · cases h
      exact hbody st'' hrun
    · cases h
      exact hbody st'' hrun

/-- Pieces fail together only if one of them fails. -/
theorem exists_of_gather {results : List (Except AnalysisError (List α))}
    (h : gather results = .error e) : .error e ∈ results := by
  induction results with
  | nil => cases h
  | cons result results ih =>
    rw [gather] at h
    rcases bind_eq_error.1 h with rfl | ⟨xs, -, h⟩
    · exact List.mem_cons_self
    · rcases bind_eq_error.1 h with h | ⟨rest, -, h⟩
      · exact List.mem_cons_of_mem _ (ih h)
      · cases h

/-- If one of several computations failed, it failed from a fresh state. -/
theorem exists_of_runEach {run : α → SolverM ω β} {xs : List α} {w : ω}
    (h : .error e ∈ (s.runEach run xs w).1) :
    ∃ x ∈ xs, ∃ w' st, run x (s.start w') = .error e st := by
  induction xs generalizing w with
  | nil => cases h
  | cons x xs ih =>
    rw [runEach] at h
    rcases List.mem_cons.1 h with h | h
    · cases hrun : run x (s.start w) with
      | ok b st =>
        rw [hrun] at h
        cases h
      | error cause st =>
        rw [hrun] at h
        cases h
        exact ⟨x, List.mem_cons_self, w, st, hrun⟩
    · obtain ⟨y, hy, hrun⟩ := ih h
      exact ⟨y, List.mem_cons_of_mem x hy, hrun⟩

end Solver

/-! ## Failures of analyses -/

namespace Analysis

variable {a : Analysis ω} {e : AnalysisError} {model : FeatureModel}

/-- Some analysis of the model fails so, with whatever backend, monitor and receiver, from whatever
state.  Explanations are asked for literals of features. -/
inductive Fails (a : Analysis ω) : AnalysisError → Prop where
  | call {α : Type} {c : Call ω α} {st st' : SolverState ω} {e : AnalysisError} :
      a.solver.call c st = .error e st' → Fails a e
  | falseOptional {parallelism : Nat} {monitor : Monitor ω} {w w' : ω} {e : AnalysisError} :
      a.falseOptional parallelism monitor w = (.error e, w') → Fails a e
  | explain {p : Implication} {st st' : SolverState ω} {e : AnalysisError} :
      p.forcing.var < a.model.size → p.forced.var < a.model.size →
      explain a.solver p st = .error e st' → Fails a e

/-- No analysis fails because of a formula that it states itself. -/
theorem Fails.translation?_eq_none (hstated : a.model.StatedBy a.solver.base) (h : a.Fails e) :
    e.translation? = none := by
  cases h with
  | call h => exact Solver.translation?_of_call h
  | @falseOptional parallelism monitor w w' _ h =>
    simp only [Analysis.falseOptional, forcedAmong, Solver.impliedInChunks, Prod.mk.injEq] at h
    cases hgather : Solver.gather (a.solver.runEach
        (a.solver.implied a.options.solutionBuffer monitor)
        (Solver.share (a.options.workerCount parallelism) (candidatesOf a.model.optionalChildren))
        w).1 with
    | ok found =>
      rw [hgather] at h
      cases h.1
    | error cause =>
      rw [hgather] at h
      cases h.1
      obtain ⟨chunk, -, w'', st, hrun⟩ :=
        Solver.exists_of_runEach (Solver.exists_of_gather hgather)
      exact Solver.translation?_of_call
        (c := .implied a.options.solutionBuffer monitor chunk) hrun
  | @explain p st st' _ hforcing hforced h =>
    rw [← hstated.varCount] at hforcing hforced
    obtain ⟨_, hfirst⟩ := Solver.require_pushLit hstated.built hforcing st
    obtain ⟨_, hsecond⟩ := Solver.require_pushLit (l := p.forced.negate) hstated.built hforced
      ⟨st.stack ++ [a.solver.statingEntry st.nextLabel p.forcing], st.nextLabel + 1, st.world⟩
    refine Solver.translation?_of_inScope (fun st'' hbody => ?_) h
    rw [run_bind_of_ok hfirst, run_bind_of_ok hsecond] at hbody
    have hcall : a.solver.call .unsatSubset (assuming a.solver p st) = .error e st'' := hbody
    exact Solver.translation?_of_call hcall

/-! ## All translation errors -/

/-- **The only translation error of a model is that there are too many clauses.**  Whatever the
limit is, the base formula of a model that came about by changes fails for nothing else, and no
analysis that has a base formula reports a translation error.

An enumeration gives up a branch if a formula is refused.  It would be the same whatever else was
done then, as long as this is done for formulas with too many clauses; and if the limit is at least
the number of concrete features, whatever is done for those as well.  A literal of a feature, which
other analyses assume, can be pushed whatever was pushed before.  The candidates for false-optional
features consist of such literals, so none of them is skipped as unknown. -/
theorem translation_tooLarge (hm : model.Built) (backend : Backend ω) (options : Options) :
    (∀ limit e, model.baseFormula limit = .error e → e = .tooLarge limit) ∧
    (∀ e, build model backend options = .error e →
      e = .clauseForm (.tooLarge options.clauseLimit)) ∧
    ∀ a, build model backend options = .ok a →
      (∀ e, a.Fails e → e.translation? = none) ∧
      (∀ (monitor : Monitor ω) (sink : Sink ω) (refused : StackError → SolverM ω Bool)
          (st : SolverState ω),
        (refused (.clauseForm (.tooLarge options.clauseLimit)) = pure false →
          (a.walk monitor sink).enumerateOr refused st = (a.walk monitor sink).enumerate st) ∧
        (model.concreteFeatures.length ≤ options.clauseLimit →
          (a.walk monitor sink).enumerateOr refused st = (a.walk monitor sink).enumerate st)) ∧
      (∀ l : Lit, l.var < model.size → ∀ st, ∃ outcome st',
        a.solver.pushLit l st = .ok outcome st') ∧
      ∀ p ∈ candidates model, p.forcing.var < model.size ∧ p.forced.var < model.size := by
  refine ⟨fun limit e => hm.eq_tooLarge_of_baseFormula, ?_, ?_⟩
  · intro e he
    unfold build at he
    split at he
    · rename_i cause hcause
      cases he
      rw [hm.eq_tooLarge_of_baseFormula hcause]
    · cases he
  · intro a ha
    obtain ⟨base, rfl, hbase, hstated, -⟩ := build_eq_ok hm.wellFormed ha
    refine ⟨fun e he => he.translation?_eq_none hstated, ?_, ?_,
      fun p hp => lt_size_of_mem_candidates hp⟩
    · intro monitor sink refused st
      exact ⟨fun h => Walk.enumerateOr_eq (k := walk ⟨model, ⟨backend, base⟩, options⟩ monitor sink)
          hm hbase (.inl h) st,
        fun h => Walk.enumerateOr_eq (k := walk ⟨model, ⟨backend, base⟩, options⟩ monitor sink)
          hm hbase (.inr h) st⟩
    · intro l hl st
      obtain ⟨f, outcome, -, hpush, -⟩ := Solver.pushLit_of_lt (s := ⟨backend, base⟩) hstated.built
        (hstated.varCount ▸ hl) st
      exact ⟨outcome, _, hpush⟩

/-- A refused formula fails the walk. -/
def failing : StackError → SolverM ω Bool := fun cause => throw (.stack cause)

/-- With no room for a clause there is no base formula.  With room for two clauses a walk that a
refused formula would fail hands over both configurations. -/
theorem translation_tooLarge_pair :
    build pair (Backend.exhaustive.besides (List Configuration)) (countingOptions 0) =
      .error (.clauseForm (.tooLarge 0)) ∧
    (∃ st, ((pairAnalysis 2).walk Monitor.never keeping).enumerateOr failing
        ((pairAnalysis 2).start ((), [])) = .ok .next st ∧ st.solver.world.2.length = 2) ∧
    ∃ outcome st, (pairAnalysis 2).solver.pushLit ⟨1, false⟩ ((pairAnalysis 2).start ((), [])) =
      .ok outcome st := by
  obtain ⟨-, hbuild, -⟩ := translation_tooLarge built_pair
    (Backend.exhaustive.besides (List Configuration)) (countingOptions 0)
  obtain ⟨-, -, hanalysis⟩ := translation_tooLarge built_pair
    (Backend.exhaustive.besides (List Configuration)) (countingOptions 2)
  obtain ⟨-, hwalk, hlit, -⟩ := hanalysis (pairAnalysis 2) rfl
  have henumerate : ((pairAnalysis 2).walk Monitor.never keeping).enumerate
      ((pairAnalysis 2).start ((), [])) =
        .ok .next ⟨⟨[], 4, ((), [⟨1, ["R"]⟩, ⟨2, ["A", "R"]⟩])⟩, 3, [[0, 1], [0]],
          { emitted := 2 }⟩ := by
    cbv
  obtain ⟨e, he⟩ : ∃ e, build pair (Backend.exhaustive.besides (List Configuration))
      (countingOptions 0) = .error e := ⟨_, rfl⟩
  exact ⟨he.trans (congrArg Except.error (hbuild e he)),
    ⟨_, ((hwalk _ _ failing _).2 (by decide)).trans henumerate, rfl⟩,
    hlit ⟨1, false⟩ (by decide) _⟩

/-- With room for one clause the formula that both features are selected is refused. -/
example : ∃ st, ((pairAnalysis 1).walk Monitor.never keeping).isProductOr failing [0, 1]
    { solver := (pairAnalysis 1).start ((), []) } =
      .error (.stack (.clauseForm (.tooLarge 1))) st :=
  ⟨_, by cbv⟩

end Analysis

end ProductLine
