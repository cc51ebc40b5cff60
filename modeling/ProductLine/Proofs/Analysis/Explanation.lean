import Mathlib
import ProductLine.Proofs.Analysis.FalseOptional
import ProductLine.Proofs.Clause
import ProductLine.Proofs.Solver.History
import ProductLine.Proofs.Solver.UnsatSubset
/-!
# Explanations are about what is implied

An explanation assumes that the first literal of a candidate is true and the second is not, and
looks for a minimal contradiction.  There is one exactly if the candidate is implied.

* `Solver.stating` is the constraint by which a literal is stated, and `Solver.require_pushLit` says
  that it lies on the stack after a push;
* `Analysis.assumed` are the two assumptions, and `Analysis.assuming` is the state with both of
  them;
* `Analysis.satisfiable_origins_assuming_iff` is why there is an explanation,
  `Analysis.exists_mem_assumed` why it needs an assumption, and `Analysis.forced_of_unsat` what the
  rest of it says;
* `Analysis.explain_yields` is about explanations over any stack.
-/
namespace ProductLine

open Constraint (Satisfiable MinimalUnsat Hold)

/-! ## Stated literals -/

namespace Solver

variable {ω : Type} {s : Solver ω}

/-- The constraint by which a solver states a literal. -/
def stating (s : Solver ω) (label : Nat) (l : Lit) : Constraint :=
  ⟨label, .literal ((s.base.vars.name? l.var).getD "") l.positive⟩

/-- What lies on the stack for it. -/
def statingEntry (s : Solver ω) (label : Nat) (l : Lit) : StackEntry :=
  ⟨s.stating label l, ⟨s.base.vars.size, [[l]]⟩⟩

variable {l : Lit} (hbase : s.base.Built) (hl : l.var < s.base.varCount)
include hbase hl

/-- A stated literal has one unit clause. -/
theorem translates_stating (label : Nat) :
    Constraint.Translates s.base.vars s.base.clauseLimit (s.stating label l)
      ⟨s.base.vars.size, [[l]]⟩ := by
  have hname : s.base.vars.name? l.var = some s.base.vars.names[l.var] :=
    List.getElem?_eq_getElem hl
  rw [stating, hname]
  exact clauseForm_literal _ (Variables.find?_of_name? hbase.names hname)

/-- Under the values of the variables it says what the literal says. -/
theorem eval_stating (label : Nat) (v : Nat → Bool) :
    (s.stating label l).formula.eval (s.base.vars.valuation v) = l.eval v := by
  have hform := translates_stating hbase hl label
  rw [← Formula.eval_of_clauseForm hform (s.base.vars.agree_valuation v)]
  simp [ClauseSet.eval]

/-- Pushing a literal pushes the constraint that states it, contradictory or not. -/
theorem require_pushLit (st : SolverState ω) :
    ∃ outcome, require (s.pushLit l) st =
      .ok outcome ⟨st.stack ++ [s.statingEntry st.nextLabel l], st.nextLabel + 1, st.world⟩ := by
  have hname : s.base.vars.name? l.var = some s.base.vars.names[l.var] :=
    List.getElem?_eq_getElem hl
  obtain ⟨outcome, hpush, -⟩ := push_of_clauseForm hbase
    (translates_stating hbase hl st.nextLabel) { st with nextLabel := st.nextLabel + 1 }
  refine ⟨outcome, ?_⟩
  simp only [stating, hname, Option.getD_some] at hpush
  simp only [require, pushLit, Variables.literalFormula, hname, pushFormula, hpush, statingEntry,
    stating, Option.getD_some]

/-- A solver stays ready when a literal is stated. -/
theorem Ready.stating {stack : ConstraintStack} (h : s.Ready stack) (label : Nat) :
    s.Ready (stack ++ [s.statingEntry label l]) :=
  h.push (translates_stating hbase hl label)

/-- The models are those in which the literal is true as well. -/
theorem Ready.models_stating_iff {stack : ConstraintStack} (h : s.Ready stack) (label : Nat)
    (v : Nat → Bool) :
    s.Models (stack ++ [s.statingEntry label l]) v ↔ s.Models stack v ∧ l.eval v = true := by
  rw [statingEntry, h.models_push_iff (translates_stating hbase hl label)]
  simp [ClauseSet.eval]

end Solver

namespace Analysis

variable {ω : Type} {s : Solver ω} {good : ω → Prop}

/-! ## Assumptions -/

/-- The constraints that an explanation assumes: the first literal is true and the second is not. -/
def assumed (s : Solver ω) (label : Nat) (p : Implication) : List Constraint :=
  [s.stating label p.forcing, s.stating (label + 1) p.forced.negate]

/-- The state in which both are assumed. -/
def assuming (s : Solver ω) (p : Implication) (st : SolverState ω) : SolverState ω where
  stack := st.stack ++ [s.statingEntry st.nextLabel p.forcing] ++
    [s.statingEntry (st.nextLabel + 1) p.forced.negate]
  nextLabel := st.nextLabel + 2
  world := st.world

/-- Assumptions come after the constraints that are there already. -/
theorem origins_assuming (p : Implication) (st : SolverState ω) :
    s.origins (assuming s p st) = s.origins st ++ assumed s st.nextLabel p := by
  simp [Solver.origins, assuming, ConstraintStack.sources, assumed, Solver.statingEntry]

/-- The assumptions of a fresh solver are none of the constraints of its base. -/
theorem not_mem_of_mem_assumed {w : ω} {p : Implication} {c : Constraint}
    (hc : c ∈ assumed s (s.start w).nextLabel p) : c ∉ s.base.constraints := by
  intro hbase
  have hlabels : ∀ n ∈ s.base.constraints.map (·.label + 1), n ≤ (s.start w).nextLabel :=
    (foldl_max_le_iff.1 (Nat.le_refl (s.start w).nextLabel)).2
  have hold := hlabels _ (List.mem_map_of_mem hbase)
  have hnew : (s.start w).nextLabel ≤ c.label := by
    rw [assumed, List.mem_cons, List.mem_singleton] at hc
    rcases hc with rfl | rfl
    · exact Nat.le_refl _
    · exact Nat.le_succ _
  omega

section Contradiction

variable {known subset : List Constraint} {label : Nat} {p : Implication}

/-- Constraints that can be true together do not contradict each other without an assumption. -/
theorem exists_mem_assumed (hunsat : ¬ Satisfiable subset) (hsat : Satisfiable known)
    (hsub : subset ⊆ known ++ assumed s label p) : ∃ c ∈ subset, c ∈ assumed s label p := by
  by_contra hnone
  rw [not_exists] at hnone
  apply hunsat (hsat.mono ?_)
  intro c hc
  exact (List.mem_append.1 (hsub hc)).resolve_right fun hassumed => hnone c ⟨hc, hassumed⟩

variable (hbase : s.base.Built)
  (hp : p.forcing.var < s.base.varCount ∧ p.forced.var < s.base.varCount)
include hbase hp

/-- The assumptions hold exactly if the first literal is true and the second one is not. -/
theorem hold_assumed_iff (v : Nat → Bool) :
    Hold (s.base.vars.valuation v) (assumed s label p) ↔
      p.forcing.eval v = true ∧ p.forced.eval v = false := by
  rw [assumed, Hold, List.forall_mem_cons, List.forall_mem_singleton,
    Solver.eval_stating hbase hp.1, Solver.eval_stating (l := p.forced.negate) hbase hp.2,
    Lit.eval_negate, Bool.not_eq_true']

/-- In a contradiction the constraints beside the assumptions make the first literal force the
second. -/
theorem forced_of_unsat (hunsat : ¬ Satisfiable subset)
    (hsub : subset ⊆ known ++ assumed s label p) {v : Nat → Bool}
    (hknown : ∀ c ∈ subset, c ∈ known → c.formula.eval (s.base.vars.valuation v) = true)
    (hforcing : p.forcing.eval v = true) : p.forced.eval v = true := by
  by_contra hforced
  have hassumed : Hold (s.base.vars.valuation v) (assumed s label p) :=
    (hold_assumed_iff hbase hp v).2 ⟨hforcing, Bool.eq_false_of_not_eq_true hforced⟩
  refine hunsat ⟨s.base.vars.valuation v, fun c hc => ?_⟩
  rcases List.mem_append.1 (hsub hc) with hmem | hmem
  · exact hknown c hc hmem
  · exact hassumed c hmem

end Contradiction

/-! ## Explanations over any stack -/

section Stack

variable {p : Implication} {st : SolverState ω} (hs : s.Ready st.stack)
  (hp : p.forcing.var < s.base.varCount ∧ p.forced.var < s.base.varCount)
include hs hp

/-- A solver stays ready under assumptions. -/
theorem ready_assuming : s.Ready (assuming s p st).stack :=
  (hs.stating hs.base hp.1 _).stating (l := p.forced.negate) hs.base hp.2 _

/-- With the assumptions the base and the stack can be true together exactly if the candidate is not
implied. -/
theorem satisfiable_origins_assuming_iff :
    Satisfiable (s.origins (assuming s p st)) ↔ ¬ s.Entails st.stack p := by
  rw [Solver.origins, ← (ready_assuming hs hp).exists_models_iff, Solver.Entails, not_forall]
  refine exists_congr fun v => ?_
  rw [assuming, (hs.stating hs.base hp.1 _).models_stating_iff (l := p.forced.negate) hs.base hp.2,
    hs.models_stating_iff hs.base hp.1, Lit.eval_negate]
  simp [and_assoc]

/-- There is an explanation exactly if the candidate is implied.  It is a minimal subset of what the
base, the stack and the assumptions state. -/
theorem explain_yields (hb : s.backend.Correct good) (hw : good st.world) :
    Solver.Yields good False st (fun result => (result = none ↔ ¬ s.Entails st.stack p) ∧
        ∀ subset, result = some subset →
          subset ⊆ s.origins st ++ assumed s st.nextLabel p ∧ MinimalUnsat subset)
      (explain s p st) := by
  obtain ⟨_, hfirst⟩ := Solver.require_pushLit hs.base hp.1 st
  obtain ⟨_, hsecond⟩ := Solver.require_pushLit (l := p.forced.negate) hs.base hp.2
    ⟨st.stack ++ [s.statingEntry st.nextLabel p.forcing], st.nextLabel + 1, st.world⟩
  have hsubset : Solver.Yields good False (assuming s p st) _ (s.unsatSubset (assuming s p st)) :=
    Solver.unsatSubset_yields hb (ready_assuming hs hp) hw
  rw [satisfiable_origins_assuming_iff hs hp, origins_assuming] at hsubset
  apply Solver.inScope_ends
  rw [run_bind_of_ok hfirst, run_bind_of_ok hsecond]
  refine hsubset.mono ?_ ?_
  · rintro result st' ⟨hresult, hkept⟩
    refine ⟨?_, hresult, rfl, hkept.world⟩
    rw [hkept.stack, assuming, List.append_assoc]
    exact List.prefix_append ..
  · rintro _ st' ⟨hfalse, -⟩
    exact hfalse.elim

end Stack

/-! ## Explanations of an analysis -/

/-- **Explanations are about what is implied.**  If the rules and constraints of a model can be true
together, then with a correct backend a candidate has an explanation exactly if a search for implied
candidates finds it, whatever else is searched for.

An explanation has no other constraints than those of the base and the two assumptions.  At least
one assumption is part of it.  Its other constraints, which are constraints of the base, already say
that the first literal forces the second.  All together cannot be true, but can without any one of
them. -/
theorem explain_isSome_iff {model : FeatureModel} {backend : Backend ω} {options : Options}
    {a : Analysis ω} {w : ω} (hm : model.Built) (ha : build model backend options = .ok a)
    (hb : backend.Correct good) (hsat : Satisfiable a.solver.base.constraints) {p : Implication}
    (hp : p.forcing.var < model.size ∧ p.forced.var < model.size) (hw : good w) :
    ∃ result st, explain a.solver p (a.start w) = .ok result st ∧
      (∀ (monitor : Monitor ω) (ps : List Implication) (buffer : Nat) (w' : ω),
        monitor.NeverCancels good → good w' → p ∈ ps →
        (∀ q ∈ ps, q.forcing.var < model.size ∧ q.forced.var < model.size) →
        ∃ found st', a.solver.implied buffer monitor ps (a.start w') = .ok found st' ∧
          (result.isSome = true ↔ p ∈ found)) ∧
      ∀ subset, result = some subset →
        subset ⊆ a.solver.base.constraints ++ assumed a.solver (a.start w).nextLabel p ∧
        (∃ c ∈ subset, c ∈ assumed a.solver (a.start w).nextLabel p ∧
          c ∉ a.solver.base.constraints) ∧
        (∀ v : Nat → Bool, (∀ c ∈ subset, c ∈ a.solver.base.constraints →
            c.formula.eval (a.solver.base.vars.valuation v) = true) →
          p.forcing.eval v = true → p.forced.eval v = true) ∧
        ¬ Satisfiable subset ∧ ∀ c ∈ subset, Satisfiable (subset.erase c) := by
  classical
  obtain ⟨base, rfl, -, hstated, -⟩ := build_eq_ok hm.wellFormed ha
  rw [← hstated.varCount] at hp ⊢
  have hs : Solver.Ready ⟨backend, base⟩ (Solver.start ⟨backend, base⟩ w).stack := hstated.ready
  have horigins : Solver.origins ⟨backend, base⟩ (Solver.start ⟨backend, base⟩ w) =
      base.constraints :=
    List.append_nil _
  obtain ⟨result, st, hrun, ⟨hnone, hsome⟩, -⟩ := (explain_yields hs hp hb hw).exists_ok
  rw [horigins] at hsome
  refine ⟨result, st, hrun, ?_, ?_⟩
  · intro monitor ps buffer w' hmonitor hw' hmem hps
    obtain ⟨st', hfound, -⟩ :=
      Solver.implied_start (s := ⟨backend, base⟩) hb hmonitor hstated.built hps buffer hw'
    refine ⟨_, st', hfound, ?_⟩
    have hmodels : ∃ v, Solver.Models ⟨backend, base⟩ [] v :=
      hs.exists_models_iff.2 (hsat.mono fun c hc => by rwa [← horigins])
    have hresult : result.isSome = true ↔ Solver.Entails ⟨backend, base⟩ [] p := by
      rw [Option.isSome_iff_ne_none]
      exact (not_congr hnone).trans not_not
    rw [if_pos hmodels, List.mem_filter, decide_eq_true_eq, and_iff_right hmem, hresult]
  · intro subset hsubset
    obtain ⟨hsub, hminimal⟩ := hsome subset hsubset
    obtain ⟨c, hc, hassumed⟩ := exists_mem_assumed hminimal.unsat hsat hsub
    exact ⟨hsub, ⟨c, hc, hassumed, not_mem_of_mem_assumed hassumed⟩,
      fun v hknown hforcing => forced_of_unsat hstated.built hp hminimal.unsat hsub hknown hforcing,
      hminimal.unsat, hminimal.needed⟩

/-- Why the root of `optional` forces its second child: the first comes with it, one of them is
selected, and it is not.  So the constraints of the model alone say it. -/
theorem explain_isSome_iff_optional :
    (∃ st, explain optionalAnalysis.solver ⟨⟨0, true⟩, ⟨2, true⟩⟩ (optionalAnalysis.start ()) =
      .ok (some [⟨3, .implies (.var "A") (.var "B")⟩, ⟨4, .or [.var "A", .var "B"]⟩,
        ⟨6, .literal "B" false⟩]) st) ∧
    (∃ found st, optionalAnalysis.solver.implied 2 Monitor.never [⟨⟨0, true⟩, ⟨2, true⟩⟩]
      (optionalAnalysis.start ()) = .ok found st ∧ ⟨⟨0, true⟩, ⟨2, true⟩⟩ ∈ found) ∧
    ∀ v : Nat → Bool, (v 1 = true → v 2 = true) → v 1 = true ∨ v 2 = true → v 0 = true →
      v 2 = true := by
  have hexplain : ∃ st, explain optionalAnalysis.solver ⟨⟨0, true⟩, ⟨2, true⟩⟩
      (optionalAnalysis.start ()) =
        .ok (some [⟨3, .implies (.var "A") (.var "B")⟩, ⟨4, .or [.var "A", .var "B"]⟩,
          ⟨6, .literal "B" false⟩]) st :=
    ⟨_, by cbv⟩
  have hsat : Satisfiable optionalAnalysis.solver.base.constraints :=
    ⟨fun _ => true, by simp only [Hold]; decide⟩
  obtain ⟨result, st, hrun, hfound, hsubset⟩ := @explain_isSome_iff _ _ optional .exhaustive
    { workers := 2 } optionalAnalysis () built_optional rfl Backend.exhaustive_correct hsat
    ⟨⟨0, true⟩, ⟨2, true⟩⟩ (by decide) trivial
  obtain ⟨st', hexplain⟩ := hexplain
  rw [hexplain] at hrun
  cases hrun
  obtain ⟨found, st'', himplied, hmem⟩ := hfound Monitor.never [⟨⟨0, true⟩, ⟨2, true⟩⟩] 2 ()
    (fun _ _ => ⟨rfl, trivial⟩) trivial (by decide) (by decide)
  obtain ⟨-, -, hforced, -⟩ := hsubset _ rfl
  refine ⟨⟨_, hexplain⟩, ⟨found, st'', himplied, hmem.1 rfl⟩, ?_⟩
  simp only [Lit.eval, beq_true, List.forall_mem_cons] at hforced
  intro v hfirst hone
  refine hforced v ⟨fun _ => ?_, fun _ => ?_, fun hbase => absurd hbase (by decide), by simp⟩
  · exact (by grind : (!v 1 || v 2) = true)
  · exact (by simpa using hone : (v 1 || (v 2 || false)) = true)

end Analysis

end ProductLine
