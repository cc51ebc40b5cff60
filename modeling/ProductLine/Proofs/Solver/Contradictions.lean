import Mathlib.Tactic.Common
import ProductLine.Proofs.Propagation.Closure
import ProductLine.Proofs.Solver.Stack
/-!
# Constraints that are called contradictory

A push says at once if the constraint conflicts with the base.  Analyses rely on that and ask no
query then.  For a literal it is known exactly when this happens.

* `BaseFormula.refutes_literal_iff` says when the fixed values deny a literal;
* `Solver.contradictory_excludes` says what is true whenever a push is called contradictory, and
  when the push of a literal is.
-/
namespace ProductLine

open Constraint (Hold)

/-- The clause form of a literal is refuted exactly if propagation fixes the opposite literal. -/
theorem BaseFormula.refutes_literal_iff {base : BaseFormula} {n : Nat} {l : Lit} :
    base.refutes ⟨n, [[l]]⟩ = true ↔ l.negate ∈ base.impliedLits := by
  rw [impliedLits, Fixed.mem_lits, Fixed.litValue?_negate_eq_true_iff]
  simp [refutes]

/-- The clause form of a literal does not contradict itself. -/
theorem ClauseSet.triviallyUnsat_literal (n : Nat) (l : Lit) :
    triviallyUnsat ⟨n, [[l]]⟩ = false := by
  simp [triviallyUnsat, opposes]

namespace Solver

variable {ω : Type} {s : Solver ω}

/-- **Nothing is called contradictory that could be true.**  Whatever is on the stack, a constraint
that has a clause form is on top of it after the push, also if it is called contradictory; then no
values of the names make it and the base true together.

A literal of a known variable, pushed on a base that propagation does not refute, is called
contradictory exactly if propagation fixes the opposite literal. -/
theorem contradictory_excludes (hbase : s.base.Built) (st : SolverState ω) :
    (∀ (c : Constraint) (set : ClauseSet),
      c.formula.clauseForm s.base.vars s.base.clauseLimit = .ok set →
        ∃ outcome, s.push c st = .ok outcome { st with stack := st.stack ++ [⟨c, set⟩] } ∧
          (outcome = .contradictory →
            ∀ w, ¬ (Hold w s.base.constraints ∧ c.formula.eval w = true))) ∧
    (s.base.triviallyUnsat = false → ∀ l : Lit, l.var < s.base.varCount →
      ∃ f outcome, s.base.vars.literalFormula l = .ok f ∧
        s.pushLit l st = .ok outcome (pushed st f ⟨s.base.varCount, [[l]]⟩) ∧
          (outcome = .contradictory ↔ l.negate ∈ s.base.impliedLits)) := by
  constructor
  · intro c set hc
    obtain ⟨outcome, hpush, hcontra⟩ := push_of_clauseForm hbase hc st
    refine ⟨outcome, hpush, ?_⟩
    rintro houtcome w ⟨hhold, htrue⟩
    have hagree := s.base.vars.agree_reading w
    have hfalse := hcontra houtcome (s.base.vars.reading w)
      ((Constraint.eval_iff_hold hbase.translates hagree).2 hhold)
    rw [Formula.eval_of_clauseForm hc hagree, htrue] at hfalse
    cases hfalse
  · intro htrivial l hl
    obtain ⟨f, hformula, hform⟩ := exists_literalFormula hbase hl
    obtain ⟨outcome, hpush, hiff⟩ := push_contradictory_iff (c := ⟨st.nextLabel, f⟩) hform
      { st with nextLabel := st.nextLabel + 1 }
    refine ⟨f, outcome, hformula, ?_, ?_⟩
    · rw [pushLit, hformula]
      exact hpush
    · rw [hiff, htrivial, ClauseSet.triviallyUnsat_literal, BaseFormula.refutes_literal_iff]
      simp

/-- Three variables of which the second is denied, and the first implies it. -/
def denied : Solver Unit where
  backend := .exhaustive
  base := {
    vars := ⟨["A", "B", "C"]⟩
    constraints := [⟨0, .implies (.var "A") (.var "B")⟩, ⟨1, .not (.var "B")⟩]
    formulas := [⟨3, [[⟨0, false⟩, ⟨1, true⟩]]⟩, ⟨3, [[⟨1, false⟩]]⟩]
    clauseLimit := 2
    propagated := ⟨#[some false, some false, none], false⟩ }

/-- The first variable with the third one is called contradictory, as the first one alone is, but
the third one alone is not.  The stack is not empty before. -/
theorem contradictory_excludes_denied :
    let st : SolverState Unit := ⟨[⟨⟨2, .var "C"⟩, ⟨3, [[⟨2, true⟩]]⟩⟩], 3, ()⟩
    let both : Constraint := ⟨7, .and [.var "C", .var "A"]⟩
    denied.push both st =
      .ok .contradictory
        { st with stack := st.stack ++ [⟨both, ⟨3, [[⟨2, true⟩], [⟨0, true⟩]]⟩⟩] } ∧
    (∀ w, ¬ (Hold w denied.base.constraints ∧ both.formula.eval w = true)) ∧
    (∃ st', denied.pushLit ⟨0, true⟩ st = .ok .contradictory st') ∧
    ∃ st', denied.pushLit ⟨2, true⟩ st = .ok .applied st' := by
  intro st both
  have hbuilt : denied.base.Built := ⟨by decide, by rfl⟩
  have hform : both.formula.clauseForm denied.base.vars denied.base.clauseLimit =
      .ok ⟨3, [[⟨2, true⟩], [⟨0, true⟩]]⟩ := by rfl
  obtain ⟨hpushes, hliterals⟩ := contradictory_excludes (s := denied) hbuilt st
  have hpush : denied.push both st =
      .ok .contradictory
        { st with stack := st.stack ++ [⟨both, ⟨3, [[⟨2, true⟩], [⟨0, true⟩]]⟩⟩] } := by
    rfl
  refine ⟨hpush, ?_, ?_, ?_⟩
  · obtain ⟨outcome, hrun, hexcludes⟩ := hpushes both _ hform
    rw [hpush] at hrun
    cases hrun
    exact hexcludes rfl
  · obtain ⟨f, outcome, -, hrun, hiff⟩ := hliterals rfl ⟨0, true⟩ (by decide)
    obtain rfl := hiff.2 (by decide)
    exact ⟨_, hrun⟩
  · obtain ⟨f, outcome, -, hrun, hiff⟩ := hliterals rfl ⟨2, true⟩ (by decide)
    have hnot : outcome ≠ .contradictory := mt hiff.1 (by decide)
    cases outcome with
    | applied => exact ⟨_, hrun⟩
    | contradictory => exact absurd rfl hnot

end Solver

end ProductLine
