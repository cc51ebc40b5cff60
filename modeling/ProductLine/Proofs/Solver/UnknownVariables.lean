import Mathlib
import ProductLine.Proofs.Solver.Contradictions
import ProductLine.Proofs.Solver.Implied
/-!
# Candidates with unknown variables

A candidate may have a literal of a variable that the base does not have.  Such a literal cannot be
assumed, so the test of the candidate is inconclusive, unless its first literal is contradictory at
once: then the second one is never looked at.

* `Solver.pushLit_of_unknown` says that a literal of an unknown variable is refused;
* `Solver.decided_of_not_knows` says what the test of a candidate with an unknown variable finds;
* `Solver.implied_filter_knows` says what such candidates do to a search among others.
-/
namespace ProductLine

/-- Propagation fixes only variables that there are. -/
theorem BaseFormula.Built.lt_of_mem_impliedLits {base : BaseFormula} (h : base.Built) {l : Lit}
    (hl : l ∈ base.impliedLits) : l.var < base.varCount := by
  obtain ⟨sets, -, hbase⟩ := build_eq_ok.1 h.built
  have hsize : base.propagated.fixed.size = base.varCount := by
    rw [hbase]
    exact Fixed.size_propagate
  rw [impliedLits, Fixed.mem_lits, Fixed.litValue?_eq_true_iff, Fixed.value?] at hl
  by_contra hunknown
  rw [Array.getElem?_eq_none (by omega)] at hl
  cases hl

namespace Solver

variable {ω : Type} {s : Solver ω} {good : ω → Prop} {st : SolverState ω} {k l : Lit}

/-- Both literals of the candidate have variables of the base. -/
def Knows (s : Solver ω) (p : Implication) : Prop :=
  p.forcing.var < s.base.varCount ∧ p.forced.var < s.base.varCount

instance (s : Solver ω) : DecidablePred s.Knows :=
  fun p => inferInstanceAs (Decidable (p.forcing.var < s.base.varCount ∧
    p.forced.var < s.base.varCount))

/-! ## Assumptions that cannot be made -/

/-- A literal of an unknown variable is refused, and nothing is pushed. -/
theorem pushLit_of_unknown (hl : s.base.varCount ≤ l.var) (st : SolverState ω) :
    s.pushLit l st = .error (.clauseForm (.unknownLiteral l)) st := by
  have hname : s.base.vars.name? l.var = none := List.getElem?_eq_none hl
  rw [pushLit, Variables.literalFormula, hname]

/-- Nothing is found out once the next assumption is refused. -/
theorem testUnder_of_unknown (hl : s.base.varCount ≤ l.var) (ls : List Lit)
    (st : SolverState ω) : s.testUnder (l :: ls) st = .ok .unknown st := by
  have hattempt : attempt (s.pushLit l) st =
      .ok (.error (.clauseForm (.unknownLiteral l))) st := by
    rw [attempt, pushLit_of_unknown hl]
  rw [testUnder, run_bind_of_ok hattempt]
  rfl

/-- What is found out where the second assumption would be refused depends on the first one: the
second one is not made if the first one is contradictory at once. -/
theorem testUnder_of_second_unknown (hbase : s.base.Built)
    (htrivial : s.base.triviallyUnsat = false) (hl : l.var < s.base.varCount)
    (hk : s.base.varCount ≤ k.var) (st : SolverState ω) :
    ∃ f set, s.testUnder [l, k] st =
      .ok (if l.negate ∈ s.base.impliedLits then .implied else .unknown) (pushed st f set) := by
  obtain ⟨f, hformula, hform⟩ := exists_literalFormula hbase hl
  obtain ⟨outcome, hpush, hiff⟩ := push_contradictory_iff (c := ⟨st.nextLabel, f⟩) hform
    { st with nextLabel := st.nextLabel + 1 }
  rw [htrivial, ClauseSet.triviallyUnsat_literal, BaseFormula.refutes_literal_iff] at hiff
  have hpushLit : s.pushLit l st = .ok outcome (pushed st f ⟨s.base.vars.size, [[l]]⟩) := by
    rw [pushLit, hformula]
    exact hpush
  refine ⟨f, ⟨s.base.vars.size, [[l]]⟩, ?_⟩
  rw [testUnder, run_bind_of_ok (attempt_of_ok hpushLit)]
  cases outcome with
  | contradictory =>
    rw [if_pos (by simpa using hiff)]
    rfl
  | applied =>
    rw [if_neg (by simpa using hiff)]
    exact testUnder_of_unknown hk [] _

/-! ## Candidates -/

/-- A candidate with an unknown variable is reported exactly if propagation denies its first
literal.  Otherwise it is skipped, whatever the backend would answer. -/
theorem decided_of_not_knows {stack : ConstraintStack} (hs : s.Ready stack)
    (hmodels : ∃ v, s.Models stack v) {p : Implication} (hp : ¬ s.Knows p) :
    s.Decided good stack p (p.forcing.negate ∈ s.base.impliedLits) := by
  obtain ⟨v, hv⟩ := hmodels
  obtain ⟨-, htrivial⟩ := hs.base.agrees (hs.eval_base hv)
  constructor
  · -- In a cached model that refutes the candidate the first literal is true.
    rintro cache hcache hrefuted hdenied
    obtain ⟨a, ha, hvalues⟩ := List.any_eq_true.1 hrefuted
    rw [Bool.and_eq_true] at hvalues
    rw [BaseFormula.impliedLits, Fixed.mem_lits] at hdenied
    have hfalse := (hs.base.agrees (hs.eval_base (hcache a ha))).1.eval_eq hdenied
    rw [Lit.eval_negate, Assignment.eval_of_contains hvalues.1] at hfalse
    cases hfalse
  · rintro st rfl hw
    apply inScope_ends
    rcases Nat.lt_or_ge p.forcing.var s.base.varCount with hforcing | hforcing
    · have hforced : s.base.varCount ≤ p.forced.negate.var :=
        Nat.le_of_not_lt (fun hforced => hp ⟨hforcing, hforced⟩)
      obtain ⟨f, set, hrun⟩ :=
        testUnder_of_second_unknown hs.base htrivial hforcing hforced st
      rw [hrun]
      refine ⟨prefix_pushed st f set, ?_, rfl, hw⟩
      split
      · assumption
      · assumption
    · rw [testUnder_of_unknown hforcing]
      refine ⟨List.prefix_rfl, ?_, rfl, hw⟩
      intro hdenied
      exact Nat.not_lt.2 hforcing (hs.base.lt_of_mem_impliedLits (l := p.forcing.negate) hdenied)

open Classical in
/-- Whether a candidate is to be reported, whatever its variables are. -/
def ToReport (s : Solver ω) (stack : ConstraintStack) (p : Implication) : Prop :=
  if s.Knows p then s.Entails stack p else p.forcing.negate ∈ s.base.impliedLits

/-- What a search finds among any candidates. -/
theorem implied_reports_toReport (hb : s.backend.Correct good) {canceling : Prop}
    {monitor : Monitor ω} (hmonitor : monitor.Trusted good canceling) (hs : s.Ready st.stack)
    (hw : good st.world) (ps : List Implication) (buffer : Nat) :
    ∃ found st', s.implied buffer monitor ps st = .ok found st' ∧ st'.stack = st.stack ∧
      Reports canceling (fun p => (∃ v, s.Models st.stack v) ∧ s.ToReport st.stack p) ps
        found := by
  have hdecided : ∀ v, s.Models st.stack v → ∀ p ∈ ps,
      s.Decided good st.stack p (s.ToReport st.stack p) := by
    intro v hv p _
    unfold ToReport
    split
    · rename_i hp
      exact decided_of_lt hb hs hp
    · rename_i hp
      exact decided_of_not_knows hs ⟨v, hv⟩ hp
  obtain ⟨found, st', hrun, hfound, hkept⟩ :=
    (implied_reports hb hmonitor hs hw hdecided buffer).exists_ok
  exact ⟨found, st', hrun, hkept.stack, hfound⟩

/-- **Candidates with unknown variables are skipped, unless propagation denies the first literal.**
Whatever the candidates are and whenever the monitor cancels, the search ends with a result and with
the stack as it was, and a candidate with an unknown variable is found only if propagation on the
base fixes the opposite of its first literal, which then is a literal of the base.

If the monitor never cancels, such candidates make no difference to the others: a search without
them finds the same of the others, in the same order.  If there is a model, the exception is met by
each candidate that it is made for. -/
theorem implied_filter_knows (hb : s.backend.Correct good) (hbase : s.base.Built)
    (hstack : st.stack.Translated s.base.vars s.base.clauseLimit) (hw : good st.world)
    (ps : List Implication) (buffer : Nat) :
    (∀ monitor : Monitor ω, monitor.Trusted good True →
      ∃ found st', s.implied buffer monitor ps st = .ok found st' ∧ st'.stack = st.stack ∧
        ∀ p ∈ found, s.Knows p ∨
          p.forcing.var < s.base.varCount ∧ p.forcing.negate ∈ s.base.impliedLits) ∧
    (∀ monitor : Monitor ω, monitor.NeverCancels good →
      ∃ found st₁ st₂, s.implied buffer monitor ps st = .ok found st₁ ∧
        s.implied buffer monitor (ps.filter s.Knows) st = .ok (found.filter s.Knows) st₂ ∧
        st₁.stack = st.stack ∧ st₂.stack = st.stack ∧
        ((∃ v, s.Models st.stack v) → ∀ p ∈ ps, ¬ s.Knows p →
          (p ∈ found ↔ p.forcing.negate ∈ s.base.impliedLits))) := by
  have hs : s.Ready st.stack := ⟨hbase, hstack⟩
  constructor
  · intro monitor hmonitor
    obtain ⟨found, st', hrun, hkept, hfound⟩ :=
      implied_reports_toReport hb hmonitor hs hw ps buffer
    refine ⟨found, st', hrun, hkept, ?_⟩
    intro p hp
    obtain ⟨-, -, hreport⟩ := hfound.of_mem hp
    by_cases hknows : s.Knows p
    · exact .inl hknows
    · rw [ToReport, if_neg hknows] at hreport
      exact .inr ⟨hbase.lt_of_mem_impliedLits (l := p.forcing.negate) hreport, hreport⟩
  · intro monitor hmonitor
    obtain ⟨found, st₁, hrun₁, hkept₁, hfound₁⟩ :=
      implied_reports_toReport hb hmonitor.trusted hs hw ps buffer
    obtain ⟨known, st₂, hrun₂, hkept₂, hfound₂⟩ :=
      implied_reports_toReport hb hmonitor.trusted hs hw (ps.filter s.Knows) buffer
    have hsame : known = found.filter s.Knows := by
      rw [hfound₂.eq_filter, hfound₁.eq_filter, List.filter_comm]
    refine ⟨found, st₁, st₂, hrun₁, hsame ▸ hrun₂, hkept₁, hkept₂, ?_⟩
    intro hmodels p hp hknows
    rw [hfound₁.mem_iff, ToReport, if_neg hknows]
    exact ⟨fun h => h.2.2, fun h => ⟨hp, hmodels, h⟩⟩

theorem denied_models : denied.Models [] (fun _ => false) := by
  unfold Models Constraint.Hold
  decide

/-- The first literal of the first candidate is denied, so it is found although its second variable
is unknown, and the other candidates with this variable are not.  The one candidate without it is
not implied, which a search for it alone finds as well. -/
theorem implied_filter_knows_denied :
    denied.implied 1 Monitor.never
        [⟨⟨0, true⟩, ⟨3, true⟩⟩, ⟨⟨3, true⟩, ⟨0, true⟩⟩, ⟨⟨2, true⟩, ⟨1, true⟩⟩,
          ⟨⟨2, true⟩, ⟨3, true⟩⟩] (denied.start ()) =
      .ok [⟨⟨0, true⟩, ⟨3, true⟩⟩] ⟨[], 6, ()⟩ ∧
    (∃ st, denied.implied 1 Monitor.never [⟨⟨2, true⟩, ⟨1, true⟩⟩] (denied.start ()) = .ok [] st) ∧
    (⟨0, false⟩ ∈ denied.base.impliedLits) ∧ (⟨2, false⟩ ∉ denied.base.impliedLits) := by
  have hrun : denied.implied 1 Monitor.never
        [⟨⟨0, true⟩, ⟨3, true⟩⟩, ⟨⟨3, true⟩, ⟨0, true⟩⟩, ⟨⟨2, true⟩, ⟨1, true⟩⟩,
          ⟨⟨2, true⟩, ⟨3, true⟩⟩] (denied.start ()) =
      .ok [⟨⟨0, true⟩, ⟨3, true⟩⟩] ⟨[], 6, ()⟩ := by
    cbv
  have hbuilt : denied.base.Built := ⟨by decide, by rfl⟩
  obtain ⟨-, hsame⟩ := @implied_filter_knows _ denied (fun _ => True) (denied.start ())
    Backend.exhaustive_correct hbuilt ConstraintStack.translated_nil trivial
    [⟨⟨0, true⟩, ⟨3, true⟩⟩, ⟨⟨3, true⟩, ⟨0, true⟩⟩, ⟨⟨2, true⟩, ⟨1, true⟩⟩,
      ⟨⟨2, true⟩, ⟨3, true⟩⟩] 1
  obtain ⟨found, st₁, st₂, hfound, hknown, -, -, hexact⟩ :=
    hsame Monitor.never (fun _ _ => ⟨rfl, trivial⟩)
  rw [hrun] at hfound
  obtain ⟨rfl, -⟩ := EStateM.Result.ok.inj hfound
  have hexact := hexact ⟨_, denied_models⟩
  refine ⟨hrun, ⟨st₂, hknown⟩, ?_, ?_⟩
  · exact (hexact ⟨⟨0, true⟩, ⟨3, true⟩⟩ (by decide) (by decide)).1 (by decide)
  · exact mt (hexact ⟨⟨2, true⟩, ⟨3, true⟩⟩ (by decide) (by decide)).2 (by decide)

/-- A candidate with an unknown variable is found, although the backend is correct and the base has
a model. -/
theorem exists_implied_not_knows :
    denied.backend.Correct (fun _ => True) ∧ denied.base.Built ∧ (∃ v, denied.Models [] v) ∧
    (¬ denied.Knows ⟨⟨0, true⟩, ⟨3, true⟩⟩) ∧
    denied.implied 1 Monitor.never [⟨⟨0, true⟩, ⟨3, true⟩⟩] (denied.start ()) =
      .ok [⟨⟨0, true⟩, ⟨3, true⟩⟩] ⟨[], 3, ()⟩ := by
  refine ⟨Backend.exhaustive_correct, ⟨by decide, by rfl⟩, ⟨_, denied_models⟩, by decide, ?_⟩
  cbv

end Solver

end ProductLine
