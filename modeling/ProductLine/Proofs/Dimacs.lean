import Mathlib.Tactic.Common
import ProductLine.Dimacs
import ProductLine.Proofs.Clause
/-!
# The variables of an input in DIMACS syntax

The number of variables is counted while clauses are read, and a header can only raise it.

* `Reader.Counted` is what every byte keeps up;
* `parse_counts` is what it comes to for whole inputs.
-/
namespace ProductLine.Dimacs

namespace Reader

variable {r r' : Reader}

/-- No clause that was read needs more variables than are counted. -/
def Counted (r : Reader) : Prop := ∀ c ∈ r.clauses, c.varCount ≤ r.varCount

/-- The end of a literal keeps the variables counted. -/
theorem Counted.endLiteral (h : r.Counted) : r.endLiteral.Counted := by
  unfold Reader.endLiteral
  split
  · exact h
  · refine List.forall_mem_cons.2 ⟨Nat.le_max_right .., ?_⟩
    intro c hc
    exact (h c hc).trans (Nat.le_max_left ..)
  · exact h

theorem Counted.endHeader {bytes : List UInt8} (h : r.Counted)
    (hend : r.endHeader bytes = .ok r') : r'.Counted := by
  obtain ⟨header, -, hend⟩ := bind_eq_ok.1 hend
  cases hend
  intro c hc
  exact (h c hc).trans (Nat.le_max_left ..)

theorem Counted.addDigit {digit : Nat} (h : r.Counted) (hstep : r.addDigit digit = .ok r') :
    r'.Counted := by
  rw [Reader.addDigit] at hstep
  split at hstep
  · cases hstep
  · cases hstep
    exact h

theorem Counted.stepLiterals {b : UInt8} (h : r.Counted) (hstep : r.stepLiterals b = .ok r') :
    r'.Counted := by
  unfold Reader.stepLiterals at hstep
  split at hstep
  · exact h.addDigit hstep
  · split at hstep
    · cases hstep
      exact h
    · split at hstep
      · cases hstep
        exact h.endLiteral
      · split at hstep
        · cases hstep
          exact h
        · split at hstep <;> cases hstep
          exact h

/-- Every byte keeps the count. -/
theorem Counted.step {b : UInt8} (h : r.Counted) (hstep : r.step b = .ok r') : r'.Counted := by
  unfold Reader.step at hstep
  generalize hline : (if b = '\n'.toUInt8 then { r with line := r.line + 1 } else r) = q at hstep
  have hq : q.Counted := by
    rw [← hline]
    split
    · exact h
    · exact h
  clear hline
  dsimp only at hstep
  split at hstep
  · exact hq.stepLiterals hstep
  · cases hstep
    split
    · exact hq
    · exact hq
  · split at hstep
    · obtain ⟨q', hend, hstep⟩ := bind_eq_ok.1 hstep
      have hq' : q'.Counted := hq.endHeader hend
      cases hstep
      exact hq'
    · cases hstep
      exact hq

/-- Reading any number of bytes keeps the variables counted. -/
theorem Counted.steps {bytes : List UInt8} (h : r.Counted) (hsteps : r.steps bytes = .ok r') :
    r'.Counted := by
  induction bytes generalizing r with
  | nil =>
    cases hsteps
    exact h
  | cons b bytes ih =>
    obtain ⟨q, hstep, hsteps⟩ := bind_eq_ok.1 hsteps
    exact ih (h.step hstep) hsteps

/-- What is read in the end has no variables beyond the ones that are counted. -/
theorem Counted.finish {s : ClauseSet} (h : r.Counted) (hfinish : r.finish = .ok s) :
    s.InRange s.varCount := by
  rw [Reader.finish] at hfinish
  obtain ⟨q, hq, hfinish⟩ : ∃ q : Reader, q.Counted ∧ (do
      let r := q.endLiteral
      if !r.clause.isEmpty then throw (.unterminatedClause r.line)
      r.checkCounts
      return ⟨r.varCount, r.clauses.reverse⟩) = Except.ok s := by
    split at hfinish
    · obtain ⟨q, hend, hfinish⟩ := bind_eq_ok.1 hfinish
      exact ⟨q, h.endHeader hend, hfinish⟩
    · exact ⟨r, h, hfinish⟩
    · exact ⟨r, h, hfinish⟩
  dsimp only at hfinish
  split at hfinish
  · cases hfinish
  · obtain ⟨_, -, hfinish⟩ := bind_eq_ok.1 hfinish
    cases hfinish
    intro c hc
    exact Clause.inRange_iff.2 (hq.endLiteral c (List.mem_reverse.1 hc))

end Reader

/-- The clauses of an input are over the variables that it counts. -/
theorem parse_counts : ClauseParser.Counts parse := by
  intro bytes s h
  obtain ⟨r, hsteps, hfinish⟩ := bind_eq_ok.1 h
  have hstart : Reader.Counted {} := nofun
  exact (hstart.steps hsteps).finish hfinish

end ProductLine.Dimacs
