import Mathlib.Tactic.Common
import ProductLine.Propagation
/-!
# Unit propagation is sound

Whatever propagation fixes is so in every model of the clauses, and if it finds a false clause there
is no model.

* `Fixed.Agrees` says that a valuation has all the fixed values;
* `Fixed.agrees_sweep` is what one sweep keeps, `Fixed.agrees_propagate` what all of them do;
* `Fixed.agrees_propagate_formulas` is the same for the clauses of formulas.
-/
namespace ProductLine

namespace Fixed

/-- A valuation has all the fixed values. -/
def Agrees (v : Nat → Bool) (fixed : Fixed) : Prop :=
  ∀ i value, fixed.value? i = some value → v i = value

theorem agrees_none (v : Nat → Bool) (varCount : Nat) : Agrees v (none varCount) := by
  intro i value h
  rw [value?, none, Array.getElem?_replicate] at h
  split at h <;> simp at h

/-- A literal with a value has that value in every valuation that agrees. -/
theorem Agrees.eval_eq {v : Nat → Bool} {fixed : Fixed} (h : Agrees v fixed) {l : Lit}
    {value : Bool} (hl : fixed.litValue? l = some value) : l.eval v = value := by
  obtain ⟨b, hb, rfl⟩ := Option.map_eq_some_iff.1 hl
  rw [Lit.eval, h l.var b hb]

/-- Making a literal true that is true anyway keeps agreement. -/
theorem Agrees.fix {v : Nat → Bool} {fixed : Fixed} (h : Agrees v fixed) {l : Lit}
    (hl : l.eval v = true) : Agrees v (fixed.fix l) := by
  intro i value hi
  rw [value?, Fixed.fix, Array.getElem?_setIfInBounds] at hi
  split at hi
  · rename_i hvar
    split at hi
    · rw [Option.join_some, Option.some.injEq] at hi
      rw [← hvar, ← hi]
      exact beq_iff_eq.1 hl
    · simp at hi
  · exact h i value hi

/-- A clause with a value for each of its literals, none of them true, is false. -/
theorem Agrees.eval_falsified {v : Nat → Bool} {fixed : Fixed} (h : Agrees v fixed) {c : Clause}
    (hc : fixed.examine c = .falsified) : c.eval v = false := by
  rw [examine] at hc
  split at hc
  · cases hc
  · rename_i htrue
    split at hc
    · rename_i hopen
      rw [Clause.eval, List.any_eq_false]
      intro l hl
      -- No literal is open, so this one has a value, and that is not `true`.
      have hsome : fixed.litValue? l ≠ Option.none := by
        have hclosed := List.filter_eq_nil_iff.1 hopen l hl
        simpa using hclosed
      obtain ⟨value, hvalue⟩ := Option.ne_none_iff_exists'.1 hsome
      rw [h.eval_eq hvalue]
      rintro rfl
      exact htrue (List.any_eq_true.2 ⟨l, hl, by simp [hvalue]⟩)
    · cases hc
    · cases hc

/-- In a true clause with a single open literal and no true one, the open literal is true. -/
theorem Agrees.eval_unit {v : Nat → Bool} {fixed : Fixed} (h : Agrees v fixed) {c : Clause}
    {l : Lit} (hc : fixed.examine c = .unit l) (htrue : c.eval v = true) : l.eval v = true := by
  rw [examine] at hc
  split at hc
  · cases hc
  · rename_i hnone
    split at hc
    · cases hc
    · rename_i k hopen
      cases hc
      -- Some literal of the clause is true.  It can only be the open one.
      obtain ⟨m, hm, hmv⟩ := List.any_eq_true.1 htrue
      have hmopen : m ∈ c.filter (fun l => fixed.litValue? l == Option.none) := by
        refine List.mem_filter.2 ⟨hm, ?_⟩
        cases hvalue : fixed.litValue? m with
        | none => rfl
        | some value =>
            -- A value would have to be true, but no literal of the clause is known to be.
            refine absurd (List.any_eq_true.2 ⟨m, hm, ?_⟩) hnone
            rw [hvalue, ← h.eval_eq hvalue, hmv]
            rfl
      rw [hopen, List.mem_singleton] at hmopen
      exact hmopen ▸ hmv
    · cases hc

/-- A sweep over clauses that are true keeps agreement and meets no false clause. -/
theorem agrees_sweep {v : Nat → Bool} {cs : List Clause} {fixed : Fixed}
    (hcs : ∀ c ∈ cs, c.eval v = true) (h : Agrees v fixed) :
    Agrees v (fixed.sweep cs).fixed ∧ (fixed.sweep cs).conflict = false := by
  induction cs generalizing fixed with
  | nil => exact ⟨h, rfl⟩
  | cons c cs ih =>
      have hc := hcs c (List.mem_cons_self ..)
      have hrest : ∀ d ∈ cs, d.eval v = true := fun d hd => hcs d (List.mem_cons_of_mem c hd)
      rw [sweep]
      -- Only a unit clause changes what is fixed, and a false one cannot be met.
      split
      · rename_i hstatus
        rw [h.eval_falsified hstatus] at hc
        cases hc
      · rename_i l hstatus
        exact ih hrest (h.fix (h.eval_unit hstatus hc))
      · exact ih hrest h
      · exact ih hrest h

theorem agrees_propagateFor {v : Nat → Bool} {cs : List Clause} {rounds : Nat} {fixed : Fixed}
    (hcs : ∀ c ∈ cs, c.eval v = true) (h : Agrees v fixed) :
    Agrees v (propagateFor cs rounds fixed).fixed ∧
      (propagateFor cs rounds fixed).conflict = false := by
  induction rounds generalizing fixed with
  | zero => exact ⟨h, rfl⟩
  | succ rounds ih =>
      simp only [propagateFor]
      split
      · exact agrees_sweep hcs h
      · exact ih (agrees_sweep hcs h).1

/-- **Propagation is sound.**  Every model of the clauses has the values that it fixes, and where it
meets a false clause there is no model. -/
theorem agrees_propagate {v : Nat → Bool} {cs : List Clause} (varCount : Nat)
    (hcs : ∀ c ∈ cs, c.eval v = true) :
    Agrees v (propagate varCount cs).fixed ∧ (propagate varCount cs).conflict = false :=
  agrees_propagateFor hcs (agrees_none v varCount)

end Fixed

/-! ## Clauses of formulas -/

/-- To speak of the clauses of formulas in a row is to speak of those of every formula. -/
theorem ClauseSet.forall_mem_clauses {p : Clause → Prop} {sets : List ClauseSet} :
    (∀ c ∈ sets.flatMap clauses, p c) ↔ ∀ set ∈ sets, ∀ c ∈ set.clauses, p c := by
  constructor
  · intro h set hset c hc
    exact h c (List.mem_flatMap.2 ⟨set, hset, hc⟩)
  · intro h c hc
    obtain ⟨set, hset, hmem⟩ := List.mem_flatMap.1 hc
    exact h set hset c hmem

/-- Propagation is sound for the clauses of formulas. -/
theorem Fixed.agrees_propagate_formulas {v : Nat → Bool} {sets : List ClauseSet} (varCount : Nat)
    (hsets : ∀ set ∈ sets, set.eval v = true) :
    Agrees v (propagate varCount (sets.flatMap ClauseSet.clauses)).fixed ∧
      (propagate varCount (sets.flatMap ClauseSet.clauses)).conflict = false := by
  refine agrees_propagate varCount (ClauseSet.forall_mem_clauses.2 ?_)
  intro set hset
  exact List.all_eq_true.1 (hsets set hset)

end ProductLine
