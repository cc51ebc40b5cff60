import Mathlib.Tactic.Common
import ProductLine.Proofs.Formula.ClauseForm
/-!
# The clauses of a clause form are normal

No clause of a clause form holds a variable twice, and its literals are in order.  Each part of a
formula starts from single literals or the empty clause, and joins are normal again.

* `Clause.keptByJoins_normal` is about one join;
* `Formula.normal_of_clauseForm` is about the whole translation, and `Formula.clauseForm_inOrder`
  says what this comes to.
-/
namespace ProductLine

theorem Clause.keptByJoins_normal : Clause.KeptByJoins Clause.Normal where
  nil := .nil
  merge _ _ h := (merge?_spec h).1

namespace Formula

variable {vs : Variables} {limit : Nat} {f : Formula} {set : ClauseSet}

/-- The clauses of a clause form have their literals in strict order. -/
theorem normal_of_clauseForm (h : f.clauseForm vs limit = .ok set) : ∀ c ∈ set.clauses, c.Normal :=
  forall_mem_of_clauseForm Clause.keptByJoins_normal h (fun _ _ => List.pairwise_singleton ..)

/-- **Clauses are in order, and joins of clauses are exact.**  The literals of every clause in a
clause form are strictly ordered by variables, each variable before its negation.  So none is
repeated, and no two are of the same variable.

Two clauses, these or any others, have no join exactly if a literal of one of them is the opposite
of one of theirs.  Otherwise their join has the literals of both in the same strict order. -/
theorem clauseForm_inOrder (h : f.clauseForm vs limit = .ok set) :
    (∀ c ∈ set.clauses, c.Pairwise Lit.Before ∧ c.Nodup ∧
      ∀ k ∈ c, ∀ l ∈ c, k.var = l.var → k = l) ∧
    ∀ c d : Clause,
      (c.merge? d = none ↔ ∃ l, (l ∈ c ∨ l ∈ d) ∧ (l.negate ∈ c ∨ l.negate ∈ d)) ∧
      ∀ e, c.merge? d = some e → e.Pairwise Lit.Before ∧ ∀ l, l ∈ e ↔ l ∈ c ∨ l ∈ d := by
  refine ⟨?_, fun c d => ⟨Clause.merge?_eq_none_iff, ?_⟩⟩
  · intro c hc
    have hnormal := normal_of_clauseForm h c hc
    refine ⟨hnormal.pairwise, ?_, fun k hk l hl => hnormal.eq_of_var_eq hk hl⟩
    exact hnormal.imp (fun hlt heq => Nat.ne_of_lt hlt (congrArg Lit.var heq))
  · intro e hjoin
    obtain ⟨hnormal, hmem⟩ := Clause.merge?_spec hjoin
    exact ⟨hnormal.pairwise, hmem⟩

/-- A conjunction of two disjunctions, the first of which repeats a literal and lists variables
backwards, and the second of which is a tautology.  One clause is left. -/
theorem clauseForm_inOrder_backwards :
    ∃ c : Clause, clauseForm ⟨["A", "B", "C"]⟩ 4
        (.and [.or [.not (.var "C"), .var "A", .not (.var "C")],
          .or [.var "B", .var "A", .not (.var "B")]]) = .ok ⟨3, [c]⟩ ∧
      c = [⟨0, true⟩, ⟨2, false⟩] ∧ c.Pairwise Lit.Before ∧ c.Nodup ∧
      c.merge? [⟨2, true⟩] = none ∧
      ∃ e, c.merge? [⟨1, true⟩, ⟨2, false⟩] = some e ∧ e.Pairwise Lit.Before ∧ e.length = 3 := by
  have h : clauseForm ⟨["A", "B", "C"]⟩ 4
      (.and [.or [.not (.var "C"), .var "A", .not (.var "C")],
        .or [.var "B", .var "A", .not (.var "B")]]) =
          .ok ⟨3, [[⟨0, true⟩, ⟨2, false⟩]]⟩ := by
    rfl
  obtain ⟨hclauses, hjoins⟩ := clauseForm_inOrder h
  obtain ⟨hpairwise, hnodup, -⟩ := hclauses _ (List.mem_singleton_self _)
  have hjoin : Clause.merge? [⟨0, true⟩, ⟨2, false⟩] [⟨1, true⟩, ⟨2, false⟩] =
      some [⟨0, true⟩, ⟨1, true⟩, ⟨2, false⟩] := by
    rfl
  refine ⟨_, h, rfl, hpairwise, hnodup, ?_, _, hjoin, ((hjoins _ _).2 _ hjoin).1, rfl⟩
  exact (hjoins _ _).1.2 ⟨⟨2, true⟩, by decide, by decide⟩

end Formula

end ProductLine
