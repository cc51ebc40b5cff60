import Mathlib
import ProductLine.Proofs.Solver.Query
/-!
# Answers do not depend on history

Constraints come and go before a query is asked.  Whatever was pushed and taken off again, whatever
failed and whatever was asked in between, the answer is about the constraints that are on the stack
now.

* `Solver.Reaches` are the histories of a solver;
* `Solver.Reaches.sound` is the invariant: every constraint has its clause form beside it;
* `Solver.answers_of_reaches` says what the queries answer after any history.
-/
namespace ProductLine

namespace ConstraintStack

variable {vs : Variables} {limit : Nat} {stack stack' : ConstraintStack}

/-- A constraint without a clause form leaves no trace, as there is no stack then; any other lies on
top, contradictory or not. -/
theorem push_eq_ok {c : Constraint} {outcome : PushOutcome}
    (h : stack.push vs limit c = .ok (outcome, stack')) :
    ∃ set, Constraint.Translates vs limit c set ∧ stack' = stack ++ [⟨c, set⟩] := by
  unfold push at h
  split at h
  · cases h
  · rename_i set hset
    cases h
    exact ⟨set, hset, rfl⟩

/-- What is left on a stack is still translated. -/
theorem Translated.sublist (h : stack.Translated vs limit) (hsub : List.Sublist stack' stack) :
    stack'.Translated vs limit :=
  fun e he => h e (hsub.subset he)

/-- A pop only takes something away. -/
theorem sublist_of_pop {c : Constraint} (h : stack.pop = .ok (c, stack')) :
    List.Sublist stack' stack := by
  unfold pop at h
  split at h
  · cases h
    exact List.dropLast_sublist stack
  · cases h

theorem sublist_of_truncate {depth : Nat} (h : stack.truncate depth = .ok stack') :
    List.Sublist stack' stack := by
  unfold truncate at h
  split at h
  · cases h
  · cases h
    exact List.take_sublist depth stack

end ConstraintStack

namespace Solver

variable {ω : Type} {s : Solver ω} {good : ω → Prop} {st st' : SolverState ω}

/-! ## Histories -/

/-- What the states are that operations lead to, whether they succeed or fail.  A scope may hold any
history; at its end the stack is cut back. -/
inductive Reaches (s : Solver ω) (good : ω → Prop) : SolverState ω → SolverState ω → Prop where
  | refl (st : SolverState ω) : Reaches s good st st
  | push {st st' : SolverState ω} (c : Constraint) : Reaches s good st st' →
      Reaches s good st (endState (s.push c st'))
  | pushLit {st st' : SolverState ω} (l : Lit) : Reaches s good st st' →
      Reaches s good st (endState (s.pushLit l st'))
  | pop {st st' : SolverState ω} : Reaches s good st st' → Reaches s good st (endState (pop st'))
  | scope {st st' : SolverState ω} {α : Type} (body : SolverM ω α) : Reaches s good st st' →
      Reaches s good st' (endState (body st')) → Reaches s good st (endState (inScope body st'))
  /-- Queries, and whatever else leaves the stack alone. -/
  | query {st st' st'' : SolverState ω} : Reaches s good st st' → Kept good st' st'' →
      Reaches s good st st''

/-! ## What every history keeps -/

/-- The stack holds clause forms, and the world is a good one. -/
structure Sound (s : Solver ω) (good : ω → Prop) (st : SolverState ω) : Prop where
  stack : st.stack.Translated s.base.vars s.base.clauseLimit
  world : good st.world

namespace Sound

/-- A push keeps a state sound, whether it fails or not. -/
theorem push (h : s.Sound good st) (c : Constraint) : s.Sound good (endState (s.push c st)) := by
  unfold Solver.push
  split
  · exact h
  · rename_i outcome stack hpush
    obtain ⟨set, hset, rfl⟩ := ConstraintStack.push_eq_ok hpush
    exact ⟨h.stack.push hset, h.world⟩

theorem pushLit (h : s.Sound good st) (l : Lit) :
    s.Sound good (endState (s.pushLit l st)) := by
  unfold Solver.pushLit
  split
  · exact h
  · rename_i f _
    have hlabeled : s.Sound good { st with nextLabel := st.nextLabel + 1 } := ⟨h.stack, h.world⟩
    exact hlabeled.push ⟨st.nextLabel, f⟩

theorem pop (h : s.Sound good st) : s.Sound good (endState (Solver.pop st)) := by
  unfold Solver.pop
  split
  · exact h
  · rename_i c stack hpop
    exact ⟨h.stack.sublist (ConstraintStack.sublist_of_pop hpop), h.world⟩

theorem truncate (h : s.Sound good st) (depth : Nat) :
    s.Sound good (endState (Solver.truncate depth st)) := by
  unfold Solver.truncate
  split
  · exact h
  · rename_i stack htruncate
    exact ⟨h.stack.sublist (ConstraintStack.sublist_of_truncate htruncate), h.world⟩

end Sound

/-- A scope ends with a cut, whether its computation succeeds or fails, and whether the cut does. -/
theorem endState_inScope {α : Type} (body : SolverM ω α) (st : SolverState ω) :
    endState (inScope body st) = endState (truncate st.stack.length (endState (body st))) := by
  unfold inScope
  cases body st with
  | ok a st' =>
    simp only [endState]
    cases truncate st.stack.length st' <;> rfl
  | error e st' =>
    simp only [endState]
    cases truncate st.stack.length st' <;> rfl

/-- What is on the stack has its clause form beside it, whatever happened. -/
theorem Reaches.sound (h : s.Reaches good st st') (hst : s.Sound good st) : s.Sound good st' := by
  induction h with
  | refl => exact hst
  | push c _ ih => exact (ih hst).push c
  | pushLit l _ ih => exact (ih hst).pushLit l
  | pop _ ih => exact (ih hst).pop
  | scope body _ _ ih ih' =>
    -- The history inside starts where the one before it ended.
    rw [endState_inScope]
    exact (ih' (ih hst)).truncate _
  | query _ hkept ih => exact ⟨hkept.stack ▸ (ih hst).stack, hkept.world⟩

/-! ## Answers -/

open Constraint (Satisfiable Hold)

/-- The variables have a model exactly if the constraints are satisfiable. -/
theorem Ready.exists_models_iff {stack : ConstraintStack} (h : s.Ready stack) :
    (∃ v, s.Models stack v) ↔ Satisfiable (s.base.constraints ++ stack.sources) :=
  h.satisfiable_iff.symm.trans (Constraint.satisfiable_iff h.translates)

/-- A model is determined by the values of the variables of the base. -/
theorem Ready.models_congr {stack : ConstraintStack} (h : s.Ready stack) {v u : Nat → Bool}
    (hsame : ∀ i, i < s.base.varCount → v i = u i) : s.Models stack v ↔ s.Models stack u := by
  rw [h.models_iff, h.models_iff]
  exact forall₂_congr (fun set hset => by rw [(h.inRange set hset).eval_congr hsame])

open Classical in
/-- **Answers do not depend on history.**  After any history, what is on the stack is there together
with its clause form, and with a correct backend a query finds out whether the constraints of the
base and those on the stack can be true together.  If they can, a model that is asked for has one
literal for each variable of the base, in order, and the constraints are all true whenever its
literals are. -/
theorem answers_of_reaches (hb : s.backend.Correct good) (hbase : s.base.Built) {w : ω}
    (hw : good w) (h : s.Reaches good (s.start w) st) :
    (∀ e ∈ st.stack, e.source.formula.clauseForm s.base.vars s.base.clauseLimit =
      .ok e.formula) ∧
    (∃ st', s.isSatisfiable st =
        .ok (if Satisfiable (s.origins st) then .sat else .unsat) st' ∧ st'.stack = st.stack) ∧
    ∃ solution st', s.solve st = .ok solution st' ∧ st'.stack = st.stack ∧
      if Satisfiable (s.origins st) then
        ∃ a, solution = .sat a ∧ a.lits.map Lit.var = List.range s.base.varCount ∧
          ∀ v, (∀ l ∈ a.lits, l.eval v = true) → Hold (s.base.vars.valuation v) (s.origins st)
      else solution = .unsat := by
  have hsound := h.sound ⟨ConstraintStack.translated_nil, hw⟩
  have hs : s.Ready st.stack := ⟨hbase, hsound.stack⟩
  have hmodels : (∃ v, s.Models st.stack v) ↔ Satisfiable (s.origins st) := hs.exists_models_iff
  refine ⟨hsound.stack, ?_, ?_⟩
  · obtain ⟨answer, st', hrun, hanswer, hkept⟩ :=
      (isSatisfiable_yields hb hs hsound.world).exists_ok
    refine ⟨st', ?_, hkept.stack⟩
    rw [hrun]
    cases answer with
    | sat => rw [if_pos (hmodels.1 hanswer)]
    | unsat => rw [if_neg (mt hmodels.2 hanswer)]
    | unknown => exact hanswer.elim
  · obtain ⟨solution, st', hrun, hsolution, hkept⟩ := (solve_yields hb hs hsound.world).exists_ok
    refine ⟨solution, st', hrun, hkept.stack, ?_⟩
    cases solution with
    | sat a =>
      obtain ⟨hmodel, hsize⟩ := hsolution
      rw [if_pos (hmodels.1 ⟨_, hmodel⟩)]
      refine ⟨a, rfl, hsize ▸ a.map_var_lits, ?_⟩
      intro v hv
      refine (hs.models_congr ?_).2 hmodel
      exact fun i hi => Assignment.eval_of_lits hv (hsize ▸ hi)
    | unsat =>
      rw [if_neg]
      exact fun hsat => (hmodels.2 hsat).elim hsolution
    | unknown => exact hsolution.elim

/-- Two variables of which the first implies the second. -/
def modest : Solver Unit where
  backend := .exhaustive
  base := {
    vars := ⟨["A", "B"]⟩
    constraints := [⟨0, .implies (.var "A") (.var "B")⟩]
    formulas := [⟨2, [[⟨0, false⟩, ⟨1, true⟩]]⟩]
    clauseLimit := 1
    propagated := ⟨#[none, none], false⟩ }

/-- What is left after a scope: the first variable is true. -/
def afterScope : SolverState Unit := ⟨[⟨⟨1, .var "A"⟩, ⟨2, [[⟨0, true⟩]]⟩⟩], 2, ()⟩

/-- What is on the stack inside the scope: the second variable is false as well. -/
def insideScope : SolverState Unit :=
  ⟨[⟨⟨1, .var "A"⟩, ⟨2, [[⟨0, true⟩]]⟩⟩, ⟨⟨5, .not (.var "B")⟩, ⟨2, [[⟨1, false⟩]]⟩⟩], 2, ()⟩

/-- A push of an unknown name fails, and the first variable is pushed.  A query in a scope that
denies the second variable is answered with no, so all three constraints cannot be true together.
After the scope the answer is yes, with the only model. -/
theorem answers_of_reaches_modest :
    (modest.isSatisfiable insideScope = .ok .unsat insideScope ∧
      ¬ Satisfiable [⟨0, .implies (.var "A") (.var "B")⟩, ⟨1, .var "A"⟩, ⟨5, .not (.var "B")⟩]) ∧
    ∃ a, modest.solve afterScope = .ok (.sat a) afterScope ∧
      a.lits = [⟨0, true⟩, ⟨1, true⟩] ∧ ∀ v : Nat → Bool, v 0 = true → v 1 = true →
        Hold (modest.base.vars.valuation v)
          [⟨0, .implies (.var "A") (.var "B")⟩, ⟨1, .var "A"⟩] := by
  have hpushed : modest.Reaches (fun _ => True) (modest.start ()) afterScope :=
    .pushLit ⟨0, true⟩ (.push ⟨9, .var "X"⟩ (.refl _))
  -- The same history goes on inside the scope and after it.
  have hinside : modest.Reaches (fun _ => True) (modest.start ()) insideScope :=
    .push ⟨5, .not (.var "B")⟩ hpushed
  have hafter : modest.Reaches (fun _ => True) (modest.start ()) afterScope :=
    .scope (do let _ ← require (modest.push ⟨5, .not (.var "B")⟩); modest.isSatisfiable) hpushed
      (.query (.push ⟨5, .not (.var "B")⟩ (.refl _)) ⟨rfl, trivial⟩)
  have hunsat : modest.isSatisfiable insideScope = .ok .unsat insideScope := by cbv
  have hsat : modest.solve afterScope = .ok (.sat ⟨#[true, true]⟩) afterScope := by cbv
  obtain ⟨-, ⟨st, hrun, -⟩, -⟩ := answers_of_reaches (s := modest) Backend.exhaustive_correct
    ⟨by decide, rfl⟩ trivial hinside
  obtain ⟨-, -, solution, st', hrun', -, hmodel⟩ := answers_of_reaches (s := modest)
    Backend.exhaustive_correct ⟨by decide, rfl⟩ trivial hafter
  constructor
  · refine ⟨hunsat, fun hsatisfiable => ?_⟩
    have hstated : Satisfiable (modest.origins insideScope) := hsatisfiable
    rw [hunsat, if_pos hstated] at hrun
    cases hrun
  · rw [hsat] at hrun'
    cases hrun'
    refine ⟨_, hsat, rfl, ?_⟩
    intro v hfirst hsecond
    split at hmodel
    · obtain ⟨a, ha, -, hhold⟩ := hmodel
      cases ha
      exact hhold v (by simp [Assignment.lits, Lit.eval, hfirst, hsecond])
    · cases hmodel

end Solver

end ProductLine
