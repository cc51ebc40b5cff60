import ProductLine.Solver
import ProductLine.Proofs.BaseFormula
import ProductLine.Proofs.Ends
/-!
# The stack of a solver

The constraints on the stack have their clause forms beside them, so the models of the base and the
stack are the same for constraints and for clause sets.

* `ConstraintStack.Translated` is the invariant of a stack, which pushing keeps;
* `Solver.Models` is what a model of the base and a stack is;
* `Solver.push_contradictory_iff` says what pushing does, and `Solver.push_of_clauseForm` and
  `Solver.pushLit_of_lt` that only a constraint that excludes all models of the base is called
  contradictory;
* `Solver.inScope_ends` says that the stack is restored at the end of a scope.
-/
namespace ProductLine

open Constraint (Translates)

/-! ## Contradictory sets -/

/-- Unit clauses that oppose each other, or an empty clause, leave no model. -/
theorem ClauseSet.eval_of_opposes {v : Nat → Bool} {units : List Lit} {cs : List Clause}
    (h : opposes units cs = true) (hunits : ∀ l ∈ units, l.eval v = true) :
    cs.all (Clause.eval v) = false := by
  induction cs generalizing units with
  | nil => cases h
  | cons c cs ih =>
    rw [List.all_cons]
    rcases c with _ | ⟨l, _ | ⟨k, c⟩⟩
    · simp
    · rw [opposes, Bool.or_eq_true, decide_eq_true_eq] at h
      cases hl : l.eval v with
      | false => simp [hl]
      | true =>
        -- A true unit clause does not oppose the earlier ones, so it is one of them from here on.
        rcases h with hopposite | hrest
        · have hnegated := hunits _ hopposite
          simp [hl] at hnegated
        · rw [ih hrest (List.forall_mem_cons.2 ⟨hl, hunits⟩), Bool.and_false]
    · rw [opposes] at h
      rw [ih h hunits, Bool.and_false]

/-- A trivially contradictory set is never true. -/
theorem ClauseSet.eval_of_triviallyUnsat {set : ClauseSet} (h : set.triviallyUnsat = true)
    (v : Nat → Bool) : set.eval v = false :=
  eval_of_opposes h (by simp)

/-! ## Stacks -/

namespace ConstraintStack

/-- Every entry has the clause form of its constraint. -/
def Translated (vs : Variables) (limit : Nat) (stack : ConstraintStack) : Prop :=
  ∀ e ∈ stack, Translates vs limit e.source e.formula

variable {vs : Variables} {limit : Nat} {stack : ConstraintStack}

theorem translated_nil : Translated vs limit [] := by
  simp [Translated]

/-- A constraint is pushed together with its clause form. -/
theorem Translated.push (h : stack.Translated vs limit) {c : Constraint} {set : ClauseSet}
    (hc : Translates vs limit c set) : Translated vs limit (stack ++ [⟨c, set⟩]) :=
  List.forall_mem_append.2 ⟨h, by simpa using hc⟩

/-- The clause sets on a stack are those of its constraints, in order. -/
theorem Translated.translates (h : stack.Translated vs limit) :
    List.Forall₂ (Translates vs limit) stack.sources stack.formulas := by
  induction stack with
  | nil => exact .nil
  | cons e stack ih =>
    have h := List.forall_mem_cons.1 h
    exact .cons h.1 (ih h.2)

end ConstraintStack

namespace Solver

variable {ω α : Type} {s : Solver ω} {stack : ConstraintStack}

/-- The variables' values make the base and the stack true. -/
def Models (s : Solver ω) (stack : ConstraintStack) (v : Nat → Bool) : Prop :=
  Constraint.Hold (s.base.vars.valuation v) (s.base.constraints ++ stack.sources)

/-- The constraints of the base and the stack. -/
def origins (s : Solver ω) (st : SolverState ω) : List Constraint :=
  s.base.constraints ++ st.stack.sources

/-- The clause sets of the base and the stack. -/
def told (s : Solver ω) (stack : ConstraintStack) : List ClauseSet :=
  (s.stated stack).map Prod.snd

/-- A session is told the base first, and then the stack. -/
theorem told_eq_append (s : Solver ω) (stack : ConstraintStack) :
    s.told stack = s.told [] ++ stack.formulas := by
  simp [told, stated, ConstraintStack.formulas]

/-- The base was built, and the stack holds clause forms over its variables. -/
structure Ready (s : Solver ω) (stack : ConstraintStack) : Prop where
  base : s.base.Built
  stack : stack.Translated s.base.vars s.base.clauseLimit

namespace Ready

/-- Pushing a constraint with its clause form keeps a solver ready. -/
theorem push (h : s.Ready stack) {c : Constraint} {set : ClauseSet}
    (hc : Translates s.base.vars s.base.clauseLimit c set) : s.Ready (stack ++ [⟨c, set⟩]) :=
  ⟨h.base, h.stack.push hc⟩

/-- A base that was built has one clause set for each constraint. -/
theorem told_eq (h : s.Ready stack) : s.told stack = s.base.formulas ++ stack.formulas := by
  rw [told_eq_append, told, stated, List.map_nil, List.append_nil,
    List.map_snd_zip h.base.translates.length_eq.ge]

/-- The base and the stack are stated in this order. -/
theorem map_fst_stated (h : s.Ready stack) :
    (s.stated stack).map Prod.fst = s.base.constraints ++ stack.sources := by
  rw [stated, List.map_append, List.map_fst_zip h.base.translates.length_eq.le, List.map_map]
  rfl

/-- What a session is told are the clause forms of the base and the stack. -/
theorem translates (h : s.Ready stack) :
    List.Forall₂ (Translates s.base.vars s.base.clauseLimit)
      (s.base.constraints ++ stack.sources) (s.told stack) := by
  rw [h.told_eq]
  exact List.rel_append h.base.translates h.stack.translates

/-- Each constraint is told by its clause form. -/
theorem translates_of_mem (h : s.Ready stack) {p : Constraint × ClauseSet}
    (hp : p ∈ s.stated stack) : Translates s.base.vars s.base.clauseLimit p.1 p.2 := by
  have htranslates := h.translates
  rw [← h.map_fst_stated, told, List.forall₂_map_left_iff, List.forall₂_map_right_iff,
    List.forall₂_same] at htranslates
  exact htranslates p hp

/-- The models of the base and the stack are those of the clause sets that are told. -/
theorem models_iff (h : s.Ready stack) (v : Nat → Bool) :
    s.Models stack v ↔ ∀ set ∈ s.told stack, set.eval v = true :=
  (Constraint.eval_iff_hold h.translates (s.base.vars.agree_valuation v)).symm

/-- A model of the base and the stack is one of the base. -/
theorem eval_base (h : s.Ready stack) {v : Nat → Bool} (hv : s.Models stack v) :
    ∀ set ∈ s.base.formulas, set.eval v = true :=
  fun set hset => (h.models_iff v).1 hv set (h.told_eq ▸ List.mem_append_left _ hset)

/-- What a session is told has no variables beyond those of the base. -/
theorem inRange (h : s.Ready stack) : ∀ set ∈ s.told stack, set.InRange s.base.varCount :=
  Constraint.inRange_of_translates h.translates

/-- A model of the base and the stack makes one more constraint true exactly if it makes its clause
form true. -/
theorem models_push_iff (h : s.Ready stack) {c : Constraint} {set : ClauseSet}
    (hc : Translates s.base.vars s.base.clauseLimit c set) (v : Nat → Bool) :
    s.Models (stack ++ [⟨c, set⟩]) v ↔ s.Models stack v ∧ set.eval v = true := by
  rw [(h.push hc).models_iff, h.models_iff, told_eq_append, s.told_eq_append stack]
  simp [ConstraintStack.formulas, or_imp, forall_and, and_assoc]

end Ready

/-! ## Pushing -/

/-- A constraint with a clause form is pushed, whatever it is called.  There are three reasons to
call it contradictory: the base, its fixed values, and the clause form itself. -/
theorem push_contradictory_iff {c : Constraint} {set : ClauseSet}
    (hc : Translates s.base.vars s.base.clauseLimit c set) (st : SolverState ω) :
    ∃ outcome, s.push c st = .ok outcome { st with stack := st.stack ++ [⟨c, set⟩] } ∧
      (outcome = .contradictory ↔ s.base.triviallyUnsat = true ∨ s.base.refutes set = true ∨
        set.triviallyUnsat = true) := by
  unfold push ConstraintStack.push
  rw [show c.formula.clauseForm s.base.vars s.base.clauseLimit = .ok set from hc]
  refine ⟨_, rfl, ?_⟩
  simp only [List.getLast?_append, List.getLast?_singleton, Option.some_or, Option.any_some]
  cases s.base.triviallyUnsat <;> cases s.base.refutes set <;> cases set.triviallyUnsat <;> simp

/-- A constraint is called contradictory only if no model of the base makes it true. -/
theorem push_of_clauseForm {c : Constraint} {set : ClauseSet} (hbase : s.base.Built)
    (hc : Translates s.base.vars s.base.clauseLimit c set) (st : SolverState ω) :
    ∃ outcome, s.push c st = .ok outcome { st with stack := st.stack ++ [⟨c, set⟩] } ∧
      (outcome = .contradictory → ∀ v : Nat → Bool,
        (∀ f ∈ s.base.formulas, f.eval v = true) → set.eval v = false) := by
  obtain ⟨outcome, hpush, hiff⟩ := push_contradictory_iff hc st
  refine ⟨outcome, hpush, fun houtcome v hv => ?_⟩
  rcases hiff.1 houtcome with htrivial | hrefutes | htrivial
  · rw [(hbase.agrees hv).2] at htrivial
    cases htrivial
  · exact BaseFormula.eval_of_refutes hbase hv hrefutes
  · exact ClauseSet.eval_of_triviallyUnsat htrivial v

/-- The state after a formula was stated as a new constraint and pushed. -/
def pushed (st : SolverState ω) (f : Formula) (set : ClauseSet) : SolverState ω :=
  ⟨st.stack ++ [⟨⟨st.nextLabel, f⟩, set⟩], st.nextLabel + 1, st.world⟩

/-- A solver stays ready when a formula is pushed. -/
theorem Ready.pushFormula {st : SolverState ω} (h : s.Ready st.stack) {f : Formula}
    {set : ClauseSet} (hf : f.clauseForm s.base.vars s.base.clauseLimit = .ok set) :
    s.Ready (pushed st f set).stack :=
  h.push (c := ⟨st.nextLabel, f⟩) hf

/-- A pushed formula leaves the models in which it is true. -/
theorem Ready.models_pushed_iff {st : SolverState ω} (h : s.Ready st.stack) {f : Formula}
    {set : ClauseSet} (hf : f.clauseForm s.base.vars s.base.clauseLimit = .ok set)
    (v : Nat → Bool) : s.Models (pushed st f set).stack v ↔
      s.Models st.stack v ∧ set.eval v = true :=
  h.models_push_iff (c := ⟨st.nextLabel, f⟩) hf v

/-- What lies on the stack already stays below the pushed formula. -/
theorem prefix_pushed (st : SolverState ω) (f : Formula) (set : ClauseSet) :
    st.stack <+: (pushed st f set).stack :=
  List.prefix_append ..

/-- A formula that has a clause form is pushed, and only one that excludes every model of the base
is called contradictory. -/
theorem pushFormula_of_clauseForm {f : Formula} {set : ClauseSet} (hbase : s.base.Built)
    (hf : f.clauseForm s.base.vars s.base.clauseLimit = .ok set) (st : SolverState ω) :
    ∃ outcome, s.pushFormula f st = .ok outcome (pushed st f set) ∧
      (outcome = .contradictory → ∀ v : Nat → Bool,
        (∀ f ∈ s.base.formulas, f.eval v = true) → set.eval v = false) :=
  push_of_clauseForm hbase (c := ⟨st.nextLabel, f⟩) hf { st with nextLabel := st.nextLabel + 1 }

/-- A literal is a formula of one clause, whatever the limit is. -/
theorem clauseForm_literal {vs : Variables} (limit : Nat) {name : String} {l : Lit}
    (h : vs.find? name = some l.var) :
    (Formula.literal name l.positive).clauseForm vs limit = .ok ⟨vs.size, [[l]]⟩ := by
  rw [Formula.clauseForm_eq_ok]
  exact ⟨_, Formula.normalize_literal h l.positive, [[l]], by rw [Nnf.clauses], rfl⟩

/-- A literal of a known variable is a formula over the names of the base. -/
theorem exists_literalFormula {l : Lit} (hbase : s.base.Built) (hl : l.var < s.base.varCount) :
    ∃ f, s.base.vars.literalFormula l = .ok f ∧
      f.clauseForm s.base.vars s.base.clauseLimit = .ok ⟨s.base.vars.size, [[l]]⟩ := by
  have hname : s.base.vars.name? l.var = some s.base.vars.names[l.var] :=
    List.getElem?_eq_getElem hl
  refine ⟨.literal s.base.vars.names[l.var] l.positive, ?_, ?_⟩
  · rw [Variables.literalFormula, hname]
  · exact clauseForm_literal s.base.clauseLimit (Variables.find?_of_name? hbase.names hname)

/-- A literal of a known variable can always be pushed. -/
theorem pushLit_of_lt {l : Lit} (hbase : s.base.Built) (hl : l.var < s.base.varCount)
    (st : SolverState ω) :
    ∃ f outcome, f.clauseForm s.base.vars s.base.clauseLimit = .ok ⟨s.base.vars.size, [[l]]⟩ ∧
      s.pushLit l st = .ok outcome (pushed st f ⟨s.base.vars.size, [[l]]⟩) ∧
      (outcome = .contradictory → ∀ v : Nat → Bool,
        (∀ f ∈ s.base.formulas, f.eval v = true) → l.eval v = false) := by
  obtain ⟨f, hformula, hform⟩ := exists_literalFormula hbase hl
  obtain ⟨outcome, hpush, hcontra⟩ := pushFormula_of_clauseForm hbase hform st
  refine ⟨f, outcome, hform, ?_, ?_⟩
  · rw [← hpush, pushLit, hformula]
  · intro houtcome v hv
    have hfalse := hcontra houtcome v hv
    simpa [ClauseSet.eval] using hfalse

/-! ## Scopes -/

/-- An operation of the stack that succeeds, with its result as a value. -/
theorem attempt_of_ok {operation : EStateM StackError (SolverState ω) α} {st st' : SolverState ω}
    {a : α} (h : operation st = .ok a st') : attempt operation st = .ok (.ok a) st' := by
  rw [attempt, h]

/-- A formula without a clause form is not pushed, and only a label is used up. -/
theorem attempt_pushFormula_of_error {f : Formula} {cause : ClauseFormError}
    (hf : f.clauseForm s.base.vars s.base.clauseLimit = .error cause) (st : SolverState ω) :
    attempt (s.pushFormula f) st =
      .ok (.error (.clauseForm cause)) { st with nextLabel := st.nextLabel + 1 } := by
  simp only [attempt, pushFormula, push, ConstraintStack.push, hf]

/-- Cutting a stack that was added to back to its depth gives the stack itself. -/
theorem truncate_of_grown {st st' : SolverState ω} (h : st.stack <+: st'.stack) :
    truncate st.stack.length st' = .ok ⟨⟩ { st' with stack := st.stack } := by
  rw [truncate, ConstraintStack.truncate, if_neg (Nat.not_lt.2 h.length_le),
    List.prefix_iff_eq_take.1 h]
  simp [h.length_le]

/-- A computation that leaves the stack in place below what it adds has the stack restored at the
end of its scope. -/
theorem inScope_ends {body : SolverM ω α} {st : SolverState ω}
    {post : α → SolverState ω → Prop} {fail : AnalysisError → SolverState ω → Prop}
    (h : Ends (fun a st' => st.stack <+: st'.stack ∧ post a { st' with stack := st.stack })
      (fun e st' => st.stack <+: st'.stack ∧ fail e { st' with stack := st.stack }) (body st)) :
    Ends post fail (inScope body st) := by
  -- Both ends of the computation are followed by the same cut.
  cases hbody : body st with
  | ok a st' =>
    rw [hbody] at h
    simp only [inScope, hbody, truncate_of_grown h.1]
    exact h.2
  | error e st' =>
    rw [hbody] at h
    simp only [inScope, hbody, truncate_of_grown h.1]
    exact h.2

end Solver

end ProductLine
