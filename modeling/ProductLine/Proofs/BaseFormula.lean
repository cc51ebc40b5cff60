import Mathlib.Data.List.Forall2
import Mathlib.Tactic.Common
import ProductLine.BaseFormula
import ProductLine.Proofs.Formula.ClauseForm
import ProductLine.Proofs.Propagation
import ProductLine.Proofs.Satisfiability.Trust
/-!
# What constraints mean to a solver

Constraints are about names, and a solver knows only the clause sets that they were translated to.
Both hold under the same values.

* `Constraint.Hold` is the meaning of constraints, and `Constraint.Translates` relates a constraint
  to its clause set;
* `BaseFormula.Built` says that a base formula is what its own constraints are built into;
* `BaseFormula.eval_of_refutes` is why a refuted set cannot be true together with the base.
-/
namespace ProductLine

/-! ## Values of names -/

namespace Variables

/-- The value that a name has when the variables have the values `v`.  A name without a variable is
false. -/
def valuation (vs : Variables) (v : Nat → Bool) (name : String) : Bool :=
  (vs.find? name).elim false v

/-- The value that a variable has when the names have the values `w`. -/
def reading (vs : Variables) (w : String → Bool) (i : Nat) : Bool := w ((vs.name? i).getD "")

/-- The values of variables agree with those of their names. -/
theorem agree_valuation (vs : Variables) (v : Nat → Bool) : vs.Agree v (vs.valuation v) := by
  intro name i h
  rw [valuation, h, Option.elim_some]

/-- The variable of a name has that name. -/
theorem name?_of_find? {vs : Variables} {name : String} {i : Nat} (h : vs.find? name = some i) :
    vs.name? i = some name := by
  rw [find?, List.idxOf?_eq_some_iff] at h
  obtain ⟨hi, hname, -⟩ := h
  rw [name?, List.getElem?_eq_getElem hi, hname]

/-- The values of names agree with those of their variables. -/
theorem agree_reading (vs : Variables) (w : String → Bool) : vs.Agree (vs.reading w) w := by
  intro name i h
  rw [reading, name?_of_find? h, Option.getD_some]

/-- If no name is repeated, the name of a variable has that variable. -/
theorem find?_of_name? {vs : Variables} (hvs : vs.names.Nodup) {name : String} {i : Nat}
    (h : vs.name? i = some name) : vs.find? name = some i := by
  obtain ⟨hi, hname⟩ := List.getElem?_eq_some_iff.1 h
  rw [find?, List.idxOf?_eq_some_iff]
  refine ⟨hi, hname, ?_⟩
  -- An earlier variable of the same name would repeat it.
  intro j hj heq
  exact List.pairwise_iff_getElem.1 hvs j i (by omega) hi hj (heq.trans hname.symm)

/-- Without repeated names each name belongs to one variable. -/
theorem eq_of_name? {vs : Variables} (hvs : vs.names.Nodup) {name : String} {i j : Nat}
    (hi : vs.name? i = some name) (hj : vs.name? j = some name) : i = j :=
  Option.some.inj ((find?_of_name? hvs hi).symm.trans (find?_of_name? hvs hj))

end Variables

/-! ## Constraints and their clause sets -/

namespace Constraint

/-- All constraints are true when the names have the values `w`. -/
def Hold (w : String → Bool) (cs : List Constraint) : Prop := ∀ c ∈ cs, c.formula.eval w = true

/-- The constraints can be true together. -/
def Satisfiable (cs : List Constraint) : Prop := ∃ w : String → Bool, Hold w cs

/-- The clause form of a constraint. -/
def Translates (vs : Variables) (limit : Nat) (c : Constraint) (set : ClauseSet) : Prop :=
  c.formula.clauseForm vs limit = .ok set

variable {vs : Variables} {limit : Nat} {cs : List Constraint} {sets : List ClauseSet}

/-- Constraints hold exactly if their clause sets do. -/
theorem eval_iff_hold (h : List.Forall₂ (Translates vs limit) cs sets) {v : Nat → Bool}
    {w : String → Bool} (hvw : vs.Agree v w) : (∀ set ∈ sets, set.eval v = true) ↔ Hold w cs := by
  unfold Hold
  induction h with
  | nil => simp
  | cons hset _ ih =>
    rw [List.forall_mem_cons, List.forall_mem_cons, ih, Formula.eval_of_clauseForm hset hvw]

/-- Constraints can be true together exactly if their clause sets can. -/
theorem satisfiable_iff (h : List.Forall₂ (Translates vs limit) cs sets) :
    ClauseSet.Satisfiable sets ↔ Satisfiable cs := by
  constructor
  · rintro ⟨v, hv⟩
    exact ⟨vs.valuation v, (eval_iff_hold h (vs.agree_valuation v)).1 hv⟩
  · rintro ⟨w, hw⟩
    exact ⟨vs.reading w, (eval_iff_hold h (vs.agree_reading w)).2 hw⟩

/-- Clause forms have no variables beyond the names. -/
theorem inRange_of_translates (h : List.Forall₂ (Translates vs limit) cs sets) :
    ∀ set ∈ sets, set.InRange vs.size := by
  induction h with
  | nil => simp
  | cons hset _ ih => exact List.forall_mem_cons.2 ⟨Formula.inRange_of_clauseForm hset, ih⟩

end Constraint

/-! ## Base formulas -/

namespace BaseFormula

open Constraint (Translates)

/-- The names are told apart, and everything else comes from bringing the constraints into clause
form. -/
structure Built (base : BaseFormula) : Prop where
  names : base.vars.names.Nodup
  built : build base.vars base.clauseLimit base.constraints = .ok base

/-- Clause forms are made for all constraints, one by one. -/
theorem clauseForms_eq_ok {vs : Variables} {limit : Nat} {cs : List Constraint}
    {sets : List ClauseSet} (h : clauseForms vs limit cs = .ok sets) :
    List.Forall₂ (Translates vs limit) cs sets := by
  induction cs generalizing sets with
  | nil =>
    cases h
    exact .nil
  | cons c cs ih =>
    rw [clauseForms] at h
    obtain ⟨set, hset, h⟩ := bind_eq_ok.1 h
    obtain ⟨rest, hrest, h⟩ := bind_eq_ok.1 h
    cases h
    exact .cons hset (ih hrest)

/-- What building makes of constraints. -/
theorem build_eq_ok {vs : Variables} {limit : Nat} {cs : List Constraint} {base : BaseFormula} :
    build vs limit cs = .ok base ↔ ∃ sets, clauseForms vs limit cs = .ok sets ∧
      base = ⟨vs, cs, sets, limit, Fixed.propagate vs.size (sets.flatMap ClauseSet.clauses)⟩ := by
  simp only [build, bind_eq_ok, pure, Except.pure, Except.ok.injEq, eq_comm (a := base)]

/-- A base that is built from names without repetitions has what a base should have. -/
theorem built_of_build {vs : Variables} (hvs : vs.names.Nodup) {limit : Nat}
    {cs : List Constraint} {base : BaseFormula} (h : build vs limit cs = .ok base) :
    base.Built := by
  obtain ⟨sets, -, rfl⟩ := build_eq_ok.1 h
  exact ⟨hvs, h⟩

namespace Built

variable {base : BaseFormula}

/-- The clause sets of a base are the clause forms of its constraints. -/
theorem translates (h : base.Built) :
    List.Forall₂ (Translates base.vars base.clauseLimit) base.constraints base.formulas := by
  obtain ⟨sets, hsets, hbase⟩ := build_eq_ok.1 h.built
  have hformulas : base.formulas = sets := by rw [hbase]
  rw [hformulas]
  exact clauseForms_eq_ok hsets

/-- A model of the base has all values that propagation fixes, and propagation found no
contradiction. -/
theorem agrees (h : base.Built) {v : Nat → Bool} (hv : ∀ set ∈ base.formulas, set.eval v = true) :
    Fixed.Agrees v base.propagated.fixed ∧ base.triviallyUnsat = false := by
  obtain ⟨sets, -, hbase⟩ := build_eq_ok.1 h.built
  have hformulas : base.formulas = sets := by rw [hbase]
  have hpropagated : base.propagated =
      Fixed.propagate base.vars.size (base.formulas.flatMap ClauseSet.clauses) := by
    rw [hformulas, hbase]
  rw [triviallyUnsat, hpropagated]
  exact Fixed.agrees_propagate_formulas base.vars.size hv

end Built

/-- A set with a clause that is false under the fixed values is false in every model of the
base. -/
theorem eval_of_refutes {base : BaseFormula} (h : base.Built) {v : Nat → Bool}
    (hv : ∀ set ∈ base.formulas, set.eval v = true) {set : ClauseSet}
    (hset : base.refutes set = true) : set.eval v = false := by
  obtain ⟨c, hc, hfalse⟩ := List.any_eq_true.1 hset
  refine List.all_eq_false.2 ⟨c, hc, ?_⟩
  rw [Bool.not_eq_true, Clause.eval, List.any_eq_false]
  intro l hl
  have hvalue := beq_iff_eq.1 (List.all_eq_true.1 hfalse l hl)
  rw [(h.agrees hv).1.eval_eq hvalue]
  exact Bool.false_ne_true

end BaseFormula

end ProductLine
