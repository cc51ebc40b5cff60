import Mathlib.Tactic.Common
import ProductLine.Assignment.Stored
import ProductLine.Proofs.Assignment
/-!
# Assignments as rows of literals say the same

A literal stays in the place of its variable however often the place is written to, so looking the
literal up is the same as comparing its sign with the value of its variable.

* `StoredAssignment.lits_assignment` says that the row lists the literals that are true, and
  `StoredAssignment.contains_iff` that a literal is found in it exactly if its variable has its
  sign;
* `StoredAssignment.assignment_put` and `StoredAssignment.assignment_ofModel` say that literals are
  read into a row as they are without one;
* `StoredAssignment.ofNumbers?_numbers` reads an assignment back from its signed numbers;
* `StoredAssignment.ofModel_lastDecides` puts them together for every model.
-/
namespace ProductLine

/-- Literals of one variable are told apart by their signs. -/
theorem Lit.eq_of_same_sign {k l : Lit} (hvar : k.var = l.var)
    (hsign : k.positive = l.positive) : k = l :=
  congr (congrArg Lit.mk hvar) hsign

/-- A literal is read back from its signed number. -/
theorem Lit.ofNumber?_number (l : Lit) : ofNumber? l.number = some l := by
  obtain ⟨var, positive⟩ := l
  cases positive with
  | false =>
    have hnumber : number ⟨var, false⟩ = -(var + 1 : Int) := rfl
    rw [hnumber, ofNumber?, if_neg (by omega), decide_eq_false (by omega)]
    congr 2
  | true =>
    have hnumber : number ⟨var, true⟩ = (var + 1 : Int) := rfl
    rw [hnumber, ofNumber?, if_neg (by omega), decide_eq_true (by omega)]
    congr 2

namespace StoredAssignment

variable {a b : StoredAssignment} {i : Nat} {l : Lit}

/-! ## Literals in their places -/

/-- The literal at a place is about the variable of that place. -/
theorem var_of_getElem? (h : a.lits[i]? = some l) : l.var = i := by
  obtain ⟨hi, rfl⟩ := Array.getElem?_eq_some_iff.1 h
  exact a.inPlace i hi

/-- A literal is found exactly if its variable has its sign as value. -/
theorem contains_iff (a : StoredAssignment) (l : Lit) :
    a.contains l = true ↔ a.value? l.var = some l.positive := by
  rw [contains, beq_iff_eq, value?, Option.map_eq_some_iff]
  constructor
  · intro h
    exact ⟨l, h, rfl⟩
  · rintro ⟨k, hk, hsign⟩
    have heq : k = l := Lit.eq_of_same_sign (var_of_getElem? hk) hsign
    rwa [heq] at hk

/-! ## Rows and values -/

@[simp] theorem size_assignment (a : StoredAssignment) : a.assignment.size = a.size :=
  Array.size_map

@[simp] theorem value?_assignment (a : StoredAssignment) (i : Nat) :
    a.assignment.value? i = a.value? i :=
  Array.getElem?_map

/-- The row contains the literals that its values make true. -/
@[simp] theorem contains_assignment (a : StoredAssignment) (l : Lit) :
    a.assignment.contains l = a.contains l := by
  rw [Bool.eq_iff_iff, contains_iff, Assignment.contains, beq_iff_eq, value?_assignment]

/-- The row lists the literals that are true. -/
@[simp] theorem lits_assignment (a : StoredAssignment) : a.assignment.lits = a.lits.toList := by
  refine List.ext_getElem (by simp [assignment, Assignment.lits]) fun i _ hi => ?_
  have hlit : (⟨i, a.lits.toList[i].positive⟩ : Lit) = a.lits.toList[i] :=
    Lit.eq_of_same_sign (a.inPlace i hi).symm rfl
  simpa [assignment, Assignment.lits] using hlit

@[simp] theorem selected_assignment (a : StoredAssignment) :
    a.assignment.selected = a.selected := by
  rw [Assignment.selected, lits_assignment, selected]

@[simp] theorem text_assignment (a : StoredAssignment) : a.assignment.text = a.text := by
  rw [Assignment.text, lits_assignment, text]

/-- The values determine the row. -/
theorem assignment_injective (h : a.assignment = b.assignment) : a = b := by
  have hlits := congrArg Assignment.lits h
  rw [lits_assignment, lits_assignment, Array.toList_inj] at hlits
  cases a
  cases b
  congr

/-! ## Reading literals -/

/-- At first every value is false. -/
theorem assignment_allFalse (varCount : Nat) :
    (allFalse varCount).assignment = ⟨Array.replicate varCount false⟩ := by
  refine congrArg Assignment.mk (Array.toList_inj.1 ?_)
  simp [allFalse, Function.comp_def, List.map_const']

/-- A literal in its place gives its variable its sign as value, and changes no other. -/
theorem assignment_put (a : StoredAssignment) (l : Lit) :
    (a.put l).assignment = a.assignment.satisfy l :=
  congrArg Assignment.mk Array.map_setIfInBounds

/-- A row read from a model has the values read from it. -/
theorem assignment_ofModel (model : List Lit) (varCount : Nat) :
    (ofModel model varCount).assignment = .ofModel model varCount := by
  rw [ofModel, Assignment.ofModel, ← assignment_allFalse]
  exact (List.foldl_hom assignment fun a l => (assignment_put a l).symm).symm

/-- A row is read back from its literals. -/
theorem ofLits_lits (a : StoredAssignment) : ofLits a.lits.toList = a := by
  refine assignment_injective ?_
  rw [ofLits, assignment_ofModel, ← lits_assignment]
  exact Assignment.ofLits_lits a.assignment

/-- An assignment is read back from its signed numbers. -/
theorem ofNumbers?_numbers (a : StoredAssignment) : ofNumbers? a.numbers = some a := by
  have hread : Lit.ofNumber? ∘ Lit.number = some := funext Lit.ofNumber?_number
  have hlits : a.numbers.mapM Lit.ofNumber? = some a.lits.toList := by
    rw [numbers, List.mapM_map, hread]
    exact List.mapM_pure.trans (congrArg some (List.map_id _))
  rw [ofNumbers?, hlits, Option.map_some, ofLits_lits]

/-- **The last literal decides.**  A model is read into one literal for each variable in order,
which is the last one that the model has for the variable, and the negative one if it has none.  So
a variable has the sign of its last literal as value, false if there is no literal, and none past
the end; a literal is found exactly if its sign is the value of its variable, whatever its variable
is, and the true variables are listed in order.  The assignment can be read back from its signed
numbers, and is the same as without a row of literals. -/
theorem ofModel_lastDecides (model : List Lit) (varCount : Nat) :
    let a := ofModel model varCount
    a.lits.toList =
      (List.range varCount).map (fun i => (Assignment.lastLit? model i).getD ⟨i, false⟩) ∧
    a.lits.toList.map Lit.var = List.range varCount ∧
    (∀ i, a.value? i =
      if i < varCount then some ((Assignment.lastLit? model i).any Lit.positive) else none) ∧
    (∀ l, a.contains l = true ↔ a.value? l.var = some l.positive) ∧
    a.selected = (List.range varCount).filter (fun i => a.value? i == some true) ∧
    ofNumbers? a.numbers = some a ∧
    a.assignment = .ofModel model varCount ∧ ∀ l, a.assignment.contains l = a.contains l := by
  intro a
  have hvalues : a.assignment = .ofModel model varCount := assignment_ofModel model varCount
  have hsize : a.assignment.size = varCount := by rw [hvalues, Assignment.size_ofModel]
  refine ⟨?_, ?_, ?_, a.contains_iff, ?_, a.ofNumbers?_numbers, hvalues, a.contains_assignment⟩
  · rw [← lits_assignment, hvalues, Assignment.lits_ofModel]
  · rw [← lits_assignment, Assignment.map_var_lits, hsize]
  · intro i
    rw [← value?_assignment, hvalues, Assignment.value?_ofModel]
  · rw [← selected_assignment, Assignment.selected_eq_filter, hsize]
    refine List.filter_congr fun i _ => ?_
    rw [Assignment.valuation, value?_assignment]
    cases a.value? i with
    | none => rfl
    | some value => cases value <;> rfl

/-- The second literal of a variable wins, a variable without a literal is false, and a literal past
the end is left out. -/
example : (ofModel [⟨0, false⟩, ⟨2, false⟩, ⟨6, true⟩, ⟨0, true⟩] 4).numbers =
    [1, -2, -3, -4] := by
  cbv

end StoredAssignment

end ProductLine
