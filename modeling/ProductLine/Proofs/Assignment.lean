import Mathlib.Data.List.Induction
import Mathlib.Order.Basic
import Mathlib.Tactic.Common
import ProductLine.Assignment
import ProductLine.Proofs.Clause
/-!
# Assignments and their literals

A literal changes the value of its own variable and no other, so of several literals of a variable
the last one decides.  An assignment is the same thing as the literals that it makes true.

* `Assignment.lastLit?` is the literal that decides on a variable; `Assignment.value?_ofModel` says
  what value the variable has then, and `Assignment.lits_ofModel` what literal;
* `Assignment.mem_lits` says which literals are true, and `Assignment.lits_eq_map` in which order
  they are listed;
* `Assignment.ofLits_lits` says that an assignment can be read back from its literals.
-/
namespace ProductLine

namespace Assignment

variable {a b : Assignment} {model : List Lit} {varCount i : Nat} {k l : Lit}

/-! ## The literal that decides -/

/-- The last literal that a model has for a variable. -/
def lastLit? (model : List Lit) (var : Nat) : Option Lit :=
  (model.filter (fun l => l.var == var)).getLast?

/-- A literal that comes last decides about its variable. -/
theorem lastLit?_concat (model : List Lit) (l : Lit) (i : Nat) :
    lastLit? (model ++ [l]) i = if l.var = i then some l else lastLit? model i := by
  unfold lastLit?
  rw [List.filter_append, List.filter_cons, List.filter_nil]
  by_cases hvar : l.var = i
  · rw [if_pos (beq_iff_eq.2 hvar), if_pos hvar]
    exact List.getLast?_concat
  · rw [if_neg (by simpa using hvar), if_neg hvar]
    exact congrArg List.getLast? (List.append_nil _)

/-- The literal that decides is one of the model and about the variable. -/
theorem of_lastLit? (h : lastLit? model i = some l) : l ∈ model ∧ l.var = i := by
  have hmem := List.mem_filter.1 (List.mem_of_getLast? h)
  exact ⟨hmem.1, beq_iff_eq.1 hmem.2⟩

/-- A variable that a model mentions is decided. -/
theorem exists_lastLit? (hl : l ∈ model) : ∃ k, lastLit? model l.var = some k := by
  have hmem : l ∈ model.filter (fun k => k.var == l.var) :=
    List.mem_filter.2 ⟨hl, beq_self_eq_true _⟩
  exact ⟨_, List.getLast?_eq_some_getLast (List.ne_nil_of_mem hmem)⟩

/-! ## Values -/

@[simp] theorem size_satisfy (a : Assignment) (l : Lit) : (a.satisfy l).size = a.size := by
  simp [satisfy, size]

/-- Making a literal true changes the value of its variable only, and only in range. -/
theorem value?_satisfy (a : Assignment) (l : Lit) (i : Nat) :
    (a.satisfy l).value? i =
      if l.var = i then (if i < a.size then some l.positive else none) else a.value? i := by
  unfold value? satisfy size
  rw [Array.getElem?_setIfInBounds]
  split
  · rename_i hvar
    rw [hvar]
  · rfl

theorem size_foldl_satisfy (a : Assignment) (model : List Lit) :
    (model.foldl satisfy a).size = a.size := by
  induction model generalizing a with
  | nil => rfl
  | cons l model ih => rw [List.foldl_cons, ih, size_satisfy]

@[simp] theorem size_ofModel (model : List Lit) (varCount : Nat) :
    (ofModel model varCount).size = varCount := by
  rw [ofModel, size_foldl_satisfy]
  simp [size]

/-- A variable has the value that its last literal says, and is false if it has no literal. -/
theorem value?_ofModel (model : List Lit) (varCount i : Nat) :
    (ofModel model varCount).value? i =
      if i < varCount then some ((lastLit? model i).any Lit.positive) else none := by
  induction model using List.reverseRecOn with
  | nil => simp [ofModel, value?, lastLit?, Array.getElem?_replicate]
  | append_singleton model l ih =>
    have hlast : ofModel (model ++ [l]) varCount = (ofModel model varCount).satisfy l := by
      rw [ofModel, List.foldl_append]
      rfl
    rw [hlast, value?_satisfy, ih, size_ofModel, lastLit?_concat]
    split <;> rfl

/-- A literal of a model that does not contradict itself has the value that makes it true. -/
theorem valuation_ofModel {model : List Lit} {varCount : Nat} {l : Lit}
    (hmodel : ∀ k ∈ model, k.negate ∉ model) (hl : l ∈ model) (hvar : l.var < varCount) :
    (ofModel model varCount).valuation l.var = l.positive := by
  obtain ⟨k, hk⟩ := exists_lastLit? hl
  obtain ⟨hkmem, hkvar⟩ := of_lastLit? hk
  have hsign : k.positive = l.positive := by
    by_contra hne
    apply hmodel l hl
    rwa [← Lit.eq_negate_of_ne hkvar hne]
  rw [valuation, value?_ofModel, if_pos hvar, hk, Option.getD_some, Option.any_some, hsign]

/-- A variable below the size has the value that it has in the valuation. -/
theorem value?_eq_valuation {a : Assignment} {i : Nat} (hi : i < a.size) :
    a.value? i = some (a.valuation i) := by
  rw [valuation, value?, Array.getElem?_eq_getElem hi, Option.getD_some]

/-- Assignments of the same size with the same values are the same. -/
theorem ext_valuation (hsize : a.size = b.size) (h : ∀ i < a.size, a.valuation i = b.valuation i) :
    a = b := by
  have hvalues : a.values = b.values := by
    refine Array.ext hsize fun i hi hi' => ?_
    have hvalue := h i hi
    rwa [valuation, valuation, value?, value?, Array.getElem?_eq_getElem hi,
      Array.getElem?_eq_getElem hi', Option.getD_some, Option.getD_some] at hvalue
  cases a
  cases b
  exact congrArg mk hvalues

/-! ## Literals -/

/-- There is a literal for each variable, in order. -/
theorem map_var_lits (a : Assignment) : a.lits.map Lit.var = List.range a.size := by
  simp [lits, size, List.range_eq_range', Function.comp_def]

/-- The literals of an assignment are those that are true of its variables. -/
theorem mem_lits {a : Assignment} {l : Lit} :
    l ∈ a.lits ↔ l.var < a.size ∧ l.eval a.valuation = true := by
  obtain ⟨i, positive⟩ := l
  have hmem : ⟨i, positive⟩ ∈ a.lits ↔ a.value? i = some positive := by
    simp [lits, List.mem_zipIdx_iff_getElem?, value?]
  rw [hmem, Lit.eval, beq_iff_eq]
  constructor
  · intro h
    exact ⟨(Array.getElem?_eq_some_iff.1 h).1, by rw [valuation, h, Option.getD_some]⟩
  · rintro ⟨hi, hvalue⟩
    rw [value?_eq_valuation hi]
    exact congrArg some hvalue

/-- A literal that is contained is true. -/
theorem eval_of_contains {a : Assignment} {l : Lit} (h : a.contains l = true) :
    l.eval a.valuation = true := by
  have hvalue : a.value? l.var = some l.positive := beq_iff_eq.1 h
  rw [Lit.eval, valuation, hvalue, Option.getD_some, beq_self_eq_true]

/-- The literals say what the values are. -/
theorem eval_of_lits {a : Assignment} {v : Nat → Bool} (h : ∀ l ∈ a.lits, l.eval v = true)
    {i : Nat} (hi : i < a.size) : v i = a.valuation i := by
  have hlit : (⟨i, a.valuation i⟩ : Lit) ∈ a.lits := mem_lits.2 ⟨hi, beq_self_eq_true _⟩
  simpa [Lit.eval] using h _ hlit

/-- The literals in order: each variable with its value. -/
theorem lits_eq_map (a : Assignment) :
    a.lits = (List.range a.size).map (fun i => ⟨i, a.valuation i⟩) := by
  rw [← map_var_lits, List.map_map]
  refine (List.map_id a.lits).symm.trans (List.map_congr_left fun l hl => ?_)
  have hvalue := beq_iff_eq.1 (mem_lits.1 hl).2
  rw [Function.comp_apply, hvalue, id_eq]

/-- Each variable has its last literal, or the negative one if it has no literal. -/
theorem lits_ofModel (model : List Lit) (varCount : Nat) :
    (ofModel model varCount).lits =
      (List.range varCount).map (fun i => (lastLit? model i).getD ⟨i, false⟩) := by
  rw [lits_eq_map, size_ofModel]
  refine List.map_congr_left fun i hi => ?_
  rw [valuation, value?_ofModel, if_pos (List.mem_range.1 hi), Option.getD_some]
  cases hlast : lastLit? model i with
  | none => rfl
  | some l =>
    have hvar := (of_lastLit? hlast).2
    rw [Option.any_some, Option.getD_some, ← hvar]

/-- The true variables in order. -/
theorem selected_eq_filter (a : Assignment) :
    a.selected = (List.range a.size).filter a.valuation := by
  rw [selected, lits_eq_map, List.filter_map, List.map_map]
  exact List.map_id _

/-- An assignment needs as many variables as it has. -/
theorem varCount_lits (a : Assignment) : Clause.varCount a.lits = a.size := by
  refine eq_of_forall_ge_iff fun n => ?_
  rw [← Clause.inRange_iff]
  have hvars : Clause.InRange n a.lits ↔ ∀ i ∈ a.lits.map Lit.var, i < n := by
    simp [Clause.InRange]
  rw [hvars, map_var_lits]
  simp only [List.mem_range]
  exact ⟨fun h => Nat.le_of_not_lt fun hn => Nat.lt_irrefl n (h n hn), fun h i hi => hi.trans_le h⟩

/-- Of two opposite literals one is false. -/
theorem negate_not_mem_lits (hl : l ∈ a.lits) : l.negate ∉ a.lits := by
  intro hnegate
  have htrue := (mem_lits.1 hnegate).2
  rw [Lit.eval_negate, (mem_lits.1 hl).2] at htrue
  exact Bool.false_ne_true htrue

/-- An assignment is read back from its literals. -/
theorem ofLits_lits (a : Assignment) : ofLits a.lits = a := by
  have hsize : (ofLits a.lits).size = a.size := by rw [ofLits, size_ofModel, varCount_lits]
  refine ext_valuation hsize fun i hi => ?_
  have hi' : i < a.size := hsize ▸ hi
  have hlit : (⟨i, a.valuation i⟩ : Lit) ∈ a.lits := mem_lits.2 ⟨hi', beq_self_eq_true _⟩
  exact valuation_ofModel (fun _ => negate_not_mem_lits) hlit (varCount_lits a ▸ hi')

end Assignment

end ProductLine
