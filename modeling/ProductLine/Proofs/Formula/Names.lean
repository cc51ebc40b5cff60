import Mathlib.Tactic.Common
import ProductLine.Formula
/-!
# The names of a formula

The names of a formula are collected in order, but which ones they are depends on its parts alone.

* `Formula.mem_addNames` says that collecting adds the names of a formula to those that are there;
* `Formula.Over` says that a formula has no other names than some, and `Formula.over_implies` and
  its neighbours read the connectives.
-/
namespace ProductLine

namespace Formula

variable {n : String}

theorem mem_addName {names : List String} {name : String} :
    n ∈ addName names name ↔ n ∈ names ∨ n = name := by
  unfold addName
  split
  · rename_i hname
    exact ⟨.inl, fun h => h.elim id (fun heq => heq ▸ hname)⟩
  · simp

mutual

/-- The names of a formula are added to those that are listed. -/
theorem mem_addNames : ∀ {names : List String} {f : Formula},
    n ∈ addNames names f ↔ n ∈ names ∨ n ∈ f.names
  | names, const _ => by
      simp [Formula.names, addNames]
  | names, var name => by
      simp [Formula.names, addNames, mem_addName]
  | names, not f => by
      simp only [Formula.names, addNames]
      exact mem_addNames
  | names, and fs => by
      rw [Formula.names, addNames, addNames, mem_addAllNames, mem_addAllNames]
      simp
  | names, or fs => by
      rw [Formula.names, addNames, addNames, mem_addAllNames, mem_addAllNames]
      simp
  | names, implies a b => by
      rw [Formula.names, addNames, addNames, mem_addNames (f := b), mem_addNames (f := a),
        mem_addNames (f := b), or_assoc]
      rfl
  | names, iff a b => by
      rw [Formula.names, addNames, addNames, mem_addNames (f := b), mem_addNames (f := a),
        mem_addNames (f := b), or_assoc]
      rfl

/-- The same for the names of a list of formulas. -/
theorem mem_addAllNames : ∀ {names : List String} {fs : List Formula},
    n ∈ addAllNames names fs ↔ n ∈ names ∨ ∃ f ∈ fs, n ∈ f.names
  | names, [] => by
      simp [addAllNames]
  | names, f :: fs => by
      rw [addAllNames, mem_addAllNames, mem_addNames, or_assoc]
      simp

end

/-! ## Formulas over some names -/

/-- All names of the formula are among the given ones. -/
def Over (names : List String) (f : Formula) : Prop := ∀ n ∈ f.names, n ∈ names

variable {names : List String}

@[simp] theorem over_var {name : String} : (var name).Over names ↔ name ∈ names := by
  simp [Over, Formula.names, addNames, addName]

@[simp] theorem over_not {f : Formula} : (not f).Over names ↔ f.Over names := by
  simp [Over, Formula.names, addNames]

@[simp] theorem over_and {fs : List Formula} :
    (and fs).Over names ↔ ∀ f ∈ fs, f.Over names := by
  simp only [Over, Formula.names, addNames, mem_addAllNames, List.not_mem_nil, false_or]
  exact ⟨fun h f hf n hn => h n ⟨f, hf, hn⟩, fun h n ⟨f, hf, hn⟩ => h f hf n hn⟩

@[simp] theorem over_or {fs : List Formula} : (or fs).Over names ↔ ∀ f ∈ fs, f.Over names := by
  simp only [Over, Formula.names, addNames, mem_addAllNames, List.not_mem_nil, false_or]
  exact ⟨fun h f hf n hn => h n ⟨f, hf, hn⟩, fun h n ⟨f, hf, hn⟩ => h f hf n hn⟩

@[simp] theorem over_implies {f g : Formula} :
    (implies f g).Over names ↔ f.Over names ∧ g.Over names := by
  have hmem (n : String) : n ∈ (implies f g).names ↔ n ∈ f.names ∨ n ∈ g.names := by
    rw [Formula.names, addNames, mem_addNames]
    rfl
  simp only [Over, hmem, or_imp, forall_and]

@[simp] theorem over_negated {f : Formula} : f.negated.Over names ↔ f.Over names := by
  cases f <;> simp [negated]

@[simp] theorem over_literal {name : String} {polarity : Bool} :
    (literal name polarity).Over names ↔ name ∈ names := by
  cases polarity <;> simp [literal]

/-- Excluding formulas from each other brings in no other names than theirs. -/
theorem over_atMostOne {fs : List Formula} (h : ∀ f ∈ fs, f.Over names) :
    (atMostOne fs).Over names := by
  rw [atMostOne, over_and]
  induction fs with
  | nil => nofun
  | cons f fs ih =>
    obtain ⟨hf, hfs⟩ := List.forall_mem_cons.1 h
    rw [exclusions, List.forall_mem_append, List.forall_mem_map]
    refine ⟨fun g hg => ?_, ih hfs⟩
    simp [hf, hfs g hg]

end Formula

end ProductLine
