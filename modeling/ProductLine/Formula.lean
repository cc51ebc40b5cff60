/-!
# Propositional formulas over names

Constraints of a product line are formulas over the names of its features.

* `Formula.eval` is the meaning of a formula under a valuation of the names;
* `Formula.names` lists its names in order of first occurrence;
* `Formula.consulted` lists the names that an evaluation from left to right asks for when it
  stops as soon as a connective is decided;
* `Formula.atMostOne` excludes every pair of a list of formulas.
-/
namespace ProductLine

/-- A propositional formula over named variables. -/
inductive Formula where
  | const (value : Bool)
  | var (name : String)
  | not (inner : Formula)
  | and (parts : List Formula)
  | or (parts : List Formula)
  | implies (premise conclusion : Formula)
  | iff (left right : Formula)
deriving Repr, Inhabited

namespace Formula

/-! ## Equality -/

mutual

/-- Whether two formulas have the same shape and names. -/
def same : Formula → Formula → Bool
  | const a, const b => a == b
  | var a, var b => a == b
  | not a, not b => same a b
  | and as, and bs => allSame as bs
  | or as, or bs => allSame as bs
  | implies a b, implies c d => same a c && same b d
  | iff a b, iff c d => same a c && same b d
  | _, _ => false

/-- Whether two lists hold the same formulas in the same order. -/
def allSame : List Formula → List Formula → Bool
  | [], [] => true
  | a :: as, b :: bs => same a b && allSame as bs
  | _, _ => false

end

mutual

/-- `same` decides equality of formulas. -/
theorem eq_of_same : ∀ {f g : Formula}, same f g = true → f = g
  | .const _, .const _, h => by simpa [same] using h
  | .var _, .var _, h => by simpa [same] using h
  | .not _, .not _, h => congrArg Formula.not (eq_of_same (by simpa only [same] using h))
  | .and _, .and _, h => congrArg Formula.and (eq_of_allSame (by simpa only [same] using h))
  | .or _, .or _, h => congrArg Formula.or (eq_of_allSame (by simpa only [same] using h))
  | .implies _ _, .implies _ _, h => by
      simp only [same, Bool.and_eq_true] at h
      rw [eq_of_same h.1, eq_of_same h.2]
  | .iff _ _, .iff _ _, h => by
      simp only [same, Bool.and_eq_true] at h
      rw [eq_of_same h.1, eq_of_same h.2]

/-- `allSame` decides equality of lists of formulas. -/
theorem eq_of_allSame : ∀ {fs gs : List Formula}, allSame fs gs = true → fs = gs
  | [], [], _ => rfl
  | _ :: _, _ :: _, h => by
      simp only [allSame, Bool.and_eq_true] at h
      rw [eq_of_same h.1, eq_of_allSame h.2]

end

mutual

/-- A formula is the same as itself. -/
theorem same_self : ∀ f : Formula, same f f = true
  | .const _ => by simp [same]
  | .var _ => by simp [same]
  | .not f => by simp [same, same_self f]
  | .and fs => by simp [same, allSame_self fs]
  | .or fs => by simp [same, allSame_self fs]
  | .implies a b => by simp [same, same_self a, same_self b]
  | .iff a b => by simp [same, same_self a, same_self b]

/-- A list of formulas is the same as itself. -/
theorem allSame_self : ∀ fs : List Formula, allSame fs fs = true
  | [] => by simp [allSame]
  | f :: fs => by simp [allSame, same_self f, allSame_self fs]

end

instance : DecidableEq Formula := fun f g =>
  if h : same f g = true then isTrue (eq_of_same h)
  else isFalse (fun e => h (e ▸ same_self f))

/-! ## Construction -/

/-- The negation of a formula, which strips an outermost negation instead of adding one. -/
def negated : Formula → Formula
  | not inner => inner
  | f => not f

/-- The named variable, or its negation. -/
def literal (name : String) (polarity : Bool) : Formula :=
  if polarity then var name else not (var name)

/-- For every pair of positions in a list, that not both formulas hold. -/
def exclusions : List Formula → List Formula
  | [] => []
  | f :: rest => rest.map (fun g => or [f.negated, g.negated]) ++ exclusions rest

/-- At most one position of the list holds a true formula. -/
def atMostOne (fs : List Formula) : Formula := and (exclusions fs)

/-! ## Meaning -/

mutual

/-- The value of a formula when the names have the values `v`. -/
def eval (v : String → Bool) : Formula → Bool
  | const value => value
  | var name => v name
  | not f => !eval v f
  | and fs => evalAll v fs
  | or fs => evalAny v fs
  | implies a b => !eval v a || eval v b
  | iff a b => eval v a == eval v b

/-- Whether all formulas of a list are true. -/
def evalAll (v : String → Bool) : List Formula → Bool
  | [] => true
  | f :: fs => eval v f && evalAll v fs

/-- Whether some formula of a list is true. -/
def evalAny (v : String → Bool) : List Formula → Bool
  | [] => false
  | f :: fs => eval v f || evalAny v fs

end

mutual

/-- The names asked for by an evaluation from left to right, with repetitions. -/
def consulted (v : String → Bool) : Formula → List String
  | const _ => []
  | var name => [name]
  | not f => consulted v f
  | and fs => consultedUntil v false fs
  | or fs => consultedUntil v true fs
  | implies a b => consulted v a ++ (if eval v a then consulted v b else [])
  | iff a b => consulted v a ++ consulted v b

/-- The names asked for until a formula of the list has the deciding value. -/
def consultedUntil (v : String → Bool) (deciding : Bool) : List Formula → List String
  | [] => []
  | f :: fs =>
      consulted v f ++ (if eval v f = deciding then [] else consultedUntil v deciding fs)

end

/-! ## Names -/

/-- Adds a name at the end unless it is there. -/
def addName (names : List String) (name : String) : List String :=
  if name ∈ names then names else names ++ [name]

mutual

/-- Adds the names of a formula that are not yet listed. -/
def addNames (names : List String) : Formula → List String
  | const _ => names
  | var name => addName names name
  | not f => addNames names f
  | and fs => addAllNames names fs
  | or fs => addAllNames names fs
  | implies a b => addNames (addNames names a) b
  | iff a b => addNames (addNames names a) b

/-- Adds the names of a list of formulas that are not yet listed. -/
def addAllNames (names : List String) : List Formula → List String
  | [] => names
  | f :: fs => addAllNames (addNames names f) fs

end

/-- The names of a formula in order of first occurrence. -/
def names (f : Formula) : List String := addNames [] f

end Formula

end ProductLine
