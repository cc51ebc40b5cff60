import ProductLine.Clause
/-!
# Literals as numbers

In a search, literals are numbers, and sets of literals are numbers as well, whose bits say which
literals are in them.

* `LitCode` is a literal as a number, and `LitSet` a set of them;
* `LitSet.AllHold` says that all literals of a set are true.
-/
namespace ProductLine

/-! ## Literals -/

/-- A literal as a number: twice its variable, and one more if it is negative. -/
abbrev LitCode := Nat

/-- The number of a literal. -/
def Lit.code (l : Lit) : LitCode := 2 * l.var + if l.positive then 0 else 1

namespace LitCode

/-- The variable of a literal. -/
@[inline] def var (l : LitCode) : Nat := l / 2

/-- Whether the literal is the variable itself. -/
@[inline] def positive (l : LitCode) : Bool := l % 2 == 0

/-- The literal that a number stands for. -/
def toLit (l : LitCode) : Lit := ⟨l.var, l.positive⟩

/-- The opposite literal of the same variable. -/
@[inline] def opposite (l : LitCode) : LitCode := if l % 2 = 0 then l + 1 else l - 1

/-- The value of a literal when the variables have the values `v`. -/
def eval (v : Nat → Bool) (l : LitCode) : Bool := v l.var == l.positive

/-- A literal is true exactly if its code is. -/
@[simp] theorem eval_code (v : Nat → Bool) (l : Lit) : eval v l.code = l.eval v := by
  obtain ⟨n, p⟩ := l
  cases p <;> simp [eval, var, positive, Lit.code, Lit.eval, Nat.mul_add_div]

@[simp] theorem eval_toLit (v : Nat → Bool) (l : LitCode) : l.toLit.eval v = eval v l := rfl

/-- The opposite code has the opposite value. -/
@[simp] theorem eval_opposite (v : Nat → Bool) (l : Nat) :
    eval v (opposite l) = !eval v l := by
  rcases Nat.mod_two_eq_zero_or_one l with h | h
  · have hd : (l + 1) / 2 = l / 2 := by omega
    have hm : (l + 1) % 2 = 1 := by omega
    cases hv : v (l / 2) <;> simp [eval, var, positive, opposite, h, hd, hm, hv]
  · have hd : (l - 1) / 2 = l / 2 := by omega
    have hm : (l - 1) % 2 = 0 := by omega
    cases hv : v (l / 2) <;> simp [eval, var, positive, opposite, h, hd, hm, hv]

end LitCode

/-! ## Sets of literals -/

/-- A set of literals, as the number whose bits at their numbers are set. -/
structure LitSet where
  bits : Nat
deriving DecidableEq, Repr

namespace LitSet

/-- Whether a literal is in the set. -/
def contains (s : LitSet) (l : LitCode) : Bool := s.bits.testBit l

/-- The set without literals. -/
def empty : LitSet := ⟨0⟩

/-- The set of one literal. -/
def singleton (l : LitCode) : LitSet := ⟨1 <<< l⟩

/-- The literals of two sets. -/
def union (s t : LitSet) : LitSet := ⟨s.bits ||| t.bits⟩

/-- The set of the literals of a list. -/
def ofList (ls : List LitCode) : LitSet := ls.foldl (fun s l => s.union (.singleton l)) .empty

/-- Whether all literals of a set are in another. -/
def isSubset (s t : LitSet) : Bool := s.bits ||| t.bits == t.bits

/-- All literals of a set are true when the variables have the values `v`. -/
def AllHold (v : Nat → Bool) (s : LitSet) : Prop := ∀ l, s.contains l → LitCode.eval v l

/-- A literal that holds alone is true. -/
theorem eval_of_allHold_singleton {v : Nat → Bool} {l : LitCode} (h : AllHold v (singleton l)) :
    LitCode.eval v l :=
  h l (by simp [singleton, contains])

/-- A union contains what either set does. -/
@[simp] theorem contains_union (s t : LitSet) (l : LitCode) :
    (s.union t).contains l = (s.contains l || t.contains l) := by
  simp [union, contains]

/-- A union holds if both sets hold. -/
theorem allHold_union {v : Nat → Bool} {s t : LitSet} :
    AllHold v (s.union t) ↔ AllHold v s ∧ AllHold v t := by
  simp only [AllHold, contains_union, Bool.or_eq_true]
  exact ⟨fun h => ⟨fun l hl => h l (.inl hl), fun l hl => h l (.inr hl)⟩,
    fun h l hl => hl.elim (h.1 l) (h.2 l)⟩

end LitSet

end ProductLine
