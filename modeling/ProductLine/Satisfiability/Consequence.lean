import ProductLine.Satisfiability.LitCode
/-!
# Consequences of clauses

A clause is a consequence of others under assumptions if it is true whenever all of them and all
assumed literals are.  Consequences are derived by resolution: of two clauses one of which holds a
literal and the other one its negation, all other literals make a clause that follows from both.

* `CodedClause` is a clause of literals that are numbers, in increasing order;
* `Consequence` is a clause that follows from given ones, by the way it is built;
* `Consequence.resolve` and `Consequence.reduce` derive consequences.
-/
namespace ProductLine

/-! ## Clauses -/

/-- A disjunction of literals, in increasing order of their numbers. -/
abbrev CodedClause := List LitCode

namespace CodedClause

/-- A clause is true when one of its literals is. -/
def eval (v : Nat → Bool) (c : CodedClause) : Bool := c.any (LitCode.eval v)

/-- Puts a literal in its place, unless it is there. -/
def insert (l : LitCode) : CodedClause → CodedClause
  | [] => [l]
  | k :: c => if l < k then l :: k :: c else if k < l then k :: insert l c else k :: c

/-- The literals of a clause as numbers. -/
def ofClause (c : Clause) : CodedClause := (c.map Lit.code).foldr insert []

/-- The disjunction of two clauses. -/
def union : CodedClause → CodedClause → CodedClause
  | [], d => d
  | c, [] => c
  | k :: c, l :: d =>
      if k < l then k :: union c (l :: d)
      else if l < k then l :: union (k :: c) d
      else k :: union c d
termination_by c d => c.length + d.length

/-- What follows from a clause with the opposite of a literal, and a clause with the literal. -/
def resolve (l : LitCode) (c d : CodedClause) : CodedClause :=
  union (c.filter (· ≠ l.opposite)) (d.filter (· ≠ l))

@[simp] theorem mem_insert {k l : LitCode} {c : CodedClause} :
    k ∈ insert l c ↔ k = l ∨ k ∈ c := by
  induction c with
  | nil => simp [insert]
  | cons m c ih =>
      simp only [insert]
      split
      · simp
      · split
        · simp only [List.mem_cons, ih]
          grind
        · have : m = l := Nat.le_antisymm (Nat.not_lt.1 ‹_›) (Nat.not_lt.1 ‹_›)
          simp [this]

@[simp] theorem mem_ofClause {k : LitCode} {c : Clause} :
    k ∈ ofClause c ↔ ∃ l ∈ c, l.code = k := by
  induction c with
  | nil => simp [ofClause]
  | cons m c ih =>
      have h : ofClause (m :: c) = insert m.code (ofClause c) := rfl
      rw [h, mem_insert, ih]
      simp [eq_comm]

@[simp] theorem mem_union {k : LitCode} {c d : CodedClause} : k ∈ union c d ↔ k ∈ c ∨ k ∈ d := by
  fun_induction union c d with
  | case1 => simp
  | case2 => simp
  | case3 m c l d h ih =>
      simp only [List.mem_cons, ih]
      grind
  | case4 m c l d h h' ih =>
      simp only [List.mem_cons, ih]
      grind
  | case5 m c l d h h' ih =>
      have : m = l := Nat.le_antisymm (Nat.not_lt.1 h') (Nat.not_lt.1 h)
      simp only [List.mem_cons, ih, this]
      grind

/-- A coded clause is true exactly if the clause is. -/
theorem eval_ofClause (v : Nat → Bool) (c : Clause) : eval v (ofClause c) = c.eval v := by
  rw [Bool.eq_iff_iff]
  simp only [eval, Clause.eval, List.any_eq_true, mem_ofClause]
  constructor
  · rintro ⟨_, ⟨l, hl, rfl⟩, hv⟩
    exact ⟨l, hl, by simpa using hv⟩
  · rintro ⟨l, hl, hv⟩
    exact ⟨l.code, ⟨l, hl, rfl⟩, by simpa using hv⟩

/-- A resolvent is true where both clauses are: the one literal or the other is false. -/
theorem eval_resolve {v : Nat → Bool} {c d : CodedClause} (l : LitCode)
    (hc : eval v c) (hd : eval v d) : eval v (resolve l c d) := by
  simp only [eval, List.any_eq_true] at hc hd ⊢
  obtain ⟨k, hk, hkv⟩ := hc
  obtain ⟨m, hm, hmv⟩ := hd
  by_cases hl : LitCode.eval v l
  · refine ⟨k, ?_, hkv⟩
    have : k ≠ l.opposite := by
      rintro rfl
      simp [hl] at hkv
    simp [resolve, hk, this]
  · refine ⟨m, ?_, hmv⟩
    have : m ≠ l := by
      rintro rfl
      exact hl hmv
    simp [resolve, hm, this]

end CodedClause

/-! ## Consequences -/

/-- A clause that is true whenever all the given clauses and some assumed literals are. -/
structure Consequence (given : List Clause) where
  lits : CodedClause
  /-- The assumed literals. -/
  uses : LitSet
  follows : ∀ v : Nat → Bool, (∀ c ∈ given, c.eval v) → uses.AllHold v → lits.eval v

namespace Consequence

variable {given : List Clause}

/-- The clause that is always true because it has both literals of a variable. -/
def tautology (n : Nat) : Consequence given where
  lits := [2 * n, 2 * n + 1]
  uses := .empty
  follows v _ _ := by
    have h : (2 * n + 1) / 2 = n := by omega
    cases hv : v n <;> simp [CodedClause.eval, LitCode.eval, LitCode.var, LitCode.positive, h, hv]

instance : Inhabited (Consequence given) := ⟨tautology 0⟩

/-- One of the given clauses. -/
def ofMem (c : Clause) (h : c ∈ given) : Consequence given where
  lits := .ofClause c
  uses := .empty
  follows v hv _ := by
    rw [CodedClause.eval_ofClause]
    exact hv c h

/-- An assumed literal. -/
def assumed (l : LitCode) : Consequence given where
  lits := [l]
  uses := .singleton l
  follows v _ hl := by simp [CodedClause.eval, LitSet.eval_of_allHold_singleton hl]

/-- What follows from some clauses follows from more clauses. -/
def weaken {more : List Clause} (h : given ⊆ more) (c : Consequence given) : Consequence more where
  lits := c.lits
  uses := c.uses
  follows v hv := c.follows v (fun d hd => hv d (h hd))

/-- Resolves a clause, which has the opposite of a literal, with a clause that has the literal. -/
def resolve (l : LitCode) (c d : Consequence given) : Consequence given where
  lits := c.lits.resolve l d.lits
  uses := c.uses.union d.uses
  follows v hv hu :=
    have hu := LitSet.allHold_union.1 hu
    CodedClause.eval_resolve l (c.follows v hv hu.1) (d.follows v hv hu.2)

/-- The literals that some clauses use besides those of a set. -/
def usesOf (us : List (Consequence given)) (s : LitSet) : LitSet :=
  us.foldl (fun s u => s.union u.uses) s

/-- All that several consequences use holds if each use does. -/
theorem allHold_usesOf {v : Nat → Bool} {us : List (Consequence given)} {s : LitSet} :
    (usesOf us s).AllHold v ↔ s.AllHold v ∧ ∀ u ∈ us, u.uses.AllHold v := by
  induction us generalizing s with
  | nil => simp [usesOf]
  | cons u us ih =>
      have h : usesOf (u :: us) s = usesOf us (s.union u.uses) := rfl
      rw [h, ih, LitSet.allHold_union, List.forall_mem_cons, and_assoc]

/-- The clause by which a literal can be left out: one that consists of its opposite. -/
def refuting? (unit? : LitCode → Option (Consequence given)) (l : LitCode) :
    Option (Consequence given) :=
  (unit? l).filter (fun u => u.lits == [l.opposite])

/-- Leaves out the literals whose opposites follow by themselves. -/
def reduce (c : Consequence given) (unit? : LitCode → Option (Consequence given)) :
    Consequence given where
  lits := c.lits.filter (fun l => (refuting? unit? l).isNone)
  uses := usesOf (c.lits.filterMap (refuting? unit?)) c.uses
  follows v hv hu := by
    obtain ⟨hc, hus⟩ := allHold_usesOf.1 hu
    have h := c.follows v hv hc
    simp only [CodedClause.eval, List.any_eq_true] at h ⊢
    obtain ⟨l, hl, hlv⟩ := h
    refine ⟨l, ?_, hlv⟩
    cases hr : refuting? unit? l with
    | none => simp [hl, hr]
    | some u =>
        have hlits : u.lits = [l.opposite] := by
          have := (Option.filter_eq_some_iff.1 hr).2
          simpa using this
        have := u.follows v hv (hus u (List.mem_filterMap.2 ⟨l, hl, hr⟩))
        simp [CodedClause.eval, hlits, hlv] at this

end Consequence

end ProductLine
