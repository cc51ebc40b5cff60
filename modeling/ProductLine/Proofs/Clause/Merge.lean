import Mathlib.Data.List.Pairwise
import Mathlib.Tactic.Common
import ProductLine.Clause
/-!
# Joining clauses

The literals of a joined clause are put in order and repetitions are left out.  Then a clause that
holds a literal and its opposite has them next to each other, as no literal stands between the two.

* `List.eraseReps_cons_cons` says how repetitions are left out, and `List.mem_eraseReps` that
  nothing else is;
* `Clause.pairwise_inOrder` and `Clause.pairwise_eraseReps` follow the order of the literals;
* `Clause.neighboursClash_iff` says that opposite literals are found;
* `Clause.merge?_eq_none_iff` and `Clause.merge?_spec` say what a join is, and
  `Clause.eval_merge?` what it means.
-/

/-! ## Repetitions -/

namespace List

variable {α : Type} [DecidableEq α]

/-- Of two items that are the same the first is left out. -/
theorem eraseReps_cons_cons (x y : α) (rest : List α) :
    (x :: y :: rest).eraseReps =
      if x = y then (y :: rest).eraseReps else x :: (y :: rest).eraseReps := by
  have hloop : ∀ (rest done : List α) (y : α), eraseRepsBy.loop (· == ·) y rest done =
      done.reverse ++ eraseRepsBy.loop (· == ·) y rest [] := by
    intro rest
    induction rest with
    | nil => intro done y; simp [eraseRepsBy.loop]
    | cons z rest ih =>
      intro done y
      rw [eraseRepsBy.loop, eraseRepsBy.loop]
      split
      · exact ih done y
      · rw [ih (y :: done) z, ih [y] z]
        simp
  show eraseRepsBy.loop (· == ·) x (y :: rest) [] = _
  rw [eraseRepsBy.loop]
  split
  · rename_i heq
    rw [if_pos (eq_of_beq heq), eq_of_beq heq]
    rfl
  · rename_i hne
    rw [if_neg (ne_of_beq_false hne), hloop]
    rfl

/-- Repetitions do not matter for what is in a list. -/
theorem mem_eraseReps {x : α} {xs : List α} : x ∈ xs.eraseReps ↔ x ∈ xs := by
  induction xs with
  | nil => rfl
  | cons y xs ih =>
    cases xs with
    | nil => rfl
    | cons z rest =>
      rw [eraseReps_cons_cons, mem_cons, ← ih]
      split
      · rename_i heq
        subst heq
        refine (or_iff_right_of_imp ?_).symm
        rintro rfl
        exact ih.2 (mem_cons_self ..)
      · exact mem_cons

end List

namespace ProductLine

/-! ## The order of literals -/

namespace Lit

variable {k l m : Lit}

/-- The order of literals is transitive. -/
theorem Before.trans (hkl : k.Before l) (hlm : l.Before m) : k.Before m := by
  unfold Before at *
  grind

theorem Before.irrefl (l : Lit) : ¬ l.Before l := by
  unfold Before
  grind

/-- Of two different literals one is before the other. -/
theorem before_of_not_before (hne : k ≠ l) (h : ¬ l.Before k) : k.Before l := by
  obtain ⟨i, p⟩ := k
  obtain ⟨j, q⟩ := l
  unfold Before at *
  grind

/-- Literals are ordered by their variables first. -/
theorem Before.var_le (h : k.Before l) : k.var ≤ l.var := by
  rcases h with hlt | ⟨heq, -⟩
  · exact Nat.le_of_lt hlt
  · exact Nat.le_of_eq heq

/-- No literal is its own negation. -/
theorem negate_ne (l : Lit) : l.negate ≠ l := by
  intro h
  have hsign : (!l.positive) = l.positive := congrArg positive h
  simp at hsign

/-- Two literals of a variable that are not the same are opposite. -/
theorem eq_negate_of_ne (hvar : l.var = k.var) (hsign : l.positive ≠ k.positive) :
    l = k.negate := by
  have hnot : l.positive = !k.positive := by
    cases h : k.positive <;> simp_all
  rw [Lit.negate, ← hvar, ← hnot]

/-- A variable is before its negation only. -/
theorem Before.eq_negate (h : k.Before l) (hvar : k.var = l.var) : l = k.negate := by
  refine eq_negate_of_ne hvar.symm ?_
  rcases h with hlt | ⟨-, hk, hl⟩
  · exact absurd hvar (Nat.ne_of_lt hlt)
  · simp [hk, hl]

end Lit

namespace Clause

variable {c d e : Clause} {k l : Lit}

/-! ## Literals in order -/

theorem mem_insert : k ∈ insert l c ↔ k = l ∨ k ∈ c := by
  induction c with
  | nil => simp [insert]
  | cons m rest ih =>
    rw [insert]
    split
    · exact List.mem_cons
    · rw [List.mem_cons, ih, List.mem_cons, or_left_comm]

theorem mem_inOrder : l ∈ inOrder c ↔ l ∈ c := by
  induction c with
  | nil => rfl
  | cons k c ih => rw [inOrder, List.foldr_cons, ← inOrder, mem_insert, ih, List.mem_cons]

/-- Inserting a literal keeps the order. -/
theorem pairwise_insert (h : c.Pairwise (fun k l => ¬ l.Before k)) :
    (insert l c).Pairwise (fun k l => ¬ l.Before k) := by
  induction c with
  | nil => simp [insert]
  | cons m rest ih =>
    obtain ⟨hm, hrest⟩ := List.pairwise_cons.1 h
    rw [insert]
    split
    · rename_i hlm
      refine List.pairwise_cons.2 ⟨?_, h⟩
      intro k hk hkl
      rcases List.mem_cons.1 hk with rfl | hk
      · exact Lit.Before.irrefl _ (hkl.trans hlm)
      · exact hm k hk (hkl.trans hlm)
    · rename_i hlm
      refine List.pairwise_cons.2 ⟨?_, ih hrest⟩
      intro k hk
      rcases mem_insert.1 hk with rfl | hk
      · exact hlm
      · exact hm k hk

/-- No literal comes after one that should come after it. -/
theorem pairwise_inOrder (c : Clause) : (inOrder c).Pairwise (fun k l => ¬ l.Before k) := by
  induction c with
  | nil => exact .nil
  | cons l c ih => exact pairwise_insert ih

/-- Without repetitions, each literal in order is before the next. -/
theorem pairwise_eraseReps (h : c.Pairwise (fun k l => ¬ l.Before k)) :
    c.eraseReps.Pairwise Lit.Before := by
  induction c with
  | nil => exact .nil
  | cons k c ih =>
    cases c with
    | nil => exact List.pairwise_singleton ..
    | cons l rest =>
      obtain ⟨hk, hrest⟩ := List.pairwise_cons.1 h
      rw [List.eraseReps_cons_cons]
      split
      · exact ih hrest
      · rename_i hne
        refine List.pairwise_cons.2 ⟨?_, ih hrest⟩
        have hkl : k.Before l := Lit.before_of_not_before hne (hk l (List.mem_cons_self ..))
        intro m hm
        rcases List.mem_cons.1 (List.mem_eraseReps.1 hm) with rfl | hm
        · exact hkl
        · -- What comes after `l` is `l` again, or `l` is before it.
          by_cases heq : l = m
          · exact heq ▸ hkl
          · exact hkl.trans
              (Lit.before_of_not_before heq ((List.pairwise_cons.1 hrest).1 m hm))

/-! ## Opposite literals -/

/-- In order, literals of one variable stand next to each other.  So they are found by looking at
neighbours only. -/
theorem neighboursClash_iff (h : c.Pairwise Lit.Before) :
    neighboursClash c = true ↔ ∃ l ∈ c, l.negate ∈ c := by
  induction c with
  | nil => simp [neighboursClash]
  | cons k c ih =>
    cases c with
    | nil => simp [neighboursClash, Lit.negate_ne]
    | cons l rest =>
      obtain ⟨hk, hrest⟩ := List.pairwise_cons.1 h
      have hkl := hk l (List.mem_cons_self ..)
      rw [neighboursClash, Bool.or_eq_true, beq_iff_eq, ih hrest]
      constructor
      · rintro (hvar | ⟨m, hm, hnot⟩)
        · have hopposite : l = k.negate := hkl.eq_negate hvar
          exact ⟨k, List.mem_cons_self .., by rw [← hopposite]; simp⟩
        · exact ⟨m, List.mem_cons_of_mem k hm, List.mem_cons_of_mem k hnot⟩
      · -- If the opposite of the first literal comes later, nothing can stand between the two.
        have hfirst (hnot : k.negate ∈ l :: rest) : k.var = l.var := by
          rcases List.mem_cons.1 hnot with heq | hmem
          · exact (congrArg Lit.var heq : k.negate.var = l.var)
          · have hle := ((List.pairwise_cons.1 hrest).1 _ hmem).var_le
            exact Nat.le_antisymm hkl.var_le hle
        rintro ⟨m, hm, hnot⟩
        rcases List.mem_cons.1 hm with rfl | hm
        · exact .inl (hfirst (List.mem_of_ne_of_mem (Lit.negate_ne m) hnot))
        · rcases List.mem_cons.1 hnot with rfl | hnot
          · exact .inl (hfirst (by rwa [Lit.negate_negate]))
          · exact .inr ⟨m, hm, hnot⟩

/-- Literals in order are of increasing variables if no two of them are opposite. -/
theorem normal_of_pairwise (h : c.Pairwise Lit.Before) (hnone : ¬ ∃ l ∈ c, l.negate ∈ c) :
    c.Normal := by
  refine h.imp_of_mem ?_
  intro k l hk hl hkl
  refine Nat.lt_of_le_of_ne hkl.var_le ?_
  intro hvar
  exact hnone ⟨k, hk, hkl.eq_negate hvar ▸ hl⟩

/-- Literals of increasing variables are in order. -/
theorem Normal.pairwise (h : c.Normal) : c.Pairwise Lit.Before :=
  h.imp (fun hlt => .inl hlt)

/-- No two literals are of the same variable. -/
theorem Normal.eq_of_var_eq (h : c.Normal) (hk : k ∈ c) (hl : l ∈ c) (hvar : k.var = l.var) :
    k = l := by
  by_contra hne
  have hsymm : Std.Symm (fun k l : Lit => k.var ≠ l.var) := ⟨fun _ _ hkl => hkl.symm⟩
  exact (h.imp (fun hlt => Nat.ne_of_lt hlt)).forall hk hl hne hvar

/-! ## Joins -/

/-- The literals of both clauses in order. -/
theorem joined_spec (c d : Clause) :
    (inOrder (c ++ d)).eraseReps.Pairwise Lit.Before ∧
      ∀ l, l ∈ (inOrder (c ++ d)).eraseReps ↔ l ∈ c ∨ l ∈ d := by
  refine ⟨pairwise_eraseReps (pairwise_inOrder _), ?_⟩
  intro l
  rw [List.mem_eraseReps, mem_inOrder, List.mem_append]

/-- There is no join exactly if one of both clauses holds a literal and one its opposite. -/
theorem merge?_eq_none_iff : merge? c d = none ↔
    ∃ l, (l ∈ c ∨ l ∈ d) ∧ (l.negate ∈ c ∨ l.negate ∈ d) := by
  obtain ⟨hpairwise, hmem⟩ := joined_spec c d
  simp only [merge?, ite_eq_left_iff, Bool.not_eq_true, reduceCtorEq, imp_false, Bool.not_eq_false]
  rw [neighboursClash_iff hpairwise]
  simp only [hmem]

/-- A join is in normal form and has just the literals of both clauses. -/
theorem merge?_spec (h : merge? c d = some e) : e.Normal ∧ ∀ l, l ∈ e ↔ l ∈ c ∨ l ∈ d := by
  obtain ⟨hpairwise, hmem⟩ := joined_spec c d
  simp only [merge?] at h
  split at h
  · cases h
  · rename_i hclash
    rw [neighboursClash_iff hpairwise] at hclash
    cases h
    exact ⟨normal_of_pairwise hpairwise hclash, hmem⟩

@[simp] theorem eval_nil (v : Nat → Bool) : eval v [] = false := rfl

@[simp] theorem eval_cons (v : Nat → Bool) (l : Lit) (c : Clause) :
    eval v (l :: c) = (l.eval v || eval v c) := by
  simp [eval]

/-- A clause with a true literal is true. -/
theorem eval_of_mem {v : Nat → Bool} (hl : l ∈ c) (h : l.eval v = true) : eval v c = true :=
  List.any_eq_true.2 ⟨l, hl, h⟩

/-- Joining two clauses joins their disjunctions. -/
theorem eval_merge? (v : Nat → Bool) (c d : Clause) :
    (merge? c d).elim true (eval v) = (eval v c || eval v d) := by
  cases hjoin : merge? c d with
  | none =>
    -- One of two opposite literals is true.
    obtain ⟨l, hl, hnot⟩ := merge?_eq_none_iff.1 hjoin
    rw [Option.elim_none, eq_comm, Bool.or_eq_true]
    cases hv : l.eval v with
    | true => exact hl.imp (fun hc => eval_of_mem hc hv) (fun hd => eval_of_mem hd hv)
    | false =>
      have hv' : l.negate.eval v = true := by rw [Lit.eval_negate, hv, Bool.not_false]
      exact hnot.imp (fun hc => eval_of_mem hc hv') (fun hd => eval_of_mem hd hv')
  | some e =>
    obtain ⟨-, hmem⟩ := merge?_spec hjoin
    rw [Option.elim_some, Bool.eq_iff_iff, Bool.or_eq_true]
    simp only [eval, List.any_eq_true, hmem, or_and_right, exists_or]

end Clause

end ProductLine
