import ProductLine.Clause
import Std.Data.HashMap
/-!
# Splitting on literals

A model of clauses can be found by making literals true and simplifying.  The literals of unit
clauses come first, in as many passes over the clauses as change something.  Where no unit clause is
left, both ways of making a literal true are tried.  Every step takes literals from the clauses, so
their number is a measure that ends the search.

* `Clause.assignAll` simplifies clauses by making a literal true;
* `Clause.propagate` makes unit clauses true until no clause changes;
* `Clause.split` finds a model, or finds that there is none.
-/
namespace ProductLine

namespace Clause

/-! ## Making a literal true -/

/-- Makes a literal true: clauses that hold it go, and its negation goes from the others. -/
def assignAll (l : Lit) (cs : List Clause) : List Clause :=
  let opposite := l.negate
  (cs.filter (fun c => l ∉ c)).map (fun c => c.filter (· ≠ opposite))

/-- The number of literals, with repetitions. -/
def weight : List Clause → Nat
  | [] => 0
  | c :: cs => c.length + weight cs

theorem weight_cons (c : Clause) (cs : List Clause) :
    weight (c :: cs) = c.length + weight cs := rfl

/-- A clause with the literal is true and goes. -/
theorem assignAll_cons_of_mem {l : Lit} {c : Clause} (h : l ∈ c) (cs : List Clause) :
    assignAll l (c :: cs) = assignAll l cs := by
  simp [assignAll, h]

/-- Other clauses lose the opposite literal. -/
theorem assignAll_cons_of_not_mem {l : Lit} {c : Clause} (h : l ∉ c) (cs : List Clause) :
    assignAll l (c :: cs) = c.filter (· ≠ l.negate) :: assignAll l cs := by
  simp [assignAll, h]

/-- Making a literal true never adds literals. -/
theorem weight_assignAll_le (l : Lit) (cs : List Clause) :
    weight (assignAll l cs) ≤ weight cs := by
  induction cs with
  | nil => simp [assignAll, weight]
  | cons c cs ih =>
      rw [weight_cons]
      by_cases h : l ∈ c
      · rw [assignAll_cons_of_mem h]
        omega
      · rw [assignAll_cons_of_not_mem h, weight_cons]
        have := List.length_filter_le (fun x => decide (x ≠ l.negate)) c
        omega

/-- Making a literal true removes literals if it or its negation occurs. -/
theorem weight_assignAll_lt {l : Lit} {cs : List Clause}
    (h : ∃ c ∈ cs, l ∈ c ∨ l.negate ∈ c) : weight (assignAll l cs) < weight cs := by
  induction cs with
  | nil => simp at h
  | cons c cs ih =>
      have hle := weight_assignAll_le l cs
      rw [weight_cons]
      by_cases hl : l ∈ c
      · have := List.length_pos_of_mem hl
        rw [assignAll_cons_of_mem hl]
        omega
      · rw [assignAll_cons_of_not_mem hl, weight_cons]
        by_cases hn : l.negate ∈ c
        · have hlt : (c.filter (· ≠ l.negate)).length < c.length := by
            apply List.length_filter_lt_length_iff_exists.2
            exact ⟨l.negate, hn, by simp⟩
          omega
        · have hrest : ∃ d ∈ cs, l ∈ d ∨ l.negate ∈ d := by
            obtain ⟨d, hd, hld⟩ := h
            rcases List.mem_cons.1 hd with rfl | hd
            · exact absurd hld (by simp [hl, hn])
            · exact ⟨d, hd, hld⟩
          have := ih hrest
          have := List.length_filter_le (fun x => decide (x ≠ l.negate)) c
          omega

/-! ## Unit clauses -/

/-- A clause without its literals that are known to be false; `none` if one is known to be true. -/
def reduce? (known : Std.HashMap Nat Bool) : Clause → Option Clause
  | [] => some []
  | l :: c =>
      match known[l.var]? with
      | none => (reduce? known c).map (l :: ·)
      | some value => if value = l.positive then none else reduce? known c

/-- What is left of clauses when unit clauses are made true. -/
structure Settled where
  /-- The values of the variables that are in unit clauses. -/
  known : Std.HashMap Nat Bool
  /-- The literals that were made true, last first. -/
  made : List Lit
  /-- The clauses that are left, last first. -/
  left : List Clause

/-- Goes over clauses once and makes the literal true where only one is left of a clause; `none` if
a clause becomes empty. -/
def settle : List Clause → Settled → Option Settled
  | [], s => some s
  | c :: cs, s =>
      match reduce? s.known c with
      | none => settle cs s
      | some [] => none
      | some [l] =>
          settle cs { s with known := s.known.insert l.var l.positive, made := l :: s.made }
      | some (k :: l :: d) => settle cs { s with left := (k :: l :: d) :: s.left }

/-- A clause that is reduced does not grow. -/
theorem length_le_of_reduce? {known : Std.HashMap Nat Bool} {c d : Clause}
    (h : reduce? known c = some d) : d.length ≤ c.length := by
  induction c generalizing d with
  | nil => simp_all [reduce?]
  | cons l c ih =>
      simp only [reduce?] at h
      split at h
      · obtain ⟨e, he, rfl⟩ := Option.map_eq_some_iff.1 h
        simpa using ih he
      · split at h
        · simp at h
        · have := ih h
          simp only [List.length_cons]
          omega

/-- Every literal that is made true is one literal less in the clauses that are left. -/
theorem weight_settle_le {cs : List Clause} {s t : Settled} (h : settle cs s = some t) :
    t.made.length + weight t.left ≤ s.made.length + weight s.left + weight cs := by
  induction cs generalizing s with
  | nil => simp_all [settle, weight]
  | cons c cs ih =>
      rw [weight_cons]
      simp only [settle] at h
      split at h
      · have := ih h
        omega
      · simp at h
      · rename_i hc
        have := ih h
        have := length_le_of_reduce? hc
        simp only [List.length_cons] at *
        omega
      · rename_i hc
        have := ih h
        have := length_le_of_reduce? hc
        simp only [weight_cons] at *
        omega

/-- Makes unit clauses true until no clause changes.  The result is the literals that were made
true and the clauses that are left; `none` if a clause becomes empty. -/
def propagate (known : Std.HashMap Nat Bool) (cs : List Clause) :
    Option (List Lit × List Clause) :=
  match _h : settle cs ⟨known, [], []⟩ with
  | none => none
  | some ⟨known, made, left⟩ =>
      if _hm : made = [] then some ([], left)
      else (propagate known left).map (fun (more, left) => (made.reverse ++ more, left))
termination_by weight cs
decreasing_by
  have hle := weight_settle_le _h
  have hpos := List.length_pos_iff.2 _hm
  simp only [List.length_nil, weight] at hle
  omega

/-- Making unit clauses true never adds literals. -/
theorem weight_propagate_le {known : Std.HashMap Nat Bool} {cs left : List Clause}
    {made : List Lit} (h : propagate known cs = some (made, left)) : weight left ≤ weight cs := by
  rw [propagate] at h
  split at h
  · simp at h
  · rename_i known' made' left' hs
    have hle := weight_settle_le hs
    simp only [List.length_nil, weight] at hle
    split at h
    · simp only [Option.some.injEq, Prod.mk.injEq] at h
      rw [← h.2]
      omega
    · rename_i hm
      have hpos := List.length_pos_iff.2 hm
      have hlt : weight left' < weight cs := by omega
      obtain ⟨⟨more, rest⟩, hp, he⟩ := Option.map_eq_some_iff.1 h
      have := weight_propagate_le hp
      simp only [Prod.mk.injEq] at he
      rw [← he.2]
      omega
termination_by weight cs
decreasing_by exact hlt

/-- Makes unit clauses true, if there are any; `none` if a clause is empty or becomes so. -/
def simplify (cs : List Clause) : Option (List Lit × List Clause) :=
  if cs.all (fun c => 2 ≤ c.length) then some ([], cs) else propagate ∅ cs

/-- Simplifying never adds literals. -/
theorem weight_simplify_le {cs left : List Clause} {made : List Lit}
    (h : simplify cs = some (made, left)) : weight left ≤ weight cs := by
  unfold simplify at h
  split at h
  · simp_all
  · exact weight_propagate_le h

/-! ## Splitting -/

/-- Of a literal and its negation the one that is in more clauses. -/
def commoner (l : Lit) (cs : List Clause) : Lit :=
  if cs.countP (l ∈ ·) < cs.countP (l.negate ∈ ·) then l.negate else l

/-- The commoner literal is about the same variable. -/
theorem commoner_eq_or (l : Lit) (cs : List Clause) :
    commoner l cs = l ∨ commoner l cs = l.negate := by
  unfold commoner
  split <;> simp

/-- If a literal is in some clause, so is the commoner one or its negation. -/
theorem exists_mem_commoner {l : Lit} {cs : List Clause} (h : ∃ c ∈ cs, l ∈ c) :
    ∃ c ∈ cs, commoner l cs ∈ c ∨ (commoner l cs).negate ∈ c := by
  obtain ⟨c, hc, hl⟩ := h
  rcases commoner_eq_or l cs with h | h
  · exact ⟨c, hc, .inl (by rwa [h])⟩
  · exact ⟨c, hc, .inr (by rwa [h, Lit.negate_negate])⟩

/-- A model of the clauses, as the list of literals that were made true, or `none`.  Where there
is no unit clause, a literal is tried that is in many clauses. -/
def split (cs : List Clause) : Option (List Lit) :=
  match _h : simplify cs with
  | none => none
  | some (made, []) => some made
  | some (_, [] :: _) => none
  | some (made, (l :: c) :: rest) =>
      let k := commoner l ((l :: c) :: rest)
      -- Some model makes the literal or its negation true, if there is one.
      match split (assignAll k ((l :: c) :: rest)) with
      | some model => some (made ++ k :: model)
      | none =>
          (split (assignAll k.negate ((l :: c) :: rest))).map
            (fun model => made ++ k.negate :: model)
termination_by weight cs
decreasing_by
  · have := weight_simplify_le _h
    have := weight_assignAll_lt
      (@exists_mem_commoner l ((l :: c) :: rest) ⟨l :: c, by simp, by simp⟩)
    omega
  · have := weight_simplify_le _h
    obtain ⟨d, hd, h⟩ := @exists_mem_commoner l ((l :: c) :: rest)
      ⟨l :: c, by simp, by simp⟩
    have := weight_assignAll_lt (l := (commoner l ((l :: c) :: rest)).negate)
      ⟨d, hd, by simpa [or_comm] using h⟩
    omega

end Clause

end ProductLine
