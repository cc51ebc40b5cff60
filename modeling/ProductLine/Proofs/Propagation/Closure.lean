import Mathlib.Data.Set.Basic
import Mathlib.Order.Bounds.Defs
import Mathlib.Tactic.Common
import ProductLine.Proofs.Propagation
import ProductLine.Proofs.Satisfiability.Trust
/-!
# Unit propagation fixes exactly what follows by units

A literal follows by units if all other literals of one of the clauses are denied by what follows.
Propagation goes over the clauses in order and stops at the first false one.  Neither this order nor
the place where it stops matters for what it finds out.

* `Clause.Derivable` says what follows by units, and `Clause.isLeast_derivable` that it is the least
  set that is closed under the rule;
* `Fixed.sweep_keeps` and `Fixed.propagateFor_keeps` carry an invariant of a single step through a
  sweep and through all sweeps;
* `Fixed.propagateFor_ended` says that the sweeps end by themselves, as each of them closes a
  variable;
* `Fixed.conflict_iff` and `Fixed.mem_lits_iff_derivable` describe the result without the order, and
  `Fixed.propagate_least` puts everything together.
-/
namespace ProductLine

/-! ## The unit rule -/

namespace Clause

/-- What follows from clauses by units. -/
inductive Derivable (cs : List Clause) : Lit → Prop where
  | unit {c : Clause} {l : Lit} (hc : c ∈ cs) (hl : l ∈ c)
      (hothers : ∀ k ∈ c, k ≠ l → Derivable cs k.negate) : Derivable cs l

/-- A set of literals has every literal that a clause leaves when its others are denied. -/
def UnitClosed (cs : List Clause) (known : Set Lit) : Prop :=
  ∀ c ∈ cs, ∀ l ∈ c, (∀ k ∈ c, k ≠ l → k.negate ∈ known) → l ∈ known

/-- What follows by units is the least set that is closed under the rule. -/
theorem isLeast_derivable (cs : List Clause) :
    IsLeast {known | UnitClosed cs known} {l | Derivable cs l} := by
  constructor
  · intro c hc l hl hothers
    exact .unit hc hl hothers
  · intro known hknown l hl
    induction hl with
    | unit hc hl _ ih => exact hknown _ hc _ hl ih

/-- More clauses have more that follows. -/
theorem Derivable.mono {cs cs' : List Clause} (hsub : cs ⊆ cs') {l : Lit} (h : Derivable cs l) :
    Derivable cs' l := by
  induction h with
  | unit hc hl _ ih => exact .unit (hsub hc) hl ih

end Clause

open Clause (Derivable UnitClosed)

namespace Fixed

/-! ## Fixed literals -/

section Values

variable {fixed : Fixed} {k l : Lit}

/-- A literal is true if its variable has the value that it asks for. -/
theorem litValue?_eq_true_iff :
    fixed.litValue? l = some true ↔ fixed.value? l.var = some l.positive := by
  simp [litValue?]

/-- A negation has the opposite value. -/
theorem litValue?_negate : fixed.litValue? l.negate = (fixed.litValue? l).map (!·) := by
  unfold litValue?
  rw [Option.map_map]
  congr 1
  funext value
  cases value <;> cases h : l.positive <;> simp [Lit.negate, h]

/-- A literal is false exactly if its negation is true. -/
theorem litValue?_negate_eq_true_iff :
    fixed.litValue? l.negate = some true ↔ fixed.litValue? l = some false := by
  simp [litValue?_negate]

/-- The literals that are listed are the true ones. -/
theorem mem_lits : l ∈ fixed.lits ↔ fixed.litValue? l = some true := by
  rw [litValue?_eq_true_iff]
  obtain ⟨i, positive⟩ := l
  simp [lits, value?, List.mem_zipIdx_iff_getElem?, Option.join_eq_some_iff]

/-- Values for the same variables that make the same literals true are the same. -/
theorem eq_of_lits {fixed' : Fixed} (hsize : fixed.size = fixed'.size)
    (h : ∀ l, l ∈ fixed.lits ↔ l ∈ fixed'.lits) : fixed = fixed' := by
  refine Array.ext hsize ?_
  intro i hi hi'
  apply Option.ext
  intro positive
  have hlit := h ⟨i, positive⟩
  simpa [mem_lits, litValue?_eq_true_iff, value?, Option.join_eq_some_iff, hi, hi'] using hlit

end Values

/-! ## Fixing a literal -/

section Step

variable {n : Nat} {fixed : Fixed} {c : Clause} {k l : Lit} {cs : List Clause}

@[simp] theorem size_fix : (fixed.fix l).size = fixed.size := by
  simp [fix]

/-- Fixing a literal decides its variable and leaves the others alone. -/
theorem litValue?_fix (hl : l.var < fixed.size) :
    (fixed.fix l).litValue? k =
      if l.var = k.var then some (l.positive == k.positive) else fixed.litValue? k := by
  unfold litValue? value? fix
  rw [Array.getElem?_setIfInBounds]
  split
  · rename_i hvar
    simp
  · rfl

/-- To fix an open literal adds it to those that are fixed. -/
theorem mem_lits_fix (hl : l.var < fixed.size) (hopen : fixed.litValue? l = Option.none) :
    k ∈ (fixed.fix l).lits ↔ k = l ∨ k ∈ fixed.lits := by
  rw [mem_lits, mem_lits, litValue?_fix hl]
  split
  · rename_i hvar
    have hvalue : fixed.litValue? k = Option.none := by
      rw [litValue?] at hopen ⊢
      rw [← hvar]
      simpa using hopen
    rw [hvalue]
    obtain ⟨i, positive⟩ := k
    obtain ⟨j, positive'⟩ := l
    obtain rfl : j = i := hvar
    simp [eq_comm (a := positive')]
  · rename_i hvar
    have hne : k ≠ l := fun heq => hvar (heq ▸ rfl)
    simp [hne]

/-- The number of variables without a value. -/
def openCount (fixed : Fixed) : Nat := fixed.toList.count Option.none

/-- To fix an open literal closes its variable. -/
theorem openCount_fix_lt (hl : l.var < fixed.size) (hopen : fixed.litValue? l = Option.none) :
    (fixed.fix l).openCount < fixed.openCount := by
  have hlength : l.var < fixed.toList.length := by rwa [Array.length_toList]
  have hnone : fixed.toList[l.var] = Option.none := by
    have hvalue : fixed.value? l.var = Option.none := by simpa [litValue?] using hopen
    simpa [value?, hl] using hvalue
  have hpos : 0 < fixed.toList.count Option.none :=
    List.count_pos_iff.2 (hnone ▸ List.getElem_mem hlength)
  have hcount : (fixed.toList.set l.var (some l.positive)).count Option.none =
      fixed.toList.count Option.none - 1 := by
    simp [List.count_set hlength, hnone]
  rw [openCount, openCount, fix, Array.toList_setIfInBounds, hcount]
  omega

/-! ## What the status of a clause says -/

/-- All literals of a falsified clause are false. -/
theorem litValue?_of_falsified (h : fixed.examine c = .falsified) (hk : k ∈ c) :
    fixed.litValue? k = some false := by
  unfold examine at h
  split at h
  · cases h
  · rename_i htrue
    split at h
    · rename_i hopen
      have hsome := List.filter_eq_nil_iff.1 hopen k hk
      cases hvalue : fixed.litValue? k with
      | none => simp [hvalue] at hsome
      | some value =>
        cases value with
        | false => rfl
        | true => exact absurd (List.any_eq_true.2 ⟨k, hk, by simp [hvalue]⟩) htrue
    · cases h
    · cases h

/-- In a unit clause all literals but one are false, and that one is open. -/
theorem litValue?_of_unit (h : fixed.examine c = .unit l) :
    l ∈ c ∧ fixed.litValue? l = Option.none ∧ ∀ k ∈ c, k ≠ l → fixed.litValue? k = some false := by
  unfold examine at h
  split at h
  · cases h
  · rename_i htrue
    split at h
    · cases h
    · rename_i m hopen
      cases h
      have hmem : ∀ k, k ∈ c ∧ fixed.litValue? k = Option.none ↔ k = l := by
        intro k
        have hfilter : k ∈ c.filter (fun l => fixed.litValue? l == Option.none) ↔ k = l := by
          rw [hopen, List.mem_singleton]
        rwa [List.mem_filter, beq_iff_eq] at hfilter
      obtain ⟨hl, hnone⟩ := (hmem l).2 rfl
      refine ⟨hl, hnone, ?_⟩
      intro k hk hne
      cases hvalue : fixed.litValue? k with
      | none => exact absurd ((hmem k).1 ⟨hk, hvalue⟩) hne
      | some value =>
        cases value with
        | false => rfl
        | true => exact absurd (List.any_eq_true.2 ⟨k, hk, by simp [hvalue]⟩) htrue
    · cases h

/-- A clause that propagation passes over has a true literal, or two different open ones.  If a
literal could stand in it twice, these might be the same. -/
def Passed (fixed : Fixed) (c : Clause) : Prop :=
  (∃ l ∈ c, l ∈ fixed.lits) ∨ ∃ k ∈ c, ∃ l ∈ c, k ≠ l ∧
    fixed.litValue? k = Option.none ∧ fixed.litValue? l = Option.none

/-- A clause that neither forces a literal nor is falsified is done with. -/
theorem passed_of_examine (hc : c.Nodup)
    (h : fixed.examine c = .satisfied ∨ fixed.examine c = .undecided) : fixed.Passed c := by
  unfold examine at h
  split at h
  · rename_i htrue
    obtain ⟨l, hl, hvalue⟩ := List.any_eq_true.1 htrue
    exact .inl ⟨l, hl, mem_lits.2 (beq_iff_eq.1 hvalue)⟩
  · split at h
    · simp at h
    · simp at h
    · rename_i k l rest hopen
      have hopened : ∀ m ∈ k :: l :: rest, m ∈ c ∧ fixed.litValue? m = Option.none := by
        intro m hm
        rw [← hopen] at hm
        obtain ⟨hmem, hnone⟩ := List.mem_filter.1 hm
        exact ⟨hmem, beq_iff_eq.1 hnone⟩
      have hnodup : (k :: l :: rest).Nodup := hopen ▸ hc.filter _
      have hne : k ≠ l := fun heq => (List.nodup_cons.1 hnodup).1 (heq ▸ List.mem_cons_self ..)
      obtain ⟨hk, hknone⟩ := hopened k (by simp)
      obtain ⟨hl, hlnone⟩ := hopened l (by simp)
      exact .inr ⟨k, hk, l, hl, hne, hknone, hlnone⟩

end Step

/-! ## Sweeps -/

section Sweep

variable {n : Nat} {fixed : Fixed} {cs : List Clause}

/-- What every single step keeps is kept by a sweep, and it holds where a false clause is met. -/
theorem sweep_keeps {inv : Fixed → Prop}
    (hstep : ∀ f c l, inv f → c ∈ cs → f.examine c = .unit l → inv (f.fix l)) (h : inv fixed) :
    inv (fixed.sweep cs).fixed ∧ ((fixed.sweep cs).conflict = true →
      ∃ c ∈ cs, (fixed.sweep cs).fixed.examine c = .falsified) := by
  induction cs generalizing fixed with
  | nil => exact ⟨h, nofun⟩
  | cons c cs ih =>
    have hrest : ∀ f d l, inv f → d ∈ cs → f.examine d = .unit l → inv (f.fix l) :=
      fun f d l hf hd => hstep f d l hf (List.mem_cons_of_mem c hd)
    have hlater : ∀ f, inv f → inv (f.sweep cs).fixed ∧ ((f.sweep cs).conflict = true →
        ∃ d ∈ c :: cs, (f.sweep cs).fixed.examine d = .falsified) := by
      intro f hf
      obtain ⟨hkept, hmet⟩ := ih hrest hf
      refine ⟨hkept, fun hconflict => ?_⟩
      obtain ⟨d, hd, hfalse⟩ := hmet hconflict
      exact ⟨d, List.mem_cons_of_mem c hd, hfalse⟩
    rw [sweep]
    split
    · rename_i hfalse
      exact ⟨h, fun _ => ⟨c, List.mem_cons_self .., hfalse⟩⟩
    · rename_i l hunit
      exact hlater _ (hstep fixed c l h (List.mem_cons_self ..) hunit)
    · exact hlater fixed h
    · exact hlater fixed h

/-- What every single step keeps is kept by propagation, and it holds where a false clause is
met. -/
theorem propagateFor_keeps {inv : Fixed → Prop} (rounds : Nat)
    (hstep : ∀ f c l, inv f → c ∈ cs → f.examine c = .unit l → inv (f.fix l)) (h : inv fixed) :
    inv (propagateFor cs rounds fixed).fixed ∧ ((propagateFor cs rounds fixed).conflict = true →
      ∃ c ∈ cs, (propagateFor cs rounds fixed).fixed.examine c = .falsified) := by
  induction rounds generalizing fixed with
  | zero => exact ⟨h, nofun⟩
  | succ rounds ih =>
    have hswept := sweep_keeps hstep h
    simp only [propagateFor]
    split
    · exact hswept
    · exact ih hswept.1

/-- A sweep fixes no further variables than there are. -/
theorem size_sweep : (fixed.sweep cs).fixed.size = fixed.size := by
  have hstep : ∀ (f : Fixed) (c : Clause) (l : Lit), f.size = fixed.size → c ∈ cs →
      f.examine c = .unit l → (f.fix l).size = fixed.size := by
    intro f c l hf _ _
    rw [size_fix, hf]
  exact (sweep_keeps hstep rfl).1

/-- A sweep opens no variable. -/
theorem openCount_sweep_le (hcs : ∀ c ∈ cs, c.InRange fixed.size) :
    (fixed.sweep cs).fixed.openCount ≤ fixed.openCount := by
  have hstep : ∀ (f : Fixed) (c : Clause) (l : Lit),
      (f.size = fixed.size ∧ f.openCount ≤ fixed.openCount) → c ∈ cs → f.examine c = .unit l →
        (f.fix l).size = fixed.size ∧ (f.fix l).openCount ≤ fixed.openCount := by
    rintro f c l ⟨hsize, hle⟩ hc hunit
    obtain ⟨hl, hopen, -⟩ := litValue?_of_unit hunit
    have hlt := openCount_fix_lt (hsize ▸ hcs c hc l hl) hopen
    exact ⟨by rw [size_fix, hsize], by omega⟩
  exact (sweep_keeps hstep ⟨rfl, Nat.le_refl _⟩).1.2

/-- A sweep that meets no false clause closes a variable, or passes over all clauses. -/
theorem sweep_closes (hcs : ∀ c ∈ cs, c.InRange fixed.size)
    (hconflict : (fixed.sweep cs).conflict = false) :
    (fixed.sweep cs).fixed.openCount < fixed.openCount ∨
      (fixed.sweep cs).fixed = fixed ∧
        ∀ c ∈ cs, fixed.examine c = .satisfied ∨ fixed.examine c = .undecided := by
  induction cs with
  | nil => exact .inr ⟨rfl, by simp⟩
  | cons c cs ih =>
    obtain ⟨hc, hrest⟩ := List.forall_mem_cons.1 hcs
    rw [sweep] at hconflict ⊢
    split at hconflict
    · cases hconflict
    · rename_i l hunit
      -- The first unit clause closes a variable, which stays closed.
      obtain ⟨hl, hopen, -⟩ := litValue?_of_unit hunit
      have hlt := openCount_fix_lt (hc l hl) hopen
      have hle : ((fixed.fix l).sweep cs).fixed.openCount ≤ (fixed.fix l).openCount :=
        openCount_sweep_le (by rwa [size_fix])
      exact .inl (by omega)
    · rename_i hstatus
      exact (ih hrest hconflict).imp_right
        (And.imp_right fun hpassed => List.forall_mem_cons.2 ⟨.inl hstatus, hpassed⟩)
    · rename_i hstatus
      exact (ih hrest hconflict).imp_right
        (And.imp_right fun hpassed => List.forall_mem_cons.2 ⟨.inr hstatus, hpassed⟩)

end Sweep

/-! ## The end of propagation -/

section Ended

variable {fixed : Fixed} {cs : List Clause} {rounds : Nat}

/-- A sweep after which another one follows has closed a variable. -/
theorem openCount_sweep_lt (hcs : ∀ c ∈ cs, c.InRange fixed.size)
    (hgoes : ¬ ((fixed.sweep cs).conflict || (fixed.sweep cs).fixed == fixed) = true) :
    (fixed.sweep cs).fixed.openCount < fixed.openCount := by
  rw [Bool.or_eq_true, beq_iff_eq, not_or, Bool.not_eq_true] at hgoes
  exact (sweep_closes hcs hgoes.1).resolve_right fun h => hgoes.2 h.1

/-- Propagation ends by itself: further rounds change nothing. -/
theorem propagateFor_eq (hcs : ∀ c ∈ cs, c.InRange fixed.size) (hrounds : fixed.openCount < rounds)
    {most : Nat} (hmost : rounds ≤ most) :
    propagateFor cs most fixed = propagateFor cs rounds fixed := by
  induction rounds generalizing fixed most with
  | zero => exact absurd hrounds (Nat.not_lt_zero _)
  | succ rounds ih =>
    obtain ⟨most, rfl⟩ := Nat.exists_eq_add_of_le' (Nat.one_le_of_lt hmost)
    simp only [propagateFor]
    split
    · rfl
    · rename_i hgoes
      have hlt := openCount_sweep_lt hcs hgoes
      exact ih (by rwa [size_sweep]) (by omega) (Nat.le_of_succ_le_succ hmost)

/-- Propagation ends at a false clause, or when it passes over all clauses. -/
theorem propagateFor_passed (hcs : ∀ c ∈ cs, c.InRange fixed.size) (hnodup : ∀ c ∈ cs, c.Nodup)
    (hrounds : fixed.openCount < rounds)
    (hconflict : (propagateFor cs rounds fixed).conflict = false) :
    ∀ c ∈ cs, (propagateFor cs rounds fixed).fixed.Passed c := by
  induction rounds generalizing fixed with
  | zero => exact absurd hrounds (Nat.not_lt_zero _)
  | succ rounds ih =>
    simp only [propagateFor] at hconflict ⊢
    split at hconflict
    · rename_i hends
      rw [if_pos hends]
      -- The last sweep changed nothing, so it passed over all clauses with the final values.
      rw [hconflict, Bool.false_or, beq_iff_eq] at hends
      obtain hlt | ⟨-, hpassed⟩ := sweep_closes hcs hconflict
      · rw [hends] at hlt
        exact absurd hlt (Nat.lt_irrefl _)
      · intro c hc
        rw [hends]
        exact passed_of_examine (hnodup c hc) (hpassed c hc)
    · rename_i hgoes
      rw [if_neg hgoes]
      have hlt := openCount_sweep_lt hcs hgoes
      exact ih (by rwa [size_sweep]) (by omega) hconflict

end Ended

/-! ## The result without the order -/

section Result

variable {n : Nat} {cs cs' : List Clause} {l : Lit}

theorem openCount_none (n : Nat) : (none n).openCount = n := by
  simp [openCount, none]

theorem size_none (n : Nat) : (none n).size = n := by
  simp [none]

theorem lits_none (n : Nat) : (none n).lits = [] := by
  rw [List.eq_nil_iff_forall_not_mem]
  intro l hl
  rw [mem_lits, litValue?_eq_true_iff] at hl
  rw [value?, none, Array.getElem?_replicate] at hl
  split at hl <;> simp at hl

/-- Everything that propagation fixes follows by units, as does the negation of all literals of the
clause that stops it. -/
theorem derivable_of_propagate (hrange : ∀ c ∈ cs, c.InRange n) :
    (∀ l ∈ (propagate n cs).fixed.lits, Derivable cs l) ∧ ((propagate n cs).conflict = true →
      ∃ c ∈ cs, ∀ l ∈ c, Derivable cs l.negate) := by
  have hstep : ∀ (f : Fixed) (c : Clause) (l : Lit),
      (f.size = n ∧ ∀ k ∈ f.lits, Derivable cs k) → c ∈ cs → f.examine c = .unit l →
        (f.fix l).size = n ∧ ∀ k ∈ (f.fix l).lits, Derivable cs k := by
    rintro f c l ⟨hsize, hfounded⟩ hc hunit
    obtain ⟨hl, hopen, hfalse⟩ := litValue?_of_unit hunit
    refine ⟨by rw [size_fix, hsize], ?_⟩
    intro k hk
    rcases (mem_lits_fix (hsize ▸ hrange c hc l hl) hopen).1 hk with rfl | hk
    · refine .unit hc hl fun m hm hne => hfounded _ ?_
      rw [mem_lits, litValue?_negate_eq_true_iff]
      exact hfalse m hm hne
    · exact hfounded k hk
  have hstart : (none n).size = n ∧ ∀ k ∈ (none n).lits, Derivable cs k :=
    ⟨size_none n, by simp [lits_none]⟩
  obtain ⟨⟨-, hfounded⟩, hmet⟩ := propagateFor_keeps (n + 1) hstep hstart
  refine ⟨hfounded, fun hconflict => ?_⟩
  obtain ⟨c, hc, hfalse⟩ := hmet hconflict
  refine ⟨c, hc, fun l hl => hfounded _ ?_⟩
  rw [mem_lits, litValue?_negate_eq_true_iff]
  exact litValue?_of_falsified hfalse hl

/-- Propagation keeps one place for each variable. -/
theorem size_propagate : (propagate n cs).fixed.size = n := by
  have hstep : ∀ (f : Fixed) (c : Clause) (l : Lit), f.size = n → c ∈ cs →
      f.examine c = .unit l → (f.fix l).size = n := by
    intro f c l hf _ _
    rw [size_fix, hf]
  exact (propagateFor_keeps (n + 1) hstep (size_none n)).1

/-- Propagation without a conflict is done with every clause. -/
theorem propagate_passed (hrange : ∀ c ∈ cs, c.InRange n) (hnodup : ∀ c ∈ cs, c.Nodup)
    (hconflict : (propagate n cs).conflict = false) :
    ∀ c ∈ cs, (propagate n cs).fixed.Passed c :=
  propagateFor_passed (by rwa [size_none]) hnodup (by rw [openCount_none]; omega) hconflict

/-- A clause that was passed over and whose literals but for one are denied has that one, and it is
fixed. -/
theorem mem_of_passed {fixed : Fixed} {c : Clause} (h : fixed.Passed c) (l : Lit)
    (hothers : ∀ k ∈ c, k ≠ l → k.negate ∈ fixed.lits) : l ∈ c ∧ l ∈ fixed.lits := by
  have hdenied : ∀ k ∈ c, k ≠ l → fixed.litValue? k = some false := by
    intro k hk hne
    exact litValue?_negate_eq_true_iff.1 (mem_lits.1 (hothers k hk hne))
  rcases h with ⟨m, hm, htrue⟩ | ⟨k, hk, m, hm, hne, hkopen, hmopen⟩
  · by_cases heq : m = l
    · exact heq ▸ ⟨hm, htrue⟩
    · rw [mem_lits, hdenied m hm heq] at htrue
      cases htrue
  · by_cases heq : k = l
    · rw [hdenied m hm (fun hml => hne (heq.trans hml.symm))] at hmopen
      cases hmopen
    · rw [hdenied k hk heq] at hkopen
      cases hkopen

/-- Where no false clause is met, exactly what follows by units is fixed. -/
theorem mem_lits_iff_derivable (hrange : ∀ c ∈ cs, c.InRange n) (hnodup : ∀ c ∈ cs, c.Nodup)
    (hconflict : (propagate n cs).conflict = false) :
    l ∈ (propagate n cs).fixed.lits ↔ Derivable cs l := by
  refine ⟨(derivable_of_propagate hrange).1 l, fun hl => ?_⟩
  have hclosed : UnitClosed cs {l | l ∈ (propagate n cs).fixed.lits} := by
    intro c hc l _ hothers
    exact (mem_of_passed (propagate_passed hrange hnodup hconflict c hc) l hothers).2
  exact (Clause.isLeast_derivable cs).2 hclosed hl

/-- A false clause is met exactly if there is one whose literals are all denied by units. -/
theorem conflict_iff (hrange : ∀ c ∈ cs, c.InRange n) (hnodup : ∀ c ∈ cs, c.Nodup) :
    (propagate n cs).conflict = true ↔ ∃ c ∈ cs, ∀ l ∈ c, Derivable cs l.negate := by
  refine ⟨(derivable_of_propagate hrange).2, ?_⟩
  rintro ⟨c, hc, hdenied⟩
  by_contra hconflict
  rw [Bool.not_eq_true] at hconflict
  have hpassed := propagate_passed hrange hnodup hconflict c hc
  have hfalse : ∀ l ∈ c, l.negate ∈ (propagate n cs).fixed.lits :=
    fun l hl => (mem_lits_iff_derivable hrange hnodup hconflict).2 (hdenied l hl)
  -- Any literal would be true in the clause, although all of them are denied.
  obtain ⟨hl, htrue⟩ := mem_of_passed hpassed default fun k hk _ => hfalse k hk
  have hnegated := litValue?_negate_eq_true_iff.1 (mem_lits.1 (hfalse _ hl))
  rw [mem_lits.1 htrue] at hnegated
  cases hnegated

/-- The result depends only on which clauses there are. -/
theorem propagate_congr (hrange : ∀ c ∈ cs, c.InRange n) (hnodup : ∀ c ∈ cs, c.Nodup)
    (hsame : ∀ c, c ∈ cs' ↔ c ∈ cs) : (propagate n cs').conflict = (propagate n cs).conflict ∧
      ((propagate n cs).conflict = false → propagate n cs' = propagate n cs) := by
  have hrange' : ∀ c ∈ cs', c.InRange n := fun c hc => hrange c ((hsame c).1 hc)
  have hnodup' : ∀ c ∈ cs', c.Nodup := fun c hc => hnodup c ((hsame c).1 hc)
  have hderivable : ∀ l, Derivable cs' l ↔ Derivable cs l :=
    fun l => ⟨.mono fun c => (hsame c).1, .mono fun c => (hsame c).2⟩
  have hconflict : (propagate n cs').conflict = (propagate n cs).conflict := by
    rw [Bool.eq_iff_iff, conflict_iff hrange' hnodup', conflict_iff hrange hnodup]
    simp only [hsame, hderivable]
  refine ⟨hconflict, fun hnone => ?_⟩
  have hfixed : (propagate n cs').fixed = (propagate n cs).fixed := by
    refine eq_of_lits ?_ fun l => ?_
    · rw [size_propagate, size_propagate]
    · rw [mem_lits_iff_derivable hrange' hnodup' (hconflict.trans hnone),
        mem_lits_iff_derivable hrange hnodup hnone, hderivable]
  calc propagate n cs' = ⟨(propagate n cs').fixed, (propagate n cs').conflict⟩ := rfl
    _ = ⟨(propagate n cs).fixed, (propagate n cs).conflict⟩ := by rw [hfixed, hconflict]

end Result

/-- **Propagation finds exactly what follows by units.**  Take formulas over the first `n` variables
in whose clauses no literal is repeated.  The sweeps end by themselves, so a higher bound changes
nothing.  If a false clause is met, the formulas cannot be true together.  If none is met, the fixed
literals are the least set that is closed under the unit rule, every clause has a true literal or
two different open ones, and every model of the formulas makes the fixed literals true.

The same clauses in another order, within their formulas or across them, lead to a false clause as
well, or else to the same values. -/
theorem propagate_least {n : Nat} {formulas : List ClauseSet}
    (hrange : ∀ set ∈ formulas, set.InRange n)
    (hnodup : ∀ set ∈ formulas, ∀ c ∈ set.clauses, c.Nodup) :
    let clauses := formulas.flatMap ClauseSet.clauses
    let result := propagate n clauses
    (∀ rounds, n < rounds → propagateFor clauses rounds (none n) = result) ∧
    (result.conflict = true → ¬ ClauseSet.Satisfiable formulas) ∧
    (result.conflict = false →
      IsLeast {known | UnitClosed clauses known} {l | l ∈ result.fixed.lits} ∧
      (∀ l, l ∈ result.fixed.lits ↔ Derivable clauses l) ∧
      (∀ c ∈ clauses, (∃ l ∈ c, l ∈ result.fixed.lits) ∨ ∃ k ∈ c, ∃ l ∈ c, k ≠ l ∧
        result.fixed.litValue? k = Option.none ∧ result.fixed.litValue? l = Option.none) ∧
      ∀ v, (∀ set ∈ formulas, set.eval v = true) → ∀ l ∈ result.fixed.lits, l.eval v = true) ∧
    ∀ formulas' : List ClauseSet, (formulas'.flatMap ClauseSet.clauses).Perm clauses →
      let other := propagate n (formulas'.flatMap ClauseSet.clauses)
      other.conflict = result.conflict ∧ (result.conflict = false → other = result) := by
  intro clauses result
  have hrange' : ∀ c ∈ clauses, c.InRange n := ClauseSet.forall_mem_clauses.2 hrange
  have hnodup' : ∀ c ∈ clauses, c.Nodup := ClauseSet.forall_mem_clauses.2 hnodup
  have hmodel : ∀ v, (∀ set ∈ formulas, set.eval v = true) →
      Agrees v result.fixed ∧ result.conflict = false :=
    fun v hv => agrees_propagate_formulas n hv
  refine ⟨?_, ?_, ?_, ?_⟩
  · intro rounds hrounds
    exact propagateFor_eq (by rwa [size_none]) (by rw [openCount_none]; omega) hrounds
  · rintro hconflict ⟨v, hv⟩
    rw [(hmodel v hv).2] at hconflict
    cases hconflict
  · intro hconflict
    have hderivable : ∀ l, l ∈ result.fixed.lits ↔ Derivable clauses l :=
      fun l => mem_lits_iff_derivable hrange' hnodup' hconflict
    refine ⟨?_, hderivable, propagate_passed hrange' hnodup' hconflict, ?_⟩
    · have hsame : {l | l ∈ result.fixed.lits} = {l | Derivable clauses l} := Set.ext hderivable
      rw [hsame]
      exact Clause.isLeast_derivable clauses
    · intro v hv l hl
      exact (hmodel v hv).1.eval_eq (mem_lits.1 hl)
  · intro formulas' hperm
    exact propagate_congr hrange' hnodup' fun c => hperm.mem_iff

/-- A chain of implications whose start comes after it, and a clause that stays open. -/
def lateStart : List ClauseSet := [
  ⟨5, [[⟨1, false⟩, ⟨2, true⟩], [⟨0, false⟩, ⟨1, true⟩]]⟩,
  ⟨5, [[⟨0, true⟩], [⟨2, false⟩, ⟨3, true⟩, ⟨4, true⟩]]⟩]

/-- Three variables are fixed one sweep after the other, and nothing else follows.  With the start
of the chain in front a single sweep fixes the same. -/
theorem propagate_least_lateStart :
    let clauses := lateStart.flatMap ClauseSet.clauses
    propagate 5 clauses = ⟨#[some true, some true, some true, Option.none, Option.none], false⟩ ∧
    (∀ l, Derivable clauses l ↔ l ∈ [⟨0, true⟩, ⟨1, true⟩, ⟨2, true⟩]) ∧
    propagate 5 (lateStart.reverse.flatMap ClauseSet.clauses) = propagate 5 clauses := by
  intro clauses
  have hresult : propagate 5 clauses =
      ⟨#[some true, some true, some true, Option.none, Option.none], false⟩ := by decide
  have hperm : (lateStart.reverse.flatMap ClauseSet.clauses).Perm clauses :=
    (List.reverse_perm lateStart).flatMap_right ClauseSet.clauses
  have hrange : ∀ set ∈ lateStart, set.InRange 5 := by
    simp [lateStart, ClauseSet.InRange, Clause.InRange]
  have hnodup : ∀ set ∈ lateStart, ∀ c ∈ set.clauses, c.Nodup := by decide
  obtain ⟨-, -, hnone, hother⟩ := propagate_least hrange hnodup
  have hconflict : (propagate 5 clauses).conflict = false := by rw [hresult]
  refine ⟨hresult, fun l => ?_, (hother _ hperm).2 hconflict⟩
  rw [← (hnone hconflict).2.1 l, hresult]
  rfl

/-- Where a false clause ends the sweeps, the order decides what was fixed before. -/
example : (propagate 2 [[⟨0, true⟩], [⟨0, false⟩], [⟨1, true⟩]]).fixed ≠
    (propagate 2 [[⟨1, true⟩], [⟨0, true⟩], [⟨0, false⟩]]).fixed := by decide

end Fixed

end ProductLine
