import Mathlib.Tactic.Common
import ProductLine.Formula.ClauseForm
import ProductLine.Proofs.Clause.Merge
/-!
# Clause forms keep the meaning

The clause form of a formula is true under a valuation of the variables exactly if the formula is
true when each name has the value of its variable.  No variables are added on the way.

* `Nnf.forall_mem_clauses` says what all clauses have if joining keeps it;
* `Formula.eval_normalize` and `Nnf.eval_clauses` follow the two steps of the translation;
* `Formula.eval_of_clauseForm` and `Formula.inRange_of_clauseForm` are about the whole translation.
-/
namespace ProductLine

/-- Two computations in a row succeed only if both do. -/
theorem bind_eq_ok {ε α β : Type} {x : Except ε α} {f : α → Except ε β} {b : β} :
    (x >>= f) = .ok b ↔ ∃ a, x = .ok a ∧ f a = .ok b := by
  cases x <;> simp [bind, Except.bind]

/-! ## Clauses -/

namespace Clause

/-- All literals of a clause are of variables below `n`. -/
def InRange (n : Nat) (c : Clause) : Prop := ∀ l ∈ c, l.var < n

/-- What the empty clause has, and joins have if both clauses have it. -/
structure KeptByJoins (p : Clause → Prop) : Prop where
  nil : p []
  merge : ∀ {c d e}, p c → p d → merge? c d = some e → p e

/-- Joins keep clauses in range. -/
theorem keptByJoins_inRange (n : Nat) : KeptByJoins (InRange n) where
  nil := nofun
  merge hc hd h l hl := (((merge?_spec h).2 l).1 hl).elim (hc l) (hd l)

end Clause

/-- All clauses of a set are over the variables below `n`. -/
def ClauseSet.InRange (n : Nat) (s : ClauseSet) : Prop := ∀ c ∈ s.clauses, c.InRange n

/-! ## Clauses of a normal form -/

namespace Nnf

mutual

/-- All literals of a normal form have a property. -/
def Each (p : Lit → Prop) : Nnf → Prop
  | const _ => True
  | lit l => p l
  | and fs => AllEach p fs
  | or fs => AllEach p fs

/-- All literals of all parts have a property. -/
def AllEach (p : Lit → Prop) : List Nnf → Prop
  | [] => True
  | f :: fs => Each p f ∧ AllEach p fs

end

/-- The joins of one clause with each of a list. -/
theorem all_eval_filterMap_merge? (v : Nat → Bool) (c : Clause) (right : List Clause) :
    (right.filterMap c.merge?).all (Clause.eval v) =
      (c.eval v || right.all (Clause.eval v)) := by
  induction right with
  | nil => simp
  | cons d right ih =>
      have hmerge := Clause.eval_merge? v c d
      rw [List.filterMap_cons, List.all_cons, Bool.or_and_distrib_left, ← hmerge, ← ih]
      cases c.merge? d <;> simp

/-- Joining every clause of one list with every clause of another is the disjunction of both. -/
theorem all_eval_of_joinAll {v : Nat → Bool} {limit count : Nat} {right done cs all : List Clause}
    (h : joinAll limit right count done cs = .ok all) :
    all.all (Clause.eval v) =
      (done.all (Clause.eval v) && (cs.all (Clause.eval v) || right.all (Clause.eval v))) := by
  induction cs generalizing count done with
  | nil =>
      rw [joinAll, Except.ok.injEq] at h
      simp [← h]
  | cons c cs ih =>
      simp only [joinAll] at h
      split at h
      · cases h
      · -- Tautologies are left out of the joins, and left out they are as good as true.
        rw [ih h, List.all_append, List.all_reverse, all_eval_filterMap_merge?, List.all_cons,
          Bool.or_and_distrib_right]
        cases done.all (Clause.eval v) <;> simp

/-- Joined clauses have what joining keeps. -/
theorem forall_mem_joinAll {p : Clause → Prop} (hp : Clause.KeptByJoins p) {limit count : Nat}
    {right done cs all : List Clause} (hright : ∀ c ∈ right, p c) (hdone : ∀ c ∈ done, p c)
    (hcs : ∀ c ∈ cs, p c) (h : joinAll limit right count done cs = .ok all) : ∀ c ∈ all, p c := by
  induction cs generalizing count done with
  | nil =>
      rw [joinAll, Except.ok.injEq] at h
      subst h
      simpa using hdone
  | cons c cs ih =>
      simp only [joinAll] at h
      split at h
      · cases h
      · refine ih ?_ (fun d hd => hcs d (List.mem_cons_of_mem c hd)) h
        intro d hd
        rcases List.mem_append.1 hd with hd | hd
        · obtain ⟨e, he, hjoin⟩ := List.mem_filterMap.1 (List.mem_reverse.1 hd)
          exact hp.merge (hcs c (List.mem_cons_self ..)) (hright e he) hjoin
        · exact hdone d hd

mutual

/-- The clauses of a normal form say what it says. -/
theorem eval_clauses (v : Nat → Bool) (limit : Nat) :
    ∀ {f : Nnf} {cs : List Clause}, f.clauses limit = .ok cs →
      cs.all (Clause.eval v) = f.eval v
  | const value, cs, h => by
      rw [clauses, Except.ok.injEq] at h
      cases value <;> simp [← h, eval]
  | lit l, cs, h => by
      rw [clauses, Except.ok.injEq] at h
      simp [← h, eval]
  | and fs, cs, h => by
      rw [clauses] at h
      rw [eval, eval_conjoin v limit h]
  | or fs, cs, h => by
      rw [clauses] at h
      rw [eval, eval_disjoin v limit h]
      simp

/-- The clauses of a conjunction say that all parts hold. -/
theorem eval_conjoin (v : Nat → Bool) (limit : Nat) :
    ∀ {fs : List Nnf} {count : Nat} {cs : List Clause}, conjoin limit count fs = .ok cs →
      cs.all (Clause.eval v) = evalAll v fs
  | [], count, cs, h => by
      rw [conjoin, Except.ok.injEq] at h
      simp [← h, evalAll]
  | f :: fs, count, cs, h => by
      rw [conjoin] at h
      obtain ⟨part, hpart, h⟩ := bind_eq_ok.1 h
      split at h
      · cases h
      · obtain ⟨rest, hrest, h⟩ := bind_eq_ok.1 h
        cases h
        rw [List.all_append, eval_clauses v limit hpart, eval_conjoin v limit hrest, evalAll]

/-- The clauses of a disjunction say that a part holds, or what was to be joined with them. -/
theorem eval_disjoin (v : Nat → Bool) (limit : Nat) :
    ∀ {fs : List Nnf} {product cs : List Clause}, disjoin limit product fs = .ok cs →
      cs.all (Clause.eval v) = (product.all (Clause.eval v) || evalAny v fs)
  | [], product, cs, h => by
      rw [disjoin, Except.ok.injEq] at h
      simp [← h, evalAny]
  | f :: fs, product, cs, h => by
      rw [disjoin] at h
      obtain ⟨part, hpart, h⟩ := bind_eq_ok.1 h
      obtain ⟨joined, hjoined, h⟩ := bind_eq_ok.1 h
      rw [eval_disjoin v limit h, all_eval_of_joinAll hjoined, eval_clauses v limit hpart,
        List.all_nil, Bool.true_and, evalAny, Bool.or_assoc]

end

mutual

/-- The clauses of a normal form have what its literals have, if joins keep it. -/
theorem forall_mem_clauses {p : Clause → Prop} (hp : Clause.KeptByJoins p) (limit : Nat) :
    ∀ {f : Nnf} {cs : List Clause}, f.Each (fun l => p [l]) → f.clauses limit = .ok cs →
      ∀ c ∈ cs, p c
  | const value, cs, _, h => by
      rw [clauses, Except.ok.injEq] at h
      cases value <;> simp [← h, hp.nil]
  | lit l, cs, hf, h => by
      rw [clauses, Except.ok.injEq] at h
      rw [← h, List.forall_mem_singleton]
      exact hf
  | and fs, cs, hf, h => by
      rw [clauses] at h
      exact forall_mem_conjoin hp limit hf h
  | or fs, cs, hf, h => by
      rw [clauses] at h
      exact forall_mem_disjoin hp limit hf (List.forall_mem_singleton.2 hp.nil) h

/-- So have the clauses of a conjunction, -/
theorem forall_mem_conjoin {p : Clause → Prop} (hp : Clause.KeptByJoins p) (limit : Nat) :
    ∀ {fs : List Nnf} {count : Nat} {cs : List Clause}, AllEach (fun l => p [l]) fs →
      conjoin limit count fs = .ok cs → ∀ c ∈ cs, p c
  | [], count, cs, _, h => by
      rw [conjoin, Except.ok.injEq] at h
      simp [← h]
  | f :: fs, count, cs, hfs, h => by
      rw [conjoin] at h
      obtain ⟨part, hpart, h⟩ := bind_eq_ok.1 h
      split at h
      · cases h
      · obtain ⟨rest, hrest, h⟩ := bind_eq_ok.1 h
        cases h
        exact List.forall_mem_append.2
          ⟨forall_mem_clauses hp limit hfs.1 hpart, forall_mem_conjoin hp limit hfs.2 hrest⟩

/-- and those of a disjunction. -/
theorem forall_mem_disjoin {p : Clause → Prop} (hp : Clause.KeptByJoins p) (limit : Nat) :
    ∀ {fs : List Nnf} {product cs : List Clause}, AllEach (fun l => p [l]) fs →
      (∀ c ∈ product, p c) → disjoin limit product fs = .ok cs → ∀ c ∈ cs, p c
  | [], product, cs, _, hproduct, h => by
      rw [disjoin, Except.ok.injEq] at h
      exact h ▸ hproduct
  | f :: fs, product, cs, hfs, hproduct, h => by
      rw [disjoin] at h
      obtain ⟨part, hpart, h⟩ := bind_eq_ok.1 h
      obtain ⟨joined, hjoined, h⟩ := bind_eq_ok.1 h
      refine forall_mem_disjoin hp limit hfs.2 ?_ h
      exact forall_mem_joinAll hp (forall_mem_clauses hp limit hfs.1 hpart) (by simp) hproduct
        hjoined

end

@[simp] theorem eval_junction (v : Nat → Bool) (conjunctive : Bool) (parts : List Nnf) :
    (junction conjunctive parts).eval v =
      if conjunctive then evalAll v parts else evalAny v parts := by
  cases conjunctive <;> simp [junction, eval]

@[simp] theorem each_junction {p : Lit → Prop} {conjunctive : Bool} {parts : List Nnf} :
    (junction conjunctive parts).Each p ↔ AllEach p parts := by
  cases conjunctive <;> simp [junction, Each]

end Nnf

/-! ## Negation normal forms -/

namespace Variables

/-- The names have the values of their variables; other names may have any. -/
def Agree (vs : Variables) (v : Nat → Bool) (w : String → Bool) : Prop :=
  ∀ name i, vs.find? name = some i → w name = v i

/-- The variable of a name is one of the table. -/
theorem lt_size_of_find? {vs : Variables} {name : String} {i : Nat}
    (h : vs.find? name = some i) : i < vs.size := by
  rw [find?, List.idxOf?_eq_some_iff] at h
  exact h.1

/-- A literal is made exactly for a name that is known. -/
theorem lit_eq_ok {vs : Variables} {name : String} {polarity : Bool} {l : Lit} :
    vs.lit name polarity = .ok l ↔ ∃ i, vs.find? name = some i ∧ l = ⟨i, polarity⟩ := by
  rw [lit]
  cases vs.find? name <;> simp [eq_comm]

end Variables

namespace Formula

mutual

/-- A normal form says that the formula is true, or that it is false. -/
theorem eval_normalize {vs : Variables} {v : Nat → Bool} {w : String → Bool}
    (hvw : vs.Agree v w) :
    ∀ {f : Formula} {polarity : Bool} {g : Nnf}, f.normalize vs polarity = .ok g →
      g.eval v = (f.eval w == polarity)
  | const value, polarity, g, h => by
      rw [normalize, Except.ok.injEq] at h
      rw [← h, Nnf.eval, eval]
  | var name, polarity, g, h => by
      rw [normalize] at h
      obtain ⟨l, hl, h⟩ := bind_eq_ok.1 h
      obtain ⟨i, hi, rfl⟩ := Variables.lit_eq_ok.1 hl
      cases h
      rw [Nnf.eval, Lit.eval, eval, hvw name i hi]
  | not f, polarity, g, h => by
      rw [normalize] at h
      rw [eval_normalize hvw h, eval]
      cases f.eval w <;> cases polarity <;> rfl
  | and fs, polarity, g, h => by
      rw [normalize] at h
      obtain ⟨parts, hparts, h⟩ := bind_eq_ok.1 h
      cases h
      obtain ⟨hall, hany⟩ := eval_normalizeAll hvw hparts
      -- Where it is to be false, the conjunction becomes a disjunction of its negated parts.
      rw [Nnf.eval_junction, eval, hall, hany]
      cases polarity <;> simp
  | or fs, polarity, g, h => by
      rw [normalize] at h
      obtain ⟨parts, hparts, h⟩ := bind_eq_ok.1 h
      cases h
      obtain ⟨hall, hany⟩ := eval_normalizeAll hvw hparts
      rw [Nnf.eval_junction, eval, hall, hany]
      cases polarity <;> simp
  | implies a b, polarity, g, h => by
      rw [normalize] at h
      obtain ⟨premise, ha, h⟩ := bind_eq_ok.1 h
      obtain ⟨conclusion, hb, h⟩ := bind_eq_ok.1 h
      cases h
      rw [Nnf.eval_junction]
      simp only [Nnf.evalAll, Nnf.evalAny, eval_normalize hvw ha, eval_normalize hvw hb, eval]
      cases a.eval w <;> cases b.eval w <;> cases polarity <;> rfl
  | iff a b, polarity, g, h => by
      rw [normalize] at h
      obtain ⟨aTrue, haTrue, h⟩ := bind_eq_ok.1 h
      obtain ⟨aFalse, haFalse, h⟩ := bind_eq_ok.1 h
      obtain ⟨bTrue, hbTrue, h⟩ := bind_eq_ok.1 h
      obtain ⟨bFalse, hbFalse, h⟩ := bind_eq_ok.1 h
      -- Each side is needed in both polarities, whatever that of the equivalence is.
      have hvalues := And.intro (And.intro (eval_normalize hvw haTrue) (eval_normalize hvw haFalse))
        (And.intro (eval_normalize hvw hbTrue) (eval_normalize hvw hbFalse))
      cases h
      cases polarity <;>
        simp only [Nnf.eval, Nnf.evalAll, Nnf.evalAny, hvalues, eval, reduceIte,
          Bool.false_eq_true] <;>
        cases a.eval w <;> cases b.eval w <;> rfl

/-- The normal forms of a list of formulas, when all are wanted and when one is enough. -/
theorem eval_normalizeAll {vs : Variables} {v : Nat → Bool} {w : String → Bool}
    (hvw : vs.Agree v w) :
    ∀ {fs : List Formula} {polarity : Bool} {gs : List Nnf},
      normalizeAll vs polarity fs = .ok gs →
      Nnf.evalAll v gs = (if polarity then evalAll w fs else !evalAny w fs) ∧
        Nnf.evalAny v gs = (if polarity then evalAny w fs else !evalAll w fs)
  | [], polarity, gs, h => by
      rw [normalizeAll, Except.ok.injEq] at h
      subst h
      cases polarity <;> simp [Nnf.evalAll, Nnf.evalAny, evalAll, evalAny]
  | f :: fs, polarity, gs, h => by
      rw [normalizeAll] at h
      obtain ⟨part, hpart, h⟩ := bind_eq_ok.1 h
      obtain ⟨parts, hparts, h⟩ := bind_eq_ok.1 h
      cases h
      obtain ⟨hall, hany⟩ := eval_normalizeAll hvw hparts
      rw [Nnf.evalAll, Nnf.evalAny, evalAll, evalAny, eval_normalize hvw hpart, hall, hany]
      cases polarity <;> cases f.eval w <;> simp

end

mutual

/-- A normal form has no literals besides those of the variables of the table. -/
theorem each_normalize {vs : Variables} {p : Lit → Prop} (hp : ∀ l : Lit, l.var < vs.size → p l) :
    ∀ {f : Formula} {polarity : Bool} {g : Nnf}, f.normalize vs polarity = .ok g → g.Each p
  | const value, polarity, g, h => by
      rw [normalize, Except.ok.injEq] at h
      simp [← h, Nnf.Each]
  | var name, polarity, g, h => by
      rw [normalize] at h
      obtain ⟨l, hl, h⟩ := bind_eq_ok.1 h
      obtain ⟨i, hi, rfl⟩ := Variables.lit_eq_ok.1 hl
      cases h
      rw [Nnf.Each]
      exact hp _ (Variables.lt_size_of_find? hi)
  | not f, polarity, g, h => by
      rw [normalize] at h
      exact each_normalize hp h
  | and fs, polarity, g, h => by
      rw [normalize] at h
      obtain ⟨parts, hparts, h⟩ := bind_eq_ok.1 h
      cases h
      exact Nnf.each_junction.2 (allEach_normalizeAll hp hparts)
  | or fs, polarity, g, h => by
      rw [normalize] at h
      obtain ⟨parts, hparts, h⟩ := bind_eq_ok.1 h
      cases h
      exact Nnf.each_junction.2 (allEach_normalizeAll hp hparts)
  | implies a b, polarity, g, h => by
      rw [normalize] at h
      obtain ⟨premise, ha, h⟩ := bind_eq_ok.1 h
      obtain ⟨conclusion, hb, h⟩ := bind_eq_ok.1 h
      cases h
      exact Nnf.each_junction.2 ⟨each_normalize hp ha, each_normalize hp hb, trivial⟩
  | iff a b, polarity, g, h => by
      rw [normalize] at h
      obtain ⟨aTrue, haTrue, h⟩ := bind_eq_ok.1 h
      obtain ⟨aFalse, haFalse, h⟩ := bind_eq_ok.1 h
      obtain ⟨bTrue, hbTrue, h⟩ := bind_eq_ok.1 h
      obtain ⟨bFalse, hbFalse, h⟩ := bind_eq_ok.1 h
      cases h
      cases polarity <;>
        simp [Nnf.Each, Nnf.AllEach, each_normalize hp haTrue, each_normalize hp haFalse,
          each_normalize hp hbTrue, each_normalize hp hbFalse]

/-- The normal forms of a list have no other literals either. -/
theorem allEach_normalizeAll {vs : Variables} {p : Lit → Prop}
    (hp : ∀ l : Lit, l.var < vs.size → p l) :
    ∀ {fs : List Formula} {polarity : Bool} {gs : List Nnf},
      normalizeAll vs polarity fs = .ok gs → Nnf.AllEach p gs
  | [], polarity, gs, h => by
      rw [normalizeAll, Except.ok.injEq] at h
      simp [← h, Nnf.AllEach]
  | f :: fs, polarity, gs, h => by
      rw [normalizeAll] at h
      obtain ⟨part, hpart, h⟩ := bind_eq_ok.1 h
      obtain ⟨parts, hparts, h⟩ := bind_eq_ok.1 h
      cases h
      exact ⟨each_normalize hp hpart, allEach_normalizeAll hp hparts⟩

end

/-- A literal of a known name is its own normal form. -/
theorem normalize_literal {vs : Variables} {name : String} {i : Nat} (h : vs.find? name = some i)
    (positive : Bool) : (literal name positive).normalize vs true = .ok (.lit ⟨i, positive⟩) := by
  have hlit (polarity : Bool) : vs.lit name polarity = .ok ⟨i, polarity⟩ :=
    Variables.lit_eq_ok.2 ⟨i, h, rfl⟩
  cases positive <;> simp [literal, normalize, hlit, bind, Except.bind, pure, Except.pure]

/-! ## Clause forms -/

/-- A clause form comes from the normal form of the whole formula. -/
theorem clauseForm_eq_ok {vs : Variables} {limit : Nat} {f : Formula} {set : ClauseSet} :
    f.clauseForm vs limit = .ok set ↔
      ∃ g, f.normalize vs true = .ok g ∧ ∃ cs, g.clauses limit = .ok cs ∧ set = ⟨vs.size, cs⟩ := by
  simp only [clauseForm, bind_eq_ok, pure, Except.pure, Except.ok.injEq, eq_comm (a := set)]

/-- A clause form is true exactly if its formula is. -/
theorem eval_of_clauseForm {vs : Variables} {limit : Nat} {f : Formula} {set : ClauseSet}
    {v : Nat → Bool} {w : String → Bool} (h : f.clauseForm vs limit = .ok set)
    (hvw : vs.Agree v w) : set.eval v = f.eval w := by
  obtain ⟨g, hg, cs, hcs, rfl⟩ := clauseForm_eq_ok.1 h
  rw [ClauseSet.eval, Nnf.eval_clauses v limit hcs, eval_normalize hvw hg, beq_true]

/-- All clauses of a clause form have what each literal has, if joins keep it. -/
theorem forall_mem_of_clauseForm {p : Clause → Prop} (hp : Clause.KeptByJoins p) {vs : Variables}
    {limit : Nat} {f : Formula} {set : ClauseSet} (h : f.clauseForm vs limit = .ok set)
    (hlit : ∀ l : Lit, l.var < vs.size → p [l]) : ∀ c ∈ set.clauses, p c := by
  obtain ⟨g, hg, cs, hcs, rfl⟩ := clauseForm_eq_ok.1 h
  exact Nnf.forall_mem_clauses hp limit (each_normalize hlit hg) hcs

/-- A clause form has no variables beyond the names. -/
theorem inRange_of_clauseForm {vs : Variables} {limit : Nat} {f : Formula} {set : ClauseSet}
    (h : f.clauseForm vs limit = .ok set) : set.InRange vs.size :=
  forall_mem_of_clauseForm (Clause.keptByJoins_inRange _) h
    (fun _ hl => List.forall_mem_singleton.2 hl)

/-- **A clause form says what its formula says.**  Under every valuation of the variables it is
true exactly if the formula is, when the names have the values of their variables.  It needs just
the variables of the table. -/
theorem clauseForm_faithful {vs : Variables} {limit : Nat} {f : Formula} {set : ClauseSet}
    (h : f.clauseForm vs limit = .ok set) :
    (∀ (v : Nat → Bool) (w : String → Bool), (∀ name i, vs.find? name = some i → w name = v i) →
      set.eval v = f.eval w) ∧
    (∀ c ∈ set.clauses, ∀ l ∈ c, l.var < vs.size) ∧ set.varCount = vs.size := by
  refine ⟨fun v w hvw => eval_of_clauseForm h hvw, inRange_of_clauseForm h, ?_⟩
  obtain ⟨g, hg, cs, hcs, rfl⟩ := clauseForm_eq_ok.1 h
  rfl

/-- A negated equivalence with constants and an empty disjunction, over three variables one of which
it does not mention.  It says that the other two differ. -/
theorem clauseForm_faithful_iff :
    ∃ set, clauseForm ⟨["A", "B", "C"]⟩ 4
        (.not (.iff (.var "A") (.and [.not (.not (.var "C")), .const true, .not (.or [])]))) =
          .ok set ∧ set.clauses.length = 2 ∧ set.varCount = 3 ∧
        ∀ v : Nat → Bool, set.eval v = (v 0 != v 2) := by
  have h : clauseForm ⟨["A", "B", "C"]⟩ 4
      (.not (.iff (.var "A") (.and [.not (.not (.var "C")), .const true, .not (.or [])]))) =
        .ok ⟨3, [[⟨0, true⟩, ⟨2, true⟩], [⟨0, false⟩, ⟨2, false⟩]]⟩ := by
    rfl
  obtain ⟨heval, -, hvarCount⟩ := clauseForm_faithful h
  refine ⟨_, h, rfl, hvarCount, ?_⟩
  intro v
  have hvw (name : String) (i : Nat) (hi : Variables.find? ⟨["A", "B", "C"]⟩ name = some i) :
      v ((["A", "B", "C"].idxOf? name).getD 0) = v i := by
    rw [show ["A", "B", "C"].idxOf? name = some i from hi, Option.getD_some]
  rw [heval v _ hvw]
  have hfirst : ["A", "B", "C"].idxOf? "A" = some 0 := by decide
  have hthird : ["A", "B", "C"].idxOf? "C" = some 2 := by decide
  simp [eval, evalAll, evalAny, hfirst, hthird, bne]

end Formula

end ProductLine
