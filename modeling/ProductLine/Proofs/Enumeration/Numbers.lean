import Mathlib
import ProductLine.Proofs.Enumeration.Exactness
import ProductLine.Proofs.Solver.Counting
/-!
# How many configurations a walk hands over

A walk hands over one configuration for each restriction of a model of the base to the concrete
features.

The question for a product takes one clause for each concrete feature.  If the clause limit leaves
no room for them it cannot be asked, so all branches are given up and nothing is handed over.

* `Formula.clauseForm_literals_tooLarge` and `Walk.refusing_yields` say what becomes of such a
  question;
* `Walk.decides_of_lt` says that the walk then finds no products, and `Walk.decides_found` what it
  finds under any limit, which is the same for all correct backends;
* `Walk.count_start` says what a count of the products gives;
* `Walk.Finds` is what a walk hands over if nothing ends it, and `Walk.Finds.length_eq` how much
  that is.
-/
namespace ProductLine

/-! ## Formulas that are too large -/

namespace Formula

variable {vs : Variables} {name : Nat → String} {is : List Nat}

/-- More literals than the limit allows are refused. -/
theorem conjoin_literals_tooLarge (sign : Nat → Bool) {limit count : Nat} (hcount : count ≤ limit)
    (hlimit : limit < count + is.length) :
    Nnf.conjoin limit count (is.map (fun i => .lit ⟨i, sign i⟩)) = .error (.tooLarge limit) := by
  induction is generalizing count with
  | nil =>
    rw [List.length_nil] at hlimit
    omega
  | cons i is ih =>
    rw [List.length_cons] at hlimit
    rw [List.map_cons, Nnf.conjoin, Nnf.clauses]
    show (if limit < count + 1 then _ else _) = _
    split
    · rfl
    · rename_i hfits
      rw [List.length_singleton, ih (by omega) (by omega)]
      rfl

/-- A conjunction of more literals than the limit has no clause form. -/
theorem clauseForm_literals_tooLarge (sign : Nat → Bool) {limit : Nat}
    (hnames : ∀ i ∈ is, vs.find? (name i) = some i) (hlimit : limit < is.length) :
    (and (is.map (fun i => literal (name i) (sign i)))).clauseForm vs limit =
      .error (.tooLarge limit) := by
  rw [clauseForm, normalize, normalizeAll_literals sign hnames]
  show (do let clauses ← Nnf.conjoin limit 0 _; _) = _
  rw [conjoin_literals_tooLarge sign (Nat.zero_le _) (by omega)]
  rfl

end Formula

namespace Walk

open Solver (Yields)

variable {ω : Type} {k : Walk ω}

/-- A question about a formula without a clause form is not asked.  The stack is restored. -/
theorem refusing_yields {s : Solver ω} {good : ω → Prop}
    {body : Except StackError PushOutcome → SolverM ω Bool} {f : Formula} {cause : ClauseFormError}
    {st : SolverState ω} (hs : s.Ready st.stack) (hw : good st.world)
    (hf : f.clauseForm s.base.vars s.base.clauseLimit = .error cause)
    (hbody : body (.error (.clauseForm cause)) = pure false) :
    Yields good False st (· = false)
      (Solver.inScope (Solver.attempt (s.pushFormula f) >>= body) st) := by
  apply Solver.inScope_pushFormula_yields hs hw
  · intro cause' hcause st' hkept
    obtain rfl := Except.error.inj (hf.symm.trans hcause)
    rw [hbody]
    exact .pure rfl hkept.world
  · intro set outcome hset
    rw [hf] at hset
    cases hset

variable {handed : List Configuration → ω → Prop} {goesOn : Nat → Bool}

/-- **Under a small limit no products are found**, as every question for one is too large. -/
theorem decides_of_lt (hstated : k.model.StatedBy k.solver.base) (hg : k.Governed handed goesOn)
    (hlimit : k.solver.base.clauseLimit < k.model.concreteFeatures.length) :
    k.Decides handed (fun _ => False) where
  isProduct := by
    intro given st key hst
    have hnames : ∀ i ∈ k.model.concreteFeatures,
        k.solver.base.vars.find? (k.model.name i) = some i := by
      intro i hi
      rw [hstated.vars]
      exact hstated.model.find?_name (FeatureModel.lt_size_of_mem_concreteFeatures hi)
    have hform := Formula.clauseForm_literals_tooLarge (fun i => decide (i ∈ key)) hnames hlimit
    have hready : k.solver.Ready st.solver.stack := hst.stack ▸ hstated.ready
    exact hst.solving ((refusing_yields hready hst.world hform rfl).imp (by simp))
  isFeasible := by
    intro given st selected frontier _ hst
    -- The question for the features selected so far may be small enough to be asked.
    cases hform : (Formula.and (selected.map k.model.selected)).clauseForm k.solver.base.vars
        k.solver.base.clauseLimit with
    | ok set =>
      obtain ⟨b, st', hrun, -, hst'⟩ := isFeasible_of_clauseForm hg hstated.ready hst hform
      exact ⟨b, st', hrun, fun _ _ _ => id, hst'⟩
    | error cause =>
      have hready : k.solver.Ready st.solver.stack := hst.stack ▸ hstated.ready
      exact hst.solving ((refusing_yields hready hst.world hform rfl).imp (by simp))

/-! ## What is found -/

/-- The features make a product, and the limit leaves room for the question whether they do. -/
def Found (k : Walk ω) (key : List Nat) : Prop :=
  k.model.concreteFeatures.length ≤ k.solver.base.clauseLimit ∧ k.Product key

/-- With a correct backend a walk finds out what it can ask for. -/
theorem decides_found (hstated : k.model.StatedBy k.solver.base) (hg : k.Governed handed goesOn) :
    k.Decides handed k.Found := by
  by_cases hlimit : k.model.concreteFeatures.length ≤ k.solver.base.clauseLimit
  · have hall : k.Found = k.Product := funext fun key => propext (and_iff_right hlimit)
    rw [hall]
    exact Founded.decides ⟨hstated, hlimit⟩ hg
  · have hnone : k.Found = fun _ => False :=
      funext fun key => propext (iff_false_intro (fun h => hlimit h.1))
    rw [hnone]
    exact decides_of_lt hstated hg (Nat.lt_of_not_le hlimit)

/-! ## Numbers of products -/

/-- There are as many products as there are restrictions to the concrete features. -/
theorem length_eq_ncard {given : List (List Nat)} (hnodup : given.Nodup)
    (hgiven : ∀ key, key ∈ given ↔ ∃ v, k.solver.Models [] v ∧ key = k.model.concretePart v) :
    given.length = (k.solver.Restrictions [] k.model.concreteFeatures).ncard := by
  -- A product and the values of its concrete features determine each other.
  have hvalues (v : Nat → Bool) :
      k.model.concreteFeatures.map (fun i => decide (i ∈ k.model.concretePart v)) =
        k.model.concreteFeatures.map v := by
    refine List.map_congr_left (fun i hi => ?_)
    rw [Bool.eq_iff_iff, decide_eq_true_eq, FeatureModel.concretePart, List.mem_filter]
    exact and_iff_right hi
  have hcard : (k.solver.Restrictions [] k.model.concreteFeatures).ncard =
      (given.map (fun key => k.model.concreteFeatures.map (fun i => decide (i ∈ key)))).length := by
    apply Solver.ncard_eq_length
    · refine List.Nodup.map_on ?_ hnodup
      intro key hkey other hother heq
      obtain ⟨v, -, rfl⟩ := (hgiven key).1 hkey
      obtain ⟨u, -, rfl⟩ := (hgiven other).1 hother
      rw [hvalues, hvalues] at heq
      exact List.filter_congr (fun i hi => List.map_inj_left.1 heq i hi)
    · intro values
      rw [List.mem_map]
      constructor
      · rintro ⟨key, hkey, rfl⟩
        obtain ⟨v, hv, rfl⟩ := (hgiven key).1 hkey
        exact ⟨v, hv, hvalues v⟩
      · rintro ⟨v, hv, rfl⟩
        exact ⟨_, (hgiven _).2 ⟨v, hv, rfl⟩, hvalues v⟩
  rw [hcard, List.length_map]

/-- With nothing pushed, a count of the concrete features counts the products. -/
theorem count_start {s : Solver ω} {m : FeatureModel} {good : ω → Prop} {monitor : Monitor ω}
    (hb : s.backend.Correct good) (hmonitor : monitor.NeverCancels good)
    (hstated : m.StatedBy s.base) (limit : Nat) {w : ω} (hw : good w) :
    ∃ st, s.count m.concreteFeatures limit monitor (s.start w) =
        .ok (if (s.Restrictions [] m.concreteFeatures).ncard < limit then
            .exact (s.Restrictions [] m.concreteFeatures).ncard
          else .atLeast limit) st ∧ good st.world := by
  have hvars : ∀ i ∈ m.concreteFeatures, i < s.base.varCount := by
    rw [hstated.varCount]
    exact fun i => FeatureModel.lt_size_of_mem_concreteFeatures
  have hyields : Yields good False (s.start w) _
      (s.count m.concreteFeatures limit monitor (s.start w)) :=
    Solver.count_yields hb hmonitor.trusted hvars limit hstated.ready hw
  obtain ⟨c, st, hrun, hc, hkept⟩ := hyields.exists_ok
  exact ⟨st, hc.eq ▸ hrun, hkept.world⟩

/-- An exact count is the number of products. -/
theorem ncard_of_count_exact {s : Solver ω} {m : FeatureModel} {good : ω → Prop}
    {monitor : Monitor ω} (hb : s.backend.Correct good) (hmonitor : monitor.NeverCancels good)
    (hstated : m.StatedBy s.base) {limit n : Nat} {w : ω} (hw : good w) {st : SolverState ω}
    (hcount : s.count m.concreteFeatures limit monitor (s.start w) = .ok (.exact n) st) :
    (s.Restrictions [] m.concreteFeatures).ncard = n ∧ n < limit := by
  obtain ⟨st', hrun, -⟩ := count_start hb hmonitor hstated limit hw
  have hsame := (EStateM.Result.ok.inj (hcount.symm.trans hrun)).1
  split at hsame
  · rename_i hlimit
    cases hsame
    exact ⟨rfl, hlimit⟩
  · cases hsame

/-! ## What a walk finds -/

/-- The features of the configurations that the walk hands over, in order, if nothing ends it. -/
def Finds (k : Walk ω) (all : List (List Nat)) : Prop :=
  Hands k.Found (fun _ => true) [] ((k.model.completions [] [0]).map keyOf) .next all

theorem exists_finds (k : Walk ω) : ∃ all, k.Finds all := Hands.exists_all ..

/-- What counts as a find depends on the model and the base alone. -/
theorem found_congr {ω' : Type} {k' : Walk ω'} (hmodel : k'.model = k.model)
    (hbase : k'.solver.base = k.solver.base) : k'.Found = k.Found := by
  funext key
  simp only [Found, Product, Solver.Models, ConstraintStack.sources, hmodel, hbase]

/-- So walks over the same model and base find the same. -/
theorem Finds.congr {ω' : Type} {k' : Walk ω'} {all : List (List Nat)} (h : k.Finds all)
    (hmodel : k'.model = k.model) (hbase : k'.solver.base = k.solver.base) : k'.Finds all := by
  rwa [Finds, found_congr hmodel hbase, hmodel]

/-- A walk finds one configuration for each restriction to the concrete features, or none if the
limit leaves no room for them. -/
theorem Finds.length_eq {all : List (List Nat)} (h : k.Finds all)
    (hstated : k.model.StatedBy k.solver.base) :
    all.length = if k.model.concreteFeatures.length ≤ k.solver.base.clauseLimit then
      (k.solver.Restrictions [] k.model.concreteFeatures).ncard else 0 := by
  split
  · rename_i hlimit
    have hk : k.Founded := ⟨hstated, hlimit⟩
    refine length_eq_ncard (h.nodup List.nodup_nil) (fun key => ?_)
    rw [h.mem_iff, ← hk.mem_keys_iff]
    simp [Found, hlimit]
  · rename_i hlimit
    refine List.length_eq_zero_iff.2 (List.eq_nil_iff_forall_not_mem.2 (fun key => ?_))
    rw [h.mem_iff]
    simp [Found, hlimit]

/-- Where nothing ends the walk it hands over what it finds. -/
theorem Finds.enumerate {all : List (List Nat)} (h : k.Finds all)
    (hstated : k.model.StatedBy k.solver.base) (hg : k.Governed handed (fun _ => true)) {w : ω}
    (hw : handed [] w) :
    ∃ st, k.enumerate (k.solver.start w) = .ok .next st ∧ k.At handed all st := by
  obtain ⟨flow, st, hrun, given, hhands, hst⟩ :=
    (enumerate_ends hstated.model (decides_found hstated hg) hg rfl hw).exists_ok
  obtain rfl := hhands.eq_next (fun _ => rfl)
  obtain rfl := (hhands.prefix_all h).2 rfl
  exact ⟨st, hrun, hst⟩

end Walk

end ProductLine
