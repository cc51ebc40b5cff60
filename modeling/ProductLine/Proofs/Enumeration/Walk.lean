import ProductLine.Proofs.Enumeration.Handover
import ProductLine.Proofs.Enumeration.Steps
import ProductLine.Proofs.FeatureModel.Selections
import ProductLine.Proofs.Solver.Query
/-!
# A walk hands over all products

Pruning cuts only branches without products, so a walk hands over the products among all ends of
branches.  Those are the concrete parts of all selections under which the rules and constraints are
true.

* `Walk.Founded` says that the solver of a walk is about its model, and `Walk.Governed` what the
  other parties to a walk do, which `Walk.Logging` reads off a log in its world;
* `Walk.At` is the state of a walk after some configurations were handed over;
* `Walk.Decides` says which products the solver finds out, and `Walk.Founded.decides` that these are
  all of them;
* `Walk.covers_complete`, `Walk.covers_gate` and `Walk.covers_expand` follow the walk.
-/
namespace ProductLine

/-! ## Conjunctions of literals -/

namespace Formula

variable {vs : Variables} {name : Nat → String} {is : List Nat}

/-- Literals over known names are their own normal forms. -/
theorem normalizeAll_literals (sign : Nat → Bool)
    (hnames : ∀ i ∈ is, vs.find? (name i) = some i) :
    normalizeAll vs true (is.map (fun i => literal (name i) (sign i))) =
      .ok (is.map (fun i => .lit ⟨i, sign i⟩)) := by
  induction is with
  | nil => rfl
  | cons i is ih =>
    have hnames := List.forall_mem_cons.1 hnames
    rw [List.map_cons, normalizeAll, normalize_literal hnames.1, ih hnames.2]
    rfl

/-- A conjunction of literals within the limit has one unit clause for each. -/
theorem conjoin_literals (sign : Nat → Bool) {limit count : Nat}
    (hlimit : count + is.length ≤ limit) :
    Nnf.conjoin limit count (is.map (fun i => .lit ⟨i, sign i⟩)) =
      .ok (is.map (fun i => [⟨i, sign i⟩])) := by
  induction is generalizing count with
  | nil => rfl
  | cons i is ih =>
    rw [List.length_cons] at hlimit
    have hfits : ¬ limit < count + 1 := by omega
    rw [List.map_cons, Nnf.conjoin, Nnf.clauses]
    show (if limit < count + 1 then _ else _) = _
    rw [if_neg hfits, List.length_singleton, ih (by omega)]
    rfl

/-- A conjunction of literals has a clause for each of them. -/
theorem clauseForm_literals (sign : Nat → Bool) {limit : Nat}
    (hnames : ∀ i ∈ is, vs.find? (name i) = some i) (hlimit : is.length ≤ limit) :
    (and (is.map (fun i => literal (name i) (sign i)))).clauseForm vs limit =
      .ok ⟨vs.size, is.map (fun i => [⟨i, sign i⟩])⟩ := by
  rw [clauseForm_eq_ok]
  refine ⟨.and (is.map (fun i => .lit ⟨i, sign i⟩)), ?_, _, ?_, rfl⟩
  · rw [normalize, normalizeAll_literals sign hnames]
    rfl
  · rw [Nnf.clauses]
    exact conjoin_literals sign (by omega)

end Formula

/-- Unit clauses are true if every variable has its sign. -/
theorem ClauseSet.eval_literals {v : Nat → Bool} {n : Nat} {is : List Nat} {sign : Nat → Bool} :
    (ClauseSet.mk n (is.map (fun i => [⟨i, sign i⟩]))).eval v = true ↔
      ∀ i ∈ is, v i = sign i := by
  simp [ClauseSet.eval, Clause.eval, Lit.eval]

/-! ## Walks about a model -/

namespace Walk

open Solver (Yields Kept pushed)

variable {ω α : Type} {k : Walk ω}

/-- The base of the solver states the rules and constraints of the model, and the limit leaves room
for its concrete features. -/
structure Founded (k : Walk ω) : Prop extends k.model.StatedBy k.solver.base where
  limit : k.model.concreteFeatures.length ≤ k.solver.base.clauseLimit

/-- A walk over the base formula of its model is founded, if the limit has room for all concrete
features. -/
theorem founded_of_baseFormula (hm : k.model.WellFormed) {limit : Nat}
    (hbase : k.model.baseFormula limit = .ok k.solver.base)
    (hlimit : k.model.concreteFeatures.length ≤ limit) : k.Founded := by
  obtain ⟨hstated, rfl⟩ := FeatureModel.statedBy_of_baseFormula hm hbase
  exact ⟨hstated, hlimit⟩

/-- Some selection under which the rules and constraints are true has just these concrete
features. -/
def Product (k : Walk ω) (key : List Nat) : Prop :=
  ∃ v, k.solver.Models [] v ∧ ∀ i ∈ k.model.concreteFeatures, v i = decide (i ∈ key)

/-- Some selection under which the rules and constraints are true has all these features. -/
def Feasible (k : Walk ω) (selected : List Nat) : Prop :=
  ∃ v, k.solver.Models [] v ∧ ∀ i ∈ selected, v i = true

/-- The literals of a selection never exceed the limit. -/
theorem Founded.clauseForm_literals (h : k.Founded) {is : List Nat} (sign : Nat → Bool)
    (hrange : ∀ i ∈ is, i < k.model.size) (hlength : is.length ≤ k.model.concreteFeatures.length) :
    (Formula.and (is.map (fun i => .literal (k.model.name i) (sign i)))).clauseForm
      k.solver.base.vars k.solver.base.clauseLimit =
        .ok ⟨k.solver.base.vars.size, is.map (fun i => [⟨i, sign i⟩])⟩ := by
  refine Formula.clauseForm_literals sign ?_ (Nat.le_trans hlength h.limit)
  intro i hi
  rw [h.vars]
  exact h.model.find?_name (hrange i hi)

/-! ## The state of a walk -/

/-- The configurations with the given features, numbered in order. -/
def configurations (m : FeatureModel) (given : List (List Nat)) : List Configuration :=
  given.mapIdx (fun i key => Configuration.ofNames (i + 1) (key.map m.name))

/-- What the other parties to a walk do, where `handed` relates the configurations that were handed
over to the worlds that are possible then.  The backend is correct, the monitor never cancels, and
after an item the walk goes on as `goesOn` says of their number. -/
structure Governed (k : Walk ω) (handed : List Configuration → ω → Prop) (goesOn : Nat → Bool) :
    Prop where
  backend : ∀ given, k.solver.backend.Correct (handed given)
  monitor : ∀ given, k.monitor.NeverCancels (handed given)
  sink : ∀ given c w, handed given w → handed (given ++ [c]) (k.sink c w).2 ∧
    ((k.sink c w).1 && !k.target.any (· ≤ given.length + 1)) = goesOn (given.length + 1)
  target : ∀ n, goesOn n = true → k.target.any (· ≤ n) = false

/-- The backend is correct, the monitor never cancels, and the receiver adds what it is given to the
`log` of its world, which the others leave alone. -/
structure Logging (k : Walk ω) (good : ω → Prop) (log : ω → List Configuration) : Prop where
  backend : ∀ given, k.solver.backend.Correct (fun w => good w ∧ log w = given)
  monitor : ∀ given, k.monitor.NeverCancels (fun w => good w ∧ log w = given)
  sink : ∀ c w, good w → good (k.sink c w).2 ∧ log (k.sink c w).2 = log w ++ [c]

/-- A sink that keeps a log decides by its length whether the walk goes on. -/
theorem Logging.governed {good : ω → Prop} {log : ω → List Configuration} {goesOn : Nat → Bool}
    (h : k.Logging good log)
    (hsink : ∀ c w, good w → ((k.sink c w).1 && !k.target.any (· ≤ (log w).length + 1)) =
      goesOn ((log w).length + 1))
    (htarget : ∀ n, goesOn n = true → k.target.any (· ≤ n) = false) :
    k.Governed (fun given w => good w ∧ log w = given) goesOn := by
  refine ⟨h.backend, h.monitor, ?_, htarget⟩
  rintro given c w ⟨hgood, rfl⟩
  exact ⟨h.sink c w hgood, hsink c w hgood⟩

/-- A receiver that accepts everything and adds it to the `log` of its world. -/
theorem governed_of_log {good : ω → Prop} {log : ω → List Configuration} (htarget : k.target = none)
    (hbackend : ∀ given, k.solver.backend.Correct (fun w => good w ∧ log w = given))
    (hmonitor : ∀ given, k.monitor.NeverCancels (fun w => good w ∧ log w = given))
    (hsink : ∀ c w, good w → (k.sink c w).1 = true ∧ good (k.sink c w).2 ∧
      log (k.sink c w).2 = log w ++ [c]) :
    k.Governed (fun given w => good w ∧ log w = given) (fun _ => true) := by
  have hlogging : k.Logging good log := ⟨hbackend, hmonitor, fun c w hw => (hsink c w hw).2⟩
  refine hlogging.governed (fun c w hw => ?_) (by simp [htarget])
  simp [(hsink c w hw).1, htarget]

/-- The state after the configurations with the given features were handed over. -/
structure At (k : Walk ω) (handed : List Configuration → ω → Prop) (given : List (List Nat))
    (st : WalkState ω) : Prop where
  stack : st.solver.stack = []
  nextId : st.nextId = given.length + 1
  seen : ∀ key, key ∈ st.seen ↔ key ∈ given
  emitted : st.summary.emitted = given.length
  world : handed (configurations k.model given) st.solver.world

variable {handed : List Configuration → ω → Prop} {goesOn : Nat → Bool} {given : List (List Nat)}
  {st : WalkState ω}

/-- Using the solver leaves the walk where it is. -/
theorem At.solving_ends {fallible : Prop} (h : k.At handed given st) {body : SolverM ω α}
    {post : α → Prop}
    (hbody : Yields (handed (configurations k.model given)) fallible st.solver post
      (body st.solver)) :
    Ends (fun a st' => post a ∧ k.At handed given st')
      (fun _ st' => fallible ∧ k.At handed given st') (Walk.solving body st) := by
  have hat {solver : SolverState ω}
      (hkept : Kept (handed (configurations k.model given)) st.solver solver) :
      k.At handed given { st with solver := solver } :=
    ⟨hkept.stack.trans h.stack, h.nextId, h.seen, h.emitted, hkept.world⟩
  unfold Walk.solving
  cases hrun : body st.solver with
  | ok a solver =>
    rw [hrun] at hbody
    exact ⟨hbody.1, hat hbody.2⟩
  | error e solver =>
    rw [hrun] at hbody
    exact ⟨hbody.1, hat hbody.2⟩

/-- A question leaves the walk where it is. -/
theorem At.solving (h : k.At handed given st) {body : SolverM ω α} {post : α → Prop}
    (hbody : Yields (handed (configurations k.model given)) False st.solver post
      (body st.solver)) :
    ∃ a st', Walk.solving body st = .ok a st' ∧ post a ∧ k.At handed given st' :=
  ((h.solving_ends hbody).mono (fun _ _ ha => ha) (fun _ _ he => he.1)).exists_ok

/-- It records nothing. -/
theorem summary_of_solving {body : SolverM ω α} {st st' : WalkState ω} {a : α}
    (h : Walk.solving body st = .ok a st') : st'.summary = st.summary := by
  unfold Walk.solving at h
  split at h <;> cases h
  rfl

theorem At.mono {handed' : List Configuration → ω → Prop} (h : k.At handed given st)
    (himp : ∀ given w, handed given w → handed' given w) : k.At handed' given st :=
  ⟨h.stack, h.nextId, h.seen, h.emitted, himp _ _ h.world⟩

/-- Recording something leaves the walk where it is, unless it is about what was handed over. -/
theorem At.record (h : k.At handed given st) {summary : Summary}
    (hsame : summary.emitted = st.summary.emitted) :
    k.At handed given { st with summary := summary } :=
  ⟨h.stack, h.nextId, h.seen, hsame.trans h.emitted, h.world⟩

/-- Asking the monitor leaves the walk where it is. -/
theorem At.asked {handed' : List Configuration → ω → Prop} (h : k.At handed given st)
    (hworld : handed' (configurations k.model given) (k.asked st).solver.world) :
    k.At handed' given (k.asked st) :=
  ⟨h.stack, h.nextId, h.seen, h.emitted, hworld⟩

/-- Afterwards one more configuration was handed over. -/
theorem At.handOver {handed' : List Configuration → ω → Prop} (h : k.At handed given st)
    {key : List Nat} (hworld : handed' (configurations k.model given ++ [k.offer key st])
      (k.handOver key st).solver.world) :
    k.At handed' (given ++ [key]) (k.handOver key st) := by
  have hgiven : configurations k.model (given ++ [key]) =
      configurations k.model given ++ [k.offer key st] := by
    simp [configurations, offer, List.mapIdx_append, h.nextId]
  refine ⟨h.stack, ?_, ?_, ?_, hgiven ▸ hworld⟩
  · simp [Walk.handOver, h.nextId]
  · intro other
    rw [Walk.handOver, List.mem_cons, List.mem_append, List.mem_singleton, h.seen, or_comm]
  · simp [Walk.handOver, h.emitted]

/-! ## Questions -/

/-- A question whether there is a model under a further formula.  The stack is restored. -/
theorem pushing_yields {s : Solver ω} {good : ω → Prop} {body : Except StackError PushOutcome →
      SolverM ω Bool} {f : Formula} {set : ClauseSet} {st : SolverState ω}
    (hs : s.Ready st.stack) (hw : good st.world)
    (hf : f.clauseForm s.base.vars s.base.clauseLimit = .ok set)
    (hcontradictory : body (.ok .contradictory) = pure false)
    (happlied : Yields good False (pushed st f set)
      (fun b => b = true ↔ ∃ v, s.Models (pushed st f set).stack v)
      (body (.ok .applied) (pushed st f set))) :
    Yields good False st (fun b => b = true ↔ ∃ v, s.Models st.stack v ∧ set.eval v = true)
      (Solver.inScope (Solver.attempt (s.pushFormula f) >>= body) st) := by
  have hiff := exists_congr (hs.models_pushed_iff hf)
  apply Solver.inScope_pushFormula_yields hs hw
  · intro cause hcause
    rw [hf] at hcause
    cases hcause
  · intro set' outcome hset hcontra
    obtain rfl := Except.ok.inj (hf.symm.trans hset)
    cases outcome with
    | contradictory =>
      have hnone : ¬ ∃ v, s.Models st.stack v ∧ set.eval v = true :=
        fun h => not_exists.2 (hcontra rfl) (hiff.2 h)
      rw [hcontradictory]
      exact .pure (iff_of_false Bool.false_ne_true hnone) hw
    | applied => exact happlied.imp (fun b hb => hb.trans hiff)

/-- The solver finds out which keys are products, and rules out only branches that lead to none. -/
structure Decides (k : Walk ω) (handed : List Configuration → ω → Prop)
    (product : List Nat → Prop) : Prop where
  isProduct : ∀ {given st} key, k.At handed given st →
    ∃ b st', k.isProduct key st = .ok b st' ∧ (b = true ↔ product key) ∧ k.At handed given st'
  isFeasible : ∀ {given st selected frontier}, k.model.Partway selected frontier →
    k.At handed given st →
    ∃ b st', k.isFeasible selected st = .ok b st' ∧
      (b = false → ∀ key ∈ (k.model.completions selected frontier).map keyOf, ¬ product key) ∧
      k.At handed given st'

section Questions

variable (hk : k.Founded) (hg : k.Governed handed goesOn)
include hg

/-- Whether some features can be part of a product, if their conjunction has a clause form. -/
theorem isFeasible_of_clauseForm (hready : k.solver.Ready []) (hst : k.At handed given st)
    {selected : List Nat} {set : ClauseSet}
    (hform : (Formula.and (selected.map k.model.selected)).clauseForm k.solver.base.vars
      k.solver.base.clauseLimit = .ok set) :
    ∃ b st', k.isFeasible selected st = .ok b st' ∧
      (b = true ↔ ∃ v, k.solver.Models [] v ∧ set.eval v = true) ∧ k.At handed given st' := by
  have hready : k.solver.Ready st.solver.stack := hst.stack ▸ hready
  -- Nothing is pushed between questions, so this one is about the base and the selected features.
  suffices hquery : _ from hst.solving ((pushing_yields hready hst.world hform rfl hquery).imp
    (fun b hb => by rw [hb, hst.stack]))
  refine (Solver.isSatisfiable_yields (hg.backend _) (hready.pushFormula hform) hst.world).bind ?_
  intro answer st' hanswer hkept
  refine .pure ?_ hkept.world
  cases answer with
  | sat => exact ⟨fun _ => hanswer, fun _ => rfl⟩
  | unsat => exact ⟨nofun, fun h => (hanswer h).elim⟩
  | unknown => exact hanswer.elim

include hk

/-- The features can be part of a product exactly if some selection has them all. -/
theorem isFeasible_run (hst : k.At handed given st) {selected : List Nat}
    (hconcrete : ∀ i ∈ selected, i ∈ k.model.concreteFeatures)
    (hlength : selected.length ≤ k.model.concreteFeatures.length) :
    ∃ b st', k.isFeasible selected st = .ok b st' ∧ (b = true ↔ k.Feasible selected) ∧
      k.At handed given st' := by
  have hform := hk.clauseForm_literals (fun _ => true)
    (fun i hi => FeatureModel.lt_size_of_mem_concreteFeatures (hconcrete i hi)) hlength
  obtain ⟨b, st', hrun, hb, hst'⟩ := isFeasible_of_clauseForm hg hk.ready hst hform
  simp only [ClauseSet.eval_literals] at hb
  exact ⟨b, st', hrun, hb, hst'⟩

/-- The question for a product finds out whether there is one. -/
theorem isProduct_run (hst : k.At handed given st) (key : List Nat) :
    ∃ b st', k.isProduct key st = .ok b st' ∧ (b = true ↔ k.Product key) ∧
      k.At handed given st' := by
  have hrange : ∀ i ∈ k.model.concreteFeatures, i < k.model.size :=
    fun i => FeatureModel.lt_size_of_mem_concreteFeatures
  have hform := hk.clauseForm_literals (fun i => decide (i ∈ key)) hrange (Nat.le_refl _)
  have hready : k.solver.Ready st.solver.stack := hst.stack ▸ hk.ready
  suffices hquery : _ from hst.solving ((pushing_yields hready hst.world hform rfl hquery).imp
    (fun b hb => by rw [hb, hst.stack]; simp only [ClauseSet.eval_literals]; rfl))
  refine (Solver.findModel_yields (hg.backend _) (hready.pushFormula hform) hst.world).bind ?_
  rintro (_ | a) st' hanswer hkept
  · refine .pure ?_ hkept.world
    simp only [Bool.false_eq_true, false_iff]
    rintro ⟨v, hv⟩
    exact (hanswer.2 rfl).elim (fun h => h v hv) id
  · obtain ⟨hmodel, hsize⟩ := hanswer.1 a rfl
    refine .pure ?_ hkept.world
    -- The check of the model finds nothing wrong, as what was pushed is true in it.
    have hall : k.model.concreteFeatures.all
        (fun i => a.value? i == some (decide (i ∈ key))) = true := by
      rw [List.all_eq_true]
      intro i hi
      have hi' : i < a.size := by
        rw [hsize, hk.varCount]
        exact hrange i hi
      have htrue := ((hready.models_pushed_iff hform _).1 hmodel).2
      rw [Assignment.value?_eq_valuation hi', ClauseSet.eval_literals.1 htrue i hi,
        beq_self_eq_true]
    exact ⟨fun _ => ⟨a.valuation, hmodel⟩, fun _ => hall⟩

/-- A walk about its model finds out all products. -/
theorem Founded.decides : k.Decides handed k.Product where
  isProduct key hst := isProduct_run hk hg hst key
  isFeasible := by
    intro given st selected frontier h hst
    obtain ⟨b, st', hrun, hfeasible, hst'⟩ := isFeasible_run hk hg hst h.concrete h.length_le
    refine ⟨b, st', hrun, ?_, hst'⟩
    -- A product at the end of a branch has what was selected on the way.
    rintro rfl key hkey ⟨v, hv, hvalues⟩
    obtain ⟨ended, hended, rfl⟩ := List.mem_map.1 hkey
    refine Bool.false_ne_true (hfeasible.2 ⟨v, hv, fun i hi => ?_⟩)
    rw [hvalues i (h.concrete i hi), decide_eq_true_eq, mem_keyOf]
    exact FeatureModel.subset_of_mem_completions hended hi

end Questions

/-! ## Following a walk -/

section Run

variable {product : List Nat → Prop} (hd : k.Decides handed product)
  (hg : k.Governed handed goesOn)
include hg

/-- Handing over a product. -/
theorem emit_ends (hst : k.At handed given st) {key : List Nat} (hnew : key ∉ given)
    (hproduct : product key) :
    Ends (fun flow st' => ∃ given', Hands product goesOn given [key] flow given' ∧
      k.At handed given' st') (fun _ _ => False) (k.emit key st) := by
  have hst₁ : k.At handed (given ++ [key]) (k.handOver key st) :=
    hst.handOver (hg.sink _ _ _ hst.world).1
  have hreached : k.targetReached (k.handOver key st).summary =
      k.target.any (· ≤ given.length + 1) := by
    rw [targetReached, hst₁.emitted, List.length_append]
    rfl
  have hon := (hg.sink (configurations k.model given) (k.offer key st) _ hst.world).2
  rw [show (configurations k.model given).length = given.length by simp [configurations],
    ← hreached] at hon
  rw [emit_eq]
  split
  · rename_i haccepted
    rw [haccepted, Bool.true_and] at hon
    split
    · rename_i htarget
      rw [htarget] at hon
      exact ⟨_, .stop hnew hproduct hon.symm, hst₁.record rfl⟩
    · rename_i htarget
      rw [Bool.eq_false_of_not_eq_true htarget] at hon
      exact ⟨_, .hand hnew hproduct hon.symm .done, hst₁⟩
  · rename_i hrefused
    rw [Bool.eq_false_of_not_eq_true hrefused, Bool.false_and] at hon
    exact ⟨_, .stop hnew hproduct hon.symm, hst₁.record rfl⟩

include hd

/-- The end of a branch. -/
theorem covers_complete (selected : List Nat) :
    Covers product goesOn (k.At handed) [keyOf selected] (k.complete selected) := by
  intro given st hon hst
  rw [complete_eq]
  split
  · rename_i hseen
    exact ⟨given, .skip (.inl ((hst.seen _).1 hseen)) .done, hst.record rfl⟩
  · rename_i hnew
    obtain ⟨b, st', hrun, hproduct, hst'⟩ := hd.isProduct (keyOf selected) hst
    rw [hrun]
    cases b with
    | true => exact emit_ends hg hst' (mt (hst.seen _).2 hnew) (hproduct.1 rfl)
    | false =>
      have hnot : ¬ product (keyOf selected) := fun h => Bool.false_ne_true (hproduct.2 h)
      exact ⟨given, .skip (.inr hnot) .done, hst'.record rfl⟩

/-- Without a target that is reached, a branch is entered unless there is no product at its ends. -/
theorem gate_run (hst : k.At handed given st) (htarget : k.target.any (· ≤ given.length) = false)
    {selected frontier : List Nat} (h : k.model.Partway selected frontier) :
    ∃ gate st', k.gate selected st = .ok gate st' ∧ k.At handed given st' ∧
      st'.summary.targetReached = st.summary.targetReached ∧
      (gate = .enter ∨ gate = .leave .next ∧
        ∀ key ∈ (k.model.completions selected frontier).map keyOf, ¬ product key) := by
  obtain ⟨hrunning, hworld⟩ := hg.monitor _ _ hst.world
  have hasked : k.At handed given (k.asked st) := hst.asked hworld
  have hreached : k.targetReached st.summary = false := by
    rw [targetReached, hst.emitted]
    exact htarget
  rw [gate_eq, hrunning, hreached, if_neg Bool.false_ne_true, if_neg Bool.false_ne_true]
  split
  -- With nothing selected there is nothing to ask.
  · exact ⟨.enter, k.asked st, rfl, hasked, rfl, .inl rfl⟩
  · obtain ⟨b, st', hrun, hfeasible, hst'⟩ := hd.isFeasible h hasked
    have hsame := congrArg Summary.targetReached (summary_of_solving hrun)
    rw [hrun]
    cases b with
    | true => exact ⟨.enter, st', rfl, hst', hsame, .inl rfl⟩
    | false => exact ⟨.leave .next, _, rfl, hst'.record rfl, hsame, .inr ⟨rfl, hfeasible rfl⟩⟩

/-- Looking whether to go on cuts a branch only if there is no product at its ends. -/
theorem covers_gate {selected frontier : List Nat} (h : k.model.Partway selected frontier)
    {f : Gate → WalkM ω Flow} (hleave : ∀ flow, f (.leave flow) = pure flow)
    (henter : Covers product goesOn (k.At handed)
      ((k.model.completions selected frontier).map keyOf) (f .enter)) :
    Covers product goesOn (k.At handed) ((k.model.completions selected frontier).map keyOf)
      (k.gate selected >>= f) := by
  intro given st hon hst
  obtain ⟨gate, st', hrun, hst', -, rfl | ⟨rfl, hnone⟩⟩ := gate_run hd hg hst (hg.target _ hon) h
  · rw [run_bind_of_ok hrun]
    exact henter given st' hon hst'
  · rw [run_bind_of_ok hrun, hleave]
    exact ⟨given, .of_no_product hnone, hst'⟩

/-- **A walk covers all ends of branches.** -/
theorem covers_expand {selected frontier : List Nat} (h : k.model.Partway selected frontier) :
    Covers product goesOn (k.At handed) ((k.model.completions selected frontier).map keyOf)
      (k.expand selected frontier) :=
  visiting_covers.expand id (covers_gate hd hg) (fun _ => covers_complete hd hg _) h

end Run

end Walk

end ProductLine
