import Mathlib.Tactic.Common
import ProductLine.Proofs.Enumeration.Exactness
import ProductLine.Proofs.Enumeration.Fillings
import ProductLine.Proofs.FeatureModel.TreeSelections
/-!
# Walks over a tree without constraints

Without cross-tree constraints every branch of a walk ends with a product, so nothing is cut on the
way and nothing is discarded at the end.

* `Walk.Founded.product_of_completion` says that the ends of branches are products;
* `Walk.Wasteless` is the state of a walk that has wasted nothing, and `Walk.visiting_spares`
  follows it through visits;
* `Walk.enumerate_treeOnly` is about the whole walk.
-/
namespace ProductLine

namespace Walk

variable {ω : Type} {k : Walk ω} {handed : List Configuration → ω → Prop}

/-! ## Ends of branches -/

/-- Where the tree is all there is, its selections are the models of the base. -/
theorem Founded.models_of_treeSelection (h : k.Founded) (hfree : k.model.constraints = [])
    {v : Nat → Bool} (hv : k.model.TreeSelection v) : k.solver.Models [] v := by
  have hvars : k.solver.base.vars = k.model.vars := by
    rw [h.vars, FeatureModel.vars, Variables.ofNames_eq h.model.names]
  rw [h.models_iff, hfree, List.append_nil, hvars, h.model.treeRules_valuation_iff]
  exact hv

/-- **Without constraints every branch ends with a product.** -/
theorem Founded.product_of_completion (h : k.Founded) (hfree : k.model.constraints = [])
    {ended : List Nat} (hended : ended ∈ k.model.completions [] [0]) :
    k.Product (keyOf ended) := by
  obtain ⟨v, hv, hiff⟩ := FeatureModel.exists_treeSelection_of_completion h.model hended
  refine ⟨v, h.models_of_treeSelection hfree hv, ?_⟩
  intro i hi
  have hconcrete := FeatureModel.mem_concreteFeatures.1 hi
  rw [Bool.eq_iff_iff, decide_eq_true_eq, mem_keyOf, hiff, and_iff_right hconcrete]

/-! ## Nothing is wasted -/

/-- The walk has come to some ends of branches.  Each of them was handed over, or had been before,
and no branch was cut. -/
structure Wasteless (k : Walk ω) (handed : List Configuration → ω → Prop) (ended : Nat)
    (st : WalkState ω) : Prop where
  given : ∃ given, k.At handed given st
  discarded : st.summary.discarded = 0
  pruned : st.summary.pruned = 0
  ended : st.summary.emitted + st.summary.duplicates = ended

/-- If all items are products, the computation comes to the end of each of them and wastes none. -/
def Spares (k : Walk ω) (handed : List Configuration → ω → Prop) (items : List (List Nat))
    (x : WalkM ω Flow) : Prop :=
  (∀ key ∈ items, k.Product key) → ∀ ended st, k.Wasteless handed ended st →
    Ends (fun flow st' => flow = .next ∧ k.Wasteless handed (ended + items.length) st')
      (fun _ _ => False) (x st)

theorem visiting_spares : Visiting (k.Spares handed) where
  nil _ _ _ hst := ⟨rfl, hst⟩
  bind := by
    intro items more x f hx _ hnext hproducts ended st hst
    rw [List.forall_mem_append] at hproducts
    refine Ends.bind (hx hproducts.1 ended st hst) ?_
    rintro flow st' ⟨rfl, hst'⟩
    have hend := hnext hproducts.2 _ st' hst'
    rwa [Nat.add_assoc, ← List.length_append] at hend

section Run

variable (hg : k.Governed handed (fun _ => true))
include hg

/-- Nothing is asked of the solver before a branch is entered. -/
theorem spares_gate (hfree : k.model.constraints = []) {items : List (List Nat)}
    {selected : List Nat} {f : Gate → WalkM ω Flow} (henter : k.Spares handed items (f .enter)) :
    k.Spares handed items (k.gate selected >>= f) := by
  intro hproducts ended st hst
  obtain ⟨given, hat⟩ := hst.given
  obtain ⟨hrunning, hworld⟩ := hg.monitor _ _ hat.world
  have hreached : k.targetReached st.summary = false := hg.target _ rfl
  have hgate : k.gate selected st = .ok .enter (k.asked st) := by
    rw [gate_eq, hrunning, hreached, hfree]
    rfl
  rw [run_bind_of_ok hgate]
  exact henter hproducts ended _
    ⟨⟨given, hat.asked hworld⟩, hst.discarded, hst.pruned, hst.ended⟩

/-- A product is handed over, unless it was before. -/
theorem spares_complete (hk : k.Founded) (selected : List Nat) :
    k.Spares handed [keyOf selected] (k.complete selected) := by
  intro hproducts ended st hst
  obtain ⟨given, hat⟩ := hst.given
  rw [complete_eq]
  split
  · refine ⟨rfl, ⟨given, hat.record rfl⟩, hst.discarded, hst.pruned, ?_⟩
    have := hst.ended
    show st.summary.emitted + (st.summary.duplicates + 1) = ended + 1
    omega
  · obtain ⟨b, st', hrun, hproduct, hat'⟩ := (hk.decides hg).isProduct (keyOf selected) hat
    obtain rfl : b = true := hproduct.2 (hproducts _ (List.mem_singleton_self _))
    have hsame := summary_of_solving hrun
    have haccepted := (hg.sink _ (k.offer (keyOf selected) st') _ hat'.world).2
    rw [Bool.and_eq_true] at haccepted
    have hreached : k.targetReached (k.handOver (keyOf selected) st').summary = false :=
      hg.target _ rfl
    rw [hrun]
    show Ends _ _ (k.emit (keyOf selected) st')
    rw [emit_eq, if_pos haccepted.1, hreached, if_neg Bool.false_ne_true]
    refine ⟨rfl, ⟨_, hat'.handOver (hg.sink _ _ _ hat'.world).1⟩, ?_, ?_, ?_⟩
    · exact (congrArg Summary.discarded hsame).trans hst.discarded
    · exact (congrArg Summary.pruned hsame).trans hst.pruned
    · have := hst.ended
      show st'.summary.emitted + 1 + st'.summary.duplicates = ended + 1
      rw [hsame]
      omega

/-- **A walk without constraints wastes nothing.** -/
theorem spares_expand (hk : k.Founded) (hfree : k.model.constraints = [])
    {selected frontier : List Nat} (h : k.model.Partway selected frontier) :
    k.Spares handed ((k.model.completions selected frontier).map keyOf)
      (k.expand selected frontier) :=
  visiting_spares.expand id (fun _ _ _ => spares_gate hg hfree)
    (fun _ => spares_complete hg hk _) h

end Run

/-! ## Enumerations -/

/-- **Without cross-tree constraints an enumeration wastes nothing.**  With a correct backend, a
monitor that never cancels, no target, and a receiver that accepts everything, the walk comes to its
end.  No branch was cut, and no end of a branch was discarded: each was handed over or had the same
features as one before, and at least one was handed over.  For every end of a branch there is a
selection under which all rules of the tree are true, with just these concrete features. -/
theorem enumerate_treeOnly {good : ω → Prop} {limit : Nat} {w : ω} (hm : k.model.Built)
    (hfree : k.model.constraints = []) (hbase : k.model.baseFormula limit = .ok k.solver.base)
    (hlimit : k.model.concreteFeatures.length ≤ limit) (htarget : k.target = none)
    (hbackend : k.solver.backend.Correct good) (hmonitor : k.monitor.NeverCancels good)
    (hsink : ∀ c w, good w → (k.sink c w).1 = true ∧ good (k.sink c w).2) (hw : good w) :
    (∃ st, k.enumerate (k.solver.start w) = .ok .next st ∧ st.summary.discarded = 0 ∧
      st.summary.pruned = 0 ∧ 1 ≤ st.summary.emitted ∧
      st.summary.emitted + st.summary.duplicates = (k.model.completions [] [0]).length) ∧
    ∀ ended ∈ k.model.completions [] [0], ∃ v : String → Bool,
      (∀ f ∈ k.model.treeRules, f.eval v = true) ∧
      ∀ i ∈ k.model.concreteFeatures, v (k.model.name i) = decide (i ∈ ended) := by
  have hk := founded_of_baseFormula hm.wellFormed hbase hlimit
  have hg : k.Governed (fun _ => good) (fun _ => true) :=
    { backend := fun _ => hbackend
      monitor := fun _ => hmonitor
      sink := fun _ c w hw => ⟨(hsink c w hw).2, by simp [(hsink c w hw).1, htarget]⟩
      target := by simp [htarget] }
  have hproducts : ∀ key ∈ (k.model.completions [] [0]).map keyOf, k.Product key :=
    List.forall_mem_map.2 (fun ended hended => hk.product_of_completion hfree hended)
  constructor
  · have hstart : k.Wasteless (fun _ => good) 0 { solver := k.solver.start w } :=
      ⟨⟨[], rfl, rfl, by simp, rfl, hw⟩, rfl, rfl, rfl⟩
    obtain ⟨flow, st, hrun, rfl, hst⟩ := (spares_expand hg hk hfree
      (FeatureModel.partway_root hm.wellFormed.pos) hproducts 0 _ hstart).exists_ok
    refine ⟨st, hrun, hst.discarded, hst.pruned, ?_, by simpa using hst.ended⟩
    -- Some branch ends, and its end was handed over.
    obtain ⟨ended, hended⟩ := List.exists_mem_of_ne_nil _
      (FeatureModel.completions_ne_nil (m := k.model) [] [0])
    have hkey := List.mem_map_of_mem (f := keyOf) hended
    obtain ⟨flow, st', hrun', given, hhands, hat⟩ :=
      (enumerate_ends hk.model (hk.decides hg) hg rfl hw).exists_ok
    obtain rfl := hhands.eq_next (fun _ => rfl)
    have hmem := (hhands.mem_iff (keyOf ended)).2 (.inr ⟨hkey, hproducts _ hkey⟩)
    obtain rfl := (EStateM.Result.ok.inj (hrun.symm.trans hrun')).2
    rw [hat.emitted]
    exact List.length_pos_of_mem hmem
  · intro ended hended
    obtain ⟨v, hv, hvalues⟩ := hk.product_of_completion hfree hended
    refine ⟨k.solver.base.vars.valuation v, ?_, ?_⟩
    · intro f hf
      exact (hk.models_iff v).1 hv f (List.mem_append_left _ hf)
    · intro i hi
      rw [hk.valuation_name v (FeatureModel.lt_size_of_mem_concreteFeatures hi), hvalues i hi]
      exact decide_eq_decide.2 mem_keyOf

/-- A root with a concrete and an abstract child, at least one of which is selected.  The abstract
one has a mandatory child, which is abstract, too. -/
def sheltered : FeatureModel where
  features := #[{ name := "R", parent := none, group := .or }, { name := "A", parent := some 0 },
    { name := "B", parent := some 0, concrete := false },
    { name := "C", parent := some 2, mandatory := true, concrete := false }]
  constraints := []

theorem built_sheltered : sheltered.Built := by
  have hadd : FeatureModel.Built
      ⟨#[{ name := "R", parent := none }, { name := "A", parent := some 0 },
        { name := "B", parent := some 0 }, { name := "C", parent := some 2, mandatory := true }],
        []⟩ :=
    .apply (e := .addMandatory "B" "C") (.apply (e := .add "R" "B")
      (.apply (e := .add "R" "A") (.root "R") rfl) rfl) rfl
  exact .apply (e := .setGroup "R" .or) (.apply (e := .setAbstract "C" true)
    (.apply (e := .setAbstract "B" true) hadd rfl) rfl) rfl

/-- A walk whose receiver accepts everything. -/
def shelteredWalk : Walk Unit where
  model := sheltered
  solver := ⟨Backend.exhaustive, {
    vars := ⟨["R", "A", "B", "C"]⟩
    constraints := sheltered.allConstraints
    formulas := [⟨4, [[⟨0, true⟩]]⟩, ⟨4, [[⟨0, false⟩, ⟨1, true⟩, ⟨2, true⟩]]⟩,
      ⟨4, [[⟨0, true⟩, ⟨1, false⟩]]⟩, ⟨4, [[⟨0, true⟩, ⟨2, false⟩]]⟩,
      ⟨4, [[⟨2, false⟩, ⟨3, true⟩]]⟩, ⟨4, [[⟨2, true⟩, ⟨3, false⟩]]⟩]
    clauseLimit := 2
    propagated := ⟨#[some true, none, none, none], false⟩ }⟩
  monitor := Monitor.never
  target := none
  sink _ w := (true, w)

/-- One branch leaves all relevant children out and ends with the root alone.  It is not discarded,
as the features that the walk never visits can be selected instead. -/
theorem enumerate_treeOnly_sheltered :
    (∃ st, shelteredWalk.enumerate (shelteredWalk.solver.start ()) = .ok .next st ∧
      st.summary.discarded = 0 ∧ st.summary.pruned = 0 ∧ 1 ≤ st.summary.emitted ∧
      st.summary.emitted + st.summary.duplicates = 2) ∧
    ∃ v : String → Bool, (∀ f ∈ sheltered.treeRules, f.eval v = true) ∧
      v "R" = true ∧ v "A" = false := by
  have hends : sheltered.completions [] [0] = [[0], [0, 1]] := by
    cbv
  have hbase : sheltered.baseFormula 2 = .ok shelteredWalk.solver.base := rfl
  obtain ⟨hrun, hselections⟩ := @enumerate_treeOnly _ shelteredWalk (fun _ => True) 2 ()
    built_sheltered rfl hbase (by decide) rfl Backend.exhaustive_correct
    (fun _ _ => ⟨rfl, trivial⟩) (fun _ _ _ => ⟨rfl, trivial⟩) trivial
  obtain ⟨v, hrules, hvalues⟩ := hselections [0]
    (show [0] ∈ sheltered.completions [] [0] by simp [hends])
  refine ⟨?_, v, hrules, hvalues 0 (by decide), hvalues 1 (by decide)⟩
  rwa [show shelteredWalk.model.completions [] [0] = [[0], [0, 1]] from hends] at hrun

end Walk

end ProductLine
