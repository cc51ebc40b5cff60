import Mathlib
import ProductLine.Proofs.Configuration
import ProductLine.Proofs.Enumeration.Walk
/-!
# An enumeration is exact

What a walk hands over are the concrete features of all selections under which the rules of the
tree and the cross-tree constraints are true.

* `Walk.Founded.mem_keys_iff` says which products there are;
* `Walk.enumerate_ends` is what any enumeration hands over, whatever ends it;
* `Walk.map_id_configurations` and `Walk.map_features_configurations` read it off.
-/
namespace ProductLine

/-- Different concrete parts have different sets of names. -/
theorem FeatureModel.WellFormed.nameSet_inj {m : FeatureModel} (h : m.WellFormed)
    {v u : Nat → Bool} (heq : nameSet ((m.concretePart v).map m.name) =
      nameSet ((m.concretePart u).map m.name)) : m.concretePart v = m.concretePart u := by
  have hrange {v : Nat → Bool} {i : Nat} (hi : i ∈ m.concretePart v) : i < m.size :=
    FeatureModel.lt_size_of_mem_concreteFeatures (List.mem_filter.1 hi).1
  -- Names tell features apart, so each side of the equation holds the features of the other.
  have hsub {v u : Nat → Bool} (heq : nameSet ((m.concretePart v).map m.name) =
      nameSet ((m.concretePart u).map m.name)) {i : Nat} (hi : i ∈ m.concretePart v) :
      i ∈ m.concretePart u := by
    have hname := mem_nameSet.2 (List.mem_map_of_mem (f := m.name) hi)
    rw [heq, mem_nameSet] at hname
    obtain ⟨j, hj, hji⟩ := List.mem_map.1 hname
    rwa [← h.name_inj (hrange hj) (hrange hi) hji]
  refine (m.pairwise_concretePart v).eq_of_mem_iff (m.pairwise_concretePart u) ?_
  exact fun i => ⟨hsub heq, hsub heq.symm⟩

namespace Walk

open FeatureModel (lt_size_of_mem_concreteFeatures)

variable {ω : Type} {k : Walk ω}

/-! ## Products -/

/-- Besides concrete features there is nothing that a product leaves open. -/
theorem Product.exists_concretePart {selected : List Nat} (h : k.Product (keyOf selected))
    (hconcrete : ∀ i ∈ selected, i ∈ k.model.concreteFeatures) :
    ∃ v, k.solver.Models [] v ∧ keyOf selected = k.model.concretePart v := by
  obtain ⟨v, hv, hvalues⟩ := h
  refine ⟨v, hv, (pairwise_keyOf selected).eq_of_mem_iff (k.model.pairwise_concretePart v) ?_⟩
  intro i
  rw [FeatureModel.concretePart, List.mem_filter]
  constructor
  · intro hi
    have hi' := hconcrete i (mem_keyOf.1 hi)
    exact ⟨hi', by rw [hvalues i hi', decide_eq_true hi]⟩
  · rintro ⟨hi, hvi⟩
    rw [hvalues i hi] at hvi
    exact of_decide_eq_true hvi

namespace Founded

/-- The concrete part of a model is at the end of a branch. -/
theorem mem_keys_of_models (h : k.Founded) {v : Nat → Bool} (hv : k.solver.Models [] v) :
    k.model.concretePart v ∈ (k.model.completions [] [0]).map keyOf := by
  have hrules : ∀ f ∈ k.model.treeRules, f.eval (k.solver.base.vars.valuation v) = true :=
    fun f hf => (h.models_iff v).1 hv f (List.mem_append_left _ hf)
  have hmem := concretePart_mem_keys h.model (FeatureModel.treeRules_iff.1 hrules)
  have hsame : k.model.concretePart v = k.model.concretePart
      (fun i => k.solver.base.vars.valuation v (k.model.name i)) := by
    apply List.filter_congr
    intro i hi
    rw [h.valuation_name v (lt_size_of_mem_concreteFeatures hi)]
  rw [hsame]
  exact hmem

/-- **The products at the ends of branches are the concrete parts of all selections** under which
the rules and constraints are true. -/
theorem mem_keys_iff (h : k.Founded) (key : List Nat) :
    key ∈ (k.model.completions [] [0]).map keyOf ∧ k.Product key ↔
      ∃ v, k.solver.Models [] v ∧ key = k.model.concretePart v := by
  constructor
  · rintro ⟨hkey, hproduct⟩
    obtain ⟨ended, hended, rfl⟩ := List.mem_map.1 hkey
    exact hproduct.exists_concretePart
      ((FeatureModel.partway_root h.model.pos).ended hended).concrete
  · rintro ⟨v, hv, rfl⟩
    refine ⟨h.mem_keys_of_models hv, v, hv, ?_⟩
    intro i hi
    rw [Bool.eq_iff_iff, decide_eq_true_eq, FeatureModel.concretePart, List.mem_filter]
    exact ⟨fun hvi => ⟨hi, hvi⟩, And.right⟩

end Founded

/-- The names of the concrete part of a selection. -/
theorem map_name_concretePart {v : Nat → Bool} {w : String → Bool}
    (hvw : ∀ i, i < k.model.size → w (k.model.name i) = v i) :
    (k.model.concretePart v).map k.model.name =
      (k.model.concreteFeatures.map k.model.name).filter w := by
  rw [List.filter_map, FeatureModel.concretePart]
  congr 1
  refine List.filter_congr ?_
  intro i hi
  exact (hvw i (lt_size_of_mem_concreteFeatures hi)).symm

/-! ## Enumerations -/

/-- What an enumeration hands over comes from the ends of all branches. -/
theorem enumerate_ends {product : List Nat → Prop} {handed : List Configuration → ω → Prop}
    {goesOn : Nat → Bool} (hm : k.model.WellFormed) (hd : k.Decides handed product)
    (hg : k.Governed handed goesOn) (hon : goesOn 0 = true) {w : ω} (hw : handed [] w) :
    Ends (fun flow st => ∃ given,
        Hands product goesOn [] ((k.model.completions [] [0]).map keyOf) flow given ∧
          k.At handed given st)
      (fun _ _ => False) (k.enumerate (k.solver.start w)) :=
  covers_expand hd hg (FeatureModel.partway_root hm.pos) [] _ hon ⟨rfl, rfl, by simp, rfl, hw⟩

/-- Configurations are numbered from one on. -/
theorem map_id_configurations (m : FeatureModel) (given : List (List Nat)) :
    (configurations m given).map Configuration.id =
      List.range' 1 (configurations m given).length := by
  refine List.ext_getElem ?_ ?_
  · simp
  · intro i hi hi'
    simp [configurations, Configuration.ofNames, Nat.add_comm]

/-- The features of a configuration are those of its key. -/
theorem map_features_configurations (m : FeatureModel) (given : List (List Nat)) :
    (configurations m given).map Configuration.features =
      given.map (fun key => nameSet (key.map m.name)) := by
  refine List.ext_getElem ?_ ?_
  · simp [configurations]
  · intro i hi hi'
    simp [configurations, Configuration.ofNames]

/-- **An enumeration is exact.**  With a correct backend, a monitor that never cancels, no target,
and a receiver that accepts everything and adds it to the `log` of its world, the walk comes to its
end, and then the log holds configurations with the numbers 1, 2, 3 and so on.  No two of them have
the same features.  Their sets of features are those that the concrete features of a selection make
up, over all selections of names under which all rules of the tree and all cross-tree constraints
are true. -/
theorem enumerate_exact {good : ω → Prop} {log : ω → List Configuration} {limit : Nat} {w : ω}
    (hm : k.model.Built) (hbase : k.model.baseFormula limit = .ok k.solver.base)
    (hlimit : k.model.concreteFeatures.length ≤ limit) (htarget : k.target = none)
    (hbackend : ∀ given, k.solver.backend.Correct (fun w => good w ∧ log w = given))
    (hmonitor : ∀ given, k.monitor.NeverCancels (fun w => good w ∧ log w = given))
    (hsink : ∀ c w, good w → (k.sink c w).1 = true ∧ good (k.sink c w).2 ∧
      log (k.sink c w).2 = log w ++ [c])
    (hw : good w) (hlog : log w = []) :
    ∃ st, k.enumerate (k.solver.start w) = .ok .next st ∧
      (log st.solver.world).map Configuration.id =
        List.range' 1 (log st.solver.world).length ∧
      ((log st.solver.world).map Configuration.features).Nodup ∧
      ∀ names, names ∈ (log st.solver.world).map Configuration.features ↔
        ∃ v : String → Bool,
          (∀ f ∈ k.model.treeRules ++ k.model.constraints, f.eval v = true) ∧
          names = nameSet ((k.model.concreteFeatures.map k.model.name).filter v) := by
  have hk := founded_of_baseFormula hm.wellFormed hbase hlimit
  -- The log is what relates a world to the configurations that were handed over.
  have hg := governed_of_log htarget hbackend hmonitor hsink
  obtain ⟨flow, st, hrun, given, hhands, hst⟩ :=
    (enumerate_ends hk.model (hk.decides hg) hg rfl ⟨hw, hlog⟩).exists_ok
  obtain rfl := hhands.eq_next (fun _ => rfl)
  have hkeys (key : List Nat) : key ∈ given ↔
      ∃ v, k.solver.Models [] v ∧ key = k.model.concretePart v := by
    rw [hhands.mem_iff, ← hk.mem_keys_iff]
    simp
  refine ⟨st, hrun, ?_⟩
  rw [hst.world.2, map_id_configurations, map_features_configurations]
  refine ⟨rfl, ?_, ?_⟩
  · refine List.Nodup.map_on ?_ (hhands.nodup List.nodup_nil)
    intro key hkey other hother heq
    obtain ⟨v, -, rfl⟩ := (hkeys key).1 hkey
    obtain ⟨u, -, rfl⟩ := (hkeys other).1 hother
    exact hk.model.nameSet_inj heq
  · intro names
    rw [List.mem_map]
    constructor
    · rintro ⟨key, hkey, rfl⟩
      obtain ⟨v, hv, rfl⟩ := (hkeys key).1 hkey
      refine ⟨k.solver.base.vars.valuation v, (hk.models_iff v).1 hv, ?_⟩
      rw [map_name_concretePart (fun i hi => hk.valuation_name v hi)]
    · rintro ⟨w, hw, rfl⟩
      refine ⟨_, (hkeys _).2 ⟨_, (hk.models_reading_iff w).2 hw, rfl⟩, ?_⟩
      rw [map_name_concretePart (fun i hi => (hk.reading_eq w hi).symm)]

/-- A root with one concrete and one abstract child, at least one of which is selected.  They
exclude each other. -/
def choice : FeatureModel where
  features := #[{ name := "R", parent := none, group := .or }, { name := "A", parent := some 0 },
    { name := "B", parent := some 0, concrete := false }]
  constraints := [.implies (.var "B") (.not (.var "A"))]

theorem built_choice : choice.Built := by
  have hadd : FeatureModel.Built
      ⟨#[{ name := "R", parent := none }, { name := "A", parent := some 0 },
        { name := "B", parent := some 0 }], []⟩ :=
    .apply (e := .add "R" "B") (.apply (e := .add "R" "A") (.root "R") rfl) rfl
  have hset : FeatureModel.Built
      ⟨#[{ name := "R", parent := none, group := .or }, { name := "A", parent := some 0 },
        { name := "B", parent := some 0, concrete := false }], []⟩ :=
    .apply (e := .setGroup "R" .or) (.apply (e := .setAbstract "B" true) hadd rfl) rfl
  exact .apply (e := .constrain (.implies (.var "B") (.not (.var "A")))) hset rfl

/-- A walk whose receiver keeps what it is given. -/
def choiceWalk : Walk (Unit × List Configuration) where
  model := choice
  solver := ⟨Backend.exhaustive.besides _, {
    vars := ⟨["R", "A", "B"]⟩
    constraints := choice.allConstraints
    formulas := [⟨3, [[⟨0, true⟩]]⟩, ⟨3, [[⟨0, false⟩, ⟨1, true⟩, ⟨2, true⟩]]⟩,
      ⟨3, [[⟨0, true⟩, ⟨1, false⟩]]⟩, ⟨3, [[⟨0, true⟩, ⟨2, false⟩]]⟩,
      ⟨3, [[⟨1, false⟩, ⟨2, false⟩]]⟩]
    clauseLimit := 2
    propagated := ⟨#[some true, none, none], false⟩ }⟩
  monitor := Monitor.never
  target := none
  sink c w := (true, w.1, w.2 ++ [c])

/-- A run hands over the root alone and with its concrete child.  So every selection has one of
these sets of concrete features. -/
theorem enumerate_exact_choice :
    (∃ st, choiceWalk.enumerate (choiceWalk.solver.start ((), [])) = .ok .next st ∧
      st.solver.world.2 = [⟨1, ["R"]⟩, ⟨2, ["A", "R"]⟩]) ∧
    ∀ v : String → Bool, (∀ f ∈ choice.treeRules ++ choice.constraints, f.eval v = true) →
      nameSet (["R", "A"].filter v) ∈ [["R"], ["A", "R"]] := by
  have hrun : choiceWalk.enumerate (choiceWalk.solver.start ((), [])) =
      .ok .next ⟨⟨[], 11, (), [⟨1, ["R"]⟩, ⟨2, ["A", "R"]⟩]⟩, 3, [[0, 1], [0]],
        { emitted := 2 }⟩ := by
    cbv
  refine ⟨⟨_, hrun, rfl⟩, ?_⟩
  obtain ⟨st, heq, -, -, hnames⟩ := @enumerate_exact _ choiceWalk (fun _ => True) Prod.snd 2
    ((), [])
    built_choice rfl (by decide) rfl (fun given => Backend.exhaustive_correct.besides given)
    (fun _ _ hw => ⟨rfl, hw⟩) (fun _ _ _ => ⟨rfl, trivial, rfl⟩) trivial rfl
  rw [hrun] at heq
  have hst := (EStateM.Result.ok.inj heq).2
  intro v hv
  have hmem := (hnames (nameSet (["R", "A"].filter v))).2 ⟨v, hv, rfl⟩
  rw [← hst] at hmem
  exact hmem

end Walk

end ProductLine
