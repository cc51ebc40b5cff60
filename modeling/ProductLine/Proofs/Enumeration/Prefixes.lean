import Mathlib
import ProductLine.Proofs.Enumeration.Numbers
import ProductLine.Proofs.Satisfiability.Selectors
/-!
# What ends a walk does not change it before

Two walks over the same model hand over the same configurations in the same order, whatever models
their backends find and however these decide.  If one of them is ended by its target or its
receiver, it has handed over the first configurations of the other one.

* `Walk.leads_targetReached` follows the record that the target was reached, which
  `Walk.targetReached_iff_stop` reads in the summary;
* `Walk.enumerate_take` compares two walks.
-/
namespace ProductLine

namespace Walk

variable {ω : Type} {k : Walk ω} {handed : List Configuration → ω → Prop} {goesOn : Nat → Bool}

/-! ## The record of the target -/

section Record

variable {given : List (List Nat)} {st : WalkState ω} {product : List Nat → Prop}
  (hd : k.Decides handed product) (hg : k.Governed handed goesOn)

/-- The walk is on its way, and has not recorded that its target was reached. -/
def Running (k : Walk ω) (handed : List Configuration → ω → Prop) (st : WalkState ω) : Prop :=
  (∃ given, k.At handed given st) ∧ st.summary.targetReached = false

include hg

/-- At its target a walk ends before anything is asked, and records why. -/
theorem gate_of_targetReached (hst : k.At handed given st) (selected : List Nat)
    (hreached : k.target.any (· ≤ given.length) = true) :
    ∃ st', k.gate selected st = .ok (.leave .stop) st' ∧ k.At handed given st' ∧
      st'.summary.targetReached = true := by
  obtain ⟨hrunning, hworld⟩ := hg.monitor _ _ hst.world
  have hreached' : k.targetReached st.summary = true := by
    rw [targetReached, hst.emitted]
    exact hreached
  rw [gate_eq, hrunning, if_neg Bool.false_ne_true, if_pos hreached']
  exact ⟨_, rfl, (hst.asked hworld).record rfl, rfl⟩

include hd

/-- The walk goes on until it records that its target was reached. -/
theorem gate_running (hst : k.Running handed st) {selected frontier : List Nat}
    (h : k.model.Partway selected frontier) :
    ∃ gate st', k.gate selected st = .ok gate st' ∧
      (k.Running handed st' ∧ (gate = .enter ∨ gate = .leave .next) ∨
        st'.summary.targetReached = true ∧ gate = .leave .stop) := by
  obtain ⟨⟨given, hat⟩, hnot⟩ := hst
  cases hreached : k.target.any (· ≤ given.length) with
  | true =>
    obtain ⟨st', hrun, -, hrecord⟩ := gate_of_targetReached hg hat selected hreached
    exact ⟨_, st', hrun, .inr ⟨hrecord, rfl⟩⟩
  | false =>
    obtain ⟨gate, st', hrun, hat', hsame, hgate⟩ := gate_run hd hg hat hreached h
    exact ⟨gate, st', hrun, .inl ⟨⟨⟨given, hat'⟩, hsame.trans hnot⟩, hgate.imp_right And.left⟩⟩

theorem leads_gate {selected frontier : List Nat} (h : k.model.Partway selected frontier)
    {f : Gate → WalkM ω Flow} (hleave : ∀ flow, f (.leave flow) = pure flow)
    (henter : Leads (k.Running handed) (k.Running handed) (·.summary.targetReached = true)
      (fun _ => True) (f .enter)) :
    Leads (k.Running handed) (k.Running handed) (·.summary.targetReached = true) (fun _ => True)
      (k.gate selected >>= f) := by
  intro st hst
  obtain ⟨gate, st', hrun, ⟨hst', rfl | rfl⟩ | ⟨hrecord, rfl⟩⟩ := gate_running hd hg hst h
  · rw [run_bind_of_ok hrun]
    exact henter st' hst'
  · rw [run_bind_of_ok hrun, hleave]
    exact hst'
  · rw [run_bind_of_ok hrun, hleave]
    exact hrecord

theorem leads_complete (haccepts : ∀ given c w, handed given w → (k.sink c w).1 = true)
    (selected : List Nat) :
    Leads (k.Running handed) (k.Running handed) (·.summary.targetReached = true) (fun _ => True)
      (k.complete selected) := by
  rintro st ⟨⟨given, hst⟩, hnot⟩
  rw [complete_eq]
  split
  · exact ⟨⟨given, hst.record rfl⟩, hnot⟩
  · obtain ⟨b, st', hrun, -, hst'⟩ := hd.isProduct (keyOf selected) hst
    have hnot' : st'.summary.targetReached = false := summary_of_solving hrun ▸ hnot
    rw [hrun]
    cases b with
    | false => exact ⟨⟨given, hst'.record rfl⟩, hnot'⟩
    | true =>
      show Ends _ _ (k.emit (keyOf selected) st')
      rw [emit_eq, if_pos (haccepts _ _ _ hst'.world)]
      split
      · exact rfl
      · exact ⟨⟨_, hst'.handOver (hg.sink _ _ _ hst'.world).1⟩, hnot'⟩

/-- **A walk records that its target was reached** exactly if it is ended, where only the target
ends it. -/
theorem leads_targetReached (haccepts : ∀ given c w, handed given w → (k.sink c w).1 = true)
    {selected frontier : List Nat} (h : k.model.Partway selected frontier) :
    Leads (k.Running handed) (k.Running handed) (·.summary.targetReached = true) (fun _ => True)
      (k.expand selected frontier) :=
  visiting_leads.expand id (leads_gate hd hg) (fun _ => leads_complete hd hg haccepts _) h

/-- So the summary of a walk says whether it was ended. -/
theorem targetReached_iff_stop (hm : k.model.WellFormed)
    (haccepts : ∀ given c w, handed given w → (k.sink c w).1 = true) {w : ω} (hw : handed [] w)
    {flow : Flow} (hrun : k.enumerate (k.solver.start w) = .ok flow st) :
    st.summary.targetReached = true ↔ flow = .stop := by
  have hstart : k.Running handed { solver := k.solver.start w } :=
    ⟨⟨[], rfl, rfl, by simp, rfl, hw⟩, rfl⟩
  have hends := leads_targetReached hd hg haccepts (FeatureModel.partway_root hm.pos) _ hstart
  change Ends _ _ (k.enumerate (k.solver.start w)) at hends
  rw [hrun] at hends
  cases flow with
  | next =>
    have hnot : st.summary.targetReached = false := hends.2
    simp [hnot]
  | stop => exact iff_of_true hends rfl

end Record

/-! ## Walks that are ended -/

/-- The first configurations belong to the first keys. -/
theorem configurations_take (m : FeatureModel) (given : List (List Nat)) (n : Nat) :
    configurations m (given.take n) = (configurations m given).take n := by
  refine List.ext_getElem ?_ ?_
  · simp [configurations]
  · intro i hi hi'
    simp [configurations]

/-- A walk that reached its target before it began hands over nothing. -/
theorem enumerate_of_targetReached (hg : k.Governed handed goesOn)
    (htarget : k.target = some 0) {w : ω} (hw : handed [] w) :
    ∃ st, k.enumerate (k.solver.start w) = .ok .stop st ∧ k.At handed [] st ∧
      st.summary.targetReached = true := by
  have hst : k.At handed [] { solver := k.solver.start w } := ⟨rfl, rfl, by simp, rfl, hw⟩
  obtain ⟨st', hrun, hst', hrecord⟩ := gate_of_targetReached hg hst [] (by simp [htarget])
  refine ⟨st', ?_, hst', hrecord⟩
  rw [enumerate, expand.eq_def, run_bind_of_ok hrun]
  rfl

section Comparison

variable {ω' : Type} {full : Walk ω} {part : Walk ω'} {good : ω → Prop} {good' : ω' → Prop}
  {log : ω → List Configuration} {log' : ω' → List Configuration}

/-- If the number after which a walk does not go on is `n`, it hands over the first `n`
configurations of a walk that nothing ends. -/
theorem enumerate_take_of_governed {limit n : Nat} (hm : full.model.Built)
    (hbase : full.model.baseFormula limit = .ok full.solver.base)
    (hmodel : part.model = full.model) (hsame : part.solver.base = full.solver.base)
    {all : List (List Nat)} (hall : full.Finds all) {handed' : List Configuration → ω' → Prop}
    {goesOn : Nat → Bool}
    (hg : part.Governed handed' goesOn) (hpos : 0 < n) (hon : ∀ i < n, goesOn i = true)
    (hoff : goesOn n = false) {w : ω'} (hw : handed' [] w) :
    ∃ flow st, part.enumerate (part.solver.start w) = .ok flow st ∧
      part.At handed' (all.take n) st ∧ (flow = .stop ↔ n ≤ all.length) := by
  obtain ⟨hstated, -⟩ := FeatureModel.statedBy_of_baseFormula hm.wellFormed hbase
  rw [← hmodel, ← hsame] at hstated
  obtain ⟨flow, st, hrun, given, hhands, hst⟩ :=
    (enumerate_ends hstated.model (decides_found hstated hg) hg (hon 0 hpos) hw).exists_ok
  obtain ⟨rfl, hflow⟩ := hhands.eq_take (hall.congr hmodel hsame) hpos hon hoff
  exact ⟨flow, st, hrun, hst, hflow⟩

/-- **What ends a walk does not change it before.**  Take two walks over the same model and base,
with correct backends, which may find different models, and monitors that never cancel.  One of them
has no target, and its receiver accepts everything.  It comes to its end, and has handed over `n`
configurations then.

If the other one has a target and a receiver that accepts everything, it hands over the first
configurations of these, with the same numbers and in the same order, up to its target.  It records
that the target was reached exactly if it is at most `n`.  If it has no target, and the receiver
refuses the configuration that is the `r`-th one, it hands over the first `r` of these. -/
theorem enumerate_take {limit : Nat} {w : ω} {w' : ω'} (hm : full.model.Built)
    (hbase : full.model.baseFormula limit = .ok full.solver.base)
    (hmodel : part.model = full.model) (hsame : part.solver.base = full.solver.base)
    (hfull : full.Logging good log) (hpart : part.Logging good' log') (htarget : full.target = none)
    (haccepts : ∀ c w, good w → (full.sink c w).1 = true) (hw : good w) (hlog : log w = [])
    (hw' : good' w') (hlog' : log' w' = []) :
    ∃ st, full.enumerate (full.solver.start w) = .ok .next st ∧
      (∀ t, part.target = some t → (∀ c w, good' w → (part.sink c w).1 = true) →
        ∃ flow st', part.enumerate (part.solver.start w') = .ok flow st' ∧
          log' st'.solver.world = (log st.solver.world).take t ∧
          (st'.summary.targetReached = true ↔ t ≤ (log st.solver.world).length)) ∧
      ∀ r, 0 < r → part.target = none →
        (∀ c w, good' w → (part.sink c w).1 = decide ((log' w).length + 1 ≠ r)) →
        ∃ flow st', part.enumerate (part.solver.start w') = .ok flow st' ∧
          log' st'.solver.world = (log st.solver.world).take r := by
  obtain ⟨hstated, -⟩ := FeatureModel.statedBy_of_baseFormula hm.wellFormed hbase
  have hg : full.Governed (fun given w => good w ∧ log w = given) (fun _ => true) :=
    hfull.governed (by simpa [htarget] using haccepts) (by simp [htarget])
  obtain ⟨all, hall⟩ := full.exists_finds
  obtain ⟨st, hrun, hst⟩ := hall.enumerate hstated hg ⟨hw, hlog⟩
  have hlength : (log st.solver.world).length = all.length := by
    rw [hst.world.2]
    simp [configurations]
  have htake (n : Nat) : configurations part.model (all.take n) = (log st.solver.world).take n := by
    rw [configurations_take, hst.world.2, hmodel]
  refine ⟨st, hrun, ?_, ?_⟩
  · intro t htarget' haccepts'
    have hg' :
        part.Governed (fun given w => good' w ∧ log' w = given) (fun n => decide (n < t)) := by
      refine hpart.governed ?_ ?_
      · intro c w hw
        rw [haccepts' c w hw, htarget', Bool.true_and, Option.any_some, ← decide_not]
        exact decide_eq_decide.2 Nat.not_le
      · intro n hn
        simpa [htarget'] using hn
    rw [hlength]
    rcases Nat.eq_zero_or_pos t with rfl | hpos
    · obtain ⟨st', hrun', hst', hrecord⟩ :=
        enumerate_of_targetReached hg' htarget' ⟨hw', hlog'⟩
      exact ⟨.stop, st', hrun', by simpa [configurations] using hst'.world.2, by simp [hrecord]⟩
    · obtain ⟨flow, st', hrun', hst', hflow⟩ :=
        enumerate_take_of_governed hm hbase hmodel hsame hall hg' hpos
          (fun i hi => decide_eq_true hi)
          (decide_eq_false (Nat.lt_irrefl t)) ⟨hw', hlog'⟩
      refine ⟨flow, st', hrun', hst'.world.2.trans (htake t), ?_⟩
      -- It is the target that ends it, if anything does.
      have hstated' : part.model.StatedBy part.solver.base := by rwa [hmodel, hsame]
      rw [← hflow]
      exact targetReached_iff_stop (decides_found hstated' hg') hg' hstated'.model
        (fun _ c w hw => haccepts' c w hw.1) ⟨hw', hlog'⟩ hrun'
  · intro r hpos htarget' hrefuses
    have hg' :
        part.Governed (fun given w => good' w ∧ log' w = given) (fun n => decide (n ≠ r)) := by
      refine hpart.governed ?_ (by simp [htarget'])
      intro c w hw
      rw [hrefuses c w hw, htarget']
      simp
    obtain ⟨flow, st', hrun', hst', -⟩ :=
      enumerate_take_of_governed hm hbase hmodel hsame hall hg' hpos
        (fun i hi => decide_eq_true (Nat.ne_of_lt hi)) (by simp) ⟨hw', hlog'⟩
    exact ⟨flow, st', hrun', hst'.world.2.trans (htake r)⟩

end Comparison

/-- The walk about `choice` with another backend, a target, and a receiver that refuses the
configuration with a number. -/
def endedWalk (target : Option Nat) (refused : Nat) : Walk (Unit × List Configuration) where
  model := choice
  solver := ⟨(Backend.ofEngine .exhaustive).besides _, choiceWalk.solver.base⟩
  monitor := Monitor.never
  target := target
  sink c w := (decide (w.2.length + 1 ≠ refused), w.1, w.2 ++ [c])

/-- The sink of the example keeps a log. -/
theorem logging_endedWalk (target : Option Nat) (refused : Nat) :
    (endedWalk target refused).Logging (fun _ => True) Prod.snd where
  backend given := (Backend.ofEngine_correct Engine.exhaustive_correct).besides given
  monitor _ _ hw := ⟨rfl, hw⟩
  sink _ _ _ := ⟨trivial, rfl⟩

/-- Nothing ends the walk before it has handed over two configurations.  With the target one it
hands over the first of them, with the target three both, and so it does if the second one is
refused. -/
theorem enumerate_take_choice :
    (∃ flow st, (endedWalk (some 1) 0).enumerate ((endedWalk (some 1) 0).solver.start ((), [])) =
        .ok flow st ∧ st.solver.world.2 = [⟨1, ["R"]⟩] ∧ st.summary.targetReached = true) ∧
    (∃ flow st, (endedWalk (some 3) 0).enumerate ((endedWalk (some 3) 0).solver.start ((), [])) =
        .ok flow st ∧ st.solver.world.2 = [⟨1, ["R"]⟩, ⟨2, ["A", "R"]⟩] ∧
          ¬ st.summary.targetReached = true) ∧
    ∃ flow st, (endedWalk none 2).enumerate ((endedWalk none 2).solver.start ((), [])) =
        .ok flow st ∧ st.solver.world.2 = [⟨1, ["R"]⟩, ⟨2, ["A", "R"]⟩] := by
  have hrun : choiceWalk.enumerate (choiceWalk.solver.start ((), [])) =
      .ok .next ⟨⟨[], 11, (), [⟨1, ["R"]⟩, ⟨2, ["A", "R"]⟩]⟩, 3, [[0, 1], [0]],
        { emitted := 2 }⟩ := by
    cbv
  have hfull : choiceWalk.Logging (fun _ => True) Prod.snd :=
    ⟨fun given => Backend.exhaustive_correct.besides given, fun _ _ hw => ⟨rfl, hw⟩,
      fun _ _ _ => ⟨trivial, rfl⟩⟩
  have htake (target : Option Nat) (refused : Nat) :=
    @enumerate_take _ _ choiceWalk (endedWalk target refused) _ _ _ _ 2 ((), []) ((), [])
      built_choice rfl rfl rfl hfull (logging_endedWalk target refused) rfl (fun _ _ _ => rfl)
      trivial rfl trivial rfl
  have haccepts (target : Option Nat) (c : Configuration) (w : Unit × List Configuration) :
      True → ((endedWalk target 0).sink c w).1 = true := by
    simp [endedWalk]
  refine ⟨?_, ?_, ?_⟩
  · obtain ⟨st, heq, htarget, -⟩ := htake (some 1) 0
    obtain rfl := (EStateM.Result.ok.inj (heq.symm.trans hrun)).2
    obtain ⟨flow, st', hrun', hlog, hrecord⟩ := htarget 1 rfl (haccepts _)
    exact ⟨flow, st', hrun', hlog, hrecord.2 (by decide)⟩
  · obtain ⟨st, heq, htarget, -⟩ := htake (some 3) 0
    obtain rfl := (EStateM.Result.ok.inj (heq.symm.trans hrun)).2
    obtain ⟨flow, st', hrun', hlog, hrecord⟩ := htarget 3 rfl (haccepts _)
    exact ⟨flow, st', hrun', hlog, mt hrecord.1 (by decide)⟩
  · obtain ⟨st, heq, -, hrefuses⟩ := htake none 2
    obtain rfl := (EStateM.Result.ok.inj (heq.symm.trans hrun)).2
    exact hrefuses 2 (by decide) rfl (fun _ _ _ => rfl)

end Walk

end ProductLine
