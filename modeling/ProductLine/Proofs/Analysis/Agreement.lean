import Mathlib
import ProductLine.Proofs.Build.Run
/-!
# Counts agree with enumerations

Counting and enumerating ask different questions, but both are about the restrictions of valid
selections to the concrete features.  The questions of an enumeration take a clause for each
concrete feature, so it finds nothing if the clause limit is smaller than their number.
-/
namespace ProductLine

namespace Analysis

variable {ω : Type} {model : FeatureModel} {backend : Backend ω} {options : Options}
  {a : Analysis ω}

/-- **Counts agree with enumerations.**  Let a count be exact.  Then every enumeration without a
target comes to its end, and all of them hand over the same configurations.  These are just as many
as were counted if the clause limit is at least the number of concrete features, and none otherwise.
Another count finds the same number, and an enumeration that goes on from there the same
configurations.

So the source of a build run that counts first announces the number that was counted, and supplies
these configurations.  Let the producer and the workers take their steps in any order, let builds
succeed or fail, and let nothing cancel the run.  Until it is over someone can take a step, or the
source goes on.  When all workers have stopped as many are expected as were counted, as many have
been emitted as an enumeration hands over, and all of these have been built or have failed.  Among
these runs are those of the builder. -/
theorem count_agrees {good : ω → Prop} {log : ω → List Configuration} {monitor : Monitor ω}
    {sink : Sink ω} {w : ω} {n : Nat} {st : SolverState ω} (hm : model.Built)
    (ha : build model backend options = .ok a) (hmax : options.maxConfigurations = 0)
    (hbackend : ∀ given, backend.Correct (fun w => good w ∧ log w = given))
    (hmonitor : ∀ given, monitor.NeverCancels (fun w => good w ∧ log w = given))
    (hsink : ∀ c w, good w → (sink c w).1 = true ∧ good (sink c w).2 ∧
      log (sink c w).2 = log w ++ [c])
    (hw : good w) (hcount : a.count monitor (a.start w) = .ok (.exact n) st) :
    ∃ found : List Configuration,
      found.length = (if model.concreteFeatures.length ≤ options.clauseLimit then n else 0) ∧
      (∀ w', good w' → log w' = [] →
        ∃ st', (a.walk monitor sink).enumerate (a.start w') = .ok .next st' ∧
          log st'.solver.world = found) ∧
      (∀ w', good w' → log w' = [] → ∃ counted st', a.count monitor (a.start w') =
          .ok (.exact n) counted ∧
        (a.walk monitor sink).enumerate (a.start counted.world) = .ok .next st' ∧
          log st'.solver.world = found) ∧
      (options.countFirst = true → ∀ parallelism, 0 < parallelism →
        let start := Pipeline.start (Builder.start model options).buffer
          (options.workerCount parallelism)
        let events := SourceEvent.ofValid options (.exact n) found
        (∀ es p, Pipeline.Reaches start es p → es.IsPrefix events →
          (p.Over ∨ p.AwaitsSource ∨
            ∀ outcome, ∃ party ∈ p.parties, ∃ p', p.step outcome party = some p') ∧
          ((∀ worker ∈ p.workers, worker = .stopped) →
            p.buffer.emitted =
                (if model.concreteFeatures.length ≤ options.clauseLimit then n else 0) ∧
              p.buffer.expected = some n ∧ p.buffer.finished = true ∧ p.buffer.buffered = 0 ∧
              p.buffer.built + p.buffer.failed = p.buffer.emitted)) ∧
        ∀ w' outcome, good w' → (∀ c, outcome c ≠ .crashed) →
          ∃ p, Pipeline.Reaches start events p ∧ (∀ worker ∈ p.workers, worker = .stopped) ∧
            ((Builder.start model options).run backend parallelism outcome .allValid w').1 =
              .done p.buffer.progress) := by
  obtain ⟨base, rfl, hbase, hstated, hclauses⟩ := build_eq_ok hm.wellFormed ha
  have hb := Backend.Trusted.of_log hbackend
  have htarget : options.target = none := if_pos hmax
  obtain ⟨hn, hlimit⟩ := Walk.ncard_of_count_exact (s := ⟨backend, base⟩) hb
    (Monitor.NeverCancels.of_log hmonitor) hstated hw hcount
  rw [← hclauses]
  obtain ⟨all, hall⟩ := (walk ⟨model, ⟨backend, base⟩, options⟩ monitor sink).exists_finds
  have hlength : (Walk.configurations model all).length =
      if model.concreteFeatures.length ≤ base.clauseLimit then n else 0 := by
    rw [Walk.configurations, List.length_mapIdx, hall.length_eq hstated]
    simp only [walk, hn]
  have henumerate {w'} (hw' : good w' ∧ log w' = []) :
      ∃ st', (walk ⟨model, ⟨backend, base⟩, options⟩ monitor sink).enumerate
        (start ⟨model, ⟨backend, base⟩, options⟩ w') = .ok .next st' ∧
          log st'.solver.world = Walk.configurations model all := by
    obtain ⟨st', hrun, hst⟩ :=
      hall.enumerate hstated (Walk.governed_of_log htarget hbackend hmonitor hsink) hw'
    exact ⟨st', hrun, hst.world.2⟩
  refine ⟨_, hlength, fun w' hgood hlog => henumerate ⟨hgood, hlog⟩, ?_, ?_⟩
  · intro w' hgood hlog
    obtain ⟨counted, hcounted, hw₁⟩ := Walk.count_start (s := ⟨backend, base⟩) (hbackend [])
      (hmonitor []) hstated options.countLimit ⟨hgood, hlog⟩
    rw [hn, if_pos hlimit] at hcounted
    obtain ⟨st', hrun, hfound⟩ := henumerate hw₁
    exact ⟨counted, st', hcounted, hrun, hfound⟩
  · intro hfirst parallelism hparallelism start events
    constructor
    · intro es p hreaches hevents
      have hshared := hreaches.shared (options.workerCount_pos hparallelism)
      refine ⟨hshared.goes_on, fun hstopped => ?_⟩
      obtain ⟨hemitted, hexpected, hended⟩ := hshared.of_stopped_valid hfirst hevents hstopped
      rw [Builder.expectation, htarget] at hexpected
      exact ⟨hemitted.trans hlength, hexpected, hended⟩
    · intro w' outcome hgood houtcome
      exact Builder.run_allValid rfl (Builder.awaiting_start model options hparallelism) hb hstated
        hbase hfirst htarget hn hlimit houtcome (hall.congr rfl rfl) hgood

/-- A root with an optional child. -/
def pair : FeatureModel where
  features := #[{ name := "R", parent := none }, { name := "A", parent := some 0 }]
  constraints := []

theorem built_pair : pair.Built := .apply (e := .add "R" "A") (.root "R") rfl

/-- Options with two workers and a clause limit. -/
def countingOptions (limit : Nat) : Options where
  workers := 2
  countFirst := true
  clauseLimit := limit

/-- The analysis of the model, with a world that keeps what is handed over. -/
def pairAnalysis (limit : Nat) : Analysis (Unit × List Configuration) where
  model := pair
  solver := ⟨Backend.exhaustive.besides _, {
    vars := ⟨["R", "A"]⟩
    constraints := pair.allConstraints
    formulas := [⟨2, [[⟨0, true⟩]]⟩, ⟨2, [[⟨0, true⟩, ⟨1, false⟩]]⟩]
    clauseLimit := limit
    propagated := ⟨#[some true, none], false⟩ }⟩
  options := countingOptions limit

/-- A receiver that keeps what it is given. -/
def keeping : Sink (Unit × List Configuration) := fun c w => (true, w.1, w.2 ++ [c])

/-- With room for two clauses a count finds two configurations, so as many are handed over and
emitted, by two workers in any order of steps that comes to an end.  There is such an order. -/
theorem count_agrees_pair :
    (∃ st, (pairAnalysis 2).count Monitor.never ((pairAnalysis 2).start ((), [])) =
      .ok (.exact 2) st) ∧
    ∃ found : List Configuration, found.length = 2 ∧
      (∃ st, ((pairAnalysis 2).walk Monitor.never keeping).enumerate
        ((pairAnalysis 2).start ((), [])) = .ok .next st ∧ st.solver.world.2 = found) ∧
      (∀ p, Pipeline.Reaches (.start (Builder.start pair (countingOptions 2)).buffer 2)
          (SourceEvent.ofValid (countingOptions 2) (.exact 2) found) p →
        (∀ worker ∈ p.workers, worker = .stopped) →
          p.buffer.emitted = 2 ∧ p.buffer.expected = some 2) ∧
      ∃ p, Pipeline.Reaches (.start (Builder.start pair (countingOptions 2)).buffer 2)
          (SourceEvent.ofValid (countingOptions 2) (.exact 2) found) p ∧
        (∀ worker ∈ p.workers, worker = .stopped) ∧
        ((Builder.start pair (countingOptions 2)).run (Backend.exhaustive.besides _) 1
          (fun _ => .built) .allValid ((), ([] : List Configuration))).1 =
            .done p.buffer.progress := by
  have hcount : (pairAnalysis 2).count Monitor.never ((pairAnalysis 2).start ((), [])) =
      .ok (.exact 2) ⟨[], 2, ((), [])⟩ := by
    cbv
  obtain ⟨found, hlength, henumerate, -, hbuilds⟩ := @count_agrees _ pair
    (Backend.exhaustive.besides _) (countingOptions 2) (pairAnalysis 2) (fun _ => True) Prod.snd
    Monitor.never keeping ((), []) 2 _ built_pair rfl rfl
    (fun given => Backend.exhaustive_correct.besides given) (fun _ _ hw => ⟨rfl, hw⟩)
    (fun _ _ _ => ⟨rfl, trivial, rfl⟩) trivial hcount
  obtain ⟨hany, hrun⟩ := hbuilds rfl 1 (by decide)
  refine ⟨⟨_, hcount⟩, found, hlength, henumerate ((), []) trivial rfl, ?_,
    hrun ((), []) (fun _ => .built) trivial (by simp)⟩
  intro p hreaches hstopped
  obtain ⟨hemitted, hexpected, -⟩ := (hany _ p hreaches List.prefix_rfl).2 hstopped
  exact ⟨hemitted, hexpected⟩

/-- With room for only one clause two configurations are counted as well, but none are handed over.
A build run expects two and emits none. -/
theorem count_disagrees_pair :
    pair.Built ∧
    build pair (Backend.exhaustive.besides _) (countingOptions 1) = .ok (pairAnalysis 1) ∧
    (countingOptions 1).maxConfigurations = 0 ∧
    (∀ given : List Configuration, (Backend.exhaustive.besides _).Correct
      (fun w => True ∧ w.2 = given)) ∧
    (∃ st, (pairAnalysis 1).count Monitor.never ((pairAnalysis 1).start ((), [])) =
      .ok (.exact 2) st) ∧
    (∃ st, ((pairAnalysis 1).walk Monitor.never keeping).enumerate
        ((pairAnalysis 1).start ((), [])) = .ok .next st ∧ st.solver.world.2 = []) ∧
    ∃ progress, ((Builder.start pair (countingOptions 1)).run (Backend.exhaustive.besides _) 1
        (fun _ => .built) .allValid ((), ([] : List Configuration))).1 = .done progress ∧
      progress.emitted = 0 ∧ progress.expected = some 2 ∧ progress.canceled = false := by
  have hcount : (pairAnalysis 1).count Monitor.never ((pairAnalysis 1).start ((), [])) =
      .ok (.exact 2) ⟨[], 2, ((), [])⟩ := by
    cbv
  have henumerate : ((pairAnalysis 1).walk Monitor.never keeping).enumerate
      ((pairAnalysis 1).start ((), [])) =
        .ok .next ⟨⟨[], 4, ((), [])⟩, 1, [], { discarded := 2 }⟩ := by
    cbv
  have hrun : ((Builder.start pair (countingOptions 1)).run (Backend.exhaustive.besides _) 1
      (fun _ => .built) .allValid ((), ([] : List Configuration))).1 =
        .done ⟨0, 0, 0, 0, some 2, true, false⟩ := by
    cbv
  exact ⟨built_pair, rfl, rfl, fun given => Backend.exhaustive_correct.besides given,
    ⟨_, hcount⟩, ⟨_, henumerate, rfl⟩, _, hrun, rfl, rfl, rfl⟩

end Analysis

end ProductLine
