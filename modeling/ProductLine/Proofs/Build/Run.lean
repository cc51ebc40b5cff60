import Mathlib
import ProductLine.Proofs.Build.Interleavings
import ProductLine.Proofs.Enumeration.Numbers
/-!
# Runs of a builder

A builder lets the parties of its run take turns, so it takes its steps in one of the orders in
which they could take them.  A run over all valid configurations of a model is supplied by a walk.
As long as nothing cancels the run, it takes everything the walk hands over.

* `Builder.run_sample` says so for runs over a sample, and `Builder.run_allValid` for runs over all
  valid configurations;
* `Builder.announceCount_eq` is the announcement of an exact count, and `Builder.supplying_governed`
  says that an undisturbed run is a receiver that accepts everything.
-/
namespace ProductLine

/-- There is always a worker. -/
theorem Options.workerCount_pos (o : Options) {parallelism : Nat} (h : 0 < parallelism) :
    0 < o.workerCount parallelism := by
  unfold workerCount
  split <;> omega

namespace Builder

open Pipeline (Awaiting Reaches)

variable {ω : Type} {b : Builder} {backend : Backend ω} {base : BaseFormula} {good : ω → Prop}
  {build : Configuration → BuildOutcome} {p : Pipeline} {total : Nat} {expected : Option Nat}
  {w : ω}

theorem awaiting_start (model : FeatureModel) (options : Options) {parallelism : Nat}
    (hparallelism : 0 < parallelism) :
    Awaiting 0 none (.start (Builder.start model options).buffer
      (options.workerCount parallelism)) :=
  .start _ _ _ _ (options.workerCount_pos hparallelism)

theorem awaiting_announce (h : Awaiting total expected p) (n : Nat) :
    Awaiting total (some n) (announce p n) :=
  { h with expected := rfl }

/-! ## Samples -/

/-- A run over a sample takes its steps in one of the orders, until all workers have stopped. -/
theorem run_sample {parallelism : Nat} (hstarted : b.started = false)
    (hstart : Awaiting 0 none (.start b.buffer (b.options.workerCount parallelism)))
    (hbuild : ∀ c, build c ≠ .crashed) (sample : List Configuration) (w : ω) :
    ∃ p, Reaches (.start b.buffer (b.options.workerCount parallelism))
        (SourceEvent.ofSample b.options sample) p ∧
      (∀ worker ∈ p.workers, worker = .stopped) ∧
      b.run backend parallelism build (.sample sample) w =
        (.done p.buffer.progress, p.handed.reverse, { b with buffer := p.buffer, started := true },
          w) := by
  have hannounced := Reaches.start.announce (sampled b.options sample).length hstart.closed
  obtain ⟨hsupplied, total, hwaits⟩ := hannounced.supplyAll
    (awaiting_announce hstart _) hbuild (sampled b.options sample)
  obtain ⟨hcrashed, -, -, -, -, hstopped⟩ := hwaits.close hbuild
  refine ⟨_, (hsupplied.close hwaits.closed).run hbuild, hstopped, ?_⟩
  simp only [run, hstarted, Bool.false_eq_true, if_false, produce, Option.isSome_none, hcrashed]
  rfl

/-! ## All valid configurations -/

/-- Without a target the exact count is announced. -/
theorem announceCount_eq (hb : backend.Correct good) (hstated : b.model.StatedBy base)
    (hfirst : b.options.countFirst = true) (htarget : b.options.target = none)
    (hp : p.buffer.canceled = false) {n : Nat}
    (hn : (Solver.Restrictions ⟨backend, base⟩ [] b.model.concreteFeatures).ncard = n)
    (hlimit : n < b.options.countLimit) (hw : good w) :
    ∃ w', b.announceCount ⟨backend, base⟩ p w = (none, announce p n, w') ∧ good w' := by
  have hmonitor : Monitor.NeverCancels (fun w => (p.buffer.canceled, w)) good :=
    fun _ hw => ⟨hp, hw⟩
  obtain ⟨st, hrun, hgood⟩ := Walk.count_start (s := ⟨backend, base⟩) hb hmonitor hstated
    b.options.countLimit hw
  rw [hn, if_pos hlimit] at hrun
  refine ⟨st.world, ?_, hgood⟩
  simp only [announceCount, if_pos hfirst, hrun, expectation, htarget, Option.elim_none,
    Option.elim_some]

/-- A run that nothing cancels takes whatever the walk hands over, in one of the orders of its
steps. -/
theorem supplying_governed {start : Pipeline} (es : List SourceEvent) (hb : backend.Correct good)
    (htarget : b.options.target = none) (hbuild : ∀ c, build c ≠ .crashed) :
    (b.supplying build ⟨backend, base⟩).Governed
      (fun given w => good w.1 ∧ Awaiting given.length expected w.2 ∧
        Reaches start (es ++ given.map .supply) w.2) (fun _ => true) where
  backend given := hb.besides_keeping fun p =>
    Awaiting given.length expected p ∧ Reaches start (es ++ given.map SourceEvent.supply) p
  monitor _ w hw := ⟨hw.2.1.running, hw⟩
  sink := by
    rintro given c w ⟨hgood, hwaits, hreaches⟩
    obtain ⟨hwanted, hwaits'⟩ := hwaits.supply hbuild c
    refine ⟨⟨hgood, ?_, ?_⟩, ?_⟩
    · rw [List.length_append]
      exact hwaits'
    · rw [List.map_append, ← List.append_assoc]
      exact (hreaches.supply c hwaits.closed).run hbuild
    · simp [supplying, hwanted, htarget]
  target := by simp [supplying, htarget]

/-- A supply of valid configurations comes to its end with the walk. -/
theorem supplyValid_eq {p' : Pipeline} {w' : ω} {flow : Flow} {st : WalkState (ω × Pipeline)}
    (hbase : b.model.baseFormula b.options.clauseLimit = .ok base)
    (hannounce : b.announceCount ⟨backend, base⟩ p w = (none, p', w'))
    (hwalk : (b.supplying build ⟨backend, base⟩).enumerate
      ((b.supplying build ⟨backend, base⟩).solver.start (w', p')) = .ok flow st) :
    b.supplyValid backend build p w = (none, st.solver.world.2, st.solver.world.1) := by
  simp only [supplyValid, hbase, hannounce, hwalk]

/-- **A run over all valid configurations** takes its steps in one of the orders, until all workers
have stopped, if the backend is correct and there is no target.  If there are `n` products, and that
is below the limit of the count, the source announces so many and supplies what a walk finds. -/
theorem run_allValid {parallelism n : Nat} {all : List (List Nat)} (hstarted : b.started = false)
    (hstart : Awaiting 0 none (.start b.buffer (b.options.workerCount parallelism)))
    (hb : backend.Correct good) (hstated : b.model.StatedBy base)
    (hbase : b.model.baseFormula b.options.clauseLimit = .ok base)
    (hfirst : b.options.countFirst = true) (htarget : b.options.target = none)
    (hn : (Solver.Restrictions ⟨backend, base⟩ [] b.model.concreteFeatures).ncard = n)
    (hlimit : n < b.options.countLimit) (hbuild : ∀ c, build c ≠ .crashed)
    (hall : (b.supplying build ⟨backend, base⟩).Finds all) (hw : good w) :
    ∃ p, Reaches (.start b.buffer (b.options.workerCount parallelism))
        (SourceEvent.ofValid b.options (.exact n) (Walk.configurations b.model all)) p ∧
      (∀ worker ∈ p.workers, worker = .stopped) ∧
      (b.run backend parallelism build .allValid w).1 = .done p.buffer.progress := by
  obtain ⟨w₁, hannounce, hw₁⟩ :=
    announceCount_eq hb hstated hfirst htarget hstart.running hn hlimit hw
  have hannounced := Reaches.start.announce n hstart.closed
  obtain ⟨st, hwalk, hst⟩ := hall.enumerate hstated
    (supplying_governed [.announce n] hb htarget hbuild) (w := (w₁, _))
    ⟨hw₁, awaiting_announce hstart n, hannounced⟩
  obtain ⟨-, hwaits, hsupplied⟩ := hst.world
  obtain ⟨hcrashed, -, -, -, -, hstopped⟩ := hwaits.close hbuild
  have hevents : SourceEvent.ofValid b.options (.exact n) (Walk.configurations b.model all) =
      [.announce n] ++ (Walk.configurations b.model all).map .supply ++ [.close] := by
    simp [SourceEvent.ofValid, hfirst, expectation, htarget]
  refine ⟨_, hevents ▸ (hsupplied.close hwaits.closed).run hbuild, hstopped, ?_⟩
  have hproduce := supplyValid_eq hbase hannounce hwalk
  simp only [run, hstarted, Bool.false_eq_true, if_false, produce, hproduce, Option.isSome_none]
  rw [Pipeline.close] at hcrashed
  simp only [Pipeline.close, hcrashed, Bool.false_eq_true, if_false]

end Builder

end ProductLine
