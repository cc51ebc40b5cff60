import Mathlib
import ProductLine.Build.Run
import ProductLine.Proofs.Build.Pipeline
/-!
# Builds share out what is produced

The producer and the workers of a run take their steps in any order, and meanwhile the source
supplies configurations.  As long as nothing cancels the run, every configuration that was supplied
is in one place: some worker builds it or has built it, it waits in the buffer, or it is still to be
added.  Until the run is over there is someone who need not wait.

* `Pipeline.Reaches` are the states that any order of steps leads to;
* `Pipeline.Shared` is the invariant of these states;
* `Pipeline.conserves_of_reaches` says what holds in all of them, and in those in which all workers
  have stopped;
* `Pipeline.Reaches.run` and `Pipeline.Reaches.supplyAll` say that parties that take turns take
  their steps in one of these orders.
-/
namespace ProductLine

/-- Something that the source of a run does. -/
inductive SourceEvent where
  /-- Says how many configurations are to come. -/
  | announce (expected : Nat)
  | supply (configuration : Configuration)
  /-- Says that no more are to come. -/
  | close
deriving DecidableEq

namespace SourceEvent

/-- The configurations that were supplied. -/
def supplied (es : List SourceEvent) : List Configuration :=
  es.filterMap (fun
    | .supply c => some c
    | .announce _ | .close => none)

/-- The number that was announced last. -/
def announced (es : List SourceEvent) : Option Nat :=
  (es.filterMap (fun
    | .announce n => some n
    | .supply _ | .close => none)).getLast?

/-- A source that only closes the supply when it has done everything else has done everything once
it has closed it. -/
theorem eq_of_close_mem {before es : List SourceEvent} (hbefore : .close ∉ before)
    (h : es.IsPrefix (before ++ [.close])) (hclosed : .close ∈ es) : es = before ++ [.close] :=
  (List.prefix_concat_iff.1 h).resolve_right (fun hshort => hbefore (hshort.subset hclosed))

/-- What the source does in a run over a sample. -/
def ofSample (options : Options) (sample : List Configuration) : List SourceEvent :=
  .announce (Builder.sampled options sample).length ::
    (Builder.sampled options sample).map .supply ++ [.close]

/-- From a sample, its configurations are supplied up to the target. -/
theorem supplied_ofSample (options : Options) (sample : List Configuration) :
    supplied (ofSample options sample) = Builder.sampled options sample := by
  simp [supplied, ofSample, List.filterMap_map]

/-- From a sample, as many are announced as are supplied. -/
theorem announced_ofSample (options : Options) (sample : List Configuration) :
    announced (ofSample options sample) = some (Builder.sampled options sample).length := by
  simp [announced, ofSample, List.filterMap_map]

/-- Once a source has closed the supply of a sample it has done everything. -/
theorem eq_ofSample {options : Options} {sample : List Configuration} {es : List SourceEvent}
    (h : es.IsPrefix (ofSample options sample)) (hclosed : .close ∈ es) :
    es = ofSample options sample :=
  eq_of_close_mem (by simp) h hclosed

/-- What the source does in a run over all valid configurations: it announces what is expected after
a count, if there is one, and supplies what a walk finds. -/
def ofValid (options : Options) (count : Count) (found : List Configuration) : List SourceEvent :=
  (if options.countFirst then (Builder.expectation options count).toList else []).map .announce ++
    found.map .supply ++ [.close]

/-- From a walk, the configurations it finds are supplied. -/
theorem supplied_ofValid (options : Options) (count : Count) (found : List Configuration) :
    supplied (ofValid options count found) = found := by
  simp [supplied, ofValid, List.filterMap_map]

/-- With a count, what is expected after it is announced. -/
theorem announced_ofValid {options : Options} (hfirst : options.countFirst = true) (count : Count)
    (found : List Configuration) :
    announced (ofValid options count found) = Builder.expectation options count := by
  cases h : Builder.expectation options count <;>
    simp [announced, ofValid, List.filterMap_map, hfirst, h]

/-- Once a source has closed the supply of all valid configurations it has done everything. -/
theorem eq_ofValid {options : Options} {count : Count} {found : List Configuration}
    {es : List SourceEvent} (h : es.IsPrefix (ofValid options count found))
    (hclosed : .close ∈ es) :
    es = ofValid options count found :=
  eq_of_close_mem (by simp) h hclosed

end SourceEvent

/-- As many configurations of a sample are built as the target allows. -/
theorem Builder.length_sampled (options : Options) (sample : List Configuration) :
    (sampled options sample).length = options.target.elim sample.length (min sample.length) := by
  unfold sampled
  cases options.target with
  | none => rfl
  | some target => exact List.length_take.trans (Nat.min_comm ..)

namespace Pipeline

open SourceEvent (supplied announced)

variable {build : Configuration → BuildOutcome} {p p' : Pipeline} {es : List SourceEvent}

/-! ## Interleavings -/

/-- The states that a run may come to, with what the source did until then.  The parties take their
steps in any order, and builds end in any way that does not cancel the run.  The source does what it
does at any time, until it closes the supply. -/
inductive Reaches (start : Pipeline) : List SourceEvent → Pipeline → Prop where
  | start : Reaches start [] start
  | step {es : List SourceEvent} {p p' : Pipeline} {party : Party}
      {build : Configuration → BuildOutcome} : Reaches start es p → (∀ c, build c ≠ .crashed) →
      p.step build party = some p' → Reaches start es p'
  | announce {es : List SourceEvent} {p : Pipeline} (n : Nat) : Reaches start es p →
      p.closed = false → Reaches start (es ++ [.announce n]) (Builder.announce p n)
  | supply {es : List SourceEvent} {p : Pipeline} (c : Configuration) : Reaches start es p →
      p.closed = false →
      Reaches start (es ++ [.supply c]) { p with pending := p.pending ++ [c] }
  | close {es : List SourceEvent} {p : Pipeline} : Reaches start es p → p.closed = false →
      Reaches start (es ++ [.close]) { p with closed := true, failing := false }

/-- What a worker is building. -/
def WorkerState.task : WorkerState → Option Configuration
  | .building c => some c
  | .idle | .stopped => none

/-- What workers are building. -/
def beingBuilt (p : Pipeline) : List Configuration := p.workers.filterMap WorkerState.task

/-- The producer and all workers have stopped. -/
def Over (p : Pipeline) : Prop :=
  p.producer = .stopped ∧ ∀ worker ∈ p.workers, worker = .stopped

/-- The producer has added everything and waits for the source. -/
def AwaitsSource (p : Pipeline) : Prop :=
  p.producer = .producing ∧ p.pending = [] ∧ p.closed = false

/-! ## What a step keeps -/

/-- A step hands on what was supplied. -/
theorem Takes.perm (h : Takes build p p') (hrunning : p.buffer.canceled = false) :
    (p'.handed ++ p'.buffer.queue.held ++ p'.pending).Perm
      (p.handed ++ p.buffer.queue.held ++ p.pending) := by
  cases h with
  | add _ hpending _ _ =>
    simp only [BuildQueue.held_add, hpending, List.append_assoc, List.singleton_append]
    exact .refl _
  | drop _ _ hcanceled =>
    rw [hrunning] at hcanceled
    cases hcanceled
  | sort _ => exact ((BuildQueue.perm_sort _).append_left _).append_right _
  | take _ _ _ hpop =>
    have htaken := (BuildQueue.perm_of_pop hpop).append_left p.handed
    exact (List.perm_middle.symm.trans htaken.symm).append_right _
  | record success _ _ => cases success <;> exact .refl _
  | last _ _ _ | cancel _ | finish _ | leave _ _ | crash _ _ => exact .refl _

/-- What workers got is what they are building and what they built or failed to build. -/
def Kept (p : Pipeline) : Prop :=
  ∃ done, p.handed.Perm (p.beingBuilt ++ done) ∧
    done.length = p.buffer.built + p.buffer.failed

/-- A worker turns to something else while the others go on. -/
theorem exists_otherTasks {index : Nat} {old : WorkerState} (h : p.workers[index]? = some old) :
    ∃ others, p.beingBuilt.Perm ((WorkerState.task old).toList ++ others) ∧
      ∀ new, ((p.workers.set index new).filterMap WorkerState.task).Perm
        ((WorkerState.task new).toList ++ others) := by
  obtain ⟨others, hold, hnew⟩ := exists_others h
  have hcons (worker : WorkerState) : (worker :: others).filterMap WorkerState.task =
      (WorkerState.task worker).toList ++ others.filterMap WorkerState.task := by
    cases worker <;> rfl
  exact ⟨_, hcons old ▸ hold.filterMap _, fun new => hcons new ▸ (hnew new).filterMap _⟩

/-- Every step keeps what is kept between the steps, unless a build crashes. -/
theorem Takes.kept (h : Takes build p p') (hbuild : ∀ c, build c ≠ .crashed) (hp : p.Kept) :
    p'.Kept := by
  obtain ⟨done, hhanded, hdone⟩ := hp
  cases h with
  | @take _ c _ hidle _ _ _ =>
    obtain ⟨others, hold, hnew⟩ := exists_otherTasks hidle
    have hbefore : (c :: p.handed).Perm (c :: (others ++ done)) :=
      (hhanded.trans (hold.append_right done)).cons c
    exact ⟨done, hbefore.trans ((hnew (.building c)).append_right done).symm, hdone⟩
  | leave hidle _ =>
    obtain ⟨others, hold, hnew⟩ := exists_otherTasks hidle
    have hbefore : p.handed.Perm (others ++ done) := hhanded.trans (hold.append_right done)
    exact ⟨done, hbefore.trans ((hnew .stopped).append_right done).symm, hdone⟩
  | @record _ c success hbuilding _ =>
    obtain ⟨others, hold, hnew⟩ := exists_otherTasks hbuilding
    have hbefore : p.handed.Perm (c :: (others ++ done)) := hhanded.trans (hold.append_right done)
    have hafter : p.handed.Perm (others ++ c :: done) := hbefore.trans List.perm_middle.symm
    refine ⟨c :: done, hafter.trans ((hnew .idle).append_right (c :: done)).symm, ?_⟩
    rw [List.length_cons, hdone]
    cases success with
    | true => exact Nat.add_right_comm ..
    | false => rfl
  | crash _ hcrash => exact (hbuild _ hcrash).elim
  | add _ _ _ _ | drop _ _ _ | last _ _ _ | sort _ | cancel _ | finish _ =>
    exact ⟨done, hhanded, hdone⟩

/-! ## What holds in every state -/

/-- Nothing cancels the run, and what the source supplied is shared out. -/
structure Shared (es : List SourceEvent) (p : Pipeline) : Prop
    extends Undisturbed (supplied es).length (announced es) p where
  producing : p.closed = false → p.producer = .producing
  closed : p.closed = true ↔ .close ∈ es
  held : (supplied es).Perm (p.handed ++ p.buffer.queue.held ++ p.pending)
  kept : p.Kept

namespace Shared

theorem start (policy : OrderingPolicy) (names : List String) (capacity : Nat) (bufferFirst : Bool)
    {workers : Nat} (hworkers : 0 < workers) :
    Shared [] (.start (.start policy names capacity bufferFirst) workers) :=
  { (Awaiting.start policy names capacity bufferFirst hworkers).toUndisturbed with
    producing := fun _ => rfl
    closed := by simp [Pipeline.start]
    held := .refl _
    kept := ⟨[], by simp [Pipeline.start, beingBuilt, WorkerState.task], rfl⟩ }

/-- A step by anyone keeps what is shared. -/
theorem step (h : Shared es p) (hbuild : ∀ c, build c ≠ .crashed) (hstep : Takes build p p') :
    Shared es p' :=
  { h.toUndisturbed.step hbuild hstep with
    producing := fun hopen => by
      rw [hstep.closed_eq] at hopen
      exact hstep.producing hopen (h.producing hopen)
    closed := by rw [hstep.closed_eq, h.closed]
    held := h.held.trans (hstep.perm h.running).symm
    kept := hstep.kept hbuild h.kept }

theorem announce (h : Shared es p) (n : Nat) :
    Shared (es ++ [.announce n]) (Builder.announce p n) := by
  have hsupplied : supplied (es ++ [.announce n]) = supplied es := by simp [supplied]
  have hannounced : announced (es ++ [.announce n]) = some n := by simp [announced]
  exact { h with
    emitted := by
      rw [hsupplied]
      exact h.emitted
    expected := hannounced.symm
    closed := by simpa [Builder.announce] using h.closed
    held := by
      rw [hsupplied]
      exact h.held }

theorem supply (h : Shared es p) (c : Configuration) (hopen : p.closed = false) :
    Shared (es ++ [.supply c]) { p with pending := p.pending ++ [c] } := by
  have hsupplied : supplied (es ++ [.supply c]) = supplied es ++ [c] := by simp [supplied]
  have hannounced : announced (es ++ [.supply c]) = announced es := by simp [announced]
  exact { h with
    emitted := by
      rw [hsupplied, List.length_append, List.length_append, ← Nat.add_assoc, h.emitted]
    expected := h.expected.trans hannounced.symm
    added := fun hother => (hother (h.producing hopen)).elim
    closed := by simpa using h.closed
    held := by
      rw [hsupplied, ← List.append_assoc]
      exact h.held.append_right [c] }

theorem close (h : Shared es p) :
    Shared (es ++ [.close]) { p with closed := true, failing := false } := by
  have hsupplied : supplied (es ++ [.close]) = supplied es := by simp [supplied]
  have hannounced : announced (es ++ [.close]) = announced es := by simp [announced]
  exact { h with
    emitted := by
      rw [hsupplied]
      exact h.emitted
    failing := rfl
    expected := h.expected.trans hannounced.symm
    producing := nofun
    closed := by simp
    held := by
      rw [hsupplied]
      exact h.held }

/-- What was added waits, is being built, or was built or not. -/
theorem emitted_eq (h : Shared es p) :
    p.buffer.emitted =
      p.buffer.buffered + p.beingBuilt.length + p.buffer.built + p.buffer.failed := by
  obtain ⟨done, hhanded, hdone⟩ := h.kept
  have hemitted := h.emitted
  have hheld := h.held.length_eq
  have hlength := hhanded.length_eq
  rw [List.length_append, List.length_append, BuildQueue.length_held] at hheld
  rw [List.length_append] at hlength
  unfold BuildBuffer.buffered
  omega

/-- A run in which everyone has stopped or waits is over, or the source has to go on. -/
theorem of_quiet (h : Shared es p) (hquiet : p.Quiet build) : p.Over ∨ p.AwaitsSource := by
  cases hclosed : p.closed with
  | true =>
    obtain ⟨hfinished, -, hstopped⟩ := h.ended hquiet hclosed
    exact .inl ⟨h.finished.1 hfinished, hstopped⟩
  | false => exact .inr ⟨h.producing hclosed, h.pending_eq_nil hquiet, hclosed⟩

/-- When all workers have stopped, everything that was to be supplied was built or not. -/
theorem of_stopped (h : Shared es p) (hstopped : ∀ worker ∈ p.workers, worker = .stopped) :
    .close ∈ es ∧ p.buffer.finished = true ∧ p.buffer.buffered = 0 ∧
      p.buffer.built + p.buffer.failed = p.buffer.emitted ∧
      p.buffer.emitted = (supplied es).length := by
  obtain ⟨worker, hworker⟩ := List.exists_mem_of_ne_nil _ h.workers
  obtain ⟨hfinished, hempty⟩ := h.drained (hstopped worker hworker ▸ hworker)
  have hproducer := h.finished.1 hfinished
  have hclosed : p.closed = true := by
    by_contra hopen
    rw [h.producing (Bool.eq_false_of_not_eq_true hopen)] at hproducer
    cases hproducer
  have hbuilding : p.beingBuilt = [] := by
    refine List.filterMap_eq_nil_iff.2 (fun worker hworker => ?_)
    rw [hstopped worker hworker, WorkerState.task]
  have hadded := h.emitted
  have hemitted := h.emitted_eq
  rw [h.added (by simp [hproducer]), List.length_nil] at hadded
  rw [hbuilding, hempty, List.length_nil] at hemitted
  exact ⟨h.closed.1 hclosed, hfinished, hempty, by omega, by omega⟩

/-- A run that is not over goes on, unless it waits for the source. -/
theorem goes_on (h : Shared es p) :
    p.Over ∨ p.AwaitsSource ∨ ∀ build, ∃ party ∈ p.parties, ∃ p', p.step build party = some p' := by
  by_cases hquiet : ∃ build, p.Quiet build
  · obtain ⟨build, hquiet⟩ := hquiet
    exact (h.of_quiet hquiet).imp_right .inl
  · refine .inr (.inr (fun build => ?_))
    by_contra hnone
    refine hquiet ⟨build, fun party hparty => Option.eq_none_iff_forall_ne_some.2 ?_⟩
    exact fun p' hstep => hnone ⟨party, hparty, p', hstep⟩

/-- When all workers have stopped in a run over all valid configurations, those that a walk finds
have been emitted, and what was expected after a count is known. -/
theorem of_stopped_valid {options : Options} {count : Count} {found : List Configuration}
    (h : Shared es p) (hfirst : options.countFirst = true)
    (hvalid : es.IsPrefix (SourceEvent.ofValid options count found))
    (hstopped : ∀ worker ∈ p.workers, worker = .stopped) :
    p.buffer.emitted = found.length ∧ p.buffer.expected = Builder.expectation options count ∧
      p.buffer.finished = true ∧ p.buffer.buffered = 0 ∧
      p.buffer.built + p.buffer.failed = p.buffer.emitted := by
  obtain ⟨hclosed, hfinished, hempty, hbuilt, hemitted⟩ := h.of_stopped hstopped
  have hexpected := h.expected
  rw [SourceEvent.eq_ofValid hvalid hclosed] at hemitted hexpected
  rw [SourceEvent.supplied_ofValid] at hemitted
  rw [SourceEvent.announced_ofValid hfirst] at hexpected
  exact ⟨hemitted, hexpected, hfinished, hempty, hbuilt⟩

end Shared

/-- Whatever the order of the steps, what the source supplied is shared out. -/
theorem Reaches.shared {policy : OrderingPolicy} {names : List String} {capacity workers : Nat}
    {bufferFirst : Bool} (hworkers : 0 < workers)
    (h : Reaches (.start (.start policy names capacity bufferFirst) workers) es p) :
    Shared es p := by
  induction h with
  | start => exact .start policy names capacity bufferFirst hworkers
  | step _ hbuild hstep ih => exact ih.step hbuild (takes_of_step hstep)
  | announce n _ _ ih => exact ih.announce n
  | supply c _ hopen ih => exact ih.supply c hopen
  | close _ _ ih => exact ih.close

/-- **Workers share out what is produced, in any order of steps.**  What was supplied is being
built, was built or not, waits, or is still to be added, and each configuration is in one of these
places only.  So none was handed to two workers, and what was added is accounted for.

The producer does not wait for room unless a worker could fetch something, and once it is done no
worker waits for the next configuration.  Until the run is over someone can take a step, or the
source goes on.

When all workers have stopped nothing waits and everything that was supplied was built or not.  A
source that supplies a sample then announced as many configurations as were added, which are all of
them or as many as the target allows. -/
theorem conserves_of_reaches {policy : OrderingPolicy} {names : List String}
    {capacity workers : Nat} {bufferFirst : Bool} (hworkers : 0 < workers)
    (h : Reaches (.start (.start policy names capacity bufferFirst) workers) es p) :
    (∃ done, p.handed.Perm (p.beingBuilt ++ done) ∧
      done.length = p.buffer.built + p.buffer.failed ∧
      (supplied es).Perm (p.beingBuilt ++ done ++ p.buffer.queue.held ++ p.pending)) ∧
    ((supplied es).Nodup → p.handed.Nodup) ∧
    p.buffer.emitted =
      p.buffer.buffered + p.beingBuilt.length + p.buffer.built + p.buffer.failed ∧
    (p.buffer.addBlocks = true → (∃ c, p.buffer.get.1 = .ready c) ∧ .stopped ∉ p.workers) ∧
    (p.buffer.finished = true → p.buffer.get.1 ≠ .pending) ∧
    (p.Over ∨ p.AwaitsSource ∨ ∀ build, ∃ party ∈ p.parties, ∃ p', p.step build party = some p') ∧
    ((∀ worker ∈ p.workers, worker = .stopped) →
      p.buffer.buffered = 0 ∧ p.buffer.built + p.buffer.failed = p.buffer.emitted ∧
        p.buffer.emitted = (supplied es).length ∧
        ∀ options sample, es.IsPrefix (SourceEvent.ofSample options sample) →
          p.buffer.emitted = options.target.elim sample.length (min sample.length) ∧
            p.buffer.expected = some p.buffer.emitted) := by
  have hshared := h.shared hworkers
  have hfetches := p.buffer.fetches_get
  refine ⟨?_, ?_, hshared.emitted_eq, ?_, ?_, ?_, ?_⟩
  · obtain ⟨done, hhanded, hdone⟩ := hshared.kept
    exact ⟨done, hhanded, hdone,
      hshared.held.trans ((hhanded.append_right _).append_right _)⟩
  · intro hnodup
    rw [hshared.held.nodup_iff, List.append_assoc] at hnodup
    exact hnodup.of_append_left
  · intro hblocks
    exact ⟨hshared.ready_of_addBlocks hblocks hfetches, hshared.active_of_addBlocks hblocks⟩
  · intro hfinished hpending
    exact hshared.not_fetches_pending hfinished (hpending ▸ hfetches)
  · exact hshared.goes_on
  · intro hstopped
    obtain ⟨hclosed, -, hempty, hbuilt, hemitted⟩ := hshared.of_stopped hstopped
    refine ⟨hempty, hbuilt, hemitted, fun options sample hsample => ?_⟩
    have hexpected := hshared.expected
    rw [SourceEvent.eq_ofSample hsample hclosed] at hemitted hexpected
    rw [SourceEvent.supplied_ofSample] at hemitted
    rw [SourceEvent.announced_ofSample] at hexpected
    exact ⟨hemitted.trans (Builder.length_sampled ..), hexpected.trans (hemitted ▸ rfl)⟩

/-- Two workers share a buffer with room for one configuration.  A sample of three is cut to the
target of two, one build fails, and the first worker to get something is the last to stop. -/
theorem conserves_of_reaches_twoWorkers :
    ∃ p, Reaches (.start (.start .insertion [] 1 false) 2)
        (SourceEvent.ofSample { maxConfigurations := 2 }
          [⟨1, ["A"]⟩, ⟨2, ["B"]⟩, ⟨3, ["A", "B"]⟩]) p ∧
      p.Over ∧ p.handed = [⟨2, ["B"]⟩, ⟨1, ["A"]⟩] ∧ p.buffer.buffered = 0 ∧
      p.buffer.built + p.buffer.failed = p.buffer.emitted ∧ p.buffer.emitted = 2 ∧
      p.buffer.expected = some 2 := by
  have go {start p p' : Pipeline} {es : List SourceEvent} (outcome : Bool) (party : Party)
      (h : Reaches start es p)
      (hstep : p.step (fun _ => if outcome then .built else .failed) party = some p') :
      Reaches start es p' :=
    h.step (by cases outcome <;> nofun) hstep
  have hstart : Reaches (.start (.start .insertion [] 1 false) 2) [] _ := .start
  have hadded := go true .producer ((hstart.announce 2 rfl).supply ⟨1, ["A"]⟩ rfl) rfl
  -- Now the buffer is full, so the next configuration has to wait for a worker.
  have htaken := go true (.worker 1) (hadded.supply ⟨2, ["B"]⟩ rfl) rfl
  have hfailed := go false (.worker 0) (go true (.worker 0) (go true .producer htaken rfl) rfl) rfl
  have hfinished := go true .producer (go true .producer (hfailed.close rfl) rfl) rfl
  have hleft := go true (.worker 0) hfinished rfl
  have hend := go true (.worker 1) (go true (.worker 1) hleft rfl) rfl
  obtain ⟨-, -, -, -, -, -, hstopped⟩ := conserves_of_reaches (by decide) hend
  obtain ⟨hempty, hbuilt, -, hsample⟩ := hstopped (by decide)
  obtain ⟨hemitted, hexpected⟩ := hsample { maxConfigurations := 2 }
    [⟨1, ["A"]⟩, ⟨2, ["B"]⟩, ⟨3, ["A", "B"]⟩] List.prefix_rfl
  exact ⟨_, hend, ⟨rfl, by decide⟩, rfl, hempty, hbuilt, hemitted, hexpected⟩

/-! ## Taking turns -/

/-- Parties that take turns take their steps in one of the orders. -/
theorem Reaches.run {start : Pipeline} (h : Reaches start es p)
    (hbuild : ∀ c, build c ≠ .crashed) : Reaches start es (p.run build) :=
  run_induction (Reaches start es) (fun _ _ _ hstep hp => hp.step hbuild hstep) h

/-- Configurations may be supplied one by one, with everyone taking turns in between. -/
theorem Reaches.supplyAll {start : Pipeline} {total : Nat} {expected : Option Nat}
    (h : Reaches start es p) (hwaits : Awaiting total expected p)
    (hbuild : ∀ c, build c ≠ .crashed) (cs : List Configuration) :
    Reaches start (es ++ cs.map .supply) (p.supplyAll build cs) ∧
      ∃ total', Awaiting total' expected (p.supplyAll build cs) := by
  induction cs generalizing es p total with
  | nil => exact ⟨(List.append_nil es).symm ▸ h, total, hwaits⟩
  | cons c cs ih =>
    obtain ⟨hwanted, hwaits'⟩ := hwaits.supply hbuild c
    have hsupplied : Reaches start (es ++ [.supply c]) (p.supply build c).2 :=
      (h.supply c hwaits.closed).run hbuild
    have hrest := ih hsupplied hwaits'
    rw [List.append_assoc] at hrest
    have hall : p.supplyAll build (c :: cs) = (p.supply build c).2.supplyAll build cs := by
      rw [Pipeline.supplyAll, ← Prod.eta (p.supply build c), hwanted]
    rw [hall]
    exact hrest

end Pipeline

end ProductLine
