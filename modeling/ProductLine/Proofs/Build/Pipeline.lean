import Mathlib
import ProductLine.Build.Pipeline
import ProductLine.Proofs.Build.Buffer
/-!
# Runs of a pipeline come to an end

A party that need not wait takes a step.  Every step leaves less to be done, so a run goes on until
each party has stopped or waits.  While nothing cancels the run, the producer does not wait in vain,
and when it is done everything that was supplied has been emitted.

* `Pipeline.Takes` lists what a step does;
* `Pipeline.left` is what is left to be done, and `Pipeline.run_quiet` says that a run goes on until
  every party has stopped or waits;
* `Pipeline.Undisturbed` is the invariant of a run that nothing cancels;
* `Pipeline.Awaiting.supply` and `Pipeline.Awaiting.close` say how such a run is supplied and how it
  ends.
-/
namespace ProductLine

namespace Pipeline

variable {build : Configuration → BuildOutcome} {p p' : Pipeline}

/-! ## Steps -/

/-- What a party does when it need not wait. -/
inductive Takes (build : Configuration → BuildOutcome) (p : Pipeline) : Pipeline → Prop where
  | add {c : Configuration} {cs : List Configuration} : p.producer = .producing →
      p.pending = c :: cs → p.buffer.canceled = false → p.buffer.addBlocks = false →
      Takes build p { p with
        buffer := { p.buffer with
          queue := p.buffer.queue.add c
          emitted := p.buffer.emitted + 1 }
        pending := cs }
  /-- After a cancellation the rest is dropped. -/
  | drop : p.producer = .producing → p.pending ≠ [] → p.buffer.canceled = true →
      Takes build p { p with pending := [] }
  | last : p.producer = .producing → p.pending = [] → p.closed = true →
      Takes build p { p with producer := p.afterLast }
  | sort : p.producer = .sorting →
      Takes build p { p with buffer := p.buffer.sort, producer := .finishing }
  | cancel : p.producer = .canceling →
      Takes build p { p with buffer := p.buffer.cancel, producer := .finishing }
  | finish : p.producer = .finishing →
      Takes build p { p with buffer := p.buffer.finish, producer := .stopped }
  | take {index : Nat} {c : Configuration} {queue : BuildQueue} :
      p.workers[index]? = some .idle → p.buffer.canceled = false → p.buffer.heldBack = false →
      p.buffer.queue.pop = some (c, queue) →
      Takes build p { p with
        buffer := { p.buffer with queue := queue }
        workers := p.workers.set index (.building c)
        handed := c :: p.handed }
  | leave {index : Nat} : p.workers[index]? = some .idle →
      p.buffer.canceled = true ∨ p.buffer.finished = true ∧ p.buffer.buffered = 0 →
      Takes build p { p with workers := p.workers.set index .stopped }
  | record {index : Nat} {c : Configuration} (success : Bool) :
      p.workers[index]? = some (.building c) → build c = (if success then .built else .failed) →
      Takes build p { p with
        buffer := p.buffer.record success
        workers := p.workers.set index .idle }
  | crash {index : Nat} {c : Configuration} : p.workers[index]? = some (.building c) →
      build c = .crashed →
      Takes build p { p with
        buffer := p.buffer.cancel
        workers := p.workers.set index .stopped
        crashed := true }

theorem takes_of_produce (h : p.produce = some p') : Takes build p p' := by
  obtain ⟨buffer, pending, closed, failing, producer, workers, handed, crashed⟩ := p
  cases producer with
  | producing =>
    cases pending with
    | nil =>
      obtain ⟨hclosed, ⟨⟩⟩ := Option.ite_none_right_eq_some.1 h
      exact .last rfl rfl hclosed
    | cons c cs =>
      simp only [produce, Option.ite_none_left_eq_some, Bool.not_eq_true] at h
      obtain ⟨hroom, h⟩ := h
      by_cases hcanceled : buffer.canceled = true
      · rw [show buffer.add c = (false, buffer) from if_pos hcanceled] at h
        cases h
        exact .drop rfl (List.cons_ne_nil c cs) hcanceled
      · rw [show buffer.add c = (true, _) from if_neg hcanceled] at h
        cases h
        exact .add rfl rfl (Bool.eq_false_of_not_eq_true hcanceled) hroom
  | sorting =>
    cases h
    exact .sort rfl
  | canceling =>
    cases h
    exact .cancel rfl
  | finishing =>
    cases h
    exact .finish rfl
  | stopped => cases h

theorem takes_of_work {index : Nat} (h : p.work build index = some p') : Takes build p p' := by
  unfold work at h
  split at h
  · rename_i hidle
    have hfetches := p.buffer.fetches_get
    rcases hget : p.buffer.get with ⟨result, buffer⟩
    rw [hget] at h hfetches
    cases hfetches with
    | ready hrunning hreleased hpop =>
      cases h
      exact .take hidle hrunning hreleased hpop
    | finished hdone =>
      cases h
      exact .leave hidle hdone
    | pending _ _ _ => cases h
  · rename_i c hbuilding
    split at h
    · rename_i hbuild
      cases h
      exact .record true hbuilding hbuild
    · rename_i hbuild
      cases h
      exact .record false hbuilding hbuild
    · rename_i hbuild
      cases h
      exact .crash hbuilding hbuild
  · cases h
  · cases h

/-- A step is one of those that are listed. -/
theorem takes_of_step {party : Party} (h : p.step build party = some p') : Takes build p p' := by
  cases party with
  | producer => exact takes_of_produce h
  | worker index => exact takes_of_work h

/-! ## What is left to be done -/

/-- The steps that are left to a worker. -/
def WorkerState.left : WorkerState → Nat
  | .idle => 1
  | .building _ => 2
  | .stopped => 0

/-- The steps that are left to a producer, besides adding. -/
def ProducerState.left : ProducerState → Nat
  | .producing => 3
  | .sorting | .canceling => 2
  | .finishing => 1
  | .stopped => 0

/-- What is left to be done.  A configuration that waits is taken and built, and one that is still
to be added is added before. -/
def left (p : Pipeline) : Nat :=
  3 * p.pending.length + 2 * p.buffer.buffered + (p.workers.map WorkerState.left).sum +
    ProducerState.left p.producer

/-- A worker changes its state while the others keep theirs. -/
theorem exists_others {workers : List WorkerState} {index : Nat} {old : WorkerState}
    (h : workers[index]? = some old) :
    ∃ others, workers.Perm (old :: others) ∧
      ∀ new, (workers.set index new).Perm (new :: others) := by
  obtain ⟨hindex, rfl⟩ := List.getElem?_eq_some_iff.1 h
  exact ⟨workers.eraseIdx index, (List.getElem_cons_eraseIdx_perm hindex).symm,
    List.set_perm_cons_eraseIdx hindex⟩

/-- A worker that changes its state changes what is left by what is left for it. -/
theorem sum_left_set {workers : List WorkerState} {index : Nat} {old : WorkerState}
    (h : workers[index]? = some old) (new : WorkerState) :
    ((workers.set index new).map WorkerState.left).sum + WorkerState.left old =
      (workers.map WorkerState.left).sum + WorkerState.left new := by
  obtain ⟨others, hold, hnew⟩ := exists_others h
  rw [((hnew new).map _).sum_eq, (hold.map _).sum_eq, List.map_cons, List.map_cons, List.sum_cons,
    List.sum_cons]
  omega

/-- Every step leaves less to be done. -/
theorem Takes.left_lt (h : Takes build p p') : p'.left < p.left := by
  unfold left
  cases h with
  | add hproducer hpending _ _ =>
    simp only [BuildBuffer.buffered, BuildQueue.size_add, hpending, List.length_cons]
    omega
  | drop hproducer hpending _ =>
    have hlength := List.length_pos_of_ne_nil hpending
    simp only [List.length_nil]
    omega
  | last hproducer _ _ =>
    have hlast : ProducerState.left p.afterLast < ProducerState.left p.producer := by
      rw [hproducer, afterLast]
      split <;> [decide; (split <;> decide)]
    simp only
    omega
  | sort hproducer =>
    simp only [BuildBuffer.buffered, BuildBuffer.sort, BuildQueue.size_sort, hproducer,
      ProducerState.left]
    omega
  | cancel hproducer =>
    simp only [BuildBuffer.buffered, BuildBuffer.cancel, hproducer, ProducerState.left]
    omega
  | finish hproducer =>
    simp only [BuildBuffer.buffered, BuildBuffer.finish, hproducer, ProducerState.left]
    omega
  | @take index c queue hidle _ _ hpop =>
    have hworkers := sum_left_set hidle (.building c)
    have hsize := BuildQueue.size_of_pop hpop
    simp only [WorkerState.left, BuildBuffer.buffered] at hworkers ⊢
    omega
  | leave hidle _ =>
    have hworkers := sum_left_set hidle .stopped
    simp only [WorkerState.left] at hworkers ⊢
    omega
  | record success hbuilding _ =>
    have hworkers := sum_left_set hbuilding .idle
    have hsame : (p.buffer.record success).buffered = p.buffer.buffered := by
      cases success <;> rfl
    simp only [WorkerState.left, hsame] at hworkers ⊢
    omega
  | crash hbuilding _ =>
    have hworkers := sum_left_set hbuilding .stopped
    simp only [WorkerState.left, BuildBuffer.buffered, BuildBuffer.cancel] at hworkers ⊢
    omega

/-- A run takes as many steps as there may be left. -/
theorem left_le_stepsLeft (p : Pipeline) : p.left ≤ p.stepsLeft := by
  have hworkers : (p.workers.map WorkerState.left).sum ≤ 2 * p.workers.length := by
    induction p.workers with
    | nil => exact Nat.le_refl _
    | cons worker workers ih =>
      have hworker : WorkerState.left worker ≤ 2 := by cases worker <;> simp [WorkerState.left]
      rw [List.map_cons, List.sum_cons, List.length_cons]
      omega
  have hproducer : ProducerState.left p.producer ≤ 4 := by cases p.producer <;> decide
  unfold left stepsLeft
  omega

/-! ## Runs -/

/-- Every party has stopped or waits. -/
def Quiet (build : Configuration → BuildOutcome) (p : Pipeline) : Prop :=
  ∀ party ∈ p.parties, p.step build party = none

/-- With enough steps a run ends where nobody can do anything. -/
theorem runFor_quiet (n : Nat) (hn : p.left ≤ n) : (p.runFor build n).Quiet build := by
  induction n generalizing p with
  | zero =>
    intro party _
    rw [Option.eq_none_iff_forall_ne_some]
    intro p' hstep
    have hless : p'.left < p.left := (takes_of_step hstep).left_lt
    omega
  | succ n ih =>
    rw [runFor]
    split
    · rename_i next hnext
      obtain ⟨party, -, hstep⟩ := List.exists_of_findSome?_eq_some hnext
      have hless := (takes_of_step hstep).left_lt
      exact ih (by omega)
    · rename_i hnone
      exact List.findSome?_eq_none_iff.1 hnone

/-- A run goes on until every party has stopped or waits. -/
theorem run_quiet (p : Pipeline) : (p.run build).Quiet build :=
  runFor_quiet _ p.left_le_stepsLeft

/-- What every step keeps is kept by a run. -/
theorem run_induction (invariant : Pipeline → Prop)
    (hstep : ∀ p p' party, p.step build party = some p' → invariant p → invariant p')
    (hp : invariant p) : invariant (p.run build) := by
  have hrunFor : ∀ n, ∀ p, invariant p → invariant (p.runFor build n) := by
    intro n
    induction n with
    | zero => exact fun p hp => hp
    | succ n ih =>
      intro p hp
      rw [runFor]
      split
      · rename_i next hnext
        obtain ⟨party, -, hnext⟩ := List.exists_of_findSome?_eq_some hnext
        exact ih next (hstep p next party hnext hp)
      · exact hp
  exact hrunFor _ p hp

/-! ## Who waits -/

/-- Nothing is left for the producer. -/
theorem Quiet.produce (h : p.Quiet build) : p.produce = none :=
  h .producer (List.mem_cons_self ..)

/-- Nothing is left for any worker. -/
theorem Quiet.work (h : p.Quiet build) {worker : WorkerState} (hworker : worker ∈ p.workers) :
    ∃ index, p.workers[index]? = some worker ∧ p.work build index = none := by
  obtain ⟨index, hindex, hget⟩ := List.getElem_of_mem hworker
  refine ⟨index, List.getElem?_eq_some_iff.2 ⟨hindex, hget⟩, h (.worker index) ?_⟩
  simp [parties, hindex]

/-- A worker that has not stopped waits for the next configuration. -/
theorem Quiet.worker_waits (h : p.Quiet build) {worker : WorkerState}
    (hworker : worker ∈ p.workers) (hactive : worker ≠ .stopped) :
    p.buffer.Fetches .pending p.buffer := by
  obtain ⟨index, hindex, hwork⟩ := h.work hworker
  unfold Pipeline.work at hwork
  rw [hindex] at hwork
  cases worker with
  | idle =>
    have hfetches := p.buffer.fetches_get
    rcases hget : p.buffer.get with ⟨result, buffer⟩
    rw [hget] at hwork hfetches
    cases hfetches with
    | ready _ _ _ => cases hwork
    | finished _ => cases hwork
    | pending hrunning hunfinished hempty => exact .pending hrunning hunfinished hempty
  | building c =>
    simp only at hwork
    split at hwork <;> cases hwork
  | stopped => exact (hactive rfl).elim

/-! ## Runs that nothing cancels -/

/-- Nothing cancels the run, and so far `total` configurations were supplied. -/
structure Undisturbed (total : Nat) (expected : Option Nat) (p : Pipeline) : Prop where
  running : p.buffer.canceled = false
  crashed : p.crashed = false
  failing : p.failing = false
  producer : p.producer ≠ .canceling
  capacity : 0 < p.buffer.capacity
  workers : p.workers ≠ []
  emitted : p.buffer.emitted + p.pending.length = total
  expected : p.buffer.expected = expected
  added : p.producer ≠ .producing → p.pending = []
  sorted : p.producer = .finishing ∨ p.producer = .stopped → p.buffer.heldBack = false
  finished : p.buffer.finished = true ↔ p.producer = .stopped
  /-- A worker stops only when there is nothing any more. -/
  drained : .stopped ∈ p.workers → p.buffer.finished = true ∧ p.buffer.buffered = 0

namespace Undisturbed

variable {total : Nat} {expected : Option Nat}

/-- The buffer is finished only by the producer. -/
theorem unfinished (h : Undisturbed total expected p) (hproducer : p.producer ≠ .stopped) :
    ¬ p.buffer.finished = true :=
  mt h.finished.1 hproducer

/-- Before the producer is done no worker has stopped. -/
theorem active (h : Undisturbed total expected p) (hproducer : p.producer ≠ .stopped) :
    .stopped ∉ p.workers :=
  fun hmem => h.unfinished hproducer (h.drained hmem).1

/-- After the last configuration the order is fixed, unless nothing is held back. -/
theorem afterLast_cases (h : Undisturbed total expected p) :
    p.afterLast = .sorting ∨ p.afterLast = .finishing ∧ p.buffer.heldBack = false := by
  simp only [afterLast, h.failing, h.running, BuildBuffer.heldBack]
  cases p.buffer.bufferFirst <;> simp

/-- Every step keeps an undisturbed pipeline undisturbed, unless a build crashes. -/
theorem step (h : Undisturbed total expected p) (hbuild : ∀ c, build c ≠ .crashed)
    (hstep : Takes build p p') : Undisturbed total expected p' := by
  have hset {index : Nat} {worker : WorkerState} (hworker : worker ≠ .stopped)
      (hmem : .stopped ∈ p.workers.set index worker) : .stopped ∈ p.workers :=
    (List.mem_or_eq_of_mem_set hmem).resolve_right hworker.symm
  cases hstep with
  | @add c cs hproducer hpending _ _ =>
    have hactive := h.active (by simp [hproducer])
    refine { h with emitted := ?_, added := ?_, drained := fun hmem => (hactive hmem).elim }
    · have hemitted := h.emitted
      rw [hpending, List.length_cons] at hemitted
      simp only
      omega
    · exact fun hother => (hother hproducer).elim
  | drop _ _ hcanceled =>
    rw [h.running] at hcanceled
    cases hcanceled
  | last hproducer hpending _ =>
    have hunfinished := h.unfinished (by simp [hproducer])
    obtain hlast | ⟨hlast, hreleased⟩ := h.afterLast_cases
    · exact { h with
        producer := by simp [hlast]
        added := fun _ => hpending
        sorted := by simp [hlast]
        finished := by simp [hlast, hunfinished] }
    · exact { h with
        producer := by simp [hlast]
        added := fun _ => hpending
        sorted := fun _ => hreleased
        finished := by simp [hlast, hunfinished] }
  | sort hproducer =>
    have hactive := h.active (by simp [hproducer])
    have hunfinished := h.unfinished (by simp [hproducer])
    exact { h with
      producer := by simp
      added := fun _ => h.added (by simp [hproducer])
      sorted := fun _ => by simp [BuildBuffer.heldBack, BuildBuffer.sort]
      finished := by simpa [BuildBuffer.sort] using hunfinished
      drained := fun hmem => (hactive hmem).elim }
  | cancel hproducer => exact (h.producer hproducer).elim
  | finish hproducer =>
    exact { h with
      producer := by simp
      added := fun _ => h.added (by simp [hproducer])
      sorted := fun _ => h.sorted (.inl hproducer)
      finished := by simp [BuildBuffer.finish]
      drained := fun hmem => ⟨rfl, (h.drained hmem).2⟩ }
  | @take index c queue hidle _ _ hpop =>
    refine { h with workers := ?_, drained := ?_ }
    · simpa [List.set_eq_nil_iff] using h.workers
    · intro hmem
      obtain ⟨-, hempty⟩ := h.drained (hset (by simp) hmem)
      rw [BuildQueue.pop_eq_none_iff.2 hempty] at hpop
      cases hpop
  | leave hidle hdone =>
    refine { h with workers := ?_, drained := fun _ => ?_ }
    · simpa [List.set_eq_nil_iff] using h.workers
    · exact hdone.resolve_left (by simp [h.running])
  | record success hbuilding houtcome =>
    have hbuffer : p.buffer.record success = { p.buffer with
        built := (p.buffer.record success).built
        failed := (p.buffer.record success).failed } := by
      cases success <;> rfl
    rw [hbuffer]
    refine { h with workers := ?_, drained := ?_ }
    · simpa [List.set_eq_nil_iff] using h.workers
    · exact fun hmem => h.drained (hset (by simp) hmem)
  | crash _ hcrash => exact (hbuild _ hcrash).elim

/-- A run leaves an undisturbed pipeline undisturbed. -/
theorem run (h : Undisturbed total expected p) (hbuild : ∀ c, build c ≠ .crashed) :
    Undisturbed total expected (p.run build) :=
  run_induction (Undisturbed total expected)
    (fun _ _ _ hstep hp => hp.step hbuild (takes_of_step hstep)) h

/-- A full buffer holds something, and nothing is held back. -/
theorem full (h : Undisturbed total expected p) (hblocks : p.buffer.addBlocks = true) :
    p.buffer.buffered ≠ 0 ∧ p.buffer.heldBack = false := by
  simp only [BuildBuffer.addBlocks, Bool.and_eq_true, Bool.not_eq_true', decide_eq_true_eq]
    at hblocks
  obtain ⟨⟨hfirst, hfull⟩, -⟩ := hblocks
  have hcapacity := h.capacity
  exact ⟨by omega, by simp [BuildBuffer.heldBack, hfirst]⟩

/-- Whoever fetches from a full buffer gets something. -/
theorem ready_of_addBlocks (h : Undisturbed total expected p) (hblocks : p.buffer.addBlocks = true)
    {result : Fetch} {after : BuildBuffer} (hfetches : p.buffer.Fetches result after) :
    ∃ c, result = .ready c := by
  obtain ⟨hsome, hreleased⟩ := h.full hblocks
  cases hfetches with
  | @ready c _ _ _ _ => exact ⟨c, rfl⟩
  | finished hdone =>
    obtain ⟨-, hempty⟩ := hdone.resolve_left (by simp [h.running])
    exact (hsome hempty).elim
  | pending _ _ hempty => exact (hsome (hempty hreleased)).elim

/-- While the buffer is full no worker has stopped. -/
theorem active_of_addBlocks (h : Undisturbed total expected p)
    (hblocks : p.buffer.addBlocks = true) : .stopped ∉ p.workers :=
  fun hmem => (h.full hblocks).1 (h.drained hmem).2

/-- Once the producer is done no worker has to wait: what waits is not held back any more, and where
nothing waits the worker is told to stop. -/
theorem not_fetches_pending (h : Undisturbed total expected p)
    (hfinished : p.buffer.finished = true) {after : BuildBuffer} :
    ¬ p.buffer.Fetches .pending after := by
  intro hfetches
  have hreleased := h.sorted (.inr (h.finished.1 hfinished))
  cases hfetches with
  | pending _ hwaiting hempty => exact hwaiting hfinished (hempty hreleased)

/-- The producer never waits for room while all workers wait. -/
theorem pending_eq_nil (h : Undisturbed total expected p) (hquiet : p.Quiet build) :
    p.pending = [] := by
  by_cases hproducer : p.producer = .producing
  swap
  · exact h.added hproducer
  by_contra hpending
  obtain ⟨c, cs, hpending⟩ := List.exists_cons_of_ne_nil hpending
  have hblocks : p.buffer.addBlocks = true := by
    by_contra hroom
    have hproduce := hquiet.produce
    simp [produce, hproducer, hpending, hroom, BuildBuffer.add, h.running] at hproduce
  -- A full buffer holds something that a worker could take.
  obtain ⟨worker, hworker⟩ := List.exists_mem_of_ne_nil _ h.workers
  have hactive : worker ≠ .stopped := ne_of_mem_of_not_mem hworker (h.active_of_addBlocks hblocks)
  obtain ⟨c, ⟨⟩⟩ := h.ready_of_addBlocks hblocks (hquiet.worker_waits hworker hactive)

/-- Once the supply is closed a quiet run is over: the producer is done, all workers have stopped
and nothing waits. -/
theorem ended (h : Undisturbed total expected p) (hquiet : p.Quiet build)
    (hclosed : p.closed = true) :
    p.buffer.finished = true ∧ p.buffer.buffered = 0 ∧ ∀ worker ∈ p.workers, worker = .stopped := by
  have hproducer : p.producer = .stopped := by
    have hproduce := hquiet.produce
    cases hproducer : p.producer with
    | producing => simp [produce, hproducer, h.pending_eq_nil hquiet, hclosed] at hproduce
    | stopped => rfl
    | sorting | canceling | finishing => simp [produce, hproducer] at hproduce
  have hfinished := h.finished.2 hproducer
  have hstopped : ∀ worker ∈ p.workers, worker = .stopped := by
    intro worker hworker
    by_contra hactive
    exact h.not_fetches_pending hfinished (hquiet.worker_waits hworker hactive)
  obtain ⟨worker, hworker⟩ := List.exists_mem_of_ne_nil _ h.workers
  exact ⟨hfinished, (h.drained (hstopped worker hworker ▸ hworker)).2, hstopped⟩

end Undisturbed

/-! ## Supplies -/

/-- A step neither opens nor closes the supply. -/
theorem Takes.closed_eq (h : Takes build p p') : p'.closed = p.closed := by
  cases h <;> rfl

/-- The producer goes on as long as the supply is not closed. -/
theorem Takes.producing (h : Takes build p p') (hclosed : p.closed = false)
    (hproducer : p.producer = .producing) : p'.producer = .producing := by
  cases h with
  | add _ _ _ _ | drop _ _ _ | take _ _ _ _ | leave _ _ | record _ _ _ | crash _ _ =>
    exact hproducer
  | last _ _ hlast =>
    rw [hclosed] at hlast
    cases hlast
  | sort hother | cancel hother | finish hother =>
    rw [hproducer] at hother
    cases hother

theorem run_closed_eq (p : Pipeline) : (p.run build).closed = p.closed :=
  run_induction (fun p' => p'.closed = p.closed)
    (fun _ _ _ hstep hp => (takes_of_step hstep).closed_eq.trans hp) rfl

/-- Before the supply is closed the producer goes on producing. -/
theorem run_producing (hclosed : p.closed = false) (hproducer : p.producer = .producing) :
    (p.run build).producer = .producing := by
  refine (run_induction (fun p => p.closed = false ∧ p.producer = .producing) ?_
    ⟨hclosed, hproducer⟩).2
  intro p p' party hstep hp
  have htakes := takes_of_step hstep
  exact ⟨htakes.closed_eq.trans hp.1, htakes.producing hp.1 hp.2⟩

/-- An undisturbed run in which the producer waits for more, after `total` configurations. -/
structure Awaiting (total : Nat) (expected : Option Nat) (p : Pipeline) : Prop
    extends Undisturbed total expected p where
  closed : p.closed = false
  producing : p.producer = .producing
  pending : p.pending = []

namespace Awaiting

variable {total : Nat} {expected : Option Nat}

/-- A pipeline at the start awaits its first configuration. -/
theorem start (policy : OrderingPolicy) (names : List String) (capacity : Nat) (bufferFirst : Bool)
    {workers : Nat} (hworkers : 0 < workers) :
    Awaiting 0 none (.start (.start policy names capacity bufferFirst) workers) where
  running := rfl
  crashed := rfl
  failing := rfl
  producer := nofun
  capacity := Nat.lt_of_lt_of_le Nat.zero_lt_one (Nat.le_max_right ..)
  workers := by simpa [Pipeline.start] using hworkers.ne'
  emitted := rfl
  expected := rfl
  added _ := rfl
  sorted := nofun
  finished := by simp [Pipeline.start, BuildBuffer.start]
  drained := by simp [Pipeline.start]
  closed := rfl
  producing := rfl
  pending := rfl

/-- A configuration that is supplied is emitted, and more are wanted. -/
theorem supply (h : Awaiting total expected p) (hbuild : ∀ c, build c ≠ .crashed)
    (c : Configuration) :
    (p.supply build c).1 = true ∧ Awaiting (total + 1) expected (p.supply build c).2 := by
  have hsupplied : Undisturbed (total + 1) expected { p with pending := p.pending ++ [c] } := by
    have hemitted := h.emitted
    refine { h.toUndisturbed with emitted := ?_, added := fun hother => (hother h.producing).elim }
    rw [List.length_append, List.length_singleton, ← Nat.add_assoc, hemitted]
  have hrun := hsupplied.run hbuild
  refine ⟨?_, hrun, (run_closed_eq _).trans h.closed, run_producing h.closed h.producing,
    hrun.pending_eq_nil (run_quiet _)⟩
  show (!(Pipeline.run build _).buffer.canceled) = true
  rw [hrun.running]
  rfl

/-- When the supply is closed the run ends, and everything that was supplied has been emitted. -/
theorem close (h : Awaiting total expected p) (hbuild : ∀ c, build c ≠ .crashed) :
    (p.close build false).crashed = false ∧
      (p.close build false).buffer.emitted = total ∧
      (p.close build false).buffer.expected = expected ∧
      (p.close build false).buffer.finished = true ∧
      (p.close build false).buffer.buffered = 0 ∧
      ∀ worker ∈ (p.close build false).workers, worker = .stopped := by
  have hclosed : Undisturbed total expected { p with closed := true, failing := false } :=
    { h.toUndisturbed with failing := rfl }
  have hrun := hclosed.run hbuild
  have hemitted := hrun.emitted
  rw [hrun.pending_eq_nil (run_quiet _)] at hemitted
  exact ⟨hrun.crashed, hemitted, hrun.expected, hrun.ended (run_quiet _) (run_closed_eq _)⟩

end Awaiting

end Pipeline

end ProductLine
