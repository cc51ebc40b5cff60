import Mathlib.Data.List.Perm.Basic
import Mathlib.Tactic.Common
import ProductLine.Build.Buffer
import ProductLine.Proofs.Build.Queue
/-!
# Build buffers lose nothing

Operations on a buffer are atomic, and they come in any order, except that a configuration is added
only when the producer does not have to wait.

* `BuildBuffer.Step` is one operation with what it answers, and `BuildBuffer.Runs` any number of
  them;
* `BuildBuffer.Fetches` says what a worker may get;
* `BuildBuffer.Accounts` is the invariant that relates a buffer to what happened to it;
* `BuildBuffer.Runs.of_canceled` and `BuildBuffer.Runs.of_drained` are about buffers that give
  nothing any more.
-/
namespace ProductLine

namespace BuildBuffer

variable {b b' b'' : BuildBuffer}

/-! ## Operations -/

/-- An operation with its answer. -/
inductive Event where
  | added (configuration : Configuration) (accepted : Bool)
  | fetched (result : Fetch)
  | sorted
  | finished
  | canceled
  | recorded (success : Bool)
deriving DecidableEq

/-- One operation.  A producer that has to wait adds nothing. -/
inductive Step (b : BuildBuffer) : Event → BuildBuffer → Prop where
  | add (c : Configuration) : b.addBlocks = false → Step b (.added c (b.add c).1) (b.add c).2
  | get : Step b (.fetched b.get.1) b.get.2
  | sort : Step b .sorted b.sort
  | finish : Step b .finished b.finish
  | cancel : Step b .canceled b.cancel
  | record (success : Bool) : Step b (.recorded success) (b.record success)

/-- Any number of operations, the last one last. -/
inductive Runs (b : BuildBuffer) : List Event → BuildBuffer → Prop where
  | nil : Runs b [] b
  | snoc {es : List Event} {e : Event} {b' b'' : BuildBuffer} :
      Runs b es b' → Step b' e b'' → Runs b (es ++ [e]) b''

/-- The configurations that were accepted. -/
def accepted (es : List Event) : List Configuration :=
  es.filterMap (fun
    | .added c true => some c
    | _ => none)

/-- The configurations that workers got. -/
def delivered (es : List Event) : List Configuration :=
  es.filterMap (fun
    | .fetched (.ready c) => some c
    | _ => none)

/-! ## What a worker gets -/

/-- What a worker may get, with the buffer afterwards. -/
inductive Fetches (b : BuildBuffer) : Fetch → BuildBuffer → Prop where
  | ready {c : Configuration} {queue : BuildQueue} : b.canceled = false → b.heldBack = false →
      b.queue.pop = some (c, queue) → Fetches b (.ready c) { b with queue := queue }
  /-- The run was canceled, or the producer is done and nothing waits. -/
  | finished : b.canceled = true ∨ b.finished = true ∧ b.buffered = 0 → Fetches b .finished b
  /-- More may be added, or what waits is held back. -/
  | pending : b.canceled = false → (b.finished = true → b.buffered ≠ 0) →
      (b.heldBack = false → b.buffered = 0) → Fetches b .pending b

/-- What a worker gets is one of the things that it can fetch. -/
theorem fetches_get (b : BuildBuffer) : b.Fetches b.get.1 b.get.2 := by
  unfold get
  split
  · rename_i hcanceled
    exact .finished (.inl hcanceled)
  rename_i hrunning
  rw [Bool.not_eq_true] at hrunning
  split
  · rename_i hheld
    split
    · rename_i hdone
      rw [Bool.and_eq_true, beq_iff_eq] at hdone
      exact .finished (.inr hdone)
    · rename_i hnot
      rw [Bool.and_eq_true, beq_iff_eq] at hnot
      exact .pending hrunning (fun hfinished hempty => hnot ⟨hfinished, hempty⟩) (by simp [hheld])
  · rename_i hreleased
    rw [Bool.not_eq_true] at hreleased
    split
    · rename_i c queue hpop
      exact .ready hrunning hreleased hpop
    · rename_i hpop
      have hempty : b.buffered = 0 := BuildQueue.pop_eq_none_iff.1 hpop
      split
      · rename_i hfinished
        exact .finished (.inr ⟨hfinished, hempty⟩)
      · rename_i hopen
        exact .pending hrunning (fun hfinished => (hopen hfinished).elim) (fun _ => hempty)

/-! ## Accounts -/

/-- What is known of a buffer after some events. -/
structure Accounts (capacity : Nat) (bufferFirst : Bool) (es : List Event) (b : BuildBuffer) :
    Prop where
  capacity_eq : b.capacity = capacity
  bufferFirst_eq : b.bufferFirst = bufferFirst
  canceled : b.canceled = true ↔ .canceled ∈ es
  finished : b.finished = true ↔ .finished ∈ es
  sorted : b.sorted = true ↔ .sorted ∈ es
  emitted : b.emitted = (accepted es).length
  held : (accepted es).Perm (delivered es ++ b.queue.held)
  bounded : bufferFirst = false → b.buffered ≤ capacity
  withheld : bufferFirst = true → .sorted ∉ es → delivered es = []

namespace Accounts

variable {capacity : Nat} {bufferFirst : Bool} {es : List Event}

theorem start (policy : OrderingPolicy) (names : List String) (size : Nat) (bufferFirst : Bool) :
    Accounts (max size 1) bufferFirst [] (.start policy names size bufferFirst) where
  capacity_eq := rfl
  bufferFirst_eq := rfl
  canceled := by simp [BuildBuffer.start]
  finished := by simp [BuildBuffer.start]
  sorted := by simp [BuildBuffer.start]
  emitted := rfl
  held := .refl _
  bounded _ := Nat.zero_le _
  withheld _ _ := rfl

/-- An event that neither adds nor takes anything. -/
theorem idle (h : Accounts capacity bufferFirst es b) {e : Event} (haccepted : accepted [e] = [])
    (hdelivered : delivered [e] = []) (hcapacity : b'.capacity = b.capacity)
    (hfirst : b'.bufferFirst = b.bufferFirst) (hemitted : b'.emitted = b.emitted)
    (hheld : b'.queue.held.Perm b.queue.held)
    (hcanceled : b'.canceled = true ↔ b.canceled = true ∨ e = .canceled)
    (hfinished : b'.finished = true ↔ b.finished = true ∨ e = .finished)
    (hsorted : b'.sorted = true ↔ b.sorted = true ∨ e = .sorted) :
    Accounts capacity bufferFirst (es ++ [e]) b' := by
  have haccepted : accepted (es ++ [e]) = accepted es := by
    rw [accepted, List.filterMap_append, ← accepted, ← accepted, haccepted, List.append_nil]
  have hdelivered : delivered (es ++ [e]) = delivered es := by
    rw [delivered, List.filterMap_append, ← delivered, ← delivered, hdelivered, List.append_nil]
  have hbuffered : b'.buffered = b.buffered := by
    rw [buffered, buffered, ← BuildQueue.length_held, hheld.length_eq, BuildQueue.length_held]
  refine ⟨hcapacity.trans h.capacity_eq, hfirst.trans h.bufferFirst_eq, ?_, ?_, ?_, ?_, ?_, ?_, ?_⟩
  · rw [hcanceled, h.canceled, List.mem_append, List.mem_singleton, eq_comm (a := e)]
  · rw [hfinished, h.finished, List.mem_append, List.mem_singleton, eq_comm (a := e)]
  · rw [hsorted, h.sorted, List.mem_append, List.mem_singleton, eq_comm (a := e)]
  · rw [hemitted, haccepted, h.emitted]
  · rw [haccepted, hdelivered]
    exact h.held.trans (hheld.symm.append_left _)
  · rw [hbuffered]
    exact h.bounded
  · intro hfirst hnot
    rw [hdelivered]
    exact h.withheld hfirst (fun hmem => hnot (List.mem_append_left _ hmem))

/-- A configuration that is added waits from then on. -/
theorem add (h : Accounts capacity bufferFirst es b) (c : Configuration)
    (hfree : b.addBlocks = false) :
    Accounts capacity bufferFirst (es ++ [.added c (b.add c).1]) (b.add c).2 := by
  unfold BuildBuffer.add
  split
  · rename_i hcanceled
    exact h.idle rfl rfl rfl rfl rfl (.refl _) (by simp) (by simp) (by simp)
  · rename_i hrunning
    have haccepted : accepted (es ++ [.added c true]) = accepted es ++ [c] := by
      simp [accepted]
    have hdelivered : delivered (es ++ [.added c true]) = delivered es := by
      simp [delivered]
    refine ⟨h.capacity_eq, h.bufferFirst_eq, ?_, ?_, ?_, ?_, ?_, ?_, ?_⟩
    · simp [h.canceled]
    · simp [h.finished]
    · simp [h.sorted]
    · rw [haccepted, List.length_append, List.length_singleton, h.emitted]
    · rw [haccepted, hdelivered, BuildQueue.held_add, ← List.append_assoc]
      exact h.held.append_right [c]
    · -- The producer did not have to wait, so there was room.
      intro hfirst
      have hroom : b.buffered < b.capacity := by
        rw [Bool.not_eq_true] at hrunning
        simpa [addBlocks, h.bufferFirst_eq, hfirst, hrunning] using hfree
      rw [h.capacity_eq] at hroom
      simp only [buffered, BuildQueue.size_add] at hroom ⊢
      omega
    · intro hfirst hnot
      rw [hdelivered]
      exact h.withheld hfirst (fun hmem => hnot (List.mem_append_left _ hmem))

/-- What a worker gets does not wait any more. -/
theorem get (h : Accounts capacity bufferFirst es b) :
    Accounts capacity bufferFirst (es ++ [.fetched b.get.1]) b.get.2 := by
  have hfetches := b.fetches_get
  generalize b.get.1 = result, b.get.2 = b' at hfetches
  cases hfetches with
  | @ready c queue hrunning hreleased hpop =>
    have haccepted : accepted (es ++ [.fetched (.ready c)]) = accepted es := by
      simp [accepted]
    have hdelivered : delivered (es ++ [.fetched (.ready c)]) = delivered es ++ [c] := by
      simp [delivered]
    refine ⟨h.capacity_eq, h.bufferFirst_eq, ?_, ?_, ?_, ?_, ?_, ?_, ?_⟩
    · simp [h.canceled]
    · simp [h.finished]
    · simp [h.sorted]
    · rw [haccepted, h.emitted]
    · rw [haccepted, hdelivered, List.append_assoc]
      exact h.held.trans ((BuildQueue.perm_of_pop hpop).append_left _)
    · intro hfirst
      have hsize := BuildQueue.size_of_pop hpop
      have hbounded := h.bounded hfirst
      rw [buffered] at hbounded ⊢
      simp only
      omega
    · -- Before the order is fixed everything is held back.
      intro hfirst hnot
      have hsorted : b.sorted = true := by
        simpa [heldBack, h.bufferFirst_eq, hfirst] using hreleased
      exact (hnot (List.mem_append_left _ (h.sorted.1 hsorted))).elim
  | finished _ => exact h.idle rfl rfl rfl rfl rfl (.refl _) (by simp) (by simp) (by simp)
  | pending _ _ _ => exact h.idle rfl rfl rfl rfl rfl (.refl _) (by simp) (by simp) (by simp)

/-- Every operation keeps the accounts. -/
theorem step (h : Accounts capacity bufferFirst es b) {e : Event} (he : Step b e b') :
    Accounts capacity bufferFirst (es ++ [e]) b' := by
  cases he with
  | add c hfree => exact h.add c hfree
  | get => exact h.get
  | sort =>
    exact h.idle rfl rfl rfl rfl rfl (BuildQueue.perm_sort _) (by simp [BuildBuffer.sort])
      (by simp [BuildBuffer.sort]) (by simp [BuildBuffer.sort])
  | finish =>
    exact h.idle rfl rfl rfl rfl rfl (.refl _) (by simp [BuildBuffer.finish])
      (by simp [BuildBuffer.finish]) (by simp [BuildBuffer.finish])
  | cancel =>
    exact h.idle rfl rfl rfl rfl rfl (.refl _) (by simp [BuildBuffer.cancel])
      (by simp [BuildBuffer.cancel]) (by simp [BuildBuffer.cancel])
  | record success =>
    cases success <;>
      exact h.idle rfl rfl rfl rfl rfl (.refl _) (by simp [BuildBuffer.record])
        (by simp [BuildBuffer.record]) (by simp [BuildBuffer.record])

end Accounts

/-- Whatever is done with a buffer, the accounts are right. -/
theorem Runs.accounts {policy : OrderingPolicy} {names : List String} {size : Nat}
    {bufferFirst : Bool} {es : List Event} (h : Runs (.start policy names size bufferFirst) es b) :
    Accounts (max size 1) bufferFirst es b := by
  induction h with
  | nil => exact .start ..
  | snoc _ hstep ih => exact ih.step hstep

/-! ## Buffers that give nothing any more -/

/-- Nothing is accepted, and workers are told that there is nothing any more. -/
def Event.Idle : Event → Prop
  | .added _ accepted => accepted = false
  | .fetched result => result = .finished
  | .sorted | .finished | .canceled | .recorded _ => True

/-- A canceled buffer stays as it is. -/
theorem Step.of_canceled {e : Event} (h : Step b e b') (hb : b.canceled = true) :
    e.Idle ∧ b'.canceled = true ∧ b'.emitted = b.emitted ∧ b'.buffered = b.buffered := by
  cases h with
  | add c _ => simp [BuildBuffer.add, hb, Event.Idle]
  | get => simp [BuildBuffer.get, hb, Event.Idle]
  | sort => exact ⟨trivial, hb, rfl, BuildQueue.size_sort _⟩
  | finish => exact ⟨trivial, hb, rfl, rfl⟩
  | cancel => exact ⟨trivial, rfl, rfl, rfl⟩
  | record success => cases success <;> exact ⟨trivial, hb, rfl, rfl⟩

/-- A canceled buffer takes in and gives out nothing any more. -/
theorem Runs.of_canceled {es : List Event} (h : Runs b es b') (hb : b.canceled = true) :
    (∀ e ∈ es, e.Idle) ∧ b'.canceled = true ∧ b'.emitted = b.emitted ∧
      b'.buffered = b.buffered := by
  induction h with
  | nil => exact ⟨by simp, hb, rfl, rfl⟩
  | snoc _ hstep ih =>
    obtain ⟨hidle, hcanceled, hemitted, hbuffered⟩ := ih
    obtain ⟨hlast, hcanceled', hemitted', hbuffered'⟩ := hstep.of_canceled hcanceled
    refine ⟨?_, hcanceled', hemitted'.trans hemitted, hbuffered'.trans hbuffered⟩
    exact List.forall_mem_append.2 ⟨hidle, List.forall_mem_singleton.2 hlast⟩

/-- If nothing waits and nothing more is added, a buffer whose producer is done stays empty. -/
theorem Step.of_drained {e : Event} (h : Step b e b') (hfinished : b.finished = true)
    (hempty : b.buffered = 0) (hadd : ∀ c, e ≠ .added c true) :
    e.Idle ∧ b'.finished = true ∧ b'.buffered = 0 := by
  cases h with
  | add c _ =>
    unfold BuildBuffer.add at hadd ⊢
    split
    · exact ⟨rfl, hfinished, hempty⟩
    · rename_i hrunning
      exact (hadd c (by rw [if_neg hrunning])).elim
  | get =>
    have hfetches := b.fetches_get
    generalize b.get.1 = result, b.get.2 = b' at hfetches
    cases hfetches with
    | ready _ _ hpop =>
      rw [BuildQueue.pop_eq_none_iff.2 hempty] at hpop
      cases hpop
    | finished _ => exact ⟨rfl, hfinished, hempty⟩
    | pending _ hwaiting _ => exact (hwaiting hfinished hempty).elim
  | sort => exact ⟨trivial, hfinished, (BuildQueue.size_sort _).trans hempty⟩
  | finish => exact ⟨trivial, rfl, hempty⟩
  | cancel => exact ⟨trivial, hfinished, hempty⟩
  | record success => cases success <;> exact ⟨trivial, hfinished, hempty⟩

/-- Neither does a finished buffer that is empty. -/
theorem Runs.of_drained {es : List Event} (h : Runs b es b') (hfinished : b.finished = true)
    (hempty : b.buffered = 0) (hadd : ∀ c, .added c true ∉ es) :
    (∀ e ∈ es, e.Idle) ∧ b'.finished = true ∧ b'.buffered = 0 := by
  induction h with
  | nil => exact ⟨by simp, hfinished, hempty⟩
  | snoc _ hstep ih =>
    obtain ⟨hidle, hfinished', hempty'⟩ := ih (fun c hmem => hadd c (List.mem_append_left _ hmem))
    obtain ⟨hlast, hrest⟩ := hstep.of_drained hfinished' hempty' (by
      rintro c rfl
      exact hadd c (by simp))
    exact ⟨List.forall_mem_append.2 ⟨hidle, List.forall_mem_singleton.2 hlast⟩, hrest⟩

/-! ## What any run does -/

/-- **Buffers lose and double nothing.**  After any operations, what was accepted is what workers
got together with what waits, and both together were emitted.  Unless everything is buffered first,
no more waits than fits, and if it is, nothing is given away before the order was fixed.

Once the run was canceled nothing is accepted and workers get nothing any more, and what waits stays
where it is.  Otherwise workers are told that there is nothing any more only if the producer is done
and nothing waits, and then they are told so ever after, unless something is added. -/
theorem runs_conserve {policy : OrderingPolicy} {names : List String} {capacity : Nat}
    {bufferFirst : Bool} {es es' : List Event}
    (h : Runs (.start policy names capacity bufferFirst) es b) (h' : Runs b es' b') :
    (accepted es).Perm (delivered es ++ b.queue.held) ∧
    b.emitted = (delivered es).length + b.buffered ∧
    (bufferFirst = false → b.buffered ≤ max capacity 1) ∧
    (bufferFirst = true → .sorted ∉ es → delivered es = []) ∧
    (.canceled ∈ es → (∀ e ∈ es', e.Idle) ∧ b'.emitted = b.emitted ∧
      b'.buffered = b.buffered) ∧
    (.canceled ∉ es → b.get.1 = .finished → .finished ∈ es ∧ b.buffered = 0 ∧
      ((∀ c, .added c true ∉ es') → ∀ e ∈ es', e.Idle)) := by
  have haccounts := h.accounts
  refine ⟨haccounts.held, ?_, haccounts.bounded, haccounts.withheld, ?_, ?_⟩
  · rw [haccounts.emitted, haccounts.held.length_eq, List.length_append, BuildQueue.length_held,
      buffered]
  · intro hcanceled
    obtain ⟨hidle, -, hfrozen⟩ := h'.of_canceled (haccounts.canceled.2 hcanceled)
    exact ⟨hidle, hfrozen⟩
  · intro hrunning hget
    have hfetches := b.fetches_get
    rw [hget] at hfetches
    generalize b.get.2 = after at hfetches
    cases hfetches with
    | finished hdone =>
      obtain ⟨hfinished, hempty⟩ :=
        hdone.resolve_left (fun hcanceled => hrunning (haccounts.canceled.1 hcanceled))
      exact ⟨haccounts.finished.1 hfinished, hempty,
        fun hadd => (h'.of_drained hfinished hempty hadd).1⟩

/-- Everything is buffered first, and the larger of two configurations is given away before the run
is canceled.  In another run, with room for one configuration, one is given away before the producer
is done. -/
theorem runs_conserve_canceled :
    (∃ b b', Runs (.start .difference [] 0 true)
        [.added ⟨1, ["A"]⟩ true, .added ⟨2, ["A", "B"]⟩ true, .fetched .pending, .sorted,
          .fetched (.ready ⟨2, ["A", "B"]⟩), .canceled] b ∧
      Runs b [.added ⟨3, ["B"]⟩ false, .sorted, .fetched .finished] b' ∧
      [⟨1, ["A"]⟩, ⟨2, ["A", "B"]⟩].Perm (⟨2, ["A", "B"]⟩ :: b.queue.held) ∧
      b'.buffered = b.buffered) ∧
    (∃ b b', Runs (.start .insertion [] 0 false)
        [.added ⟨1, ["A"]⟩ true, .fetched (.ready ⟨1, ["A"]⟩), .finished] b ∧
      Runs b [.fetched .finished, .recorded true, .fetched .finished] b' ∧
      b.emitted = 1 ∧ b.buffered = 0) := by
  have hhere {b b' : BuildBuffer} {es : List Event} (_ : Runs b es b') : Runs b' [] b' := .nil
  constructor
  · have hrun : Runs (.start .difference [] 0 true)
        [.added ⟨1, ["A"]⟩ true, .added ⟨2, ["A", "B"]⟩ true, .fetched .pending, .sorted,
          .fetched (.ready ⟨2, ["A", "B"]⟩), .canceled] _ :=
      .snoc (.snoc (.snoc (.snoc (.snoc (.snoc .nil (.add ⟨1, ["A"]⟩ rfl))
        (.add ⟨2, ["A", "B"]⟩ rfl)) .get) .sort) .get) .cancel
    have hrest := (((hhere hrun).snoc (.add ⟨3, ["B"]⟩ rfl)).snoc .sort).snoc .get
    obtain ⟨hheld, -, -, -, hcanceled, -⟩ := runs_conserve hrun hrest
    exact ⟨_, _, hrun, hrest, hheld, (hcanceled (by decide)).2.2⟩
  · have hrun : Runs (.start .insertion [] 0 false)
        [.added ⟨1, ["A"]⟩ true, .fetched (.ready ⟨1, ["A"]⟩), .finished] _ :=
      .snoc (.snoc (.snoc .nil (.add ⟨1, ["A"]⟩ rfl)) .get) .finish
    have hrest := (((hhere hrun).snoc .get).snoc (.record true)).snoc .get
    obtain ⟨-, hemitted, -, -, -, hfinished⟩ := runs_conserve hrun hrest
    have hempty := (hfinished (by decide) rfl).2.1
    rw [hempty] at hemitted
    exact ⟨_, _, hrun, hrest, hemitted, hempty⟩

end BuildBuffer

end ProductLine
