import Mathlib.Data.List.Perm.Basic
import Mathlib.Tactic.Common
import ProductLine.Proofs.Build.Interactions
import ProductLine.Proofs.Build.Queue
import ProductLine.Proofs.Configuration
/-!
# The history of a build queue

Configurations are added to a queue, their order is fixed, and they are popped, in any order of
operations.  What a queue stores about those that were taken is enough to score the others, and a
score depends on the set of features only.  So those with the same features never overtake each
other.

* `BuildQueue.Remembers` is the invariant that relates a queue to what was added and taken;
* `BuildQueue.Remembers.choose` is the step that takes a configuration;
* `BuildQueue.History.after` is what any operations lead to;
* `BuildQueue.History.after_conserves` says that nothing is lost or overtaken.
-/
namespace ProductLine

/-! ## What scores depend on -/

namespace Configuration

variable {c d : Configuration}

/-- Decisions depend on the selected features only. -/
theorem decisionsFrom_congr (h : c.selected = d.selected) (first : Nat) (names : List String) :
    c.decisionsFrom first names = d.decisionsFrom first names := by
  induction names generalizing first with
  | nil => rfl
  | cons name names ih =>
    have hname : name ∈ c.features ↔ name ∈ d.features := by
      rw [← mem_selected, h, mem_selected]
    rw [decisionsFrom, decisionsFrom, ih]
    simp only [hname]

theorem interactions_congr (h : c.selected = d.selected) (names : List String) (strength : Nat) :
    c.interactions names strength = d.interactions names strength := by
  rw [interactions_eq_decisions, interactions_eq_decisions, decisions, decisions,
    decisionsFrom_congr h]

end Configuration

namespace BuildQueue

variable {q q' : BuildQueue} {c d : Configuration}

/-- The smallest of several numbers is the first one or the smallest of the rest. -/
theorem smallest_cons (default n : Nat) (ns : List Nat) :
    smallest default (n :: ns) = if ns.isEmpty then n else min (smallest default ns) n := by
  cases ns with
  | nil => rfl
  | cons m ns =>
    show ns.foldl min (min n m) = min (ns.foldl min m) n
    rw [List.foldl_assoc, min_comm]

/-- What is stored as a distance is the distance to the closest of those taken so far. -/
def Measured (q : BuildQueue) : Prop :=
  ∀ x ∈ q.waiting,
    x.distance = smallest x.configuration.size (q.taken.map x.configuration.distance)

/-- A configuration that is added is measured against all that were taken. -/
theorem Measured.add (h : q.Measured) (c : Configuration) : (q.add c).Measured := by
  intro x hx
  rcases List.mem_append.1 hx with hx | hx
  · exact h x hx
  · rw [List.mem_singleton.1 hx]
    rfl

/-- All that wait are measured against one that is taken as well. -/
theorem Measured.record (h : q.Measured) (c : Configuration) : (q.record c).Measured := by
  unfold BuildQueue.record
  split
  · exact h
  · -- The closest is the new one, or else the one that was closest before.
    rw [Measured, List.forall_mem_map]
    intro x hx
    show (if q.taken.isEmpty then x.configuration.distance c
      else min x.distance (x.configuration.distance c)) = _
    rw [List.map_cons, smallest_cons, List.isEmpty_map, h x hx]
  · exact h

/-! ## Memory -/

/-- What is known of a queue after some configurations were added and some of them were taken. -/
structure Remembers (policy : OrderingPolicy) (names : List String)
    (added taken : List Configuration) (q : BuildQueue) : Prop where
  policy_eq : q.policy = policy
  names_eq : q.names = names
  nodup : ∀ c ∈ added, c.features.Nodup
  perm : added.Perm (taken ++ q.unordered)
  /-- Those whose order is open have the order in which they were added. -/
  sublist : q.unordered.Sublist added
  measured : q.Measured
  taken_eq : policy = .difference → q.taken = taken.reverse
  covered : ∀ strength, policy = .interaction strength → ∀ interaction,
    q.covered.contains interaction = true ↔
      ∃ d ∈ taken, interaction ∈ d.interactions names strength
  /-- Those with the same features have it even if some of them were taken. -/
  alike : ∀ features, (taken ++ q.unordered).filter (·.selected = features) =
    added.filter (·.selected = features)

namespace Remembers

variable {policy : OrderingPolicy} {names : List String} {added taken : List Configuration}

theorem empty (policy : OrderingPolicy) (names : List String) :
    Remembers policy names [] [] (.empty policy names) where
  policy_eq := rfl
  names_eq := rfl
  nodup _ hc := nomatch hc
  perm := .refl _
  sublist := .refl _
  measured _ hx := nomatch hx
  taken_eq _ := rfl
  covered _ _ interaction := by simp [BuildQueue.empty]
  alike _ := rfl

/-- It does not matter which of those that were taken are still to be popped. -/
theorem reorder (h : Remembers policy names added taken q) (ordered : List Configuration) :
    Remembers policy names added taken { q with ordered := ordered } :=
  ⟨h.policy_eq, h.names_eq, h.nodup, h.perm, h.sublist, h.measured, h.taken_eq, h.covered, h.alike⟩

/-- A configuration that is added waits to be taken. -/
theorem add (h : Remembers policy names added taken q) (hc : c.features.Nodup) :
    Remembers policy names (added ++ [c]) taken (q.add c) where
  policy_eq := h.policy_eq
  names_eq := h.names_eq
  nodup := by
    intro d hd
    rcases List.mem_append.1 hd with hd | hd
    · exact h.nodup d hd
    · rwa [List.mem_singleton.1 hd]
  perm := by
    rw [unordered_add, ← List.append_assoc]
    exact h.perm.append_right [c]
  sublist := by
    rw [unordered_add]
    exact h.sublist.append_right [c]
  measured := h.measured.add c
  taken_eq := h.taken_eq
  covered := h.covered
  alike features := by
    rw [unordered_add, ← List.append_assoc, List.filter_append, h.alike, ← List.filter_append]

/-- No configuration that was taken has a feature twice. -/
theorem nodup_taken (h : Remembers policy names added taken q) (hd : d ∈ taken) :
    d.features.Nodup :=
  h.nodup d (h.perm.mem_iff.2 (List.mem_append_left _ hd))

theorem nodup_waiting (h : Remembers policy names added taken q) {x : Candidate}
    (hx : x ∈ q.waiting) : x.configuration.features.Nodup :=
  h.nodup _ (h.perm.mem_iff.2 (List.mem_append_right _ (List.mem_map_of_mem hx)))

/-- The score of what waits depends on the selected features only. -/
theorem score_congr (h : Remembers policy names added taken q) {x y : Candidate}
    (hx : x ∈ q.waiting) (hy : y ∈ q.waiting)
    (heq : x.configuration.selected = y.configuration.selected) : q.score x = q.score y := by
  unfold score
  split
  · rfl
  · rename_i hpolicy
    have htaken := h.taken_eq (h.policy_eq.symm.trans hpolicy)
    have hsize : x.configuration.size = y.configuration.size := by
      rw [Configuration.size_eq_card (h.nodup_waiting hx),
        Configuration.size_eq_card (h.nodup_waiting hy), heq]
    have hdistances : q.taken.map x.configuration.distance =
        q.taken.map y.configuration.distance := by
      apply List.map_congr_left
      intro d hd
      have hd := h.nodup_taken (List.mem_reverse.1 (htaken ▸ hd))
      rw [Configuration.distance_eq_card (h.nodup_waiting hx) hd,
        Configuration.distance_eq_card (h.nodup_waiting hy) hd, heq]
    rw [h.measured x hx, h.measured y hy, hsize, hdistances]
  · rw [Configuration.interactions_congr heq]

/-- Those that were added before the best one have a lower score, and so other features. -/
theorem filter_before_eq_nil (h : Remembers policy names added taken q) {x : Candidate}
    {before after : List Candidate} (hwaiting : q.waiting = before ++ x :: after)
    (hbefore : ∀ y ∈ before, q.score y < q.score x) :
    (before.map Candidate.configuration).filter (·.selected = x.configuration.selected) = [] := by
  simp only [List.filter_eq_nil_iff, List.forall_mem_map, decide_eq_true_eq]
  intro y hy hsame
  have hscore := h.score_congr (x := y) (y := x) (by simp [hwaiting, hy]) (by simp [hwaiting]) hsame
  have := hbefore y hy
  omega

/-- **A configuration that is chosen** counts as taken from then on. -/
theorem choose (h : Remembers policy names added taken q) (hchoose : q.choose = some (c, q')) :
    Remembers policy names added (taken ++ [c]) q' := by
  obtain ⟨x, rest, hbest, rfl, rfl⟩ := takesBest_of_choose hchoose
  obtain ⟨before, after, hwaiting, rfl, hbefore, -⟩ := hbest
  have hunordered : q.unordered = before.map Candidate.configuration ++ x.configuration ::
      after.map Candidate.configuration := by
    rw [unordered, hwaiting, List.map_append, List.map_cons]
  have hrest : BuildQueue.unordered { q with waiting := before ++ after } =
      before.map Candidate.configuration ++ after.map Candidate.configuration :=
    List.map_append
  have hleft : BuildQueue.policy { q with waiting := before ++ after } = policy := h.policy_eq
  constructor
  case policy_eq => rw [policy_record, hleft]
  case names_eq => rw [names_record, h.names_eq]
  case nodup => exact h.nodup
  case perm =>
    rw [unordered_record, hrest, List.append_assoc]
    refine h.perm.trans (.append_left _ ?_)
    rw [hunordered]
    exact List.perm_middle
  case sublist =>
    rw [unordered_record, hrest]
    refine .trans ?_ h.sublist
    rw [hunordered]
    exact (List.sublist_cons_self ..).append_left _
  case measured =>
    apply Measured.record
    intro y hy
    apply h.measured
    rw [hwaiting]
    exact ((List.sublist_cons_self x after).append_left before).subset hy
  case taken_eq =>
    intro hpolicy
    rw [taken_record (hleft.trans hpolicy), h.taken_eq hpolicy, List.reverse_append,
      List.reverse_singleton, List.singleton_append]
  case covered =>
    intro strength hpolicy interaction
    rw [contains_covered_record (hleft.trans hpolicy), h.covered strength hpolicy, h.names_eq]
    simp [or_and_right, exists_or]
  case alike =>
    intro features
    rw [unordered_record, hrest, ← h.alike, hunordered]
    by_cases hfeatures : x.configuration.selected = features
    · subst hfeatures
      simp only [List.filter_append, h.filter_before_eq_nil hwaiting hbefore, List.filter_cons,
        List.nil_append, List.append_assoc, decide_true, if_true, List.cons_append]
    · simp [hfeatures]

/-- So do all whose order is fixed, although they are not popped yet. -/
theorem sortFor {popped : List Configuration} (n : Nat)
    (h : Remembers policy names added (popped ++ q.ordered) q) :
    Remembers policy names added (popped ++ (sortFor n q).ordered) (sortFor n q) := by
  induction n generalizing q with
  | zero => exact h
  | succ n ih =>
    rw [BuildQueue.sortFor]
    split
    · exact h
    · rename_i c q' hchoose
      apply ih
      rw [← List.append_assoc, (perm_of_choose hchoose).1]
      exact (h.choose hchoose).reorder _

end Remembers

/-! ## Histories -/

/-- Something that is done with a queue. -/
inductive Operation where
  /-- Adds the configuration of some names. -/
  | add (id : Nat) (names : List String)
  | sort
  | pop
deriving DecidableEq

/-- A queue after some operations. -/
structure History where
  queue : BuildQueue
  /-- The configurations that were added, the last one last. -/
  added : List Configuration
  /-- The configurations that were popped, the last one last. -/
  popped : List Configuration

namespace History

/-- A queue with which nothing was done. -/
def start (policy : OrderingPolicy) (names : List String) : History :=
  ⟨.empty policy names, [], []⟩

/-- Does one operation. -/
def step (h : History) : Operation → History
  | .add id names =>
      { h with
        queue := h.queue.add (.ofNames id names)
        added := h.added ++ [.ofNames id names] }
  | .sort => { h with queue := h.queue.sort }
  | .pop =>
      match h.queue.pop with
      | none => h
      | some (c, queue) => { h with queue := queue, popped := h.popped ++ [c] }

/-- Does some operations with a queue that holds nothing. -/
def after (policy : OrderingPolicy) (names : List String) (ops : List Operation) : History :=
  ops.foldl step (start policy names)

/-- The configurations that were taken from those whose order is open, the last one last: they were
popped, or wait to be popped in an order that is fixed. -/
def taken (h : History) : List Configuration := h.popped ++ h.queue.ordered

variable {policy : OrderingPolicy} {names : List String} {h : History}

/-- What was taken or is still unordered is what was popped or is still held. -/
theorem taken_append_unordered (h : History) :
    h.taken ++ h.queue.unordered = h.popped ++ h.queue.held := by
  rw [taken, held_eq, List.append_assoc]

/-- Every operation keeps what is known. -/
theorem remembers_step (hh : h.queue.Remembers policy names h.added h.taken) (op : Operation) :
    (h.step op).queue.Remembers policy names (h.step op).added (h.step op).taken := by
  cases op with
  | add id names => exact hh.add (nodup_nameSet names)
  | sort => exact hh.sortFor h.queue.waiting.length
  | pop =>
    unfold step
    dsimp only
    split
    · exact hh
    · rename_i c queue hpop
      rcases cases_of_pop hpop with ⟨rest, hordered, rfl⟩ | ⟨hordered, hchoose⟩
      · -- The next one was taken when its order was fixed.
        have htaken : h.taken = h.popped ++ [c] ++ rest := by
          rw [taken, hordered, List.append_assoc, List.singleton_append]
        rw [htaken] at hh
        exact hh.reorder rest
      · have htaken : h.taken = h.popped := by
          rw [taken, hordered, List.append_nil]
        rw [htaken] at hh
        have hqueue : queue.ordered = [] := (perm_of_choose hchoose).1.trans hordered
        rw [taken, hqueue, List.append_nil]
        exact hh.choose hchoose

/-- Whatever is done with a queue, it remembers its history. -/
theorem remembers_after (policy : OrderingPolicy) (names : List String) (ops : List Operation) :
    let h := after policy names ops
    h.queue.Remembers policy names h.added h.taken := by
  suffices h : ∀ start : History, start.queue.Remembers policy names start.added start.taken →
      (ops.foldl step start).queue.Remembers policy names (ops.foldl step start).added
        (ops.foldl step start).taken from h _ (.empty policy names)
  intro start hstart
  induction ops generalizing start with
  | nil => exact hstart
  | cons op ops ih => exact ih _ (remembers_step hstart op)

/-- **Nothing is lost or overtaken.**  Whatever is done with a queue, those that were popped and
those that wait are the configurations that were added, and something can be popped as long as one
waits.  Of those with the same features, the ones that were added first were popped first, and the
others wait to be popped in the order in which they were added. -/
theorem after_conserves (policy : OrderingPolicy) (names : List String) (ops : List Operation) :
    let h := after policy names ops
    h.added.Perm (h.popped ++ h.queue.held) ∧ (h.queue.pop = none ↔ h.queue.size = 0) ∧
      ∀ features, (h.popped ++ h.queue.held).filter (·.selected = features) =
        h.added.filter (·.selected = features) := by
  intro h
  have hh := remembers_after policy names ops
  refine ⟨?_, pop_eq_none_iff, ?_⟩
  · rw [← taken_append_unordered]
    exact hh.perm
  · intro features
    rw [← taken_append_unordered]
    exact hh.alike features

end History

end BuildQueue

end ProductLine
