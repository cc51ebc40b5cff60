import Mathlib.Data.List.Perm.Basic
import Mathlib.Tactic.Common
import ProductLine.Build.Queue
/-!
# Build queues lose nothing

Whatever the policy chooses, a queue gives back the configurations that were put in, each as often
as it was put in.

* `BuildQueue.TakesBest` says what is taken out of a list by its score;
* `BuildQueue.held` are the configurations that wait in a queue, and `BuildQueue.unordered` those
  whose order is open;
* `BuildQueue.perm_of_pop` and `BuildQueue.perm_sort` say how they change, and
  `BuildQueue.pop_eq_none_iff` when there is nothing to take.
-/
namespace ProductLine

namespace BuildQueue

variable {α : Type} {q q' : BuildQueue} {c : Configuration}

/-! ## Choosing -/

theorem takeHighest_eq_none_iff {xs : List (Nat × α)} : takeHighest xs = none ↔ xs = [] := by
  cases xs with
  | nil => simp [takeHighest]
  | cons x xs =>
    rw [takeHighest]
    split
    · simp
    · split <;> simp

/-- The first of the items with the highest score is taken out of a list, and `rest` is left. -/
def TakesBest (score : α → Nat) (xs : List α) (x : α) (rest : List α) : Prop :=
  ∃ before after, xs = before ++ x :: after ∧ rest = before ++ after ∧
    (∀ y ∈ before, score y < score x) ∧ ∀ y ∈ after, score y ≤ score x

/-- What is left are all items but the one that was taken. -/
theorem TakesBest.perm {score : α → Nat} {xs rest : List α} {x : α}
    (h : TakesBest score xs x rest) : xs.Perm (x :: rest) := by
  obtain ⟨before, after, rfl, rfl, -, -⟩ := h
  exact List.perm_middle

/-- It is taken from the images as well, if the scores of these compare in the same way. -/
theorem TakesBest.map {β : Type} {score : α → Nat} {score' : β → Nat} {xs rest : List α} {x : α}
    (h : TakesBest score xs x rest) (f : α → β)
    (hscore : ∀ y ∈ xs, ∀ z ∈ xs, score y < score z ↔ score' (f y) < score' (f z)) :
    TakesBest score' (xs.map f) (f x) (rest.map f) := by
  obtain ⟨before, after, rfl, rfl, hbefore, hafter⟩ := h
  have hx : x ∈ before ++ x :: after := by simp
  refine ⟨before.map f, after.map f, by simp, by simp, ?_, ?_⟩
  · rw [List.forall_mem_map]
    intro y hy
    exact (hscore y (List.mem_append_left _ hy) x hx).1 (hbefore y hy)
  · rw [List.forall_mem_map]
    intro y hy
    have hy' : y ∈ before ++ x :: after := by simp [hy]
    have hnot := mt (hscore x hx y hy').2 (Nat.not_lt.2 (hafter y hy))
    exact Nat.not_lt.1 hnot

/-- What is taken is the first element with the largest number. -/
theorem takesBest_of_takeHighest {xs ys : List (Nat × α)} {y : Nat × α}
    (h : takeHighest xs = some (y, ys)) : TakesBest Prod.fst xs y ys := by
  induction xs generalizing y ys with
  | nil => cases h
  | cons x xs ih =>
    rw [takeHighest] at h
    split at h
    · rename_i hnone
      cases h
      rw [takeHighest_eq_none_iff.1 hnone]
      exact ⟨[], [], rfl, rfl, by simp, by simp⟩
    · rename_i z zs hsome
      obtain ⟨before, after, rfl, rfl, hbefore, hafter⟩ := ih hsome
      split at h
      · rename_i hlt
        cases h
        exact ⟨x :: before, after, rfl, rfl, List.forall_mem_cons.2 ⟨hlt, hbefore⟩, hafter⟩
      · -- The first item is at least as good as the best of the others, and so as all of them.
        rename_i hge
        rw [Nat.not_lt] at hge
        cases h
        refine ⟨[], _, rfl, rfl, by simp, ?_⟩
        intro w hw
        rcases List.mem_append.1 hw with hw | hw
        · have := hbefore w hw
          omega
        · rcases List.mem_cons.1 hw with rfl | hw
          · exact hge
          · exact Nat.le_trans (hafter w hw) hge

/-- There is always a best element to take from a list that is not empty. -/
theorem takeBest_eq_none_iff {score : α → Nat} {xs : List α} :
    takeBest score xs = none ↔ xs = [] := by
  rw [takeBest, Option.map_eq_none_iff, takeHighest_eq_none_iff, List.map_eq_nil_iff]

/-- What is taken is the first element with the largest score. -/
theorem takesBest_of_takeBest {score : α → Nat} {xs rest : List α} {x : α}
    (h : takeBest score xs = some (x, rest)) : TakesBest score xs x rest := by
  obtain ⟨⟨best, others⟩, hbest, heq⟩ := Option.map_eq_some_iff.1 h
  cases heq
  have hmap : TakesBest score ((xs.map (fun x => (score x, x))).map Prod.snd) best.2
      (others.map Prod.snd) := (takesBest_of_takeHighest hbest).map Prod.snd (by simp)
  simpa [Function.comp_def] using hmap

/-! ## What waits in a queue -/

/-- The configurations that wait, those whose order is fixed first. -/
def held (q : BuildQueue) : List Configuration :=
  q.ordered ++ q.waiting.map Candidate.configuration

/-- The configurations whose order is open, in the order in which they were added. -/
def unordered (q : BuildQueue) : List Configuration := q.waiting.map Candidate.configuration

theorem held_eq (q : BuildQueue) : q.held = q.ordered ++ q.unordered := rfl

theorem unordered_eq_nil_iff : q.unordered = [] ↔ q.waiting = [] := List.map_eq_nil_iff

@[simp] theorem length_unordered (q : BuildQueue) : q.unordered.length = q.waiting.length :=
  List.length_map _

@[simp] theorem length_held (q : BuildQueue) : q.held.length = q.size := by
  simp [held, size, Nat.add_comm]

@[simp] theorem unordered_add (q : BuildQueue) (c : Configuration) :
    (q.add c).unordered = q.unordered ++ [c] := by
  simp [unordered, add]

@[simp] theorem held_add (q : BuildQueue) (c : Configuration) :
    (q.add c).held = q.held ++ [c] := by
  simp [held, add]

@[simp] theorem size_add (q : BuildQueue) (c : Configuration) : (q.add c).size = q.size + 1 := by
  rw [← length_held, held_add, List.length_append, length_held, List.length_singleton]

/-- Remembering what was taken does not change what waits. -/
@[simp] theorem unordered_record (q : BuildQueue) (c : Configuration) :
    (q.record c).unordered = q.unordered := by
  unfold record unordered
  cases q.policy <;> simp [Function.comp_def]

@[simp] theorem ordered_record (q : BuildQueue) (c : Configuration) :
    (q.record c).ordered = q.ordered := by
  unfold record
  cases q.policy <;> rfl

@[simp] theorem policy_record (q : BuildQueue) (c : Configuration) :
    (q.record c).policy = q.policy := by
  unfold record
  split <;> rfl

@[simp] theorem names_record (q : BuildQueue) (c : Configuration) :
    (q.record c).names = q.names := by
  unfold record
  cases q.policy <;> rfl

/-- Under the difference policy every configuration that is taken is remembered. -/
theorem taken_record (h : q.policy = .difference) (c : Configuration) :
    (q.record c).taken = c :: q.taken := by
  unfold record
  rw [h]

/-- Under the interaction policy the interactions of a taken configuration become covered. -/
theorem contains_covered_record {strength : Nat} (h : q.policy = .interaction strength)
    (c : Configuration) (interaction : List Nat) :
    (q.record c).covered.contains interaction = true ↔
      q.covered.contains interaction = true ∨
        interaction ∈ c.interactions q.names strength := by
  unfold record
  rw [h]
  simp only [Std.HashSet.contains_insertMany_list, Bool.or_eq_true, List.contains_iff_mem]

/-! ## Taking -/

/-- Something is chosen whenever something waits. -/
theorem choose_eq_none_iff : q.choose = none ↔ q.waiting = [] := by
  have hnone : takeBest q.score q.waiting = none ↔ q.waiting = [] := takeBest_eq_none_iff
  rw [← hnone, choose]
  split <;> simp [*]

/-- Choosing takes the best candidate, and remembers it. -/
theorem takesBest_of_choose (h : q.choose = some (c, q')) :
    ∃ x rest, TakesBest q.score q.waiting x rest ∧ x.configuration = c ∧
      q' = { q with waiting := rest }.record c := by
  rw [choose] at h
  split at h
  · cases h
  · rename_i x rest hbest
    cases h
    exact ⟨x, rest, takesBest_of_takeBest hbest, rfl, rfl⟩

/-- Choosing takes one of those whose order is open, and leaves the others. -/
theorem perm_of_choose (h : q.choose = some (c, q')) :
    q'.ordered = q.ordered ∧ q.held.Perm (c :: q'.held) := by
  obtain ⟨x, rest, hbest, rfl, rfl⟩ := takesBest_of_choose h
  refine ⟨ordered_record .., ?_⟩
  have hrest : q.unordered.Perm (x.configuration :: rest.map Candidate.configuration) :=
    hbest.perm.map Candidate.configuration
  rw [held_eq, held_eq, ordered_record, unordered_record]
  exact (hrest.append_left q.ordered).trans List.perm_middle

/-- Configurations that are in order already are popped in that order. -/
theorem pop_of_ordered {rest : List Configuration} (h : q.ordered = c :: rest) :
    q.pop = some (c, { q with ordered := rest }) := by
  unfold pop
  rw [h]

/-- Without configurations in order the next one is chosen. -/
theorem pop_eq_choose (h : q.ordered = []) : q.pop = q.choose := by
  unfold pop
  rw [h]

/-- Only an empty queue has nothing to pop. -/
theorem pop_eq_none_iff : q.pop = none ↔ q.size = 0 := by
  cases hordered : q.ordered with
  | nil => simp [pop_eq_choose hordered, choose_eq_none_iff, size, hordered]
  | cons c rest => simp [pop_of_ordered hordered, size, hordered]

/-- The next configuration is the first one whose order is fixed, or it is chosen. -/
theorem cases_of_pop (h : q.pop = some (c, q')) :
    (∃ rest, q.ordered = c :: rest ∧ q' = { q with ordered := rest }) ∨
      q.ordered = [] ∧ q.choose = some (c, q') := by
  cases hordered : q.ordered with
  | nil => exact .inr ⟨rfl, (pop_eq_choose hordered).symm.trans h⟩
  | cons d rest =>
    rw [pop_of_ordered hordered] at h
    cases h
    exact .inl ⟨rest, rfl, rfl⟩

/-- Taking the next configuration leaves all others. -/
theorem perm_of_pop (h : q.pop = some (c, q')) : q.held.Perm (c :: q'.held) := by
  rcases cases_of_pop h with ⟨rest, hordered, rfl⟩ | ⟨-, hchoose⟩
  · rw [held_eq, hordered]
    exact .refl _
  · exact (perm_of_choose hchoose).2

/-- A pop takes exactly one configuration. -/
theorem size_of_pop (h : q.pop = some (c, q')) : q.size = q'.size + 1 := by
  rw [← length_held, (perm_of_pop h).length_eq, List.length_cons, length_held]

/-- Sorting holds on to every configuration, however far it gets. -/
theorem perm_sortFor (n : Nat) (q : BuildQueue) : (sortFor n q).held.Perm q.held := by
  -- On the number of configurations: each goes from those that are open to the end of the others.
  induction n generalizing q with
  | zero => exact .refl _
  | succ n ih =>
    rw [sortFor]
    split
    · exact .refl _
    · rename_i c q' hchoose
      refine (ih _).trans (.trans ?_ (perm_of_choose hchoose).2.symm)
      rw [held, List.append_assoc]
      exact List.perm_middle

/-- Fixing the order keeps all configurations. -/
theorem perm_sort (q : BuildQueue) : q.sort.held.Perm q.held := perm_sortFor _ q

@[simp] theorem size_sort (q : BuildQueue) : q.sort.size = q.size := by
  rw [← length_held, (perm_sort q).length_eq, length_held]

end BuildQueue

end ProductLine
