import Mathlib.Tactic.Common
import ProductLine.Proofs.Build.History
/-!
# What build queues choose

Whenever a configuration is taken from those whose order is open, whether it is popped or its order
is fixed, it is the first of those that are wanted most.  How much a configuration is wanted is a
fact about all that were taken before it, the ones that still wait to be popped among them.  So it
makes no difference whether the order is fixed before all of them are popped.

* `OrderingPolicy.demand` says how much a configuration is wanted;
* `BuildQueue.Remembers.score_lt_score_iff` says that scores compare in the same way;
* `BuildQueue.Picks` are the choices that fix an order;
* `BuildQueue.popAll_sort` is about popping all that wait;
* `BuildQueue.History.after_chooses` says what is chosen after any operations.
-/
namespace ProductLine

/-- How much a configuration is wanted after others were taken.  Differences are symmetric
differences of the sets of features, and interactions are sets of literals. -/
def OrderingPolicy.demand (policy : OrderingPolicy) (names : List String)
    (taken : List Configuration) (c : Configuration) : Nat :=
  match policy with
  | .insertion => 0
  | .difference =>
      (taken.map (fun d => (symmDiff c.selected d.selected).card)).min?.getD c.selected.card
  | .interaction strength =>
      if strength = 0 then 0
      else (((c.literals names).toFinset.powersetCard (min strength names.length)).filter
        (fun interaction => ∀ d ∈ taken, ¬ interaction ⊆ (d.literals names).toFinset)).card

namespace BuildQueue

variable {policy : OrderingPolicy} {names : List String} {added taken : List Configuration}
  {q q' : BuildQueue} {c : Configuration}

/-! ## Scores -/

/-- The smallest of some numbers is their minimum. -/
theorem smallest_eq (default : Nat) (ns : List Nat) :
    smallest default ns = ns.min?.getD default := by
  cases ns <;> rfl

/-- The minimum does not depend on the order. -/
theorem min?_eq_of_perm {ns ms : List Nat} (h : ns.Perm ms) : ns.min? = ms.min? := by
  apply Option.ext
  intro m
  rw [List.min?_eq_some_iff, List.min?_eq_some_iff]
  simp only [h.mem_iff]

namespace Remembers

/-- The score under the difference policy is the demand. -/
theorem score_difference (h : Remembers .difference names added taken q) {x : Candidate}
    (hx : x ∈ q.waiting) :
    q.score x = OrderingPolicy.difference.demand names taken x.configuration := by
  have hperm : q.taken.Perm taken := by
    rw [h.taken_eq rfl]
    exact List.reverse_perm taken
  have hdistances : taken.map x.configuration.distance =
      taken.map (fun d => (symmDiff x.configuration.selected d.selected).card) := by
    apply List.map_congr_left
    intro d hd
    exact Configuration.distance_eq_card (h.nodup_waiting hx) (h.nodup_taken hd)
  have hscore : q.score x = x.distance := by
    unfold score
    rw [h.policy_eq]
  rw [hscore, h.measured x hx, smallest_eq, min?_eq_of_perm (hperm.map _), hdistances,
    Configuration.size_eq_card (h.nodup_waiting hx)]
  rfl

/-- The interactions that are not covered are those that none of the others has. -/
theorem score_interaction {strength : Nat}
    (h : Remembers (.interaction strength) names added taken q) (hnames : names.Nodup)
    (hpos : min strength names.length ≠ 0) (x : Candidate) :
    q.score x = (OrderingPolicy.interaction strength).demand names taken x.configuration := by
  have hscore : q.score x = ((x.configuration.interactions names strength).filter
      (fun i => !q.covered.contains i)).length := by
    unfold score
    rw [h.policy_eq, h.names_eq]
  have hcovered : ∀ l ∈ combinations (min strength names.length) (x.configuration.literals names),
      (!q.covered.contains (l.map (Configuration.code names))) =
        decide (∀ d ∈ taken, ¬ l.toFinset ⊆ (d.literals names).toFinset) := by
    intro l hl
    rw [Bool.eq_iff_iff, Bool.not_eq_true', ← Bool.not_eq_true, decide_eq_true_eq,
      h.covered strength rfl]
    simp only [not_exists, not_and, Configuration.map_code_mem_interactions hnames hpos hl]
  have hzero : strength ≠ 0 := by
    rintro rfl
    exact hpos (Nat.zero_min _)
  rw [hscore, Configuration.interactions_eq _ hnames hpos, List.filter_map, List.length_map]
  unfold OrderingPolicy.demand
  dsimp only
  rw [if_neg hzero, ← length_filter_combinations _ (Configuration.nodup_literals hnames)]
  exact congrArg List.length (List.filter_congr hcovered)

/-- **Scores compare as demands do.** -/
theorem score_lt_score_iff (h : Remembers policy names added taken q) (hnames : names.Nodup)
    {x y : Candidate} (hx : x ∈ q.waiting) (hy : y ∈ q.waiting) :
    q.score x < q.score y ↔
      policy.demand names taken x.configuration < policy.demand names taken y.configuration := by
  cases policy with
  | insertion =>
    unfold score
    rw [h.policy_eq]
    rfl
  | difference => rw [h.score_difference hx, h.score_difference hy]
  | interaction strength =>
    by_cases hpos : min strength names.length = 0
    · -- Nothing has interactions, and all configurations make the same literals, if any.
      have hscore (z : Candidate) : q.score z = 0 := by
        unfold score
        rw [h.policy_eq, h.names_eq]
        simp [Configuration.interactions_eq_decisions, hpos]
      have hdemand : (OrderingPolicy.interaction strength).demand names taken x.configuration =
          (OrderingPolicy.interaction strength).demand names taken y.configuration := by
        unfold OrderingPolicy.demand
        rcases Nat.min_eq_zero_iff.1 hpos with rfl | hempty
        · rfl
        · rw [List.length_eq_zero_iff.1 hempty]
          rfl
      rw [hscore, hscore, hdemand]
      simp
    · rw [h.score_interaction hnames hpos, h.score_interaction hnames hpos]

/-- What is chosen is wanted most, and it was added before all others that are. -/
theorem takesBest (h : Remembers policy names added taken q) (hnames : names.Nodup)
    (hchoose : q.choose = some (c, q')) :
    TakesBest (policy.demand names taken) q.unordered c q'.unordered := by
  obtain ⟨x, rest, hbest, rfl, rfl⟩ := takesBest_of_choose hchoose
  rw [unordered_record]
  exact hbest.map Candidate.configuration (fun y hy z hz => h.score_lt_score_iff hnames hy hz)

end Remembers

/-! ## Orders -/

/-- All that wait are picked one after the other, each the first of those that are wanted most. -/
inductive Picks (wanted : List Configuration → Configuration → Nat) :
    (taken waiting picked : List Configuration) → Prop where
  | nil {taken : List Configuration} : Picks wanted taken [] []
  | cons {taken waiting rest picked : List Configuration} {c : Configuration} :
      TakesBest (wanted taken) waiting c rest → Picks wanted (taken ++ [c]) rest picked →
        Picks wanted taken waiting (c :: picked)

/-- Fixing the order of all that wait picks them. -/
theorem picks_sortFor {popped : List Configuration} {n : Nat}
    (h : Remembers policy names added (popped ++ q.ordered) q) (hnames : names.Nodup)
    (hn : q.waiting.length = n) :
    ∃ picked, (sortFor n q).ordered = q.ordered ++ picked ∧ (sortFor n q).unordered = [] ∧
      Picks (policy.demand names) (popped ++ q.ordered) q.unordered picked := by
  induction n generalizing q with
  | zero =>
    have hempty : q.unordered = [] := unordered_eq_nil_iff.2 (List.length_eq_zero_iff.1 hn)
    refine ⟨[], (List.append_nil _).symm, hempty, ?_⟩
    rw [hempty]
    exact .nil
  | succ n ih =>
    rw [BuildQueue.sortFor]
    split
    · rename_i hnone
      rw [choose_eq_none_iff.1 hnone] at hn
      cases hn
    · rename_i c q' hchoose
      have hbest := h.takesBest hnames hchoose
      have hordered := (perm_of_choose hchoose).1
      have hlength : q'.waiting.length = n := by
        have := hbest.perm.length_eq
        rw [List.length_cons, length_unordered, length_unordered, hn] at this
        omega
      have hnext : Remembers policy names added (popped ++ (q'.ordered ++ [c]))
          { q' with ordered := q'.ordered ++ [c] } := by
        rw [← List.append_assoc, hordered]
        exact (h.choose hchoose).reorder _
      obtain ⟨picked, heq, hempty, hpicks⟩ :=
        ih (q := { q' with ordered := q'.ordered ++ [c] }) hnext hlength
      refine ⟨c :: picked, ?_, hempty, .cons hbest ?_⟩
      · rw [heq, hordered, List.append_assoc, List.singleton_append]
      · rw [List.append_assoc, ← hordered]
        exact hpicks

/-! ## Popping all -/

/-- Adds some configurations. -/
def addAll (q : BuildQueue) (cs : List Configuration) : BuildQueue := cs.foldl add q

theorem held_addAll (q : BuildQueue) (cs : List Configuration) :
    (q.addAll cs).held = q.held ++ cs := by
  induction cs generalizing q with
  | nil => exact (List.append_nil _).symm
  | cons c cs ih =>
    rw [addAll, List.foldl_cons, ← addAll, ih, held_add, List.append_assoc, List.singleton_append]

/-- Pops as many configurations as given. -/
def popFor : Nat → BuildQueue → List Configuration
  | 0, _ => []
  | n + 1, q =>
      match q.pop with
      | none => []
      | some (c, q) => c :: popFor n q

/-- Pops all that wait. -/
def popAll (q : BuildQueue) : List Configuration := popFor q.size q

/-- Popping as often as something is held gives back all that was held. -/
theorem perm_popFor {n : Nat} (hn : q.size = n) : (popFor n q).Perm q.held := by
  induction n generalizing q with
  | zero =>
    rw [← length_held, List.length_eq_zero_iff] at hn
    rw [hn]
    exact .refl _
  | succ n ih =>
    rw [popFor]
    split
    · rename_i hnone
      rw [pop_eq_none_iff.1 hnone] at hn
      cases hn
    · rename_i c q' hpop
      have hsize := size_of_pop hpop
      refine (List.Perm.cons c (ih ?_)).trans (perm_of_pop hpop).symm
      omega

/-- Popping all gives back what was held. -/
theorem perm_popAll (q : BuildQueue) : q.popAll.Perm q.held := perm_popFor rfl

/-- Those whose order is fixed are popped first. -/
theorem popFor_ordered (n : Nat) (q : BuildQueue) (ordered : List Configuration) :
    popFor (n + ordered.length) { q with ordered := ordered } =
      ordered ++ popFor n { q with ordered := [] } := by
  induction ordered with
  | nil => rfl
  | cons c ordered ih => exact congrArg (c :: ·) ih

/-- Configurations in order are popped first. -/
theorem popAll_eq (q : BuildQueue) :
    q.popAll = q.ordered ++ popFor q.waiting.length { q with ordered := [] } :=
  popFor_ordered q.waiting.length q q.ordered

/-- What is chosen does not depend on them. -/
theorem choose_reorder (h : q.choose = some (c, q')) (ordered : List Configuration) :
    choose { q with ordered := ordered } = some (c, { q' with ordered := ordered }) := by
  unfold choose at h ⊢
  have hscore : score { q with ordered := ordered } = q.score := rfl
  rw [hscore]
  dsimp only
  split at h
  · cases h
  · rename_i x rest hbest
    cases h
    unfold record
    cases q.policy <;> rfl

/-- It makes no difference whether the order of the next one is fixed. -/
theorem popAll_of_choose (h : q.choose = some (c, q')) :
    popAll { q' with ordered := q'.ordered ++ [c] } = q.popAll := by
  obtain ⟨hordered, hperm⟩ := perm_of_choose h
  have hlength : q.waiting.length = q'.waiting.length + 1 := by
    have := hperm.length_eq
    rw [length_held, List.length_cons, length_held, size, size, hordered] at this
    omega
  have hpop : pop { q with ordered := [] } = some (c, { q' with ordered := [] }) :=
    (pop_eq_choose rfl).trans (choose_reorder h [])
  rw [popAll_eq, popAll_eq q, hlength, popFor, hpop, ← hordered, List.append_assoc,
    List.singleton_append]

/-- Sorting some of the configurations beforehand does not change the order of popping. -/
theorem popAll_sortFor (n : Nat) (q : BuildQueue) : (sortFor n q).popAll = q.popAll := by
  induction n generalizing q with
  | zero => rfl
  | succ n ih =>
    rw [sortFor]
    split
    · rfl
    · rename_i c q' hchoose
      exact (ih _).trans (popAll_of_choose hchoose)

/-- **Fixing the order** does not change it. -/
theorem popAll_sort (q : BuildQueue) : q.sort.popAll = q.popAll := popAll_sortFor _ q

/-! ## Histories -/

namespace History

/-- **The first of those that are wanted most.**  Whatever is done with a queue, those whose order
is open wait in the order in which they were added, and the others were taken.  As long as there is
an order that is fixed, it is followed.  Otherwise the next one that is popped is the first of those
that are wanted most, and fixing the order picks all of them in the same way.  After any others are
added, all are popped in the same order, whether it is fixed before or not. -/
theorem after_chooses (policy : OrderingPolicy) {names : List String} (hnames : names.Nodup)
    (ops : List Operation) :
    let h := after policy names ops
    let wanted := policy.demand names
    (h.added.Perm (h.taken ++ h.queue.unordered) ∧ h.queue.unordered.Sublist h.added) ∧
      (∀ c rest, h.queue.ordered = c :: rest →
        h.queue.pop = some (c, { h.queue with ordered := rest })) ∧
      (h.queue.ordered = [] → h.queue.unordered ≠ [] →
        ∃ c q, h.queue.pop = some (c, q) ∧ q.ordered = [] ∧
          TakesBest (wanted h.taken) h.queue.unordered c q.unordered) ∧
      (∃ picked, h.queue.sort.ordered = h.queue.ordered ++ picked ∧
        h.queue.sort.unordered = [] ∧ Picks wanted h.taken h.queue.unordered picked) ∧
      ∀ more, (h.queue.addAll more).popAll.Perm (h.queue.held ++ more) ∧
        (h.queue.addAll more).sort.popAll = (h.queue.addAll more).popAll := by
  intro h wanted
  have hh := remembers_after policy names ops
  refine ⟨⟨hh.perm, hh.sublist⟩, ?_, ?_, ?_, ?_⟩
  · exact fun c rest hordered => pop_of_ordered hordered
  · intro hordered hopen
    cases hchoose : h.queue.choose with
    | none => exact (hopen (unordered_eq_nil_iff.2 (choose_eq_none_iff.1 hchoose))).elim
    | some chosen =>
      obtain ⟨c, q⟩ := chosen
      refine ⟨c, q, (pop_eq_choose hordered).trans hchoose, ?_, hh.takesBest hnames hchoose⟩
      exact (perm_of_choose hchoose).1.trans hordered
  · exact picks_sortFor hh hnames rfl
  · intro more
    refine ⟨?_, popAll_sort _⟩
    rw [← held_addAll]
    exact perm_popAll _

/-- Some configurations over four names; one of them is popped before the last one is added. -/
def differing : List Operation :=
  [.add 1 ["A"], .add 2 ["A", "B"], .add 3 ["A", "B", "C"], .pop, .add 4 ["D"]]

/-- The largest one is taken first, then the one farthest from it, and of the others the one that
keeps the greater distance. -/
theorem after_chooses_differing :
    ["A", "B", "C", "D"].Nodup ∧
      let h := after .difference ["A", "B", "C", "D"] differing
      h.taken.map Configuration.id = [3] ∧ ∃ picked, picked.map Configuration.id = [4, 1, 2] ∧
        Picks (OrderingPolicy.difference.demand ["A", "B", "C", "D"]) h.taken h.queue.unordered
          picked := by
  have hnames : ["A", "B", "C", "D"].Nodup := by decide
  obtain ⟨-, -, -, ⟨picked, hpicked, -, hpicks⟩, -⟩ :=
    after_chooses .difference hnames differing
  refine ⟨hnames, by decide +kernel, picked, ?_, hpicks⟩
  have hnone : (after .difference ["A", "B", "C", "D"] differing).queue.ordered = [] := by
    decide +kernel
  rw [hnone, List.nil_append] at hpicked
  rw [← hpicked]
  decide +kernel

end History

end BuildQueue

end ProductLine
