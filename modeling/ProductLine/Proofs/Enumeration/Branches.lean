import Mathlib.Data.List.Nodup
import Mathlib.Data.List.Sort
import Mathlib.Data.List.Perm.Subperm
import Mathlib.Tactic.Common
import ProductLine.Enumeration
import ProductLine.Proofs.FeatureModel.Rules
/-!
# The branches of a walk

A walk without pruning ends its branches with lists of selected concrete features.  The lists are
computed here without a solver, and every selection that the tree allows is found among them.

* `FeatureModel.nextFrontiers` lists the frontiers that deciding a feature leads to, and
  `FeatureModel.completions` all ends of a branch, about which `FeatureModel.branch_induction` is
  used;
* `FeatureModel.Partway` is the invariant that no concrete feature is met twice on a branch;
* `FeatureModel.exists_completion` says that no selection of the tree is missed.
-/
namespace ProductLine

/-! ## Choices -/

section Choices

variable {α : Type}

/-- `picked` with every choice from further items, in the order in which they are visited. -/
def choicesFrom (withEmpty : Bool) (picked : List α) : List α → List (List α)
  | [] => if picked.isEmpty && !withEmpty then [] else [picked]
  | x :: rest => choicesFrom withEmpty picked rest ++ choicesFrom withEmpty (picked ++ [x]) rest

/-- Every choice from a list. -/
def choices (withEmpty : Bool) (all : List α) : List (List α) := choicesFrom withEmpty [] all

/-- The choices extend what is picked already by part of what remains. -/
theorem mem_choicesFrom {withEmpty : Bool} {picked rest part : List α} :
    part ∈ choicesFrom withEmpty picked rest ↔
      (∃ more, more.Sublist rest ∧ part = picked ++ more) ∧ (part = [] → withEmpty = true) := by
  induction rest generalizing picked with
  | nil =>
    rw [choicesFrom]
    cases withEmpty <;> cases picked <;> simp
    rintro rfl
    simp
  | cons x rest ih =>
    rw [choicesFrom, List.mem_append, ih, ih, ← or_and_right]
    refine and_congr_left' ?_
    -- A choice leaves the first item out or takes it.
    constructor
    · rintro (⟨more, hmore, rfl⟩ | ⟨more, hmore, rfl⟩)
      · exact ⟨more, hmore.cons x, rfl⟩
      · exact ⟨x :: more, hmore.cons_cons x, by simp⟩
    · rintro ⟨more, hmore, rfl⟩
      cases hmore with
      | cons _ h => exact .inl ⟨more, h, rfl⟩
      | cons_cons _ h => exact .inr ⟨_, h, by simp⟩

/-- The choices are all parts, the empty one only if it is asked for. -/
theorem mem_choices {withEmpty : Bool} {all part : List α} :
    part ∈ choices withEmpty all ↔ part.Sublist all ∧ (part = [] → withEmpty = true) := by
  simp [choices, mem_choicesFrom]

end Choices

namespace FeatureModel

variable {m : FeatureModel}

/-! ## Relevant features -/

/-- A feature is relevant if it is concrete or has a relevant child. -/
theorem isRelevant_eq (m : FeatureModel) (i : Nat) :
    m.isRelevant i = ((m.feature i).concrete || (m.children i).any m.isRelevant) := by
  rw [isRelevant]
  simp

theorem mem_relevantChildren {i c : Nat} :
    c ∈ m.relevantChildren i ↔ c ∈ m.children i ∧ m.isRelevant c = true :=
  List.mem_filter

/-- A feature with a concrete one below it is relevant. -/
theorem Below.isRelevant {i j : Nat} (h : m.Below i j) (hj : (m.feature j).concrete = true) :
    m.isRelevant i = true := by
  have hrelevant : m.isRelevant j = true := by
    rw [isRelevant_eq, hj, Bool.true_or]
  clear hj
  -- Upwards from the concrete feature: each parent on the way has a relevant child.
  induction h with
  | refl => exact hrelevant
  | child _ hc ih =>
    apply ih
    rw [isRelevant_eq, Bool.or_eq_true, List.any_eq_true]
    exact .inr ⟨_, hc, hrelevant⟩

theorem mem_concreteFeatures {i : Nat} :
    i ∈ m.concreteFeatures ↔ (m.feature i).concrete = true := by
  rw [concreteFeatures, List.mem_filter, List.mem_range]
  refine and_iff_right_of_imp ?_
  intro hconcrete
  by_contra hlt
  have hnone : m.features[i]? = none := Array.getElem?_eq_none (Nat.le_of_not_lt hlt)
  simp [feature, hnone] at hconcrete

/-! ## Deciding a feature -/

/-- The frontiers after the first feature was decided, in the order in which they are walked. -/
def nextFrontiers (m : FeatureModel) (current : Nat) (rest : List Nat) : List (List Nat) :=
  let children := m.relevantChildren current
  let irrelevant := decide (children.length < (m.children current).length)
  if children.isEmpty then [rest]
  else
    match (m.feature current).group with
    | .and =>
        (choices true (children.filter (fun c => !(m.feature c).mandatory))).map (fun picked =>
          picked ++ (rest ++ children.filter (fun c => (m.feature c).mandatory)))
    | .or => (choices irrelevant children).map (· ++ rest)
    | .alternative => children.map (· :: rest) ++ if irrelevant then [rest] else []

/-- The selected features after one was decided, which is selected if it is concrete. -/
def select (m : FeatureModel) (current : Nat) (selected : List Nat) : List Nat :=
  if (m.feature current).concrete then selected ++ [current] else selected

/-- Selecting a feature adds it if it is concrete. -/
theorem mem_select {current i : Nat} {selected : List Nat} :
    i ∈ m.select current selected ↔
      i ∈ selected ∨ i = current ∧ (m.feature current).concrete = true := by
  unfold select
  split <;> simp_all

/-- What deciding a feature may lead to, by the kind of its group.  All relevant children may be
left out of an or-group or alternative only if some other child can be selected instead. -/
inductive Decision (m : FeatureModel) (current : Nat) (rest : List Nat) : List Nat → Prop where
  | leaf : m.relevantChildren current = [] → Decision m current rest rest
  | and {picked : List Nat} : (m.feature current).group = .and →
      picked.Sublist ((m.relevantChildren current).filter (fun c => !(m.feature c).mandatory)) →
      Decision m current rest
        (picked ++ (rest ++ (m.relevantChildren current).filter (fun c => (m.feature c).mandatory)))
  | or {picked : List Nat} : (m.feature current).group = .or →
      picked.Sublist (m.relevantChildren current) →
      (picked = [] → (m.relevantChildren current).length < (m.children current).length) →
      Decision m current rest (picked ++ rest)
  | one {c : Nat} : (m.feature current).group = .alternative → c ∈ m.relevantChildren current →
      Decision m current rest (c :: rest)
  | irrelevant : (m.feature current).group = .alternative →
      (m.relevantChildren current).length < (m.children current).length →
      Decision m current rest rest

/-- The next frontiers are those that a decision on the feature leads to. -/
theorem mem_nextFrontiers {current : Nat} {rest f : List Nat} :
    f ∈ m.nextFrontiers current rest ↔ m.Decision current rest f := by
  unfold nextFrontiers
  simp only [List.isEmpty_iff]
  by_cases hempty : m.relevantChildren current = []
  · rw [if_pos hempty, List.mem_singleton]
    constructor
    · rintro rfl
      exact .leaf hempty
    · intro h
      -- Without relevant children all decisions come to the same.
      cases h with
      | leaf | irrelevant => rfl
      | and _ hpicked | or _ hpicked => simp_all
      | one _ hc => simp [hempty] at hc
  · rw [if_neg hempty]
    constructor
    · intro h
      split at h
      · rename_i hgroup
        obtain ⟨picked, hpicked, rfl⟩ := List.mem_map.1 h
        exact .and hgroup (mem_choices.1 hpicked).1
      · rename_i hgroup
        obtain ⟨picked, hpicked, rfl⟩ := List.mem_map.1 h
        obtain ⟨hsub, hirrelevant⟩ := mem_choices.1 hpicked
        exact .or hgroup hsub (fun hnone => of_decide_eq_true (hirrelevant hnone))
      · rename_i hgroup
        rcases List.mem_append.1 h with h | h
        · obtain ⟨c, hc, rfl⟩ := List.mem_map.1 h
          exact .one hgroup hc
        · split at h
          · rename_i hirrelevant
            rw [List.mem_singleton] at h
            exact h ▸ .irrelevant hgroup (of_decide_eq_true hirrelevant)
          · cases h
    · intro h
      cases h with
      | leaf hnone => exact absurd hnone hempty
      | and hgroup hpicked =>
        rw [hgroup]
        exact List.mem_map.2 ⟨_, mem_choices.2 ⟨hpicked, fun _ => rfl⟩, rfl⟩
      | or hgroup hpicked hirrelevant =>
        rw [hgroup]
        refine List.mem_map.2 ⟨_, mem_choices.2 ⟨hpicked, ?_⟩, rfl⟩
        exact fun hnone => decide_eq_true (hirrelevant hnone)
      | one hgroup hc =>
        rw [hgroup]
        exact List.mem_append_left _ (List.mem_map.2 ⟨_, hc, rfl⟩)
      | irrelevant hgroup hirrelevant =>
        rw [hgroup]
        apply List.mem_append_right
        rw [if_pos (decide_eq_true hirrelevant)]
        exact List.mem_singleton_self rest

/-- The next frontier is the rest of the old one, with some relevant children around it. -/
theorem exists_of_mem_nextFrontiers {current : Nat} {rest f : List Nat}
    (hf : f ∈ m.nextFrontiers current rest) : ∃ before after,
      f = before ++ (rest ++ after) ∧ (before ++ after).Subperm (m.relevantChildren current) := by
  cases mem_nextFrontiers.1 hf with
  | leaf | irrelevant => exact ⟨[], [], by simp, List.nil_subperm⟩
  | @and picked _ hpicked =>
    refine ⟨picked, _, rfl, ?_⟩
    -- The optional children that are picked and the mandatory ones are different children.
    have hsub := hpicked.append_right
      ((m.relevantChildren current).filter (fun c => (m.feature c).mandatory))
    refine hsub.subperm.trans (List.Perm.subperm ?_)
    have hperm := List.filter_append_perm (fun c => (m.feature c).mandatory)
      (m.relevantChildren current)
    exact List.perm_append_comm.trans (by simpa using hperm)
  | @or picked _ hpicked => exact ⟨picked, [], by simp, by simpa using hpicked.subperm⟩
  | @one c _ hc => exact ⟨[c], [], by simp, by simpa using hc⟩

/-- A next frontier holds features that were left before, and children of the feature. -/
theorem mem_of_mem_nextFrontiers {current x : Nat} {rest f : List Nat}
    (hf : f ∈ m.nextFrontiers current rest) (hx : x ∈ f) :
    x ∈ rest ∨ x ∈ m.children current := by
  obtain ⟨before, after, rfl, hsub⟩ := exists_of_mem_nextFrontiers hf
  by_cases hrest : x ∈ rest
  · exact .inl hrest
  · have hchild : x ∈ before ++ after := by simpa [hrest] using hx
    exact .inr (mem_relevantChildren.1 (hsub.subset hchild)).1

/-- What is not met below a frontier is not met below the next one. -/
theorem not_below_of_mem_nextFrontiers {current i : Nat} {rest f : List Nat}
    (hf : f ∈ m.nextFrontiers current rest) (h : ∀ j ∈ current :: rest, ¬ m.Below j i) :
    ∀ j ∈ f, ¬ m.Below j i := by
  intro j hj hji
  rcases mem_of_mem_nextFrontiers hf hj with hj | hj
  · exact h j (List.mem_cons_of_mem _ hj) hji
  · exact h current (List.mem_cons_self ..) (hji.of_mem_children hj)

/-- If the features of a frontier are different from each other and from the children, so are those
of the next frontier. -/
theorem nodup_of_mem_nextFrontiers {current : Nat} {rest f : List Nat}
    (hf : f ∈ m.nextFrontiers current rest) (hrest : rest.Nodup)
    (hnew : ∀ c ∈ m.children current, c ∉ rest) : f.Nodup := by
  obtain ⟨before, after, rfl, hsub⟩ := exists_of_mem_nextFrontiers hf
  have hperm : (before ++ (rest ++ after)).Perm ((before ++ after) ++ rest) := by
    rw [List.append_assoc]
    exact List.perm_append_comm.append_left before
  have hchildren : (m.relevantChildren current).Nodup := (m.nodup_children current).filter _
  rw [hperm.nodup_iff, List.nodup_append]
  refine ⟨?_, hrest, ?_⟩
  · obtain ⟨children, hsame, hsublist⟩ := hsub
    exact hsame.nodup_iff.1 (hchildren.sublist hsublist)
  · rintro c hc x hx rfl
    exact hnew c (mem_relevantChildren.1 (hsub.subset hc)).1 hx

/-- The weight of a frontier does not depend on its order. -/
theorem totalWeight_perm {is js : List Nat} (h : is.Perm js) :
    m.totalWeight is = m.totalWeight js := by
  induction h with
  | nil => rfl
  | cons i _ ih => rw [totalWeight_cons, totalWeight_cons, ih]
  | swap i j is => simp only [totalWeight_cons]; omega
  | trans _ _ ih ih' => rw [ih, ih']

/-- Deciding a feature makes the frontier lighter. -/
theorem totalWeight_lt_of_mem_nextFrontiers {current : Nat} {rest f : List Nat}
    (hf : f ∈ m.nextFrontiers current rest) :
    m.totalWeight f < m.totalWeight (current :: rest) := by
  -- What is new weighs no more than the relevant children, and these less than their parent.
  obtain ⟨before, after, rfl, children, hperm, hsub⟩ := exists_of_mem_nextFrontiers hf
  have hweight := m.totalWeight_perm hperm
  have hle := m.totalWeight_le_of_sublist hsub
  have hlt := m.totalWeight_relevantChildren_lt current
  simp only [totalWeight_append, totalWeight_cons] at hweight ⊢
  omega

/-- So something is true of all branches if it is true at their ends, and true before a decision
whenever it is true after it. -/
theorem branch_induction (m : FeatureModel) {motive : List Nat → List Nat → Prop}
    (nil : ∀ selected, motive selected [])
    (cons : ∀ selected current rest, (∀ f ∈ m.nextFrontiers current rest,
      motive (m.select current selected) f) → motive selected (current :: rest))
    (selected frontier : List Nat) : motive selected frontier := by
  induction hweight : m.totalWeight frontier using Nat.strongRecOn generalizing selected frontier
  rename_i weight ih
  cases frontier with
  | nil => exact nil selected
  | cons current rest =>
    refine cons selected current rest fun f hf => ?_
    exact ih _ (hweight ▸ totalWeight_lt_of_mem_nextFrontiers hf) _ f rfl

/-! ## Ends of branches -/

/-- The selected features at the ends of all branches, in the order in which they are reached. -/
def completions (m : FeatureModel) (selected frontier : List Nat) : List (List Nat) :=
  match frontier with
  | [] => [selected]
  | current :: rest =>
      (m.nextFrontiers current rest).attach.flatMap (fun f =>
        m.completions (m.select current selected) f.1)
termination_by m.totalWeight frontier
decreasing_by exact totalWeight_lt_of_mem_nextFrontiers f.2

@[simp] theorem completions_nil (m : FeatureModel) (selected : List Nat) :
    m.completions selected [] = [selected] := by
  rw [completions]

/-- The ends of a branch are those of all its next frontiers. -/
theorem completions_cons (m : FeatureModel) (selected rest : List Nat) (current : Nat) :
    m.completions selected (current :: rest) =
      (m.nextFrontiers current rest).flatMap (m.completions (m.select current selected)) := by
  rw [completions, List.flatMap_def, List.flatMap_def]
  simp

/-- What is selected stays selected. -/
theorem subset_of_mem_completions {selected frontier ended : List Nat}
    (h : ended ∈ m.completions selected frontier) : selected ⊆ ended := by
  induction selected, frontier using m.branch_induction with
  | nil selected =>
    rw [completions_nil, List.mem_singleton] at h
    exact h ▸ List.Subset.refl _
  | cons selected current rest ih =>
    rw [completions_cons] at h
    obtain ⟨f, hf, hended⟩ := List.mem_flatMap.1 h
    exact fun i hi => ih f hf hended (mem_select.2 (.inl hi))

/-! ## What is met on a branch -/

/-- Each concrete feature is met at most once: it is selected once, and it is not met again below
the features that are still to be decided, nor below two of them. -/
structure Partway (m : FeatureModel) (selected frontier : List Nat) : Prop where
  selected_nodup : selected.Nodup
  concrete : ∀ i ∈ selected, i ∈ m.concreteFeatures
  frontier_nodup : frontier.Nodup
  inRange : ∀ i ∈ frontier, i < m.size
  apart : ∀ i ∈ frontier, ∀ j ∈ frontier, i ≠ j → m.Apart i j
  fresh : ∀ i ∈ selected, ∀ j ∈ frontier, ¬ m.Below j i

/-- The walk sets out with nothing selected and the root to decide. -/
theorem partway_root (h : 0 < m.size) : m.Partway [] [0] where
  selected_nodup := List.nodup_nil
  concrete := nofun
  frontier_nodup := List.nodup_singleton 0
  inRange := by simpa using h
  apart := by simp
  fresh := nofun

/-- There are no more selected features than concrete ones. -/
theorem Partway.length_le {selected frontier : List Nat} (h : m.Partway selected frontier) :
    selected.length ≤ m.concreteFeatures.length :=
  (h.selected_nodup.subperm h.concrete).length_le

/-- The first feature of the frontier is apart from the others. -/
theorem Partway.apart_rest {selected rest : List Nat} {current x : Nat}
    (h : m.Partway selected (current :: rest)) (hx : x ∈ rest) : m.Apart current x :=
  h.apart current (List.mem_cons_self ..) x (List.mem_cons_of_mem _ hx)
    (ne_of_mem_of_not_mem hx (List.nodup_cons.1 h.frontier_nodup).1).symm

/-- A decided feature is not met again. -/
theorem Partway.not_below_current {selected rest f : List Nat} {current : Nat}
    (h : m.Partway selected (current :: rest)) (hf : f ∈ m.nextFrontiers current rest) :
    ∀ j ∈ f, ¬ m.Below j current := by
  intro j hj hbelow
  rcases mem_of_mem_nextFrontiers hf hj with hj | hj
  · exact h.apart_rest hj current .refl hbelow
  · exact Nat.not_le_of_lt (mem_children.1 hj).1 hbelow.le

/-- Deciding a feature of the frontier keeps the invariant. -/
theorem Partway.next {selected rest f : List Nat} {current : Nat}
    (h : m.Partway selected (current :: rest)) (hf : f ∈ m.nextFrontiers current rest) :
    m.Partway (m.select current selected) f := by
  have hrest : rest.Nodup := (List.nodup_cons.1 h.frontier_nodup).2
  -- Everything on the next frontier lies below something on the old one.
  have habove {x : Nat} (hx : x ∈ f) : x ∈ rest ∨ x ∈ m.children current :=
    mem_of_mem_nextFrontiers hf hx
  have hapart {x : Nat} (hx : x ∈ rest) : m.Apart current x := h.apart_rest hx
  have hbelow {c : Nat} (hc : c ∈ m.children current) : m.Below current c := Below.refl.child hc
  refine ⟨?_, ?_, ?_, ?_, ?_, ?_⟩
  · have hnew : current ∉ selected := fun hmem => h.fresh current hmem current (by simp) .refl
    unfold select
    split
    · rw [List.nodup_append]
      exact ⟨h.selected_nodup, List.nodup_singleton current,
        by simpa using fun i hi => ne_of_mem_of_not_mem hi hnew⟩
    · exact h.selected_nodup
  · intro i hi
    rcases mem_select.1 hi with hi | ⟨rfl, hconcrete⟩
    · exact h.concrete i hi
    · exact mem_concreteFeatures.2 hconcrete
  · refine nodup_of_mem_nextFrontiers hf hrest ?_
    intro c hc hmem
    exact hapart hmem c (hbelow hc) .refl
  · intro x hx
    rcases habove hx with hx | hx
    · exact h.inRange x (List.mem_cons_of_mem _ hx)
    · exact (mem_children.1 hx).2.1
  -- Two features come from the rest, from below the decided one, or one from each.
  · intro x hx y hy hne
    rcases habove hx with hx | hx <;> rcases habove hy with hy | hy
    · exact h.apart x (List.mem_cons_of_mem _ hx) y (List.mem_cons_of_mem _ hy) hne
    · exact ((hapart hx).of_below (hbelow hy) .refl).symm
    · exact (hapart hy).of_below (hbelow hx) .refl
    · exact apart_of_mem_children hx hy hne
  · intro i hi
    rcases mem_select.1 hi with hi | ⟨rfl, -⟩
    · exact not_below_of_mem_nextFrontiers hf (h.fresh i hi)
    · exact h.not_below_current hf

/-- At the end of a branch the invariant still holds. -/
theorem Partway.ended {selected frontier ended : List Nat} (h : m.Partway selected frontier)
    (hended : ended ∈ m.completions selected frontier) : m.Partway ended [] := by
  induction selected, frontier using m.branch_induction with
  | nil selected =>
    rw [completions_nil, List.mem_singleton] at hended
    exact hended ▸ h
  | cons selected current rest ih =>
    rw [completions_cons] at hended
    obtain ⟨f, hf, hended⟩ := List.mem_flatMap.1 hended
    exact ih f hf (h.next hf) hended

/-! ## No selection is missed -/

/-- A selected child that is not relevant is one more way to have a child. -/
theorem length_relevantChildren_lt {current c : Nat} (hc : c ∈ m.children current)
    (hnot : c ∉ m.relevantChildren current) :
    (m.relevantChildren current).length < (m.children current).length := by
  refine List.length_filter_lt_length_iff_exists.2 ⟨c, hc, ?_⟩
  intro hrelevant
  exact hnot (mem_relevantChildren.2 ⟨hc, hrelevant⟩)

/-- Some branch takes just the relevant children that a selection of the tree holds. -/
theorem exists_nextFrontier {v : Nat → Bool} (hv : m.TreeSelection v) {current : Nat}
    (hrange : current < m.size) (hcurrent : v current = true) (rest : List Nat) :
    ∃ f ∈ m.nextFrontiers current rest,
      ∀ x, x ∈ f ↔ x ∈ rest ∨ x ∈ m.relevantChildren current ∧ v x = true := by
  have hchild {c : Nat} (hc : c ∈ m.relevantChildren current) : c ∈ m.children current :=
    (mem_relevantChildren.1 hc).1
  simp only [mem_nextFrontiers]
  by_cases hempty : m.relevantChildren current = []
  · exact ⟨rest, .leaf hempty, by simp [hempty]⟩
  have hchildren : m.children current ≠ [] := by
    intro hnone
    simp [relevantChildren, hnone] at hempty
  cases hgroup : (m.feature current).group with
  | and =>
    have hmandatory := hv.mandatory current hrange hcurrent hgroup
    refine ⟨_, .and hgroup (List.filter_sublist (p := v)), ?_⟩
    intro x
    simp only [List.mem_append, List.mem_filter]
    constructor
    · rintro (⟨⟨hx, -⟩, hxv⟩ | hx | ⟨hx, hxm⟩)
      · exact .inr ⟨hx, hxv⟩
      · exact .inl hx
      · exact .inr ⟨hx, hmandatory x (hchild hx) hxm⟩
    · rintro (hx | ⟨hx, hxv⟩)
      · exact .inr (.inl hx)
      · by_cases hxm : (m.feature x).mandatory = true
        · exact .inr (.inr ⟨hx, hxm⟩)
        · exact .inl ⟨⟨hx, by simpa using hxm⟩, hxv⟩
  | or =>
    obtain ⟨c, hc, hcv⟩ := hv.atLeastOne current hrange hcurrent hgroup hchildren
    refine ⟨_, .or hgroup (List.filter_sublist (p := v)) ?_, ?_⟩
    · intro hnone
      rw [List.filter_eq_nil_iff] at hnone
      exact length_relevantChildren_lt hc (fun hrelevant => hnone c hrelevant hcv)
    · intro x
      rw [List.mem_append, List.mem_filter, or_comm]
  | alternative =>
    obtain ⟨c, hc, hcv, honly⟩ := hv.exactlyOne current hrange hcurrent hgroup hchildren
    by_cases hrelevant : c ∈ m.relevantChildren current
    · refine ⟨c :: rest, .one hgroup hrelevant, ?_⟩
      intro x
      have hx : x = c ↔ x ∈ m.relevantChildren current ∧ v x = true :=
        ⟨fun heq => heq ▸ ⟨hrelevant, hcv⟩, fun h => honly x (hchild h.1) h.2⟩
      rw [List.mem_cons, hx, or_comm]
    · refine ⟨rest, .irrelevant hgroup (length_relevantChildren_lt hc hrelevant), ?_⟩
      intro x
      refine ⟨.inl, Or.rec id ?_⟩
      rintro ⟨hx, hxv⟩
      exact absurd (honly x (hchild hx) hxv ▸ hx) hrelevant

/-- A branch can end with the concrete features of a selection of the tree that lie below its
frontier, besides those that are selected already. -/
theorem exists_completion {v : Nat → Bool} (hv : m.TreeSelection v) (selected : List Nat)
    {frontier : List Nat} (hrange : ∀ i ∈ frontier, i < m.size)
    (hfrontier : ∀ i ∈ frontier, v i = true) :
    ∃ ended ∈ m.completions selected frontier, ∀ i, i ∈ ended ↔ i ∈ selected ∨
      (m.feature i).concrete = true ∧ v i = true ∧ ∃ j ∈ frontier, m.Below j i := by
  -- The decision that agrees with the selection is followed.
  induction selected, frontier using m.branch_induction with
  | nil selected => exact ⟨selected, by simp, by simp⟩
  | cons selected current rest ih =>
    have hrange := List.forall_mem_cons.1 hrange
    have hfrontier := List.forall_mem_cons.1 hfrontier
    obtain ⟨f, hf, hmem⟩ := exists_nextFrontier hv hrange.1 hfrontier.1 rest
    obtain ⟨ended, hended, hiff⟩ := ih f hf
      (fun x hx => (mem_of_mem_nextFrontiers hf hx).elim (hrange.2 x)
        (fun hc => (mem_children.1 hc).2.1))
      (fun x hx => ((hmem x).1 hx).elim (hfrontier.2 x) And.right)
    refine ⟨ended, ?_, ?_⟩
    · rw [completions_cons]
      exact List.mem_flatMap.2 ⟨f, hf, hended⟩
    · intro i
      rw [hiff, mem_select, or_assoc]
      refine or_congr_right ?_
      constructor
      · rintro (⟨rfl, hconcrete⟩ | ⟨hconcrete, hvi, x, hx, hxi⟩)
        · exact ⟨hconcrete, hfrontier.1, i, List.mem_cons_self .., .refl⟩
        · refine ⟨hconcrete, hvi, ?_⟩
          rcases (hmem x).1 hx with hx | ⟨hx, -⟩
          · exact ⟨x, List.mem_cons_of_mem _ hx, hxi⟩
          · exact ⟨current, List.mem_cons_self ..,
              hxi.of_mem_children (mem_relevantChildren.1 hx).1⟩
      · rintro ⟨hconcrete, hvi, x, hx, hxi⟩
        rcases List.mem_cons.1 hx with rfl | hx
        · rcases hxi.eq_or_exists with rfl | ⟨c, hc, hci⟩
          · exact .inl ⟨rfl, hconcrete⟩
          · -- The child above a selected concrete feature is relevant and selected.
            have hrelevant := mem_relevantChildren.2 ⟨hc, hci.isRelevant hconcrete⟩
            exact .inr ⟨hconcrete, hvi, c, (hmem c).2 (.inr ⟨hrelevant, hv.of_below hci hvi⟩), hci⟩
        · exact .inr ⟨hconcrete, hvi, x, (hmem x).2 (.inl hx), hxi⟩

/-- The concrete features of a selection, in increasing order. -/
def concretePart (m : FeatureModel) (v : Nat → Bool) : List Nat := m.concreteFeatures.filter v

/-- The concrete part of a selection is listed in order. -/
theorem pairwise_concretePart (m : FeatureModel) (v : Nat → Bool) :
    (m.concretePart v).Pairwise (· < ·) :=
  (List.pairwise_lt_range.filter _).filter _

end FeatureModel

/-! ## Keys -/

namespace Walk

open FeatureModel (mem_concreteFeatures)

theorem mem_insertFeature {i j : Nat} {js : List Nat} :
    j ∈ insertFeature i js ↔ j = i ∨ j ∈ js := by
  induction js with
  | nil => simp [insertFeature]
  | cons k js ih =>
    rw [insertFeature]
    split
    · simp
    · split
      · rename_i heq
        simp [heq]
      · rw [List.mem_cons, ih, List.mem_cons, or_left_comm]

/-- A key has the features of the selection. -/
theorem mem_keyOf {i : Nat} {selected : List Nat} : i ∈ keyOf selected ↔ i ∈ selected := by
  induction selected with
  | nil => simp [keyOf]
  | cons j selected ih =>
    rw [keyOf, List.foldr_cons, ← keyOf, mem_insertFeature, ih, List.mem_cons]

theorem pairwise_insertFeature {i : Nat} {js : List Nat} (h : js.Pairwise (· < ·)) :
    (insertFeature i js).Pairwise (· < ·) := by
  induction js with
  | nil => simp [insertFeature]
  | cons j js ih =>
    obtain ⟨hj, hjs⟩ := List.pairwise_cons.1 h
    rw [insertFeature]
    split
    · rename_i hlt
      refine List.pairwise_cons.2 ⟨?_, h⟩
      exact List.forall_mem_cons.2 ⟨hlt, fun k hk => Nat.lt_trans hlt (hj k hk)⟩
    · split
      · exact h
      · refine List.pairwise_cons.2 ⟨?_, ih hjs⟩
        intro k hk
        rcases mem_insertFeature.1 hk with rfl | hk
        · omega
        · exact hj k hk

/-- The features of a key are in strict order, whatever the order of the selection. -/
theorem pairwise_keyOf (selected : List Nat) : (keyOf selected).Pairwise (· < ·) := by
  induction selected with
  | nil => exact .nil
  | cons i selected ih => exact pairwise_insertFeature ih

/-- **Every selection of the tree is the end of a branch**, as far as its concrete features are
concerned. -/
theorem concretePart_mem_keys {m : FeatureModel} (hm : m.WellFormed) {v : Nat → Bool}
    (hv : m.TreeSelection v) : m.concretePart v ∈ (m.completions [] [0]).map keyOf := by
  have hrange : ∀ i ∈ [0], i < m.size := List.forall_mem_singleton.2 hm.pos
  have hroot : ∀ i ∈ [0], v i = true := List.forall_mem_singleton.2 hv.root
  obtain ⟨ended, hended, hiff⟩ := m.exists_completion hv [] hrange hroot
  refine List.mem_map.2 ⟨ended, hended, ?_⟩
  refine (pairwise_keyOf ended).eq_of_mem_iff (m.pairwise_concretePart v) ?_
  intro i
  rw [mem_keyOf, hiff, FeatureModel.concretePart, List.mem_filter, mem_concreteFeatures]
  constructor
  · rintro (hi | ⟨hconcrete, hvi, -⟩)
    · cases hi
    · exact ⟨hconcrete, hvi⟩
  · rintro ⟨hconcrete, hvi⟩
    have hi : i < m.size :=
      List.mem_range.1 (List.mem_filter.1 (mem_concreteFeatures.2 hconcrete)).1
    exact .inr ⟨hconcrete, hvi, 0, List.mem_singleton_self 0, hm.below_root hi⟩

end Walk

end ProductLine
