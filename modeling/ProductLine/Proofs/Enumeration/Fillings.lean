import Mathlib.Tactic.Common
import ProductLine.Proofs.Enumeration.Branches
/-!
# Every branch extends to a selection of the tree

A walk leaves out the features that are not relevant.  What it meets on a branch becomes a selection
that the tree allows once these are filled in: below a feature with an AND group the mandatory ones,
and below any other feature the first one, if no relevant child was met.

* `FeatureModel.Trail` says what a walk meets on the branches below a frontier, and
  `FeatureModel.exists_trail` finds it for the end of a branch;
* `FeatureModel.Filled` is what is met together with what is filled in;
* `FeatureModel.exists_treeSelection_of_completion` extends the end of a branch to a selection.
-/
namespace ProductLine

namespace FeatureModel

variable {m : FeatureModel} {met : Nat → Prop}

/-! ## What is met on a branch -/

/-- The relevant children of a feature that are met are what its group asks of them.  Where a group
needs a child, none of them has to be met if there are other children. -/
structure Decided (m : FeatureModel) (met : Nat → Prop) (i : Nat) : Prop where
  mandatory : (m.feature i).group = .and →
    ∀ c ∈ m.relevantChildren i, (m.feature c).mandatory = true → met c
  some : (m.feature i).group ≠ .and → m.children i ≠ [] →
    (∀ c ∈ m.children i, c ∈ m.relevantChildren i) → ∃ c ∈ m.children i, met c
  one : (m.feature i).group = .alternative →
    ∀ c ∈ m.relevantChildren i, ∀ d ∈ m.relevantChildren i, met c → met d → d = c

/-- Only what is met among its children matters to a feature. -/
theorem Decided.congr {met' : Nat → Prop} {i : Nat} (h : m.Decided met i)
    (hsame : ∀ c ∈ m.children i, met' c ↔ met c) : m.Decided met' i := by
  have hrelevant {c : Nat} (hc : c ∈ m.relevantChildren i) : met' c ↔ met c :=
    hsame c (mem_relevantChildren.1 hc).1
  constructor
  · intro hgroup c hc hmandatory
    exact (hrelevant hc).2 (h.mandatory hgroup c hc hmandatory)
  · intro hgroup hchildren hall
    obtain ⟨c, hc, hmet⟩ := h.some hgroup hchildren hall
    exact ⟨c, hc, (hsame c hc).2 hmet⟩
  · intro hgroup c hc d hd hmetc hmetd
    exact h.one hgroup c hc d hd ((hrelevant hc).1 hmetc) ((hrelevant hd).1 hmetd)

/-- The features that a walk meets from a frontier to the end of a branch: those of the frontier,
and below them relevant children as their groups ask for them. -/
structure Trail (m : FeatureModel) (frontier : List Nat) (met : Nat → Prop) : Prop where
  start : ∀ i ∈ frontier, met i
  below : ∀ i, met i → ∃ x ∈ frontier, m.Below x i
  parent : ∀ i, met i → i ∈ frontier ∨ ∃ p, i ∈ m.relevantChildren p ∧ met p
  decided : ∀ i, met i → m.Decided met i

/-- What deciding a feature leads to is what the feature asks of its relevant children. -/
theorem Decision.decided {current : Nat} {rest f : List Nat} (h : m.Decision current rest f)
    (hrest : ∀ c ∈ m.children current, c ∉ rest) : m.Decided (· ∈ f) current := by
  -- If all children are relevant, none of them was left out of the walk.
  have hall (hall : ∀ c ∈ m.children current, c ∈ m.relevantChildren current) :
      ¬ (m.relevantChildren current).length < (m.children current).length := by
    have hsame : m.relevantChildren current = m.children current :=
      List.filter_eq_self.2 (fun c hc => (mem_relevantChildren.1 (hall c hc)).2)
    rw [hsame]
    exact Nat.lt_irrefl _
  have hnew {c : Nat} (hc : c ∈ m.relevantChildren current) : c ∉ rest :=
    hrest c (mem_relevantChildren.1 hc).1
  cases h with
  | leaf hnone =>
    refine ⟨by simp [hnone], ?_, by simp [hnone]⟩
    intro _ hchildren hall
    rw [hnone] at hall
    exact absurd (List.eq_nil_iff_forall_not_mem.2 (fun c hc => List.not_mem_nil (hall c hc)))
      hchildren
  | and hgroup _ =>
    refine ⟨?_, fun hnot => absurd hgroup hnot, by simp [hgroup]⟩
    intro _ c hc hmandatory
    simp [hc, hmandatory]
  | @or picked hgroup hpicked hnone =>
    refine ⟨by simp [hgroup], ?_, by simp [hgroup]⟩
    intro _ _ hrelevant
    have hne : picked ≠ [] := fun hnil => hall hrelevant (hnone hnil)
    obtain ⟨c, hc⟩ := List.exists_mem_of_ne_nil picked hne
    exact ⟨c, (mem_relevantChildren.1 (hpicked.subset hc)).1, List.mem_append_left _ hc⟩
  | @one c hgroup hc =>
    refine ⟨by simp [hgroup], ?_, ?_⟩
    · intro _ _ _
      exact ⟨c, (mem_relevantChildren.1 hc).1, List.mem_cons_self ..⟩
    · intro _ d hd e he hmetd hmete
      have honly {x : Nat} (hx : x ∈ m.relevantChildren current) (hmet : x ∈ c :: rest) : x = c :=
        (List.mem_cons.1 hmet).resolve_right (hnew hx)
      rw [honly hd hmetd, honly he hmete]
  | irrelevant hgroup hlt =>
    refine ⟨by simp [hgroup], fun _ _ hrelevant => absurd hlt (hall hrelevant), ?_⟩
    intro _ d hd _ _ hmetd
    exact absurd hmetd (hnew hd)

section Next

variable {selected rest f : List Nat} {current : Nat}

theorem subset_of_mem_nextFrontiers (hf : f ∈ m.nextFrontiers current rest) : rest ⊆ f := by
  obtain ⟨before, after, rfl, -⟩ := exists_of_mem_nextFrontiers hf
  exact List.subset_append_of_subset_right before (List.subset_append_left rest after)

/-- What a next frontier adds are relevant children. -/
theorem mem_relevantChildren_of_mem_nextFrontiers (hf : f ∈ m.nextFrontiers current rest) {x : Nat}
    (hx : x ∈ f) (hrest : x ∉ rest) : x ∈ m.relevantChildren current := by
  obtain ⟨before, after, rfl, hsub⟩ := exists_of_mem_nextFrontiers hf
  apply hsub.subset
  simpa [hrest] using hx

/-- What is decided lies below nothing that is met later on. -/
theorem Trail.not_below (ht : m.Trail f met) (h : m.Partway selected (current :: rest))
    (hf : f ∈ m.nextFrontiers current rest) {i : Nat} (hi : met i) : ¬ m.Below i current := by
  intro hbelow
  obtain ⟨x, hx, hxi⟩ := ht.below i hi
  exact h.not_below_current hf x hx (hxi.trans hbelow)

/-- Of its children, those of the next frontier are met later on. -/
theorem Trail.met_child_iff (ht : m.Trail f met) (h : m.Partway selected (current :: rest))
    (hf : f ∈ m.nextFrontiers current rest) {c : Nat} (hc : c ∈ m.children current) :
    met c ↔ c ∈ f := by
  constructor
  · intro hmet
    obtain ⟨x, hx, hxc⟩ := ht.below c hmet
    by_cases heq : c = x
    · exact heq ▸ hx
    · by_cases hrest : x ∈ rest
      · exact absurd hxc (h.apart_rest hrest c (Below.refl.child hc))
      · have hchild := mem_relevantChildren_of_mem_nextFrontiers hf hx hrest
        have hapart := apart_of_mem_children hc (mem_relevantChildren.1 hchild).1 heq
        exact absurd hxc (hapart c .refl)
  · exact ht.start c

/-- A walk that decides the first feature of a frontier has met that feature, and what it meets from
the next frontier on. -/
theorem Trail.cons (ht : m.Trail f met) (h : m.Partway selected (current :: rest))
    (hf : f ∈ m.nextFrontiers current rest) :
    m.Trail (current :: rest) (fun i => i = current ∨ met i) := by
  constructor
  · intro i hi
    rcases List.mem_cons.1 hi with rfl | hi
    · exact .inl rfl
    · exact .inr (ht.start i (subset_of_mem_nextFrontiers hf hi))
  · rintro i (rfl | hi)
    · exact ⟨i, List.mem_cons_self .., .refl⟩
    · obtain ⟨x, hx, hxi⟩ := ht.below i hi
      by_cases hrest : x ∈ rest
      · exact ⟨x, List.mem_cons_of_mem _ hrest, hxi⟩
      · have hchild := mem_relevantChildren_of_mem_nextFrontiers hf hx hrest
        exact ⟨current, List.mem_cons_self ..,
          hxi.of_mem_children (mem_relevantChildren.1 hchild).1⟩
  · rintro i (rfl | hi)
    · exact .inl (List.mem_cons_self ..)
    · rcases ht.parent i hi with hi | ⟨p, hp, hmet⟩
      · by_cases hrest : i ∈ rest
        · exact .inl (List.mem_cons_of_mem _ hrest)
        · exact .inr ⟨current, mem_relevantChildren_of_mem_nextFrontiers hf hi hrest, .inl rfl⟩
      · exact .inr ⟨p, hp, .inr hmet⟩
  -- What is asked of the children of a feature was met later than the feature.
  · rintro i (rfl | hi)
    · have hnew : ∀ c ∈ m.children i, c ∉ rest :=
        fun c hc hmem => h.apart_rest hmem c (Below.refl.child hc) .refl
      refine ((mem_nextFrontiers.1 hf).decided hnew).congr ?_
      intro c hc
      have hne : c ≠ i := fun heq => Nat.lt_irrefl i (heq ▸ (mem_children.1 hc).1)
      simp [hne, ht.met_child_iff h hf hc]
    · refine (ht.decided i hi).congr ?_
      intro c hc
      have hne : c ≠ current := fun heq => ht.not_below h hf hi (heq ▸ Below.refl.child hc)
      simp [hne]

end Next

/-- At the end of a branch those features are selected in addition that are concrete and were met on
it. -/
theorem exists_trail {selected frontier ended : List Nat} (h : m.Partway selected frontier)
    (hended : ended ∈ m.completions selected frontier) :
    ∃ met, m.Trail frontier met ∧
      ∀ i, i ∈ ended ↔ i ∈ selected ∨ (m.feature i).concrete = true ∧ met i := by
  -- From the end of the branch backwards.
  induction selected, frontier using m.branch_induction with
  | nil selected =>
    rw [completions_nil, List.mem_singleton] at hended
    exact ⟨fun _ => False, ⟨nofun, nofun, nofun, nofun⟩, by simp [hended]⟩
  | cons selected current rest ih =>
    rw [completions_cons] at hended
    obtain ⟨f, hf, hended⟩ := List.mem_flatMap.1 hended
    obtain ⟨met, htrail, hiff⟩ := ih f hf (h.next hf) hended
    refine ⟨_, htrail.cons h hf, ?_⟩
    intro i
    rw [hiff, mem_select, or_assoc, and_or_left]
    refine or_congr_right (or_congr_left ?_)
    constructor
    · rintro ⟨rfl, hconcrete⟩
      exact ⟨hconcrete, rfl⟩
    · rintro ⟨hconcrete, rfl⟩
      exact ⟨rfl, hconcrete⟩

/-! ## Filling in -/

/-- A child without relevance that is filled in below a selected feature: every mandatory one of an
AND group, and otherwise the first one, if no relevant child was met. -/
def Wanted (m : FeatureModel) (met : Nat → Prop) (i c : Nat) : Prop :=
  match (m.feature i).group with
  | .and => (m.feature c).mandatory = true
  | .or | .alternative => (∀ d ∈ m.relevantChildren i, ¬ met d) ∧
      ((m.children i).filter (fun d => !m.isRelevant d)).head? = some c

/-- What is met, and what is filled in below it. -/
inductive Filled (m : FeatureModel) (met : Nat → Prop) : Nat → Prop where
  | met {i : Nat} : met i → Filled m met i
  | fill {i c : Nat} : Filled m met i → c ∈ m.children i → m.isRelevant c = false →
      m.Wanted met i c → Filled m met c

/-- The children of a feature without relevance have none. -/
theorem isRelevant_of_mem_children {i c : Nat} (hc : c ∈ m.children i)
    (hi : m.isRelevant i = false) : m.isRelevant c = false := by
  rw [isRelevant_eq, Bool.or_eq_false_iff, List.any_eq_false] at hi
  exact Bool.eq_false_of_not_eq_true (hi.2 c hc)

namespace Filled

variable {i c : Nat}

/-- What is relevant was met. -/
theorem met_of_isRelevant (h : m.Filled met i) (hi : m.isRelevant i = true) : met i := by
  cases h with
  | met hmet => exact hmet
  | fill _ _ hnot _ =>
    rw [hi] at hnot
    cases hnot

theorem concrete_iff : (m.feature i).concrete = true ∧ m.Filled met i ↔
    (m.feature i).concrete = true ∧ met i := by
  refine and_congr_right (fun hconcrete => ⟨fun h => ?_, .met⟩)
  refine h.met_of_isRelevant ?_
  rw [isRelevant_eq, hconcrete, Bool.true_or]

/-- A child without relevance is there only because it is wanted. -/
theorem wanted (ht : m.Trail [0] met) (h : m.Filled met c) (hc : c ∈ m.children i)
    (hnot : m.isRelevant c = false) : m.Wanted met i c := by
  cases h with
  | met hmet =>
    rcases ht.parent c hmet with hroot | ⟨p, hp, -⟩
    · have := (mem_children.1 hc).1
      rw [List.mem_singleton] at hroot
      omega
    · rw [(mem_relevantChildren.1 hp).2] at hnot
      cases hnot
  | fill _ hc' _ hwanted => exact eq_of_mem_children hc' hc ▸ hwanted

/-- The parent of what is there is there, too. -/
theorem of_child (ht : m.Trail [0] met) (h : m.Filled met c) (hc : c ∈ m.children i) :
    m.Filled met i := by
  cases h with
  | met hmet =>
    rcases ht.parent c hmet with hroot | ⟨p, hp, hmet'⟩
    · have := (mem_children.1 hc).1
      rw [List.mem_singleton] at hroot
      omega
    · exact eq_of_mem_children (mem_relevantChildren.1 hp).1 hc ▸ .met hmet'
  | fill hi hc' _ _ => exact eq_of_mem_children hc' hc ▸ hi

/-- The mandatory children of an AND group are there: the relevant ones were met. -/
theorem mandatory (ht : m.Trail [0] met) (h : m.Filled met i) (hgroup : (m.feature i).group = .and)
    (hc : c ∈ m.children i) (hmandatory : (m.feature c).mandatory = true) : m.Filled met c := by
  cases hrelevant : m.isRelevant c with
  | true =>
    cases hi : m.isRelevant i with
    | true =>
      have hdecided := ht.decided i (h.met_of_isRelevant hi)
      exact .met (hdecided.mandatory hgroup c (mem_relevantChildren.2 ⟨hc, hrelevant⟩) hmandatory)
    | false =>
      rw [isRelevant_of_mem_children hc hi] at hrelevant
      cases hrelevant
  | false =>
    refine .fill h hc hrelevant ?_
    rw [Wanted, hgroup]
    exact hmandatory

/-- Of the children of another group one is there: if no relevant one was met, there are others, and
the first of them is filled in. -/
theorem exists_child (ht : m.Trail [0] met) (h : m.Filled met i)
    (hgroup : (m.feature i).group ≠ .and) (hchildren : m.children i ≠ []) :
    ∃ c ∈ m.children i, m.Filled met c := by
  by_cases hmet : ∃ c ∈ m.relevantChildren i, met c
  · obtain ⟨c, hc, hmet⟩ := hmet
    exact ⟨c, (mem_relevantChildren.1 hc).1, .met hmet⟩
  · have hnone : ∀ d ∈ m.relevantChildren i, ¬ met d := fun d hd hd' => hmet ⟨d, hd, hd'⟩
    obtain ⟨c, hfirst⟩ :
        ∃ c, ((m.children i).filter (fun d => !m.isRelevant d)).head? = some c := by
      by_contra hno
      rw [not_exists] at hno
      have hempty : (m.children i).filter (fun d => !m.isRelevant d) = [] :=
        List.head?_eq_none_iff.1 (Option.eq_none_iff_forall_ne_some.2 hno)
      have hall : ∀ c ∈ m.children i, c ∈ m.relevantChildren i := by
        intro c hc
        have := List.filter_eq_nil_iff.1 hempty c hc
        exact mem_relevantChildren.2 ⟨hc, by simpa using this⟩
      -- All children are relevant, so the feature is, and then one of them was met.
      obtain ⟨c, hc⟩ := List.exists_mem_of_ne_nil _ hchildren
      have hi : m.isRelevant i = true := by
        rw [isRelevant_eq, Bool.or_eq_true, List.any_eq_true]
        exact .inr ⟨c, hc, (mem_relevantChildren.1 (hall c hc)).2⟩
      obtain ⟨d, hd, hd'⟩ := (ht.decided i (h.met_of_isRelevant hi)).some hgroup hchildren hall
      exact hnone d (hall d hd) hd'
    have hc := List.mem_filter.1 (List.mem_of_head? hfirst)
    refine ⟨c, hc.1, .fill h hc.1 (by simpa using hc.2) ?_⟩
    unfold Wanted
    cases hkind : (m.feature i).group with
    | and => exact absurd hkind hgroup
    | or => exact ⟨hnone, hfirst⟩
    | alternative => exact ⟨hnone, hfirst⟩

/-- Of the children of an ALTERNATIVE group no two are there. -/
theorem eq_of_alternative (ht : m.Trail [0] met) (h : m.Filled met i)
    (hgroup : (m.feature i).group = .alternative) {d : Nat} (hc : c ∈ m.children i)
    (hd : d ∈ m.children i) (hfilledc : m.Filled met c) (hfilledd : m.Filled met d) : d = c := by
  have hwanted {x : Nat} (hx : x ∈ m.children i) (hfilled : m.Filled met x)
      (hnot : m.isRelevant x = false) : (∀ d ∈ m.relevantChildren i, ¬ met d) ∧
        ((m.children i).filter (fun d => !m.isRelevant d)).head? = some x := by
    have := hfilled.wanted ht hx hnot
    rwa [Wanted, hgroup] at this
  have hmet {x : Nat} (hx : x ∈ m.children i) (hfilled : m.Filled met x)
      (hrelevant : m.isRelevant x = true) : x ∈ m.relevantChildren i ∧ met x :=
    ⟨mem_relevantChildren.2 ⟨hx, hrelevant⟩, hfilled.met_of_isRelevant hrelevant⟩
  cases hrc : m.isRelevant c with
  | true =>
    obtain ⟨hc', hmetc⟩ := hmet hc hfilledc hrc
    cases hrd : m.isRelevant d with
    | true =>
      obtain ⟨hd', hmetd⟩ := hmet hd hfilledd hrd
      have hi : m.isRelevant i = true := by
        rw [isRelevant_eq, Bool.or_eq_true, List.any_eq_true]
        exact .inr ⟨c, hc, hrc⟩
      exact (ht.decided i (h.met_of_isRelevant hi)).one hgroup c hc' d hd' hmetc hmetd
    | false => exact absurd hmetc ((hwanted hd hfilledd hrd).1 c hc')
  | false =>
    obtain ⟨hnone, hfirst⟩ := hwanted hc hfilledc hrc
    cases hrd : m.isRelevant d with
    | true =>
      obtain ⟨hd', hmetd⟩ := hmet hd hfilledd hrd
      exact absurd hmetd (hnone d hd')
    | false => exact Option.some.inj ((hwanted hd hfilledd hrd).2.symm.trans hfirst)

end Filled

/-- What is met on a branch from the root, with what is filled in, is a selection that the tree
allows. -/
theorem Trail.treeSelection (hm : m.WellFormed) (ht : m.Trail [0] met) {v : Nat → Bool}
    (hv : ∀ i, v i = true ↔ m.Filled met i) : m.TreeSelection v := by
  constructor
  · rw [hv]
    exact .met (ht.start 0 (List.mem_singleton_self 0))
  · intro i p hi hselected hp
    rw [hv] at hselected ⊢
    rcases Nat.eq_zero_or_pos i with rfl | hpos
    · rw [hm.root] at hp
      cases hp
    · obtain ⟨q, hq, hlt⟩ := hm.parent i hpos hi
      obtain rfl : q = p := Option.some.inj (hq.symm.trans hp)
      exact hselected.of_child ht (mem_children.2 ⟨hlt, hi, hp⟩)
  · intro i _ hselected hgroup c hc hmandatory
    rw [hv] at hselected ⊢
    exact hselected.mandatory ht hgroup hc hmandatory
  · intro i _ hselected hgroup hchildren
    simp only [hv] at hselected ⊢
    exact hselected.exists_child ht (by simp [hgroup]) hchildren
  · intro i _ hselected hgroup hchildren
    simp only [hv] at hselected ⊢
    obtain ⟨c, hc, hfilled⟩ := hselected.exists_child ht (by simp [hgroup]) hchildren
    refine ⟨c, hc, hfilled, ?_⟩
    intro d hd hfilled'
    exact hselected.eq_of_alternative ht hgroup hc hd hfilled hfilled'

/-- **Every end of a branch extends to a selection of the tree** that has just these concrete
features. -/
theorem exists_treeSelection_of_completion (hm : m.WellFormed) {ended : List Nat}
    (hended : ended ∈ m.completions [] [0]) :
    ∃ v, m.TreeSelection v ∧
      ∀ i, i ∈ ended ↔ (m.feature i).concrete = true ∧ v i = true := by
  classical
  obtain ⟨met, htrail, hiff⟩ := exists_trail (partway_root hm.pos) hended
  have hv (i : Nat) : decide (m.Filled met i) = true ↔ m.Filled met i := decide_eq_true_iff
  refine ⟨fun i => decide (m.Filled met i), htrail.treeSelection hm hv, ?_⟩
  intro i
  rw [hiff, hv, Filled.concrete_iff]
  simp

/-! ## There are branches -/

/-- Deciding a feature leads somewhere. -/
theorem nextFrontiers_ne_nil (current : Nat) (rest : List Nat) :
    m.nextFrontiers current rest ≠ [] := by
  suffices h : ∃ f, m.Decision current rest f by
    obtain ⟨f, hf⟩ := h
    exact List.ne_nil_of_mem (mem_nextFrontiers.2 hf)
  by_cases hnone : m.relevantChildren current = []
  · exact ⟨rest, .leaf hnone⟩
  · obtain ⟨c, hc⟩ := List.exists_mem_of_ne_nil _ hnone
    cases hgroup : (m.feature current).group with
    | and => exact ⟨_, .and hgroup (List.nil_sublist _)⟩
    | or => exact ⟨_, .or hgroup (List.Sublist.refl _) (fun h => absurd h hnone)⟩
    | alternative => exact ⟨_, .one hgroup hc⟩

/-- Every branch has an end. -/
theorem completions_ne_nil (selected frontier : List Nat) :
    m.completions selected frontier ≠ [] := by
  induction selected, frontier using m.branch_induction with
  | nil selected => simp
  | cons selected current rest ih =>
    obtain ⟨f, hf⟩ := List.exists_mem_of_ne_nil _ (nextFrontiers_ne_nil (m := m) current rest)
    obtain ⟨ended, hended⟩ := List.exists_mem_of_ne_nil _ (ih f hf)
    rw [completions_cons]
    exact List.ne_nil_of_mem (List.mem_flatMap.2 ⟨f, hf, hended⟩)

end FeatureModel

end ProductLine
