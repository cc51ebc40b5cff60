import Mathlib.Data.List.Nodup
import Mathlib.Tactic.Common
import ProductLine.FeatureModel
import ProductLine.Proofs.Formula.ClauseForm
/-!
# Feature models are trees

Whatever changes are made to a model, its features have different names and every feature but the
root has a parent that was there before it.

* `FeatureModel.WellFormed` is this invariant, and `FeatureModel.Built` says that a model came about
  by changes;
* `FeatureModel.apply_cases` says all that a change can do;
* `FeatureModel.Below` relates a feature to its descendants, and `FeatureModel.Apart` says that two
  features have none in common.
-/
namespace ProductLine

namespace FeatureModel

/-! ## Building a model -/

/-- The models that changes lead to from a root. -/
inductive Built : FeatureModel → Prop where
  | root (name : String) : Built (root name)
  | apply {m m' : FeatureModel} {e : Edit} : Built m → m.apply e = .ok m' → Built m'

/-- Names are not repeated, and the features form a tree. -/
structure WellFormed (m : FeatureModel) : Prop where
  pos : 0 < m.size
  names : m.names.Nodup
  root : (m.feature 0).parent = none
  parent : ∀ i, 0 < i → i < m.size → ∃ p, (m.feature i).parent = some p ∧ p < i

variable {m m' : FeatureModel}

@[simp] theorem length_names (m : FeatureModel) : m.names.length = m.size := by
  simp [names, size]

theorem getElem?_names {i : Nat} (h : i < m.size) : m.names[i]? = some (m.name i) := by
  have hi : m.features[i]? = some m.features[i] := Array.getElem?_eq_getElem h
  simp [names, name, feature, hi]

theorem wellFormed_root (name : String) : (root name).WellFormed where
  pos := Nat.one_pos
  names := List.nodup_singleton name
  root := rfl
  parent i hi hlt := by
    have : i < 1 := hlt
    omega

/-! ### A feature that is changed -/

section Change

variable {i : Nat} {f : Feature → Feature}

@[simp] theorem size_change : (m.change i f).size = m.size := by
  simp [size, change]

theorem names_change (hname : ∀ x, (f x).name = x.name) : (m.change i f).names = m.names := by
  apply List.ext_getElem?
  intro j
  simp only [names, change, List.getElem?_map, Array.getElem?_toList, Array.getElem?_modify]
  split
  · cases m.features[j]? <;> simp [hname]
  · rfl

/-- A change that keeps the parents of features keeps them in the model. -/
theorem parent_change (hparent : ∀ x, (f x).parent = x.parent) (j : Nat) :
    ((m.change i f).feature j).parent = (m.feature j).parent := by
  simp only [feature, change, Array.getElem?_modify]
  split
  · cases m.features[j]? <;> simp [hparent]
  · rfl

/-- A change that keeps the parents of features keeps their children. -/
theorem children_change (hparent : ∀ x, (f x).parent = x.parent) (j : Nat) :
    (m.change i f).children j = m.children j := by
  simp only [children, size_change, parent_change hparent]

/-- The invariant speaks of names, parents and the number of features only. -/
theorem WellFormed.change (h : m.WellFormed) (i : Nat) (hname : ∀ x, (f x).name = x.name)
    (hparent : ∀ x, (f x).parent = x.parent) : (m.change i f).WellFormed where
  pos := by rw [size_change]; exact h.pos
  names := by rw [names_change hname]; exact h.names
  root := (parent_change hparent 0).trans h.root
  parent j hj hlt := by
    rw [parent_change hparent]
    exact h.parent j hj (size_change ▸ hlt)

end Change

/-! ### A feature that is added -/

section Push

variable {x : Feature} {cs : List Formula} {p : Nat}

@[simp] theorem size_push : size ⟨m.features.push x, cs⟩ = m.size + 1 :=
  Array.size_push x

@[simp] theorem names_push : names ⟨m.features.push x, cs⟩ = m.names ++ [x.name] := by
  simp [names]

/-- The features before the new one stay. -/
theorem feature_push_of_lt {i : Nat} (hi : i < m.size) :
    feature ⟨m.features.push x, cs⟩ i = m.feature i := by
  simp [feature, Array.getElem?_push_lt hi, Array.getElem?_eq_getElem hi]

/-- The new feature is the last one. -/
@[simp] theorem feature_push_size : feature ⟨m.features.push x, cs⟩ m.size = x := by
  simp [feature, size]

/-- The new name is found at the end, and other names where they were. -/
theorem find?_push (hname : x.name ∉ m.names) (name : String) :
    find? ⟨m.features.push x, cs⟩ name = if name = x.name then some m.size else m.find? name := by
  rw [find?, names_push, find?, List.idxOf?, List.findIdx?_append, length_names]
  split
  · rename_i heq
    subst heq
    have hnone : m.names.findIdx? (· == x.name) = none := List.idxOf?_eq_none_iff.2 hname
    simp [hnone]
  · rename_i hne
    simp [Ne.symm hne]

/-- A feature that is changed right after it was added could have been added so. -/
theorem change_push_size (f : Feature → Feature) :
    change ⟨m.features.push x, cs⟩ m.size f = ⟨m.features.push (f x), cs⟩ := by
  rw [change]
  congr 1
  apply Array.ext_getElem?
  intro i
  rw [Array.getElem?_modify, Array.getElem?_push, Array.getElem?_push, size]
  by_cases hi : i = m.features.size
  · simp [hi]
  · simp [hi, Ne.symm hi]

/-- The last child of a parent is the one that was added last. -/
theorem children_push (hx : x.parent = some p) (hp : p < m.size) (i : Nat) :
    children ⟨m.features.push x, cs⟩ i = m.children i ++ if i = p then [m.size] else [] := by
  rw [children, size_push]
  rcases Nat.lt_or_ge i m.size with hi | hi
  · have hlast : m.size + 1 - (i + 1) = m.size - (i + 1) + 1 := by omega
    have hnumber : i + 1 + 1 * (m.size - (i + 1)) = m.size := by omega
    rw [hlast, List.range'_concat, hnumber, List.filter_append, List.filter_cons,
      List.filter_nil, feature_push_size, hx]
    congr 1
    · refine List.filter_congr ?_
      intro c hc
      rw [List.mem_range'_1] at hc
      rw [feature_push_of_lt (by omega)]
    · exact if_congr (by rw [Option.some_beq_some, beq_iff_eq, eq_comm]) rfl rfl
  · have hnone : m.children i = [] := by
      rw [children, Nat.sub_eq_zero_of_le (Nat.le_succ_of_le hi)]
      rfl
    rw [hnone, if_neg (by omega), Nat.sub_eq_zero_of_le (Nat.succ_le_succ hi)]
    rfl

/-- A new name below an existing feature keeps a model well-formed. -/
theorem WellFormed.push (h : m.WellFormed) (hname : x.name ∉ m.names) (hx : x.parent = some p)
    (hp : p < m.size) : WellFormed ⟨m.features.push x, cs⟩ where
  pos := by simp
  names := by
    rw [names_push]
    exact List.nodup_append.2 ⟨h.names, List.nodup_singleton _, by
      rintro a ha b hb rfl
      exact hname (List.mem_singleton.1 hb ▸ ha)⟩
  root := by rw [feature_push_of_lt h.pos, h.root]
  parent i hi hlt := by
    rw [size_push] at hlt
    rcases Nat.lt_or_eq_of_le (Nat.le_of_lt_succ hlt) with hlt | rfl
    · rw [feature_push_of_lt hlt]
      exact h.parent i hi hlt
    · exact ⟨p, by simp [hx], hp⟩

end Push

/-! ### What a change can do -/

/-- Adding a feature succeeds exactly for a new name, and then the feature comes last. -/
theorem add_eq_ok {parent : Nat} {name : String} :
    m.add parent name = .ok m' ↔ name ∉ m.names ∧
      m' = ⟨m.features.push { name := name, parent := some parent }, m.constraints⟩ := by
  unfold add
  split <;> simp_all [eq_comm]

/-- A feature that is found by its name is one of the model. -/
theorem require_eq_ok {name : String} {i : Nat} (h : m.require name = .ok i) : i < m.size := by
  unfold require at h
  split at h
  · rename_i j hj
    cases h
    rw [find?, List.idxOf?_eq_some_iff] at hj
    simpa using hj.1
  · cases h

/-- A change adds a feature below another one, changes one but not its name or its parent, or adds a
constraint over the names that there are. -/
theorem apply_cases {e : Edit} (he : m.apply e = .ok m') :
    (∃ x p, x.name ∉ m.names ∧ x.parent = some p ∧ p < m.size ∧
      m' = ⟨m.features.push x, m.constraints⟩) ∨
    (∃ i f, (∀ x, (f x).name = x.name) ∧ (∀ x, (f x).parent = x.parent) ∧ m' = m.change i f) ∨
    (∃ f, (∀ name ∈ f.names, name ∈ m.names) ∧ m' = ⟨m.features, m.constraints ++ [f]⟩) := by
  cases e with
  | add parent name =>
    obtain ⟨p, hp, he⟩ := bind_eq_ok.1 he
    obtain ⟨hname, rfl⟩ := add_eq_ok.1 he
    exact .inl ⟨_, p, hname, rfl, require_eq_ok hp, rfl⟩
  | addMandatory parent name =>
    obtain ⟨p, hp, he⟩ := bind_eq_ok.1 he
    obtain ⟨next, hnext, he⟩ := bind_eq_ok.1 he
    cases he
    obtain ⟨hname, rfl⟩ := add_eq_ok.1 hnext
    refine .inl ⟨{ name := name, parent := some p, mandatory := true }, p, hname, rfl,
      require_eq_ok hp, ?_⟩
    rw [setMandatory, change_push_size]
  | setGroup name group =>
    obtain ⟨i, -, he⟩ := bind_eq_ok.1 he
    cases he
    exact .inr (.inl ⟨i, fun x => { x with group := group }, fun _ => rfl, fun _ => rfl, rfl⟩)
  | setMandatory name mandatory =>
    obtain ⟨i, -, he⟩ := bind_eq_ok.1 he
    cases he
    exact .inr
      (.inl ⟨i, fun x => { x with mandatory := mandatory }, fun _ => rfl, fun _ => rfl, rfl⟩)
  | setAbstract name isAbstract =>
    obtain ⟨i, -, he⟩ := bind_eq_ok.1 he
    cases he
    exact .inr
      (.inl ⟨i, fun x => { x with concrete := !isAbstract }, fun _ => rfl, fun _ => rfl, rfl⟩)
  | constrain f =>
    have he : m.constrain f = .ok m' := he
    unfold constrain at he
    split at he
    · cases he
    · rename_i hnone
      cases he
      exact .inr (.inr ⟨f, by simpa using List.find?_eq_none.1 hnone, rfl⟩)

/-- Every change keeps a model well-formed. -/
theorem WellFormed.apply (h : m.WellFormed) {e : Edit} (he : m.apply e = .ok m') :
    m'.WellFormed := by
  obtain ⟨x, p, hname, hx, hp, rfl⟩ | ⟨i, f, hname, hparent, rfl⟩ | ⟨f, -, rfl⟩ := apply_cases he
  · exact h.push hname hx hp
  · exact h.change i hname hparent
  · exact ⟨h.pos, h.names, h.root, h.parent⟩

/-- Every model that is built is well-formed. -/
theorem Built.wellFormed (h : m.Built) : m.WellFormed := by
  induction h with
  | root name => exact wellFormed_root name
  | apply _ he ih => exact ih.apply he

/-- Constraints are over names of features.  None of these names is lost later. -/
theorem Built.mem_names_of_mem_constraints (h : m.Built) {f : Formula} (hf : f ∈ m.constraints)
    {name : String} (hname : name ∈ f.names) : name ∈ m.names := by
  induction h generalizing f with
  | root => cases hf
  | apply _ he ih =>
    obtain ⟨x, p, -, -, -, rfl⟩ | ⟨i, g, hkeeps, -, rfl⟩ | ⟨g, hg, rfl⟩ := apply_cases he
    · rw [names_push]
      exact List.mem_append_left _ (ih hf hname)
    · rw [names_change hkeeps]
      exact ih hf hname
    · rcases List.mem_append.1 hf with hf | hf
      · exact ih hf hname
      · exact hg name (List.mem_singleton.1 hf ▸ hname)

/-! ## Descendants -/

/-- The children of a feature come after it and have it as their parent. -/
theorem mem_children {i c : Nat} :
    c ∈ m.children i ↔ i < c ∧ c < m.size ∧ (m.feature c).parent = some i := by
  rw [children, List.mem_filter, List.mem_range'_1, beq_iff_eq, ← and_assoc]
  refine and_congr_left' ?_
  omega

theorem nodup_children (m : FeatureModel) (i : Nat) : (m.children i).Nodup :=
  List.Nodup.filter _ (List.nodup_range' ..)

/-- A feature has one parent. -/
theorem eq_of_mem_children {i j c : Nat} (hi : c ∈ m.children i) (hj : c ∈ m.children j) :
    i = j :=
  Option.some.inj ((mem_children.1 hi).2.2.symm.trans (mem_children.1 hj).2.2)

/-- The descendants of a feature, and itself. -/
inductive Below (m : FeatureModel) (i : Nat) : Nat → Prop where
  | refl : Below m i i
  | child {j c : Nat} : Below m i j → c ∈ m.children j → Below m i c

namespace Below

variable {i j k c : Nat}

/-- What lies below a feature does not come before it. -/
theorem le (h : m.Below i j) : i ≤ j := by
  induction h with
  | refl => exact Nat.le_refl i
  | child _ hc ih => exact Nat.le_trans ih (Nat.le_of_lt (mem_children.1 hc).1)

theorem trans (hij : m.Below i j) (hjk : m.Below j k) : m.Below i k := by
  induction hjk with
  | refl => exact hij
  | child _ hc ih => exact ih.child hc

theorem of_mem_children (hc : c ∈ m.children i) (h : m.Below c j) : m.Below i j :=
  (refl.child hc).trans h

/-- A descendant is the feature itself, or is below one of its children. -/
theorem eq_or_exists (h : m.Below i j) : j = i ∨ ∃ c ∈ m.children i, m.Below c j := by
  induction h with
  | refl => exact .inl rfl
  | @child j d _ hd ih =>
    rcases ih with rfl | ⟨c, hc, hcj⟩
    · exact .inr ⟨d, hd, .refl⟩
    · exact .inr ⟨c, hc, hcj.child hd⟩

/-- The features above a feature are above each other. -/
theorem linear (hi : m.Below i k) (hj : m.Below j k) : m.Below i j ∨ m.Below j i := by
  -- Both ways down end with the same step, as a feature has one parent.
  induction hi with
  | refl => exact .inr hj
  | child h hc ih =>
    cases hj with
    | refl => exact .inl (h.child hc)
    | child h' hc' => exact ih (eq_of_mem_children hc hc' ▸ h')

end Below

/-- Two features without a common descendant. -/
def Apart (m : FeatureModel) (i j : Nat) : Prop := ∀ k, m.Below i k → ¬ m.Below j k

theorem Apart.symm {i j : Nat} (h : m.Apart i j) : m.Apart j i :=
  fun k hj hi => h k hi hj

/-- What is below features that are apart is apart. -/
theorem Apart.of_below {i j i' j' : Nat} (h : m.Apart i j) (hi : m.Below i i')
    (hj : m.Below j j') : m.Apart i' j' :=
  fun k hk hk' => h k (hi.trans hk) (hj.trans hk')

/-- Nothing lies below two children of one feature. -/
theorem apart_of_mem_children {i c d : Nat} (hc : c ∈ m.children i) (hd : d ∈ m.children i)
    (hne : c ≠ d) : m.Apart c d := by
  have hnot {c d : Nat} (hc : c ∈ m.children i) (hd : d ∈ m.children i) (hne : c ≠ d) :
      ¬ m.Below c d := by
    intro h
    cases h with
    | refl => exact hne rfl
    | child h hd' =>
      -- The last step of the way down comes from the common parent.
      rw [← eq_of_mem_children hd hd'] at h
      exact Nat.lt_irrefl i (Nat.lt_of_lt_of_le (mem_children.1 hc).1 h.le)
  intro k hck hdk
  exact (hck.linear hdk).elim (hnot hc hd hne) (hnot hd hc hne.symm)

/-- Every feature is below the root. -/
theorem WellFormed.below_root (h : m.WellFormed) {i : Nat} (hi : i < m.size) : m.Below 0 i := by
  induction i using Nat.strongRecOn with
  | _ i ih =>
    rcases Nat.eq_zero_or_pos i with rfl | hpos
    · exact .refl
    · obtain ⟨p, hp, hlt⟩ := h.parent i hpos hi
      exact (ih p hlt (Nat.lt_trans hlt hi)).child (mem_children.2 ⟨hlt, hi, hp⟩)

end FeatureModel

end ProductLine
