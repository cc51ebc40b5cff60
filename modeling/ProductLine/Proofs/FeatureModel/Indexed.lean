import Mathlib.Logic.Relation
import Mathlib.Tactic.Common
import ProductLine.FeatureModel.Indexed
import ProductLine.Proofs.Ends
import ProductLine.Proofs.FeatureModel.Selections
/-!
# Child lists and index always agree with the features

Whatever operations are carried out, and whether they are refused or not, a model with child lists
and an index says three times the same: in the parents, in the lists and in the index.

* `IndexedModel.Agrees` says that the lists and the index are what would be searched for;
* `IndexedModel.Follows` says that a change does the same to the feature model alone, and a refused
  one does nothing, and `IndexedModel.perform_follows` and `IndexedModel.apply_follows` that all
  operations are such changes;
* `IndexedModel.Reached` says that a model came about by operations, and
  `IndexedModel.consistent_of_reached` what is so in all such models.
-/
namespace ProductLine

namespace IndexedModel

variable {s s' : IndexedModel} {α β : Type}

/-! ## The feature model alone -/

@[simp] theorem size_model (s : IndexedModel) : s.model.size = s.size :=
  Array.size_map ..

/-- A feature of the model alone is the stored one without its redundant fields. -/
@[simp] theorem feature_model (s : IndexedModel) (i : Nat) :
    s.model.feature i = (s.feature i).toFeature := by
  simp only [model, FeatureModel.feature, feature, Array.getElem?_map]
  cases s.features[i]? <;> rfl

@[simp] theorem name_model (s : IndexedModel) (i : Nat) : s.model.name i = s.name i := by
  rw [FeatureModel.name, feature_model, name]

theorem names_model (s : IndexedModel) :
    s.model.names = s.features.toList.map (fun x => x.name) := by
  simp [model, FeatureModel.names, Function.comp_def]

/-- The lists and the index have what would be found by looking through all features. -/
structure Agrees (s : IndexedModel) : Prop where
  ids : ∀ name, s.find? name = s.model.find? name
  children : ∀ i, s.children i = s.model.children i

/-- What is done to a feature without its children is done to the feature of the model alone. -/
theorem map_modify {f : IndexedFeature → IndexedFeature} {g : Feature → Feature}
    (hf : ∀ x, (f x).toFeature = g x.toFeature) (xs : Array IndexedFeature) (i : Nat) :
    (xs.modify i f).map IndexedFeature.toFeature =
      (xs.map IndexedFeature.toFeature).modify i g := by
  apply Array.ext_getElem?
  intro j
  rw [Array.getElem?_map, Array.getElem?_modify, Array.getElem?_modify, Array.getElem?_map]
  split
  · cases xs[j]? <;> simp [hf]
  · rfl

/-! ## A feature that is added -/

/-- The list of the parent grows, but nothing else of the parent changes. -/
theorem model_insert (s : IndexedModel) (name : String) (parent : Option Nat) :
    (s.insert name parent).2.model =
      ⟨s.model.features.push { name := name, parent := parent }, s.model.constraints⟩ := by
  rw [model, FeatureModel.mk.injEq]
  refine ⟨?_, rfl⟩
  cases parent with
  | none => exact Array.map_push
  | some p =>
    refine (map_modify (f := fun x => { x with children := x.children ++ [s.size] }) (g := id)
      (fun _ => rfl) _ p).trans ?_
    rw [Array.map_push]
    apply Array.ext_getElem?
    intro i
    simp [Array.getElem?_modify, model]

/-- The new name is found at the end, and other names where they were. -/
theorem find?_insert (s : IndexedModel) (name : String) (parent : Option Nat) (n : String) :
    (s.insert name parent).2.find? n = if n = name then some s.size else s.find? n := by
  show ((name, s.size) :: s.ids).lookup n = _
  rw [List.lookup_cons]
  by_cases hn : n = name
  · simp [hn]
  · simp [beq_false_of_ne hn, hn, find?]

/-- The new feature is the last child of its parent, and nobody else gets a child. -/
theorem children_insert {p : Nat} (hp : p < s.size) (name : String) (i : Nat) :
    (s.insert name (some p)).2.children i = s.children i ++ if i = p then [s.size] else [] := by
  simp only [children, feature, insert, Array.getElem?_modify, Array.getElem?_push]
  rw [size] at hp
  by_cases hlast : i = s.features.size
  · subst hlast
    simp [Nat.ne_of_lt hp, Nat.ne_of_gt hp]
  · by_cases hi : i = p
    · subst hi
      simp [hlast, hp]
    · simp [hi, Ne.symm hi, hlast]

/-- Inserting a feature with a new name below an existing one keeps everything in agreement. -/
theorem Agrees.insert (h : s.Agrees) {name : String} (hname : name ∉ s.model.names) {p : Nat}
    (hp : p < s.size) : (s.insert name (some p)).2.Agrees where
  ids n := by
    rw [model_insert, FeatureModel.find?_push hname, ← h.ids, size_model, find?_insert]
  children i := by
    rw [model_insert, children_insert hp, h.children,
      FeatureModel.children_push (p := p) rfl (by rwa [size_model]), size_model]

theorem model_root (name : String) : (root name).model = .root name := by
  rw [root, model_insert]
  simp [model, FeatureModel.root]

theorem agrees_root (name : String) : (root name).Agrees where
  ids n := by
    rw [root, model_insert, FeatureModel.find?_push, find?_insert]
    · simp [model, size, find?, FeatureModel.find?, FeatureModel.size, FeatureModel.names]
    · simp [model, FeatureModel.names]
  children i := by
    rw [model_root]
    have hnone : (FeatureModel.root name).children i = [] := by
      rw [FeatureModel.children, show (FeatureModel.root name).size = 1 from rfl,
        Nat.sub_eq_zero_of_le (Nat.le_add_left 1 i)]
      rfl
    rw [hnone]
    cases i <;> rfl

/-! ## A feature that is changed -/

/-- Changing a feature apart from its name and parent succeeds and keeps everything in agreement. -/
theorem Agrees.change (h : s.Agrees) (i : Nat) {f : Feature → Feature}
    (hname : ∀ x, (f x).name = x.name) (hparent : ∀ x, (f x).parent = x.parent) :
    ∃ s', change i f s = .ok ⟨⟩ s' ∧ s'.model = s.model.change i f ∧ s'.Agrees := by
  have hmodel : model { s with
      features := s.features.modify i (fun x => { x with toFeature := f x.toFeature }) } =
      s.model.change i f := by
    rw [model, map_modify (g := f) (fun _ => rfl)]
    rfl
  refine ⟨_, rfl, hmodel, ?_, ?_⟩
  · intro n
    rw [hmodel, FeatureModel.find?, FeatureModel.names_change hname]
    exact h.ids n
  · intro j
    rw [hmodel, FeatureModel.children_change hparent, ← h.children]
    simp only [IndexedModel.children, feature, Array.getElem?_modify]
    split
    · cases s.features[j]? <;> rfl
    · rfl

/-! ## Operations -/

/-- A change did the same to the model alone as it should, or it was refused and did nothing. -/
inductive Follows (s : IndexedModel) :
    EStateM.Result ModelError IndexedModel α → Except ModelError FeatureModel → Prop where
  | done {a : α} {s' : IndexedModel} : s'.Agrees → Follows s (.ok a s') (.ok s'.model)
  | refused {e : ModelError} : Follows s (.error e s) (.error e)

/-- A change that is followed by one that is never refused. -/
theorem Follows.bind {x : EStateM ModelError IndexedModel α}
    {g : α → EStateM ModelError IndexedModel β} {r : Except ModelError FeatureModel}
    {k : FeatureModel → Except ModelError FeatureModel} (hx : Follows s (x s) r)
    (hg : ∀ a s', x s = .ok a s' → s'.Agrees →
      ∃ b s'', g a s' = .ok b s'' ∧ s''.Agrees ∧ k s'.model = .ok s''.model) :
    Follows s ((x >>= g) s) (r >>= k) := by
  cases hrun : x s with
  | ok a s' =>
    rw [hrun] at hx
    cases hx with
    | done hs' =>
      obtain ⟨b, s'', hrest, hs'', hmodel⟩ := hg a s' hrun hs'
      rw [run_bind_of_ok hrun, hrest, show (Except.ok s'.model >>= k) = _ from hmodel]
      exact .done hs''
  | error e s' =>
    rw [hrun] at hx
    cases hx with
    | refused =>
      rw [run_bind_of_error hrun]
      exact .refused

/-- A change whose result is not asked for. -/
theorem Follows.discard {x : EStateM ModelError IndexedModel α}
    {r : Except ModelError FeatureModel} (hx : Follows s (x s) r) :
    Follows s ((x >>= fun _ => pure PUnit.unit) s) r := by
  have hbind := hx.bind (g := fun _ => pure PUnit.unit) (k := .ok)
    (fun a s' _ hs' => ⟨_, s', rfl, hs', rfl⟩)
  cases r <;> exact hbind

/-- An added feature has the next number. -/
theorem eq_size_of_add {parent i : Nat} {name : String} (h : add parent name s = .ok i s') :
    i = s.size := by
  unfold add at h
  split at h
  · cases h
  · cases h
    rfl

section Perform

variable (h : s.Agrees)
include h

/-- A change follows the change of the model alone. -/
theorem change_follows (i : Nat) {f : Feature → Feature} (hname : ∀ x, (f x).name = x.name)
    (hparent : ∀ x, (f x).parent = x.parent) :
    Follows s (change i f s) (.ok (s.model.change i f)) := by
  obtain ⟨s', hrun, hmodel, hs'⟩ := h.change i hname hparent
  rw [hrun, ← hmodel]
  exact .done hs'

/-- A name is found exactly if it is one of the model. -/
theorem isSome_find?_iff (name : String) : (s.find? name).isSome = true ↔ name ∈ s.model.names := by
  rw [h.ids, FeatureModel.find?, Option.isSome_iff_ne_none, Ne, List.idxOf?_eq_none_iff, not_not]

/-- Adding a feature follows the addition to the model alone. -/
theorem add_follows {parent : Nat} (hparent : parent < s.size) (name : String) :
    Follows s (add parent name s) (s.model.add parent name) := by
  rw [add, FeatureModel.add, name_model]
  by_cases hname : name ∈ s.model.names
  · rw [if_pos ((isSome_find?_iff h name).2 hname), if_pos hname]
    exact .refused
  · rw [if_neg (mt (isSome_find?_iff h name).1 hname), if_neg hname]
    have hfollows : Follows s (.ok s.size (s.insert name (some parent)).2) _ :=
      .done (h.insert hname hparent)
    rwa [model_insert] at hfollows

/-- Adding a mandatory feature follows an addition and a change. -/
theorem addMandatory_follows {parent : Nat} (hparent : parent < s.size) (name : String) :
    Follows s (addMandatory parent name s)
      (s.model.add parent name >>= fun m => pure (m.setMandatory s.model.size true)) := by
  refine (add_follows h hparent name).bind ?_
  intro i s' hrun hs'
  have hnumber : i = s.model.size := by
    rw [size_model]
    exact eq_size_of_add hrun
  obtain ⟨s'', hset, hmodel, hs''⟩ := hs'.change i (f := fun f => { f with mandatory := true })
    (fun _ => rfl) (fun _ => rfl)
  refine ⟨i, s'', ?_, hs'', ?_⟩
  · exact run_bind_of_ok hset
  · rw [hmodel, hnumber]
    rfl

/-- A constraint is checked just as by the model alone. -/
theorem constrain_follows (f : Formula) : Follows s (constrain f s) (s.model.constrain f) := by
  have hsame : f.names.find? (fun name => (s.find? name).isNone) =
      f.names.find? (· ∉ s.model.names) := by
    congr 1
    funext name
    have hiff := isSome_find?_iff h name
    cases hfound : s.find? name <;> simp_all
  rw [constrain, FeatureModel.constrain, hsame]
  cases f.names.find? (· ∉ s.model.names) with
  | some name => exact .refused
  | none =>
    have hs' : Agrees { s with constraints := s.constraints ++ [f] } := ⟨h.ids, h.children⟩
    exact .done hs'

end Perform

namespace Operation

/-- The features that an operation is about. -/
def ids : Operation → List Nat
  | .add parent _ | .addMandatory parent _ => [parent]
  | .setGroup i _ | .setMandatory i _ | .setAbstract i _ => [i]
  | .constrain _ => []

/-- The operation with names for the features that it is about. -/
def edit (m : FeatureModel) : Operation → FeatureModel.Edit
  | .add parent name => .add (m.name parent) name
  | .addMandatory parent name => .addMandatory (m.name parent) name
  | .setGroup i group => .setGroup (m.name i) group
  | .setMandatory i mandatory => .setMandatory (m.name i) mandatory
  | .setAbstract i isAbstract => .setAbstract (m.name i) isAbstract
  | .constrain f => .constrain f

end Operation

/-- Every operation on features of a model is a change of the feature model alone, and does nothing
if it is refused. -/
theorem perform_follows (h : s.Agrees) (hm : s.model.WellFormed) {op : Operation}
    (hop : ∀ i ∈ op.ids, i < s.size) :
    Follows s (perform op s) (s.model.apply (op.edit s.model)) := by
  have hrequire {i : Nat} (hi : i ∈ op.ids) : s.model.require (s.model.name i) = .ok i :=
    hm.require_eq_ok_iff.2 ⟨by rw [size_model]; exact hop i hi, rfl⟩
  cases op with
  | add parent name =>
    have hmem : parent ∈ (Operation.add parent name).ids := List.mem_singleton_self _
    rw [Operation.edit, FeatureModel.apply, hrequire hmem]
    exact (add_follows h (hop _ hmem) name).discard
  | addMandatory parent name =>
    have hmem : parent ∈ (Operation.addMandatory parent name).ids := List.mem_singleton_self _
    rw [Operation.edit, FeatureModel.apply, hrequire hmem]
    exact (addMandatory_follows h (hop _ hmem) name).discard
  | setGroup i group =>
    rw [Operation.edit, FeatureModel.apply, hrequire (List.mem_singleton_self i)]
    exact change_follows h i (f := fun x => { x with group := group }) (fun _ => rfl) (fun _ => rfl)
  | setMandatory i mandatory =>
    rw [Operation.edit, FeatureModel.apply, hrequire (List.mem_singleton_self i)]
    exact change_follows h i (f := fun x => { x with mandatory := mandatory }) (fun _ => rfl)
      (fun _ => rfl)
  | setAbstract i isAbstract =>
    rw [Operation.edit, FeatureModel.apply, hrequire (List.mem_singleton_self i)]
    exact change_follows h i (f := fun x => { x with concrete := !isAbstract }) (fun _ => rfl)
      (fun _ => rfl)
  | constrain f => exact (constrain_follows h f).discard

/-- The index and the names give the same number for a name. -/
theorem Agrees.require_eq (h : s.Agrees) (name : String) :
    s.require name = s.model.require name := by
  rw [require, h.ids]
  rfl

/-- Whether the name of a feature is found or not, resolving it and changing the model alone
agree. -/
theorem resolve_named (h : s.Agrees) (hm : s.model.WellFormed) {e : FeatureModel.Edit}
    {name : String}
    {f : Nat → Operation} (hresolve : s.resolve e = s.require name >>= fun i => pure (f i))
    (happly : ∀ cause, s.model.require name = .error cause → s.model.apply e = .error cause)
    (hids : ∀ i, (f i).ids = [i]) (hedit : ∀ i, s.model.name i = name → (f i).edit s.model = e) :
    (∃ op, s.resolve e = .ok op ∧ (∀ i ∈ op.ids, i < s.size) ∧ op.edit s.model = e) ∨
    (∃ cause, s.resolve e = .error cause ∧ s.model.apply e = .error cause) := by
  rw [hresolve, h.require_eq]
  cases hfound : s.model.require name with
  | ok i =>
    obtain ⟨hi, hname⟩ := hm.require_eq_ok_iff.1 hfound
    rw [size_model] at hi
    exact .inl ⟨f i, rfl, by simpa [hids] using hi, hedit i hname⟩
  | error cause => exact .inr ⟨cause, rfl, happly cause hfound⟩

/-- An edit either names features of the model and becomes an operation, or fails as it does there.
-/
theorem resolve_cases (h : s.Agrees) (hm : s.model.WellFormed) (e : FeatureModel.Edit) :
    (∃ op, s.resolve e = .ok op ∧ (∀ i ∈ op.ids, i < s.size) ∧ op.edit s.model = e) ∨
    (∃ cause, s.resolve e = .error cause ∧ s.model.apply e = .error cause) := by
  have hrefused {name : String} {cause : ModelError} {k : Nat → Except ModelError FeatureModel}
      (hfound : s.model.require name = .error cause) :
      (s.model.require name >>= k) = .error cause := by
    rw [hfound]
    rfl
  cases e with
  | add parent name =>
    exact resolve_named h hm (f := fun i => .add i name) rfl (fun _ => hrefused) (fun _ => rfl)
      (by rintro i rfl; rfl)
  | addMandatory parent name =>
    exact resolve_named h hm (f := fun i => .addMandatory i name) rfl (fun _ => hrefused)
      (fun _ => rfl) (by rintro i rfl; rfl)
  | setGroup name group =>
    exact resolve_named h hm (f := fun i => .setGroup i group) rfl (fun _ => hrefused)
      (fun _ => rfl)
      (by rintro i rfl; rfl)
  | setMandatory name mandatory =>
    exact resolve_named h hm (f := fun i => .setMandatory i mandatory) rfl (fun _ => hrefused)
      (fun _ => rfl) (by rintro i rfl; rfl)
  | setAbstract name isAbstract =>
    exact resolve_named h hm (f := fun i => .setAbstract i isAbstract) rfl (fun _ => hrefused)
      (fun _ => rfl) (by rintro i rfl; rfl)
  | constrain f => exact .inl ⟨.constrain f, rfl, nofun, rfl⟩

/-- A change that names its features does the same with and without lists and index. -/
theorem apply_follows (h : s.Agrees) (hm : s.model.WellFormed) (e : FeatureModel.Edit) :
    Follows s (apply e s) (s.model.apply e) := by
  rw [apply]
  rcases resolve_cases h hm e with ⟨op, hresolve, hop, rfl⟩ | ⟨cause, hresolve, hrefused⟩
  · rw [hresolve]
    exact perform_follows h hm hop
  · rw [hresolve, hrefused]
    exact .refused

/-! ## Sequences of operations -/

/-- The models that operations on their own features lead to from a root, refused ones included. -/
inductive Reached : IndexedModel → Prop where
  | root (name : String) : Reached (root name)
  | step {s : IndexedModel} (op : Operation) : Reached s → (∀ i ∈ op.ids, i < s.size) →
      Reached (endState (perform op s))

/-- One more operation keeps lists and index right, and the feature model alone came about by
changes. -/
theorem Reached.agrees (h : s.Reached) : s.Agrees ∧ s.model.Built := by
  induction h with
  | root name => exact ⟨agrees_root name, model_root name ▸ .root name⟩
  | @step s op _ hop ih =>
    obtain ⟨hs, hm⟩ := ih
    have hfollows := perform_follows hs hm.wellFormed hop
    generalize hr : s.model.apply (op.edit s.model) = r at hfollows
    cases hrun : perform op s with
    | ok a s' =>
      rw [hrun] at hfollows
      cases hfollows with
      | done hs' => exact ⟨hs', hm.apply hr⟩
    | error e s' =>
      rw [hrun] at hfollows
      cases hfollows with
      | refused => exact ⟨hs, hm⟩

/-- What is so in all models that operations lead to. -/
structure Consistent (s : IndexedModel) : Prop where
  /-- Names are not repeated. -/
  names : (s.features.toList.map (fun x => x.name)).Nodup
  /-- The index has the name of each feature, with its number, and nothing else. -/
  ids : ∀ name i, s.find? name = some i ↔ i < s.size ∧ s.name i = name
  /-- A feature has the variable of its number. -/
  vars : ∀ i < s.size, s.vars.find? (s.name i) = some i
  /-- The root has no parent, and is no child. -/
  root : 0 < s.size ∧ (s.feature 0).parent = none ∧ ∀ p, 0 ∉ s.children p
  /-- Every other feature has one parent with a smaller number, and is in its list once and in no
  other. -/
  parent : ∀ i, 0 < i → i < s.size → ∃ p < i, (s.feature i).parent = some p ∧
    (s.children p).count i = 1 ∧ ∀ q, q ≠ p → i ∉ s.children q
  /-- Only features are listed. -/
  listed : ∀ p, ∀ c ∈ s.children p, c < s.size
  /-- The lists lead from the root to every feature. -/
  tree : ∀ i < s.size, Relation.ReflTransGen (fun p c => c ∈ s.children p) 0 i
  /-- Constraints are over names of features. -/
  constraints : ∀ f ∈ s.constraints, ∀ name ∈ f.names, ∃ i < s.size, s.name i = name

/-- The stored children are those that have the feature as their parent. -/
theorem Agrees.mem_children_iff (h : s.Agrees) {p c : Nat} :
    c ∈ s.children p ↔ p < c ∧ c < s.size ∧ (s.feature c).parent = some p := by
  rw [h.children, FeatureModel.mem_children, size_model, feature_model]

/-- What is below another feature is reached through the lists. -/
theorem Agrees.reflTransGen_of_below (h : s.Agrees) {i j : Nat} (hbelow : s.model.Below i j) :
    Relation.ReflTransGen (fun p c => c ∈ s.children p) i j := by
  induction hbelow with
  | refl => exact .refl
  | child _ hc ih => exact ih.tail (h.children _ ▸ hc)

/-- A stored model that agrees with a built one is consistent. -/
theorem Agrees.consistent_of_built (h : s.Agrees) (hm : s.model.Built) : s.Consistent where
  names := names_model s ▸ hm.wellFormed.names
  ids name i := by
    rw [h.ids, hm.wellFormed.find?_eq_some_iff, size_model, name_model]
  vars i hi := by
    rw [vars, ← names_model, Variables.ofNames_eq hm.wellFormed.names, ← name_model]
    exact hm.wellFormed.find?_name (by rwa [size_model])
  root := by
    refine ⟨by simpa using hm.wellFormed.pos, by simpa using hm.wellFormed.root, ?_⟩
    intro p hmem
    exact Nat.not_lt_zero p (h.mem_children_iff.1 hmem).1
  parent i hpos hi := by
    obtain ⟨p, hp, hlt⟩ := hm.wellFormed.parent i hpos (by rwa [size_model])
    rw [feature_model] at hp
    refine ⟨p, hlt, hp, ?_, ?_⟩
    · rw [h.children]
      refine List.count_eq_one_of_mem (s.model.nodup_children p) ?_
      rw [← h.children]
      exact h.mem_children_iff.2 ⟨hlt, hi, hp⟩
    · intro q hq hmem
      have hparent := (h.mem_children_iff.1 hmem).2.2
      exact hq (Option.some.inj (hparent.symm.trans hp))
  listed p c hc := (h.mem_children_iff.1 hc).2.1
  tree i hi := h.reflTransGen_of_below (hm.wellFormed.below_root (by rwa [size_model]))
  constraints f hf name hname := by
    have hmem := hm.mem_names_of_mem_constraints hf hname
    rw [names_model] at hmem
    obtain ⟨x, hx, rfl⟩ := List.mem_map.1 hmem
    obtain ⟨i, hi, hget⟩ := List.getElem_of_mem hx
    refine ⟨i, hi, ?_⟩
    rw [name, feature, ← Array.getElem?_toList, List.getElem?_eq_getElem hi, hget]
    rfl

/-- **Parents, lists and index always agree.**  After any operations on features of the model, of
which any may be refused, the names are told apart, a name, its number and its variable belong
together, the features are one tree below the root whose edges are in the parents and in the lists
alike, and constraints are over features only.  An operation that is refused then changes
nothing. -/
theorem consistent_of_reached (h : s.Reached) :
    s.Consistent ∧ ∀ op : Operation, (∀ i ∈ op.ids, i < s.size) →
      ∀ e s', perform op s = .error e s' → s' = s := by
  obtain ⟨hs, hm⟩ := h.agrees
  refine ⟨hs.consistent_of_built hm, ?_⟩
  intro op hop e s' hrun
  have hfollows := perform_follows hs hm.wellFormed hop
  rw [hrun] at hfollows
  generalize s.model.apply (op.edit s.model) = r at hfollows
  cases hfollows
  rfl

/-- A root with a child and a mandatory grandchild. -/
def family : IndexedModel where
  features := #[
    { name := "R", parent := none, group := .or, children := [1] },
    { name := "A", parent := some 0, children := [2] },
    { name := "B", parent := some 1, mandatory := true }]
  ids := [("B", 2), ("A", 1), ("R", 0)]
  constraints := [.implies (.var "A") (.var "B")]

/-- Operations lead to this family, two of which are refused.  So the grandchild is in no other list
than that of its parent, and a further refusal leaves the family as it is. -/
theorem consistent_of_reached_family :
    family.Reached ∧ (∀ p, p ≠ 1 → 2 ∉ family.children p) ∧
    ∃ s', perform (.addMandatory 2 "R") family = .error (.rootPresent "R") s' ∧ s' = family := by
  have hreached : family.Reached := by
    have h₁ := (Reached.root "R").step (.add 0 "A") (by decide)
    have h₂ := h₁.step (.setGroup 0 .or) (by decide)
    have h₃ := h₂.step (.add 1 "R") (by decide)
    have h₄ := h₃.step (.addMandatory 1 "B") (by decide)
    have h₅ := h₄.step (.constrain (.var "C")) (by decide)
    have h₆ := h₅.step (.constrain (.implies (.var "A") (.var "B"))) (by decide)
    exact h₆
  obtain ⟨hconsistent, hrefused⟩ := consistent_of_reached hreached
  refine ⟨hreached, ?_, _, rfl, hrefused (.addMandatory 2 "R") (by decide) _ _ rfl⟩
  intro p hp
  obtain ⟨q, -, hparent, -, hother⟩ := hconsistent.parent 2 (by decide) (by decide)
  obtain rfl : 1 = q := Option.some.inj hparent
  exact hother p hp

end IndexedModel

end ProductLine
