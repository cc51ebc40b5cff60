import ProductLine.Proofs.Enumeration.Visits
import ProductLine.Proofs.FeatureModel.Indexed
import ProductLine.Proofs.Satisfiability.Trust
/-!
# How deep calls are nested

Each call of a walk decides a feature that no call around it has decided, or ends a branch.  So a
branch has at most one more call than there are features, and a walk whose calls may be nested that
deep does what it does without such a bound.

* `Walk.Nested` says what is so for the calls that are open at once, and `Walk.Within` when one more
  call may be made inside them;
* `Walk.Within.length_le` bounds how many there are, and `Walk.Within.next` says that a call makes
  only calls that may be made;
* `Walk.Traces` says that one computation writes down what another one does, and
  `Walk.expandWithin_traces` follows a walk so;
* `Walk.enumerateWithin_nested` is the statement about whole walks.
-/
namespace ProductLine

namespace IndexedModel

variable {s : IndexedModel}

/-! ## Asking whether features matter -/

/-- Asking one item after the other, where every question is answered. -/
theorem anyM_eq_some {α : Type} {ask : α → Option Bool} {p : α → Bool} {xs : List α}
    (h : ∀ x ∈ xs, ask x = some (p x)) : xs.anyM ask = some (xs.any p) := by
  induction xs with
  | nil => rfl
  | cons x xs ih =>
    obtain ⟨hx, hxs⟩ := List.forall_mem_cons.1 h
    rw [List.anyM, List.any_cons, hx]
    cases p x with
    | true => rfl
    | false => exact ih hxs

/-- No more features in a row are asked than there are from a number on. -/
theorem isRelevantWithin_eq (h : s.Agrees) {depth i : Nat} (hi : i < s.size)
    (hdepth : s.size ≤ i + depth) : s.isRelevantWithin depth i = some (s.model.isRelevant i) := by
  induction depth generalizing i with
  | zero => omega
  | succ depth ih =>
    have hchildren : (s.children i).anyM (s.isRelevantWithin depth) =
        some ((s.model.children i).any s.model.isRelevant) := by
      rw [h.children]
      refine anyM_eq_some ?_
      intro c hc
      have hlt := FeatureModel.lt_of_mem_children hc
      rw [size_model] at hlt
      exact ih hlt.2 (by omega)
    rw [isRelevantWithin, hchildren, FeatureModel.isRelevant_eq, feature_model]
    cases (s.feature i).concrete <;> rfl

end IndexedModel

namespace Walk

open FeatureModel (Partway)

variable {m : FeatureModel}

/-! ## Calls that are open at once -/

/-- The features that calls decide. -/
def decided (calls : List Call) : List Nat := calls.filterMap (fun call => call.frontier.head?)

/-- What is so for the calls that are open at once, the innermost first. -/
structure Nested (m : FeatureModel) (calls : List Call) : Prop where
  partway : ∀ call ∈ calls, m.Partway call.selected call.frontier
  decided_nodup : (decided calls).Nodup

/-- A call may be made inside others: each of these decides a feature, which is not met again. -/
structure Within (m : FeatureModel) (outer : List Call) (selected frontier : List Nat) : Prop where
  nested : Nested m outer
  partway : m.Partway selected frontier
  deciding : (decided outer).length = outer.length
  fresh : ∀ i ∈ decided outer, ∀ j ∈ frontier, ¬ m.Below j i

/-- No call is open before the first one. -/
theorem within_root (h : 0 < m.size) : Within m [] [] [0] where
  nested := ⟨nofun, .nil⟩
  partway := FeatureModel.partway_root h
  deciding := rfl
  fresh := nofun

namespace Within

variable {outer : List Call} {selected frontier rest f : List Nat} {current : Nat}

/-- There are no more calls around a call than features, as each decides another one. -/
theorem length_le (h : Within m outer selected frontier) : outer.length ≤ m.size := by
  have hrange : decided outer ⊆ List.range m.size := by
    intro i hi
    obtain ⟨call, hcall, hhead⟩ := List.mem_filterMap.1 hi
    have hpartway := h.nested.partway call hcall
    exact List.mem_range.2 (hpartway.inRange i (List.mem_of_head? hhead))
  have hle := (h.nested.decided_nodup.subperm hrange).length_le
  rwa [h.deciding, List.length_range] at hle

/-- A call that may be made is open together with those around it. -/
theorem nested_cons (h : Within m outer selected frontier) :
    Nested m (⟨selected, frontier⟩ :: outer) where
  partway := List.forall_mem_cons.2 ⟨h.partway, h.nested.partway⟩
  decided_nodup := by
    cases frontier with
    | nil => exact h.nested.decided_nodup
    | cons current rest =>
      refine List.nodup_cons.2 ⟨?_, h.nested.decided_nodup⟩
      exact fun hmem => h.fresh current hmem current (List.mem_cons_self ..) .refl

/-- Deciding a feature makes only calls that may be made inside. -/
theorem next (h : Within m outer selected (current :: rest))
    (hf : f ∈ m.nextFrontiers current rest) :
    Within m (⟨selected, current :: rest⟩ :: outer) (m.select current selected) f where
  nested := h.nested_cons
  partway := h.partway.next hf
  deciding := congrArg (· + 1) h.deciding
  fresh := List.forall_mem_cons.2 ⟨h.partway.not_below_current hf,
    fun i hi => FeatureModel.not_below_of_mem_nextFrontiers hf (h.fresh i hi)⟩

end Within

/-! ## Writing branches down -/

variable {ω α β : Type} {P : List Call → Prop}

/-- The same end with the branches that were written down. -/
def withBranches (branches : List (List Call)) :
    EStateM.Result AnalysisError (WalkState ω) α →
      EStateM.Result Halt (WalkState ω × List (List Call)) α
  | .ok a st => .ok a (st, branches)
  | .error e st => .error (.failed e) (st, branches)

/-- The branches that were written down are in the end state. -/
theorem endState_withBranches (branches : List (List Call))
    (r : EStateM.Result AnalysisError (WalkState ω) α) :
    (endState (withBranches branches r)).2 = branches := by
  cases r <;> rfl

/-- The second computation ends as the first one does, and writes branches with a property down. -/
def Traces (P : List Call → Prop) (x : WalkM ω α) (y : TracedM ω α) : Prop :=
  ∀ st before, ∃ branches, y (st, before) = withBranches (branches ++ before) (x st) ∧
    ∀ branch ∈ branches, P branch

namespace Traces

theorem untraced (x : WalkM ω α) : Traces P x (untraced x) := by
  intro st before
  refine ⟨[], ?_, nofun⟩
  rw [Walk.untraced]
  cases x st <;> rfl

theorem pure (a : α) : Traces (ω := ω) P (Pure.pure a) (Pure.pure a) :=
  untraced (Pure.pure a)

/-- Two computations in a row. -/
theorem bind {x : WalkM ω α} {y : TracedM ω α} {next : α → WalkM ω β} {next' : α → TracedM ω β}
    (hx : Traces P x y) (hnext : ∀ a, Traces P (next a) (next' a)) :
    Traces P (x >>= next) (y >>= next') := by
  intro st before
  obtain ⟨first, hrun, hfirst⟩ := hx st before
  cases hend : x st with
  | error e st' =>
    rw [hend] at hrun
    refine ⟨first, ?_, hfirst⟩
    rw [run_bind_of_error hrun, run_bind_of_error hend]
    rfl
  | ok a st' =>
    rw [hend] at hrun
    obtain ⟨second, hrun', hsecond⟩ := hnext a st' (first ++ before)
    refine ⟨second ++ first, ?_, List.forall_mem_append.2 ⟨hsecond, hfirst⟩⟩
    rw [run_bind_of_ok hrun, run_bind_of_ok hend, List.append_assoc]
    exact hrun'

/-- A branch that is written down first. -/
theorem write {branch : List Call} {x : WalkM ω α} {y : TracedM ω α} (hbranch : P branch)
    (h : Traces P x y) :
    Traces P x (do modify (fun st => (st.1, branch :: st.2)); y) := by
  intro st before
  obtain ⟨branches, hrun, hbranches⟩ := h st (branch :: before)
  refine ⟨branches ++ [branch], ?_, ?_⟩
  · rw [List.append_assoc]
    exact hrun
  · exact List.forall_mem_append.2 ⟨hbranches, List.forall_mem_singleton.2 hbranch⟩

/-- Visiting the items of a list. -/
theorem visitAll {visit : α → WalkM ω Flow} {visit' : α → TracedM ω Flow} {xs : List α}
    (h : ∀ x ∈ xs, Traces P (visit x) (visit' x)) :
    Traces P (ProductLine.visitAll visit xs) (ProductLine.visitAll visit' xs) :=
  visitAll_related pure bind h

end Traces

/-- **Following a walk.**  If its calls may be nested once deeper than there are features, a walk
does what it does in any case, and the calls that are open at once are as they have to be. -/
theorem expandWithin_traces (k : Walk ω) {depth : Nat} {outer : List Call}
    {selected frontier : List Nat} (h : Within k.model outer selected frontier)
    (hdepth : k.model.size < outer.length + depth) :
    Traces (Nested k.model) (k.expand selected frontier)
      (k.expandWithin depth outer selected frontier) := by
  induction depth generalizing outer selected frontier with
  | zero => exact absurd h.length_le (Nat.not_le_of_lt hdepth)
  | succ depth ih =>
    rw [expand_eq, expandWithin, expandBy_eq]
    refine .write h.nested_cons ((Traces.untraced (k.gate selected)).bind fun gate => ?_)
    cases gate with
    | leave flow => exact .pure flow
    | enter =>
      cases frontier with
      | nil => exact .untraced (k.complete selected)
      | cons current rest =>
        refine .visitAll fun f hf => ih (h.next hf) ?_
        rw [List.length_cons]
        omega

/-! ## Whole walks -/

/-- **No feature is decided twice on a branch, and every walk ends.**  In a model that operations
lead to, asking whether a feature matters asks no more features in a row than there are.  A walk
whose calls may be nested once deeper than there are features ends as it does in any case, whatever
its backend, its monitor and its receiver answer, and never since a call was nested too deep.

In every call the features of the frontier differ, none is below another one, and what is selected
lies below none of them and is selected once.  The calls that are open at once decide different
features. -/
theorem enumerateWithin_nested {k : Walk ω} {s : IndexedModel} (hs : s.Reached)
    (hmodel : k.model = s.model) {depth : Nat} (hdepth : s.size < depth) (st : SolverState ω) :
    (∀ i < s.size, s.isRelevantWithin depth i = some (s.model.isRelevant i)) ∧
    ∃ branches, k.enumerateWithin depth st = withBranches branches (k.enumerate st) ∧
      ∀ branch ∈ branches,
        (∀ call ∈ branch, call.selected.Nodup ∧ call.frontier.Nodup ∧
          (∀ i ∈ call.frontier, ∀ j ∈ call.frontier, i ≠ j → ¬ s.model.Below i j) ∧
          ∀ i ∈ call.frontier, ∀ j, s.model.Below i j → j ∉ call.selected) ∧
        (decided branch).Nodup := by
  obtain ⟨hagrees, hbuilt⟩ := hs.agrees
  refine ⟨fun i hi => IndexedModel.isRelevantWithin_eq hagrees hi (by omega), ?_⟩
  have hroot : Within k.model [] [] [0] := within_root (hmodel ▸ hbuilt.wellFormed.pos)
  have hsize : k.model.size < ([] : List Call).length + depth := by
    rw [hmodel, IndexedModel.size_model, List.length_nil]
    omega
  obtain ⟨branches, hrun, hnested⟩ := expandWithin_traces k hroot hsize { solver := st } []
  rw [List.append_nil] at hrun
  refine ⟨branches, hrun, ?_⟩
  intro branch hbranch
  refine ⟨?_, (hnested branch hbranch).decided_nodup⟩
  intro call hcall
  have hpartway := hmodel ▸ (hnested branch hbranch).partway call hcall
  refine ⟨hpartway.selected_nodup, hpartway.frontier_nodup, ?_, ?_⟩
  · intro i hi j hj hne hbelow
    exact hpartway.apart i hi j hj hne j hbelow .refl
  · intro i hi j hbelow hj
    exact hpartway.fresh j hj i hi hbelow

/-- A root with a mandatory and an optional child, of which the second one has a child of its
own. -/
def fork : IndexedModel where
  features := #[
    { name := "R", parent := none, children := [1, 2] },
    { name := "A", parent := some 0, mandatory := true },
    { name := "B", parent := some 0, group := .alternative, children := [3] },
    { name := "C", parent := some 2 }]
  ids := [("C", 3), ("B", 2), ("A", 1), ("R", 0)]
  constraints := [.implies (.var "A") (.var "C")]

theorem reached_fork : fork.Reached := by
  have h₁ := (IndexedModel.Reached.root "R").step (.addMandatory 0 "A") (by decide)
  have h₂ := h₁.step (.add 0 "B") (by decide)
  have h₃ := h₂.step (.add 2 "C") (by decide)
  have h₄ := h₃.step (.setGroup 2 .alternative) (by decide)
  have h₅ := h₄.step (.constrain (.implies (.var "A") (.var "C"))) (by decide)
  exact h₅

/-- A walk whose receiver accepts everything. -/
def forkWalk : Walk Unit where
  model := fork.model
  solver := ⟨Backend.exhaustive, {
    vars := ⟨["R", "A", "B", "C"]⟩
    constraints := fork.model.allConstraints
    formulas := [⟨4, [[⟨0, true⟩]]⟩, ⟨4, [[⟨0, false⟩, ⟨1, true⟩]]⟩, ⟨4, [[⟨0, true⟩, ⟨1, false⟩]]⟩,
      ⟨4, [[⟨0, true⟩, ⟨2, false⟩]]⟩, ⟨4, [[⟨2, false⟩, ⟨3, true⟩]]⟩,
      ⟨4, [[⟨2, true⟩, ⟨3, false⟩]]⟩, ⟨4, [[⟨1, false⟩, ⟨3, true⟩]]⟩]
    clauseLimit := 8
    propagated := ⟨#[some true, some true, some true, some true], false⟩ }⟩
  monitor := Monitor.never
  target := none
  sink _ w := (true, w)

/-- The calls that are open when all features are selected. -/
def forkBranch : List Call :=
  [⟨[0, 2, 3, 1], []⟩, ⟨[0, 2, 3], [1]⟩, ⟨[0, 2], [3, 1]⟩, ⟨[0], [2, 1]⟩, ⟨[], [0]⟩]

/-- One branch decides all four features, each of them once, with one more call at its end. -/
theorem enumerateWithin_nested_fork :
    fork.Reached ∧ fork.isRelevantWithin 5 2 = some true ∧
    ∃ branches, forkWalk.enumerateWithin 5 (forkWalk.solver.start ()) =
        withBranches branches (forkWalk.enumerate (forkWalk.solver.start ())) ∧
      forkBranch ∈ branches ∧ decided forkBranch = [1, 3, 2, 0] ∧ (decided forkBranch).Nodup := by
  obtain ⟨hrelevant, branches, hrun, hbranches⟩ :=
    enumerateWithin_nested (k := forkWalk) reached_fork
    rfl (by decide : fork.size < 5) (forkWalk.solver.start ())
  have hmem : forkBranch ∈ branches := by
    rw [← endState_withBranches branches (forkWalk.enumerate (forkWalk.solver.start ())), ← hrun]
    decide +kernel
  refine ⟨reached_fork, ?_, branches, hrun, hmem, rfl, (hbranches forkBranch hmem).2⟩
  rw [hrelevant 2 (by decide)]
  cbv

/-- With no more calls inside each other than features this branch is not ended. -/
example : ∃ st, forkWalk.enumerateWithin 4 (forkWalk.solver.start ()) = .error .tooDeep st :=
  ⟨_, by cbv⟩

end Walk

end ProductLine
