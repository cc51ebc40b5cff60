import Mathlib.Data.List.Sublists
import Mathlib.Tactic.Common
import ProductLine.Enumeration.Calls
import ProductLine.Proofs.Along
import ProductLine.Proofs.Enumeration.Branches
/-!
# Calls for choices from a list

Choices are put together in one buffer, from which each call gets a copy.  The buffer is as it was
whenever the computation that used it has ended, however it ended.  So what is called depends on
nothing but the list.

* `visitAll` visits the items of a list, and `visitSubsets_eq` says that choices are visited like
  any list;
* `withPicked_eq` says that the buffer is restored by one step, and `expandSubsetsFrom_eq` that it
  is by all of them;
* `chosenFrontiers` lists the calls for choices from a list, and `mem_chosenFrontiers` says which
  these are;
* `expandSubsets_calls` says that these are made in order, until one says stop or fails.
-/
namespace ProductLine

variable {ε σ α : Type}

/-! ## Visits in a row -/

section Visits

variable {β : Type}

/-- Visits the items of a list in order, where the visit does not depend on the list. -/
def visitAll (visit : α → EStateM ε σ Flow) (xs : List α) : EStateM ε σ Flow :=
  visitEach xs (fun x _ => visit x)

variable {visit : α → EStateM ε σ Flow}

/-- The first visit decides whether there are others. -/
theorem visitAll_cons (x : α) (xs : List α) :
    visitAll visit (x :: xs) = (do
      match ← visit x with
      | .stop => return .stop
      | .next => visitAll visit xs) := by
  rw [visitAll, visitEach]
  rfl

theorem visitAll_singleton (x : α) : visitAll visit [x] = visit x := by
  rw [visitAll_cons]
  refine (congrArg (visit x >>= ·) (funext fun flow => ?_)).trans (bind_pure (visit x))
  cases flow <;> rfl

/-- Two lists of visits in a row are one. -/
theorem visitAll_append (xs ys : List α) :
    visitAll visit (xs ++ ys) = (do
      match ← visitAll visit xs with
      | .stop => return .stop
      | .next => visitAll visit ys) := by
  induction xs with
  | nil => rfl
  | cons x xs ih =>
    rw [List.cons_append, visitAll_cons, visitAll_cons, bind_assoc]
    refine congrArg (visit x >>= ·) (funext fun flow => ?_)
    cases flow with
    | next => exact ih
    | stop => rfl

theorem visitAll_map {visit : β → EStateM ε σ Flow} (f : α → β) (xs : List α) :
    visitAll visit (xs.map f) = visitAll (fun x => visit (f x)) xs := by
  induction xs with
  | nil => rfl
  | cons x xs ih => rw [List.map_cons, visitAll_cons, visitAll_cons, ih]

/-- Two ways to visit a list are related as their visits are, if nothing else is needed for two
computations in a row. -/
theorem visitAll_related {ε' σ' : Type} {T : EStateM ε σ Flow → EStateM ε' σ' Flow → Prop}
    (hpure : ∀ flow, T (pure flow) (pure flow))
    (hbind : ∀ {x y f g}, T x y → (∀ flow, T (f flow) (g flow)) → T (x >>= f) (y >>= g))
    {visit : α → EStateM ε σ Flow} {visit' : α → EStateM ε' σ' Flow} {xs : List α}
    (h : ∀ x ∈ xs, T (visit x) (visit' x)) : T (visitAll visit xs) (visitAll visit' xs) := by
  induction xs with
  | nil => exact hpure .next
  | cons x xs ih =>
    obtain ⟨hx, hxs⟩ := List.forall_mem_cons.1 h
    rw [visitAll_cons, visitAll_cons]
    refine hbind hx fun flow => ?_
    cases flow with
    | stop => exact hpure .stop
    | next => exact ih hxs

/-- Choices are visited in the order in which they are listed. -/
theorem visitSubsets_eq {visit : List α → EStateM ε σ Flow} (withEmpty : Bool) (all : List α) :
    visitSubsets withEmpty all (fun part _ => visit part) =
      visitAll visit (choices withEmpty all) := by
  suffices hfrom : ∀ {picked rest : List α} (hsub : (picked ++ rest).Sublist all),
      visitSubsetsFrom withEmpty all (fun part _ => visit part) picked rest hsub =
        visitAll visit (choicesFrom withEmpty picked rest) from hfrom _
  intro picked rest hsub
  induction rest generalizing picked with
  | nil =>
    rw [visitSubsetsFrom, choicesFrom]
    split
    · rfl
    · exact (visitAll_singleton picked).symm
  | cons x rest ih =>
    rw [visitSubsetsFrom, choicesFrom, ih, ih]
    exact (visitAll_append _ _).symm

end Visits

/-! ## The buffer -/

/-- Afterwards the buffer is as it was, if the computation leaves its own buffer as it was. -/
theorem withPicked_eq {x : α} {body : EStateM ε (σ × Array α) Flow} {st : σ} {picked : Array α}
    {r : EStateM.Result ε σ Flow}
    (h : body (st, picked.push x) = mapState (·, picked.push x) r) :
    withPicked x body (st, picked) = mapState (·, picked) r := by
  rw [withPicked, h]
  cases r <;> simp [mapState]

/-- A body that reads the buffer leaves it as it is. -/
theorem usePicked_eq (body : Array α → EStateM ε σ Flow) (st : σ) (picked : Array α) :
    usePicked body (st, picked) = mapState (·, picked) (body picked st) := by
  rw [usePicked]
  cases body picked st <;> rfl

/-- Calls are made for what is in the buffer and every choice from further items, and leave the
buffer as it was. -/
theorem expandSubsetsFrom_eq (call : List α → EStateM ε σ Flow) (withEmpty : Bool)
    (tail rest : List α) (st : σ) (picked : Array α) :
    expandSubsetsFrom call withEmpty tail rest (st, picked) =
      mapState (·, picked) (visitAll (fun part => call (part ++ tail))
        (choicesFrom withEmpty picked.toList rest) st) := by
  induction rest generalizing st picked with
  | nil =>
    rw [expandSubsetsFrom, usePicked_eq, choicesFrom, Array.isEmpty_toList]
    by_cases hnone : (picked.isEmpty && !withEmpty) = true
    · rw [if_pos hnone, if_pos hnone]
      rfl
    · rw [if_neg hnone, if_neg hnone, visitAll_singleton]
  | cons x rest ih =>
    -- The choices without `x` come first, and those with `x` if all calls for them went on.
    rw [expandSubsetsFrom, choicesFrom, visitAll_append]
    cases hfirst : visitAll (fun part => call (part ++ tail))
        (choicesFrom withEmpty picked.toList rest) st with
    | error e st' =>
      rw [run_bind_of_error hfirst, run_bind_of_error ((ih st picked).trans (congrArg _ hfirst))]
      rfl
    | ok flow st' =>
      rw [run_bind_of_ok hfirst, run_bind_of_ok ((ih st picked).trans (congrArg _ hfirst))]
      cases flow with
      | stop => rfl
      | next =>
        refine withPicked_eq ((ih st' (picked.push x)).trans ?_)
        rw [Array.toList_push]

/-- The search over the shared buffer visits all choices in order. -/
theorem expandSubsets_eq (call : List α → EStateM ε σ Flow) (withEmpty : Bool)
    (tail all : List α) :
    expandSubsets call withEmpty tail all =
      visitAll (fun part => call (part ++ tail)) (choices withEmpty all) := by
  funext st
  rw [expandSubsets, expandSubsetsFrom_eq]
  show _ = visitAll (fun part => call (part ++ tail)) (choicesFrom withEmpty [] all) st
  cases visitAll (fun part => call (part ++ tail)) (choicesFrom withEmpty [] all) st <;> rfl

/-! ## The calls -/

/-- The choices are the sublists of what remains, behind what is picked. -/
theorem choicesFrom_eq (withEmpty : Bool) (picked rest : List α) :
    choicesFrom withEmpty picked rest =
      (rest.sublists'.map (picked ++ ·)).filter (fun part => withEmpty || !part.isEmpty) := by
  induction rest generalizing picked with
  | nil => cases withEmpty <;> cases picked <;> simp [choicesFrom]
  | cons x rest ih =>
    rw [choicesFrom, ih, ih, List.sublists'_cons, List.map_append, List.filter_append, List.map_map]
    simp [Function.comp_def]

/-- The frontiers that choices from a list make with what comes after them, in the order in which
the choices are listed: each set of items once, in the order of the list, and any item is left out
before it is taken.  The empty choice is there only if `withEmpty` says so. -/
def chosenFrontiers (withEmpty : Bool) (tail all : List α) : List (List α) :=
  (all.sublists'.filter (fun part => withEmpty || !part.isEmpty)).map (· ++ tail)

/-- Each choice makes one frontier. -/
theorem mem_chosenFrontiers {withEmpty : Bool} {tail all frontier : List α} :
    frontier ∈ chosenFrontiers withEmpty tail all ↔ ∃ part : List α,
      part.Sublist all ∧ (part = [] → withEmpty = true) ∧ frontier = part ++ tail := by
  have hkept (part : List α) :
      (withEmpty || !part.isEmpty) = true ↔ (part = [] → withEmpty = true) := by
    cases withEmpty <;> simp
  simp only [chosenFrontiers, List.mem_map, List.mem_filter, List.mem_sublists', hkept, and_assoc,
    eq_comm]

/-- No frontier is chosen twice if no child is listed twice. -/
theorem nodup_chosenFrontiers (withEmpty : Bool) (tail : List α) {all : List α} (hall : all.Nodup) :
    (chosenFrontiers withEmpty tail all).Nodup :=
  ((List.nodup_sublists'.2 hall).filter _).map (fun _ _ => List.append_cancel_right)

/-- The search makes one call for each chosen frontier, in order. -/
theorem expandSubsets_eq_visitAll (call : List α → EStateM ε σ Flow) (withEmpty : Bool)
    (tail all : List α) :
    expandSubsets call withEmpty tail all = visitAll call (chosenFrontiers withEmpty tail all) := by
  rw [expandSubsets_eq, chosenFrontiers, visitAll_map, choices, choicesFrom_eq]
  simp

/-- Visits in a row end with the first one that does not go on. -/
theorem visitAll_of_halts {visit : α → EStateM ε σ Flow} {before after : List α} {x : α}
    {st st' : σ} (hbefore : visitAll visit before st = .ok .next st')
    (hhalts : ∀ st'', visit x st' ≠ .ok .next st'') :
    visitAll visit (before ++ x :: after) st = visit x st' := by
  rw [visitAll_append, run_bind_of_ok hbefore]
  show visitAll visit (x :: after) st' = _
  rw [visitAll_cons]
  cases hx : visit x st' with
  | error e st'' => exact run_bind_of_error hx
  | ok flow st'' =>
    rw [run_bind_of_ok hx]
    cases flow with
    | stop => rfl
    | next => exact absurd hx (hhalts st'')

/-- **Every choice is called for once.**  Whatever the calls do, they are made for all choices from
the list in order, each in front of what comes after it, until one says stop or fails; the calls
after that are not made, and its answer is the answer.  No choice of different items comes twice.
The same calls are made when choices are visited without a buffer.

The buffer that the calls are put together in is as it was after any of the computations that share
it, also if a call in it said stop or failed. -/
theorem expandSubsets_calls (call : List α → EStateM ε σ Flow) (withEmpty : Bool)
    (tail all : List α) :
    expandSubsets call withEmpty tail all = visitAll call (chosenFrontiers withEmpty tail all) ∧
    expandSubsets call withEmpty tail all =
      visitSubsets withEmpty all (fun part _ => call (part ++ tail)) ∧
    (∀ frontier, frontier ∈ chosenFrontiers withEmpty tail all ↔ ∃ part : List α,
      part.Sublist all ∧ (part = [] → withEmpty = true) ∧ frontier = part ++ tail) ∧
    (all.Nodup → (chosenFrontiers withEmpty tail all).Nodup) ∧
    (∀ before frontier after st st',
      chosenFrontiers withEmpty tail all = before ++ frontier :: after →
      visitAll call before st = .ok .next st' → (∀ st'', call frontier st' ≠ .ok .next st'') →
      expandSubsets call withEmpty tail all st = call frontier st') ∧
    ∀ rest st picked,
      (endState (expandSubsetsFrom call withEmpty tail rest (st, picked))).2 = picked := by
  refine ⟨expandSubsets_eq_visitAll .., ?_, fun _ => mem_chosenFrontiers,
    nodup_chosenFrontiers withEmpty tail, ?_, ?_⟩
  · rw [expandSubsets_eq]
    exact (visitSubsets_eq withEmpty all).symm
  · intro before frontier after st st' hsplit hbefore hhalts
    rw [expandSubsets_eq_visitAll, hsplit]
    exact visitAll_of_halts hbefore hhalts
  · intro rest st picked
    rw [expandSubsetsFrom_eq, endState_mapState]

/-- Writes each frontier down, and says stop at one of them. -/
def stoppingAt (last frontier : List Nat) : EStateM Unit (List (List Nat)) Flow :=
  fun seen => .ok (if frontier = last then .stop else .next) (frontier :: seen)

/-- The second of three calls says stop, so the third, for both items, is not made, and the buffer
is left with what was in it. -/
theorem expandSubsets_calls_stoppingAt :
    chosenFrontiers false [9] [2, 3] = [[3, 9], [2, 9], [2, 3, 9]] ∧
    expandSubsets (stoppingAt [2, 9]) false [9] [2, 3] [] = .ok .stop [[2, 9], [3, 9]] ∧
    (endState (expandSubsetsFrom (stoppingAt [2, 9]) false [9] [2, 3] ([], #[]))).2 = #[] := by
  obtain ⟨-, -, -, -, hhalts, hbuffer⟩ := expandSubsets_calls (stoppingAt [2, 9]) false [9] [2, 3]
  refine ⟨rfl, ?_, hbuffer [2, 3] [] #[]⟩
  exact hhalts [[3, 9]] [2, 9] [[2, 3, 9]] [] [[3, 9]] rfl rfl nofun

end ProductLine
