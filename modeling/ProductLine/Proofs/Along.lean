import Mathlib.Tactic.Common
import ProductLine.Proofs.Ends
import ProductLine.Solver.Counting
import ProductLine.Solver.Implied
import ProductLine.Solver.UnsatSubset
/-!
# Computations in other worlds

What a computation does depends on its world only through the answers that it gets.  In another
world in which the answers are the same, it does the same.

* `Along` says that one computation ends as another does, in the state that belongs to it;
* `Backend.Maps` says that a backend gives the same answers as another one in the world that belongs
  to it;
* `Solver.isSatisfiable_along` and the others follow a solver that changes its backend for such a
  one.
-/
namespace ProductLine

variable {ε σ σ' α β : Type}

/-! ## Computations -/

/-- The same end in the state that belongs to the other one. -/
def mapState (f : σ → σ') : EStateM.Result ε σ α → EStateM.Result ε σ' α
  | .ok a st => .ok a (f st)
  | .error e st => .error e (f st)

/-- From the state that belongs to another one, `y` ends as `x` does from that. -/
def Along (f : σ → σ') (x : EStateM ε σ α) (y : EStateM ε σ' α) : Prop :=
  ∀ st, y (f st) = mapState f (x st)

namespace Along

variable {f : σ → σ'}

theorem pure (a : α) : Along f (Pure.pure a : EStateM ε σ α) (Pure.pure a) := fun _ => rfl

/-- Two computations in a row. -/
theorem bind {x : EStateM ε σ α} {y : EStateM ε σ' α} {next : α → EStateM ε σ β}
    {next' : α → EStateM ε σ' β} (hx : Along f x y) (hnext : ∀ a, Along f (next a) (next' a)) :
    Along f (x >>= next) (y >>= next') := by
  intro st
  change EStateM.bind y next' (f st) = mapState f (EStateM.bind x next st)
  unfold EStateM.bind
  rw [hx st]
  cases x st with
  | ok a st' => exact hnext a st'
  | error e st' => rfl

theorem throw (e : ε) :
    Along f (MonadExcept.throw e : EStateM ε σ α) (MonadExcept.throw e) := fun _ => rfl

/-- A computation that starts with a look at the state. -/
theorem get_bind {next : σ → EStateM ε σ α} {next' : σ' → EStateM ε σ' α}
    (h : ∀ st, Along f (next st) (next' (f st))) : Along f (get >>= next) (get >>= next') :=
  fun st => h st st

end Along

/-- The end state of a mapped result is the mapped end state. -/
theorem endState_mapState (f : σ → σ') (r : EStateM.Result ε σ α) :
    endState (mapState f r) = f (endState r) := by
  cases r <;> rfl

/-! ## Backends -/

/-- In the world that belongs to another one, the second backend answers as the first one does in
that. -/
structure Backend.Maps {ω ω' : Type} (g : ω → ω') (b : Backend ω) (b' : Backend ω') : Prop where
  opening : ∀ varCount options w, b'.opening varCount options (g w) =
    ((b.opening varCount options w).1, g (b.opening varCount options w).2)
  adding : ∀ s set w, b'.adding s set (g w) = ((b.adding s set w).1, g (b.adding s set w).2)
  checking : ∀ s w, b'.checking s (g w) = ((b.checking s w).1, g (b.checking s w).2)
  checkingAmong : ∀ s ids w, b'.checkingAmong s ids (g w) =
    ((b.checkingAmong s ids w).1, g (b.checkingAmong s ids w).2)

/-- The second half of a world does not matter to a backend that acts on the first. -/
theorem Backend.maps_besides {ω : Type} (τ : Type) (b : Backend ω) :
    (b.besides τ).Maps Prod.fst b :=
  ⟨fun _ _ _ => rfl, fun _ _ _ => rfl, fun _ _ => rfl, fun _ _ _ => rfl⟩

/-! ## Solvers -/

variable {ω ω' : Type} {g : ω → ω'}

/-- The state of a solver in the world that belongs to its own. -/
def SolverState.inWorld (g : ω → ω') (st : SolverState ω) : SolverState ω' :=
  ⟨st.stack, st.nextLabel, g st.world⟩

namespace Solver

variable {s : Solver ω} {b' : Backend ω'}

/-- A question that has the same answer in both worlds is asked along. -/
theorem ask_along {question : ω → α × ω} {question' : ω' → α × ω'}
    (h : ∀ w, question' (g w) = ((question w).1, g (question w).2)) :
    Along (SolverState.inWorld g) (ask question) (ask question') := by
  intro st
  simp only [ask, SolverState.inWorld, h]
  rfl

/-- The stack is not in the world. -/
theorem attempt_pushFormula_along (s : Solver ω) (b' : Backend ω') (f : Formula) :
    Along (SolverState.inWorld g) (attempt (s.pushFormula f))
      (attempt (pushFormula ⟨b', s.base⟩ f)) := by
  intro st
  simp only [attempt, pushFormula, push, SolverState.inWorld]
  cases st.stack.push s.base.vars s.base.clauseLimit ⟨st.nextLabel, f⟩ <;> rfl

/-- Pushing a literal does not depend on the world. -/
theorem attempt_pushLit_along (s : Solver ω) (b' : Backend ω') (l : Lit) :
    Along (SolverState.inWorld g) (attempt (s.pushLit l)) (attempt (pushLit ⟨b', s.base⟩ l)) := by
  intro st
  simp only [attempt, pushLit]
  cases s.base.vars.literalFormula l with
  | error cause => rfl
  | ok f => exact attempt_pushFormula_along s b' f st

/-- A scope leaves the same stack behind in both worlds. -/
theorem inScope_along {body : SolverM ω α} {body' : SolverM ω' α}
    (h : Along (SolverState.inWorld g) body body') :
    Along (SolverState.inWorld g) (inScope body) (inScope body') := by
  have htruncate (depth : Nat) (st : SolverState ω) : truncate depth (st.inWorld g) =
      mapState (SolverState.inWorld g) (truncate depth st) := by
    simp only [truncate, SolverState.inWorld]
    cases st.stack.truncate depth <;> rfl
  intro st
  simp only [inScope, h st]
  cases body st with
  | ok a st' =>
    simp only [mapState, htruncate]
    rw [show (st.inWorld g).stack = st.stack from rfl]
    cases truncate st.stack.length st' <;> rfl
  | error e st' =>
    simp only [mapState, htruncate]
    rw [show (st.inWorld g).stack = st.stack from rfl]
    cases truncate st.stack.length st' <;> rfl

variable (hb : s.backend.Maps g b')
include hb

/-- The same ids are given in the other world. -/
theorem tellAll_map (stated : List (Constraint × ClauseSet)) (session : Session)
    (origins : Origins) (w : ω) :
    tellAll b' stated session origins (g w) =
      ((tellAll s.backend stated session origins w).1,
        g (tellAll s.backend stated session origins w).2) := by
  induction stated generalizing session origins w with
  | nil => rfl
  | cons p stated ih =>
    rw [tellAll, hb.adding]
    exact ih _ _ _

/-- Opening a session runs along, with the same constraints told. -/
theorem openSession_along (options : SessionOptions) :
    Along (SolverState.inWorld g) (s.openSession options) (openSession ⟨b', s.base⟩ options) := by
  intro st
  simp only [openSession, SolverState.inWorld, hb.opening]
  rcases s.backend.opening s.base.varCount options st.world with ⟨_ | _, w⟩
  · rfl
  · simp only [tellAll_map hb]
    rfl

/-- A check has the same verdict in both worlds. -/
theorem check_along (session : Session) :
    Along (SolverState.inWorld g) (s.check session) (check ⟨b', s.base⟩ session) := by
  rintro ⟨stack, nextLabel, w⟩
  simp only [check, answered, SolverState.inWorld, hb.checking]
  cases verdict (s.backend.checking session w).1 <;> rfl

theorem addFormula_along (session : Session) (set : ClauseSet) :
    Along (SolverState.inWorld g) (s.addFormula session set)
      (addFormula ⟨b', s.base⟩ session set) := by
  intro st
  simp only [addFormula, SolverState.inWorld, hb.adding]
  rfl

/-- The verdict on a formula is the same in both worlds. -/
theorem isSatisfiable_along :
    Along (SolverState.inWorld g) s.isSatisfiable (isSatisfiable ⟨b', s.base⟩) := by
  refine (openSession_along hb {}).bind fun (session, _) => ?_
  refine (check_along hb session).bind fun verdict => ?_
  cases verdict <;> exact .pure _

theorem solve_along : Along (SolverState.inWorld g) s.solve (solve ⟨b', s.base⟩) := by
  refine (openSession_along hb { models := true }).bind fun (session, _) => ?_
  refine (check_along hb session).bind fun verdict => ?_
  rcases verdict with (_ | model) | core | _ <;> exact .pure _

theorem findModel_along : Along (SolverState.inWorld g) s.findModel (findModel ⟨b', s.base⟩) :=
  (solve_along hb).bind fun _ => .pure _

/-! ## Longer computations -/

theorem checkAmong_along (session : Session) (ids : List Nat) :
    Along (SolverState.inWorld g) (s.checkAmong session ids)
      (checkAmong ⟨b', s.base⟩ session ids) := by
  rintro ⟨stack, nextLabel, w⟩
  simp only [checkAmong, answered, SolverState.inWorld, hb.checkingAmong]
  cases verdict (s.backend.checkingAmong session ids w).1 <;> rfl

/-- Thinning out a core runs along, check by check. -/
theorem thinOut_along (session : Session) (kept ids : List Nat) :
    Along (SolverState.inWorld g) (s.thinOut session kept ids)
      (thinOut ⟨b', s.base⟩ session kept ids) := by
  induction ids generalizing kept with
  | nil => exact .pure _
  | cons id ids ih =>
    refine (checkAmong_along hb session _).bind fun verdict => ?_
    cases verdict with
    | sat => exact ih _
    | unsat => exact ih _
    | unknown => exact .throw _

/-- The subset that is found is the same in both worlds. -/
theorem unsatSubset_along :
    Along (SolverState.inWorld g) s.unsatSubset (unsatSubset ⟨b', s.base⟩) := by
  refine (openSession_along hb { cores := true }).bind fun (session, origins) => ?_
  refine (check_along hb session).bind fun verdict => ?_
  rcases verdict with model | (_ | core) | _
  · exact .pure _
  · exact .throw _
  · exact (thinOut_along hb session [] core).bind fun _ => .pure _
  · exact .throw _

/-- The finding on a candidate is the same in both worlds. -/
theorem test_along (p : Implication) :
    Along (SolverState.inWorld g) (s.test p) (test ⟨b', s.base⟩ p) := by
  have hunder (ls : List Lit) :
      Along (SolverState.inWorld g) (s.testUnder ls) (testUnder ⟨b', s.base⟩ ls) := by
    induction ls with
    | nil =>
      refine (solve_along hb).bind fun solution => ?_
      cases solution <;> exact .pure _
    | cons l ls ih =>
      refine (attempt_pushLit_along s b' l).bind ?_
      rintro (_ | _ | _)
      · exact .pure _
      · exact ih
      · exact .pure _
  exact inScope_along (hunder _)

variable {monitor : Monitor ω} {monitor' : Monitor ω'}
  (hmonitor : ∀ w, monitor' (g w) = ((monitor w).1, g (monitor w).2))
include hmonitor

/-- The implications that are found are the same, if both are canceled at the same time. -/
theorem implied_along (buffer : Nat) (ps : List Implication) :
    Along (SolverState.inWorld g) (s.implied buffer monitor ps)
      (implied ⟨b', s.base⟩ buffer monitor' ps) := by
  have hfrom (cache : ModelCache) (ps : List Implication) :
      Along (SolverState.inWorld g) (s.impliedFrom monitor cache ps)
        (impliedFrom ⟨b', s.base⟩ monitor' cache ps) := by
    induction ps generalizing cache with
    | nil => exact .pure _
    | cons p ps ih =>
      refine (ask_along hmonitor).bind ?_
      rintro (_ | _)
      · show Along _ (if cache.refutes p then _ else _) (if cache.refutes p then _ else _)
        split
        · exact ih _
        · refine (test_along hb p).bind fun finding => ?_
          cases finding with
          | implied => exact (ih _).bind fun _ => .pure _
          | refuted => exact ih _
          | unknown => exact ih _
      · exact .pure _
  unfold implied
  split
  · exact .pure _
  · refine (ask_along hmonitor).bind ?_
    rintro (_ | _)
    · refine (findModel_along hb).bind fun model => ?_
      cases model with
      | none => exact .pure _
      | some model => exact hfrom _ _
    · exact .pure _

/-- The count is the same, if both are canceled at the same time. -/
theorem count_along (vars : List Nat) (limit : Nat) :
    Along (SolverState.inWorld g) (s.count vars limit monitor)
      (count ⟨b', s.base⟩ vars limit monitor') := by
  have hfrom (session : Session) (found room : Nat) :
      Along (SolverState.inWorld g) (s.countFrom vars monitor session found room)
        (countFrom ⟨b', s.base⟩ vars monitor' session found room) := by
    induction room generalizing session found with
    | zero => exact .pure _
    | succ room ih =>
      refine (ask_along hmonitor).bind ?_
      rintro (_ | _)
      · refine (check_along hb session).bind fun verdict => ?_
        rcases verdict with (_ | model) | core | _
        · exact .pure _
        · exact (addFormula_along hb session _).bind fun session => ih session (found + 1)
        · exact .pure _
        · exact .pure _
      · exact .pure _
  exact (openSession_along hb { models := true }).bind fun (session, _) => hfrom session 0 limit

end Solver

end ProductLine
