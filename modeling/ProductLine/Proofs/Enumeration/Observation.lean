import Mathlib.Tactic.Common
import ProductLine.Proofs.Along
import ProductLine.Proofs.Enumeration.Steps
import ProductLine.Proofs.Enumeration.Visits
/-!
# Walks that are observed

A walk whose monitor and receiver also write down what they answer takes the same course as the walk
itself.  So what is written down says what happens in any walk.

* `Walk.enumerate_along` says that a walk takes the same course in another world with the same
  answers;
* `Walk.Event` is what is written down, and `Walk.observed` the walk in which it is;
* `Walk.events` is all that is written down in the end, and `Walk.handedOver` the configurations in
  it;
* `Walk.enumerate_observed` says that this does not change the walk.
-/
namespace ProductLine

/-! ## Visits -/

section Visits

variable {ε σ σ' α : Type} {f : σ → σ'}

/-- Visits that run along, one by one, run along in a row. -/
theorem visitAll_along {xs : List α} {visit : α → EStateM ε σ Flow} {visit' : α → EStateM ε σ' Flow}
    (h : ∀ x ∈ xs, Along f (visit x) (visit' x)) :
    Along f (visitAll visit xs) (visitAll visit' xs) :=
  visitAll_related .pure .bind h

end Visits

/-! ## Walks -/

variable {ω ω' α : Type} {g : ω → ω'}

/-- The state of a walk in the world that belongs to its own. -/
def WalkState.inWorld (g : ω → ω') (st : WalkState ω) : WalkState ω' where
  solver := st.solver.inWorld g
  nextId := st.nextId
  seen := st.seen
  summary := st.summary

namespace Walk

/-- What is asked of a solver runs along. -/
theorem solving_along {body : SolverM ω α} {body' : SolverM ω' α}
    (h : Along (SolverState.inWorld g) body body') :
    Along (WalkState.inWorld g) (solving body) (solving body') := by
  intro st
  simp only [solving, WalkState.inWorld, h st.solver]
  cases body st.solver <;> rfl

theorem note_along (f : Summary → Summary) :
    Along (WalkState.inWorld g) (note f : WalkM ω Unit) (note f) := fun _ => rfl

section Parties

/-- The same walk with other parties. -/
def within (k : Walk ω) (backend : Backend ω') (monitor : Monitor ω') (sink : Sink ω') :
    Walk ω' where
  model := k.model
  solver := ⟨backend, k.solver.base⟩
  monitor := monitor
  target := k.target
  sink := sink

variable {k : Walk ω} {backend : Backend ω'} {monitor : Monitor ω'} {sink : Sink ω'}
  (hbackend : k.solver.backend.Maps g backend)
  (hmonitor : ∀ w, monitor (g w) = ((k.monitor w).1, g (k.monitor w).2))
  (hsink : ∀ c w, sink c (g w) = ((k.sink c w).1, g (k.sink c w).2))

include hbackend in
/-- Whether a partial selection is feasible is the same for all parties. -/
theorem isFeasible_along (selected : List Nat) : Along (WalkState.inWorld g) (k.isFeasible selected)
    ((k.within backend monitor sink).isFeasible selected) := by
  refine solving_along (Solver.inScope_along ?_)
  refine (Solver.attempt_pushFormula_along k.solver backend _).bind ?_
  rintro (_ | _ | _)
  · exact .pure _
  · exact (Solver.isSatisfiable_along hbackend).bind fun _ => .pure _
  · exact .pure _

include hbackend in
/-- Whether a complete selection is a product is the same for all parties. -/
theorem isProduct_along (key : List Nat) : Along (WalkState.inWorld g) (k.isProduct key)
    ((k.within backend monitor sink).isProduct key) := by
  refine solving_along (Solver.inScope_along ?_)
  refine (Solver.attempt_pushFormula_along k.solver backend _).bind ?_
  rintro (_ | _ | _)
  · exact .pure _
  · refine (Solver.findModel_along hbackend).bind ?_
    rintro (_ | _) <;> exact .pure _
  · exact .pure _

include hsink in
/-- A configuration is handed over in both worlds. -/
theorem emit_along (key : List Nat) : Along (WalkState.inWorld g) (k.emit key)
    ((k.within backend monitor sink).emit key) := by
  intro st
  have hoffer : (k.within backend monitor sink).offer key (st.inWorld g) = k.offer key st := rfl
  have hhandOver : (k.within backend monitor sink).handOver key (st.inWorld g) =
      (k.handOver key st).inWorld g := by
    simp only [handOver, hoffer]
    simp only [WalkState.inWorld, SolverState.inWorld, within, hsink]
  have haccepted : ((k.within backend monitor sink).sink (k.offer key st)
      (st.inWorld g).solver.world).1 = (k.sink (k.offer key st) st.solver.world).1 :=
    congrArg Prod.fst (hsink _ _)
  rw [emit_eq, emit_eq, hoffer, hhandOver, haccepted]
  show (if _ then if k.targetReached (k.handOver key st).summary = true then _ else _ else _) = _
  split
  · split <;> rfl
  · rfl

include hbackend hsink in
/-- A branch that is complete ends in the same way in both worlds. -/
theorem complete_along (selected : List Nat) : Along (WalkState.inWorld g) (k.complete selected)
    ((k.within backend monitor sink).complete selected) := by
  refine .get_bind fun st => ?_
  show Along _ (if keyOf selected ∈ st.seen then _ else _)
    (if keyOf selected ∈ st.seen then _ else _)
  split
  · exact (note_along _).bind fun _ => .pure _
  · refine (isProduct_along hbackend _).bind ?_
    rintro (_ | _)
    · exact (note_along _).bind fun _ => .pure _
    · exact emit_along hsink _

include hbackend hmonitor in
/-- A call is entered or left in the same way in both worlds. -/
theorem gate_along (selected : List Nat) : Along (WalkState.inWorld g) (k.gate selected)
    ((k.within backend monitor sink).gate selected) := by
  refine (solving_along (Solver.ask_along hmonitor)).bind ?_
  rintro (_ | _)
  · refine .get_bind fun st => ?_
    show Along _ (if k.targetReached st.summary = true then _ else _)
      (if k.targetReached st.summary = true then _ else _)
    split
    · exact (note_along _).bind fun _ => .pure _
    · show Along _ (if k.model.constraints.isEmpty = true then _ else _)
        (if k.model.constraints.isEmpty = true then _ else _)
      split
      · exact .pure _
      · refine (isFeasible_along hbackend _).bind ?_
        rintro (_ | _)
        · exact (note_along _).bind fun _ => .pure _
        · exact .pure _
  · exact (note_along _).bind fun _ => .pure _

include hbackend hmonitor hsink in
/-- A walk through a subtree takes the same course. -/
theorem expand_along (selected frontier : List Nat) :
    Along (WalkState.inWorld g) (k.expand selected frontier)
      ((k.within backend monitor sink).expand selected frontier) := by
  induction selected, frontier using k.model.branch_induction with
  | nil selected =>
    rw [expand_eq, expand_eq]
    refine (gate_along hbackend hmonitor selected).bind ?_
    rintro (_ | flow)
    · exact complete_along hbackend hsink selected
    · exact .pure _
  | cons selected current rest ih =>
    rw [expand_eq, expand_eq]
    refine (gate_along hbackend hmonitor selected).bind ?_
    rintro (_ | flow)
    -- Both walks are over the same model, so they visit the same frontiers.
    · exact visitAll_along ih
    · exact .pure _

include hbackend hmonitor hsink in
/-- **In a world with the same answers a walk takes the same course.** -/
theorem enumerate_along (w : ω) :
    (k.within backend monitor sink).enumerate ((k.within backend monitor sink).solver.start (g w)) =
      mapState (WalkState.inWorld g) (k.enumerate (k.solver.start w)) :=
  expand_along hbackend hmonitor hsink [] [0] { solver := k.solver.start w }

end Parties

/-! ## Walks that are observed -/

/-- What the parties to a walk answer. -/
inductive Event where
  /-- The monitor was asked. -/
  | asked (canceled : Bool)
  /-- A configuration was handed over. -/
  | handed (c : Configuration) (accepted : Bool)
deriving DecidableEq, Repr

namespace Event

/-- Whether the walk may go on after this. -/
def goesOn : Event → Bool
  | asked canceled => !canceled
  | handed _ accepted => accepted

/-- The configuration that was handed over, if one was. -/
def configuration? : Event → Option Configuration
  | asked _ => none
  | handed c _ => some c

end Event

/-- The walk whose monitor and receiver also write down what they answer. -/
def observed (k : Walk ω) : Walk (ω × List Event) where
  model := k.model
  solver := ⟨k.solver.backend.besides _, k.solver.base⟩
  monitor w := ((k.monitor w.1).1, (k.monitor w.1).2, w.2 ++ [.asked (k.monitor w.1).1])
  target := k.target
  sink c w := ((k.sink c w.1).1, (k.sink c w.1).2, w.2 ++ [.handed c (k.sink c w.1).1])

/-- All that the monitor and the receiver answer in a walk from a world, in order. -/
def events (k : Walk ω) (w : ω) : List Event :=
  (endState (k.observed.enumerate (k.observed.solver.start (w, [])))).solver.world.2

/-- The configurations that are handed over in a walk from a world, in order. -/
def handedOver (k : Walk ω) (w : ω) : List Configuration :=
  (k.events w).filterMap Event.configuration?

/-- **Observing a walk does not change it.** -/
theorem enumerate_observed (k : Walk ω) (w : ω) :
    k.enumerate (k.solver.start w) = mapState (WalkState.inWorld Prod.fst)
      (k.observed.enumerate (k.observed.solver.start (w, []))) :=
  @enumerate_along _ _ Prod.fst k.observed k.solver.backend k.monitor k.sink
    (k.solver.backend.maps_besides _) (fun _ => rfl) (fun _ _ => rfl) (w, [])

end Walk

end ProductLine
