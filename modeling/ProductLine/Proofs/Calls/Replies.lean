import Mathlib.Tactic.Common
import ProductLine.Proofs.Along
import ProductLine.Proofs.Enumeration.Observation
import ProductLine.Proofs.Satisfiability.Trust
/-!
# Calls and the replies to them

Whatever is asked of a solver comes down to what its backend replies, and what the monitor and the
receiver of configurations reply.  All of them can write down their replies, which does not change
what is asked of them.

* `Call` is what can be asked of a solver, and `Solver.call` asks it;
* `Reply` is what is written down, and `Solver.replies` all that is in the course of a call;
* `Solver.call_recording` says that writing it down does not change the call.
-/
namespace ProductLine

variable {ω ω' α : Type}

/-! ## Calls -/

/-- A walk as a computation with its solver. -/
def Walk.summarize (k : Walk ω) : SolverM ω Summary := fun st =>
  match k.enumerate st with
  | .ok _ st' => .ok st'.summary st'.solver
  | .error e st' => .error e st'.solver

/-- What can be asked of a solver, with the type of the result. -/
inductive Call (ω : Type) : Type → Type 1 where
  | isSatisfiable : Call ω Solver.Satisfiability
  | solve : Call ω Solver.Solution
  | findModel : Call ω (Option Assignment)
  | unsatSubset : Call ω (Option (List Constraint))
  | implied (buffer : Nat) (monitor : Monitor ω) (ps : List Implication) :
      Call ω (List Implication)
  | count (vars : List Nat) (limit : Nat) (monitor : Monitor ω) : Call ω Count
  | enumerate (model : FeatureModel) (monitor : Monitor ω) (target : Option Nat)
      (sink : Sink ω) : Call ω Summary

/-- Asks it. -/
def Solver.call (s : Solver ω) : Call ω α → SolverM ω α
  | .isSatisfiable => s.isSatisfiable
  | .solve => s.solve
  | .findModel => s.findModel
  | .unsatSubset => s.unsatSubset
  | .implied buffer monitor ps => s.implied buffer monitor ps
  | .count vars limit monitor => s.count vars limit monitor
  | .enumerate model monitor target sink => Walk.summarize ⟨model, s, monitor, target, sink⟩

/-! ## Replies -/

/-- What the parties to a call reply. -/
inductive Reply where
  /-- The backend was asked to open a session. -/
  | opened (result : Except BackendError Unit)
  /-- It was asked to check all formulas of a session. -/
  | checked (question : Question) (answer : Except BackendError Answer)
  /-- It was asked to check some formulas of a session. -/
  | checkedAmong (session : Session) (ids : List Nat) (answer : Except BackendError Answer)
  /-- The monitor was asked. -/
  | asked (canceled : Bool)
  /-- The receiver was handed a configuration. -/
  | handed (c : Configuration) (accepted : Bool)
deriving DecidableEq, Repr

namespace Reply

/-- Why the backend cannot be used, if that is the answer to a check. -/
def reason? : Except BackendError Answer → Option String
  | .error (.unavailable reason) => some reason
  | _ => none

/-- Why the backend cannot be used, if that is the reply: no session could be opened, or a check was
not answered for this reason. -/
def unavailable? : Reply → Option String
  | opened (.error cause) => some cause.message
  | checked _ answer | checkedAmong _ _ answer => reason? answer
  | _ => none

/-- Whether a check was asked for, but not answered. -/
def isInconclusive : Reply → Bool
  | checked _ (.error _) | checkedAmong _ _ (.error _) => true
  | _ => false

/-- The question to which there is no model, if that is the reply. -/
def refuted? : Reply → Option Question
  | checked question (.ok (.unsat _)) => some question
  | _ => none

/-- The question to which there is a model, if that is the reply and the model is given. -/
def modelled? : Reply → Option Question
  | checked question (.ok (.sat (some _))) => some question
  | _ => none

/-- The configuration that was handed over, if one was. -/
def configuration? : Reply → Option Configuration
  | handed c _ => some c
  | _ => none

end Reply

/-! ## Writing the replies down -/

/-- The backend that also writes down its replies. -/
def Backend.recording (b : Backend ω) : Backend (ω × List Reply) where
  opening varCount options w :=
    let (result, world) := b.opening varCount options w.1
    (result, world, w.2 ++ [.opened result])
  adding session set w :=
    let (id, world) := b.adding session set w.1
    (id, world, w.2)
  checking session w :=
    let (answer, world) := b.checking session w.1
    (answer, world, w.2 ++ [.checked session.question answer])
  checkingAmong session ids w :=
    let (answer, world) := b.checkingAmong session ids w.1
    (answer, world, w.2 ++ [.checkedAmong session ids answer])

/-- The monitor that also writes down its replies. -/
def Monitor.recording (monitor : Monitor ω) : Monitor (ω × List Reply) := fun w =>
  let (canceled, world) := monitor w.1
  (canceled, world, w.2 ++ [.asked canceled])

/-- The receiver that also writes down its replies. -/
def Sink.recording (sink : Sink ω) : Sink (ω × List Reply) := fun c w =>
  let (accepted, world) := sink c w.1
  (accepted, world, w.2 ++ [.handed c accepted])

/-- The solver whose backend writes down its replies. -/
def Solver.recording (s : Solver ω) : Solver (ω × List Reply) := ⟨s.backend.recording, s.base⟩

/-- The call whose monitor and receiver write down their replies. -/
def Call.recording : Call ω α → Call (ω × List Reply) α
  | .isSatisfiable => .isSatisfiable
  | .solve => .solve
  | .findModel => .findModel
  | .unsatSubset => .unsatSubset
  | .implied buffer monitor ps => .implied buffer monitor.recording ps
  | .count vars limit monitor => .count vars limit monitor.recording
  | .enumerate model monitor target sink =>
      .enumerate model monitor.recording target (Sink.recording sink)

theorem Backend.maps_recording (b : Backend ω) : b.recording.Maps Prod.fst b :=
  ⟨fun _ _ _ => rfl, fun _ _ _ => rfl, fun _ _ => rfl, fun _ _ _ => rfl⟩

theorem Walk.summarize_along {g : ω → ω'} {k : Walk ω} {k' : Walk ω'}
    (h : ∀ st : SolverState ω,
      k'.enumerate (st.inWorld g) = mapState (WalkState.inWorld g) (k.enumerate st)) :
    Along (SolverState.inWorld g) k.summarize k'.summarize := by
  intro st
  simp only [summarize, h st]
  cases k.enumerate st <;> rfl

namespace Solver

/-- The call in which all replies are written down, from a state in which none are. -/
def recorded (s : Solver ω) (c : Call ω α) (st : SolverState ω) :
    EStateM.Result AnalysisError (SolverState (ω × List Reply)) α :=
  s.recording.call c.recording (st.inWorld (·, []))

/-- All replies in the course of a call, in order. -/
def replies (s : Solver ω) (c : Call ω α) (st : SolverState ω) : List Reply :=
  (endState (s.recorded c st)).world.2

/-- Writing the replies down does not change what a call does. -/
theorem call_along (s : Solver ω) (c : Call ω α) :
    Along (SolverState.inWorld Prod.fst) (s.recording.call c.recording) (s.call c) := by
  have hb : s.recording.backend.Maps Prod.fst s.backend := s.backend.maps_recording
  cases c with
  | isSatisfiable => exact isSatisfiable_along hb
  | solve => exact solve_along hb
  | findModel => exact findModel_along hb
  | unsatSubset => exact unsatSubset_along hb
  | implied buffer monitor ps => exact implied_along hb (fun _ => rfl) buffer ps
  | count vars limit monitor => exact count_along hb (fun _ => rfl) vars limit
  | enumerate model monitor target sink =>
    exact Walk.summarize_along fun st =>
      @Walk.expand_along _ _ Prod.fst
        ⟨model, s.recording, monitor.recording, target, Sink.recording sink⟩ s.backend monitor sink
        hb (fun _ => rfl) (fun _ _ => rfl) [] [0] { solver := st }

/-- **Writing the replies down does not change a call.** -/
theorem call_recording (s : Solver ω) (c : Call ω α) (st : SolverState ω) :
    s.call c st = mapState (SolverState.inWorld Prod.fst) (s.recorded c st) :=
  s.call_along c (st.inWorld (·, []))

end Solver

end ProductLine
