import ProductLine.Satisfiability.Backend
/-!
# Scripted backends

A scripted backend stands before another one.  It takes the answers to its checks from a script,
and records what it is asked.  A step of the script gives an answer or a failure, or passes the
check on to the other backend; when no step is left, all checks are passed on.
-/
namespace ProductLine

/-- What a scripted backend does for one check. -/
inductive ScriptStep where
  /-- Passes the check on. -/
  | solve
  | answer (answer : Answer)
  | fail (cause : BackendError)
deriving DecidableEq, Repr

/-- Something that a backend was asked or told. -/
inductive BackendEvent where
  | opened (varCount : Nat) (options : SessionOptions)
  | added (clauses : List Clause)
  | checked
  | checkedAmong (ids : List Nat)
deriving DecidableEq, Repr

/-- The rest of a script and the record of what was asked. -/
structure ScriptState (ω : Type) where
  steps : List ScriptStep
  /-- Whether sessions can be opened. -/
  available : Bool
  queries : Nat
  sessions : Nat
  /-- What was asked and told, last first. -/
  events : List BackendEvent
  /-- Whether the last check got its answer from the script. -/
  scripted : Bool
  /-- The world of the other backend. -/
  world : ω

namespace ScriptState

variable {ω : Type}

/-- A script of which no step has been taken. -/
def start (steps : List ScriptStep) (available : Bool) (w : ω) : ScriptState ω :=
  ⟨steps, available, 0, 0, [], false, w⟩

/-- Adds to the record. -/
def note (st : ScriptState ω) (event : BackendEvent) : ScriptState ω :=
  { st with events := event :: st.events }

/-- Passes a check on. -/
def passOn (st : ScriptState ω) (check : ω → Except BackendError Answer × ω) :
    Except BackendError Answer × ScriptState ω :=
  let ⟨steps, available, queries, sessions, events, _, w⟩ := st
  let (answer, w) := check w
  (answer, ⟨steps, available, queries, sessions, events, false, w⟩)

/-- Takes the next step, for the given check. -/
def answerNext (st : ScriptState ω) (check : ω → Except BackendError Answer × ω) :
    Except BackendError Answer × ScriptState ω :=
  let st := { st with queries := st.queries + 1 }
  match st.steps with
  | [] => st.passOn check
  | .solve :: steps => { st with steps := steps }.passOn check
  | .answer answer :: steps => (.ok answer, { st with steps := steps, scripted := true })
  | .fail cause :: steps => (.error cause, { st with steps := steps, scripted := true })

end ScriptState

/-- The backend that follows the script in its world and passes checks on to another one. -/
def Backend.scripted {ω : Type} (b : Backend ω) : Backend (ScriptState ω) where
  opening varCount options st :=
    if st.available then
      (.ok (), { st with sessions := st.sessions + 1 }.note (.opened varCount options))
    else (.error (.unavailable "scripted"), st)
  adding s formula st :=
    let (id, w) := b.adding s formula st.world
    (id, { st with world := w }.note (.added formula.clauses))
  checking s st := (st.note .checked).answerNext (b.checking s)
  checkingAmong s ids st := (st.note (.checkedAmong ids)).answerNext (b.checkingAmong s ids)

end ProductLine
