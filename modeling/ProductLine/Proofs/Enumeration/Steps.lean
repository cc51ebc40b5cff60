import Mathlib.Tactic.Common
import ProductLine.Enumeration
import ProductLine.Proofs.Ends
/-!
# The steps of a walk

What a walk does between two questions is known exactly.  So what is proved about it comes down to
the answers.

* `Walk.gate_eq` says what happens before a feature is decided, where `Walk.asked` is the state
  after the monitor was asked;
* `Walk.emit_eq` says what happens when a configuration is handed over, where `Walk.offer` is the
  configuration and `Walk.handOver` the state afterwards;
* `Walk.complete_eq` says what happens at the end of a branch.
-/
namespace ProductLine

namespace Walk

variable {ω : Type}

/-! ## Before a feature is decided -/

/-- The state after the monitor was asked. -/
def asked (k : Walk ω) (st : WalkState ω) : WalkState ω :=
  { st with solver := { st.solver with world := (k.monitor st.solver.world).2 } }

/-- The walk is ended by the monitor or the target, and a branch is cut by the answer of the
solver. -/
theorem gate_eq (k : Walk ω) (selected : List Nat) (st : WalkState ω) :
    k.gate selected st =
      if (k.monitor st.solver.world).1 = true then
        .ok (.leave .stop) { k.asked st with summary := { st.summary with canceled := true } }
      else if k.targetReached st.summary = true then
        .ok (.leave .stop) { k.asked st with summary := { st.summary with targetReached := true } }
      else if k.model.constraints.isEmpty = true then .ok .enter (k.asked st)
      else match k.isFeasible selected (k.asked st) with
        | .ok true st' => .ok .enter st'
        | .ok false st' => .ok (.leave .next) { st' with
            summary := { st'.summary with pruned := st'.summary.pruned + 1 } }
        | .error e st' => .error e st' := by
  have hasked : Walk.solving (Solver.isCanceled k.monitor) st =
      .ok (k.monitor st.solver.world).1 (k.asked st) := rfl
  have hget : (get : WalkM ω (WalkState ω)) (k.asked st) = .ok (k.asked st) (k.asked st) := rfl
  unfold gate
  rw [run_bind_of_ok hasked]
  split
  · rfl
  · rw [run_bind_of_ok hget, show (k.asked st).summary = st.summary from rfl]
    split
    · rfl
    · split
      · rfl
      · show EStateM.bind (k.isFeasible selected) _ (k.asked st) = _
        unfold EStateM.bind
        cases k.isFeasible selected (k.asked st) with
        | ok b st' => cases b <;> rfl
        | error e st' => rfl

/-! ## Handing over -/

/-- The configuration that is handed over next. -/
def offer (k : Walk ω) (key : List Nat) (st : WalkState ω) : Configuration :=
  Configuration.ofNames st.nextId (key.map k.model.name)

/-- The state after it was handed over. -/
def handOver (k : Walk ω) (key : List Nat) (st : WalkState ω) : WalkState ω where
  solver := { st.solver with world := (k.sink (k.offer key st) st.solver.world).2 }
  nextId := st.nextId + 1
  seen := key :: st.seen
  summary := { st.summary with emitted := st.summary.emitted + 1 }

/-- The walk goes on if the receiver accepts and the target is not reached yet. -/
theorem emit_eq (k : Walk ω) (key : List Nat) (st : WalkState ω) :
    k.emit key st =
      if (k.sink (k.offer key st) st.solver.world).1 = true then
        if k.targetReached (k.handOver key st).summary = true then
          .ok .stop { k.handOver key st with
            summary := { (k.handOver key st).summary with targetReached := true } }
        else .ok .next (k.handOver key st)
      else
        .ok .stop { k.handOver key st with
          summary := { (k.handOver key st).summary with canceled := true } } := by
  have hget (st : WalkState ω) : (get : WalkM ω (WalkState ω)) st = .ok st st := rfl
  have hset (st st' : WalkState ω) : (set st' : WalkM ω PUnit) st = .ok ⟨⟩ st' := rfl
  have hask : Walk.solving (Solver.ask (k.sink (k.offer key st)))
      { k.handOver key st with solver := st.solver } =
        .ok (k.sink (k.offer key st) st.solver.world).1 (k.handOver key st) := rfl
  unfold emit
  rw [run_bind_of_ok (hget st), run_bind_of_ok (hset st _)]
  refine (run_bind_of_ok hask).trans ?_
  cases (k.sink (k.offer key st) st.solver.world).1 with
  | false => rfl
  | true =>
    rw [Bool.not_true, if_neg Bool.false_ne_true, if_pos rfl, run_bind_of_ok (hget _)]
    split <;> rfl

/-! ## At the end of a branch -/

/-- What was not handed over yet is handed over if the solver says that it is a product. -/
theorem complete_eq (k : Walk ω) (selected : List Nat) (st : WalkState ω) :
    k.complete selected st =
      if keyOf selected ∈ st.seen then
        .ok .next { st with
          summary := { st.summary with duplicates := st.summary.duplicates + 1 } }
      else match k.isProduct (keyOf selected) st with
        | .ok true st' => k.emit (keyOf selected) st'
        | .ok false st' => .ok .next { st' with
            summary := { st'.summary with discarded := st'.summary.discarded + 1 } }
        | .error e st' => .error e st' := by
  have hget : (get : WalkM ω (WalkState ω)) st = .ok st st := rfl
  unfold complete
  refine (run_bind_of_ok hget).trans ?_
  split
  · rfl
  · show EStateM.bind (k.isProduct (keyOf selected)) _ st = _
    unfold EStateM.bind
    cases k.isProduct (keyOf selected) st with
    | ok b st' => cases b <;> rfl
    | error e st' => rfl

end Walk

end ProductLine
