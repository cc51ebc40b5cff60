import Mathlib.Tactic.Common
/-!
# How computations end

A computation with a state ends with a result or with a failure, and either way in some state.
`Ends` says what is then known, and is followed through a computation step by step; `endState` is
the state alone.
-/
namespace ProductLine

variable {ε σ α β : Type}

/-- The computation ended in a result and a state with `post`, or in a failure and a state with
`fail`. -/
def Ends (post : α → σ → Prop) (fail : ε → σ → Prop) : EStateM.Result ε σ α → Prop
  | .ok a st => post a st
  | .error e st => fail e st

namespace Ends

variable {post post' : α → σ → Prop} {fail fail' : ε → σ → Prop} {r : EStateM.Result ε σ α}

theorem mono (h : Ends post fail r) (hpost : ∀ a st, post a st → post' a st)
    (hfail : ∀ e st, fail e st → fail' e st) : Ends post' fail' r := by
  cases r with
  | ok a st => exact hpost a st h
  | error e st => exact hfail e st h

/-- What is known of a result may be weakened. -/
theorem imp (h : Ends post fail r) (hpost : ∀ a st, post a st → post' a st) :
    Ends post' fail r :=
  h.mono hpost (fun _ _ hfail => hfail)

/-- A computation that is followed by another. -/
theorem bind {x : EStateM ε σ α} {f : α → EStateM ε σ β} {st : σ} {next : β → σ → Prop}
    (hx : Ends post fail (x st)) (hf : ∀ a st', post a st' → Ends next fail (f a st')) :
    Ends next fail ((x >>= f) st) := by
  show Ends next fail (EStateM.bind x f st)
  unfold EStateM.bind
  cases h : x st with
  | ok a st' =>
    rw [h] at hx
    exact hf a st' hx
  | error e st' =>
    rw [h] at hx
    exact hx

/-- A computation that cannot fail has a result. -/
theorem exists_ok (h : Ends post (fun _ _ => False) r) : ∃ a st, r = .ok a st ∧ post a st := by
  cases r with
  | ok a st => exact ⟨a, st, rfl, h⟩
  | error e st => exact h.elim

end Ends

/-- The state in which a computation ended, with a result or with a failure. -/
def endState : EStateM.Result ε σ α → σ
  | .ok _ st | .error _ st => st

/-- Two computations in a row, the first of which has a known result. -/
theorem run_bind_of_ok {x : EStateM ε σ α} {f : α → EStateM ε σ β} {st st' : σ} {a : α}
    (h : x st = .ok a st') : (x >>= f) st = f a st' := by
  show EStateM.bind x f st = f a st'
  unfold EStateM.bind
  rw [h]

/-- Two computations in a row, the first of which fails. -/
theorem run_bind_of_error {x : EStateM ε σ α} {f : α → EStateM ε σ β} {st st' : σ} {e : ε}
    (h : x st = .error e st') : (x >>= f) st = .error e st' := by
  show EStateM.bind x f st = .error e st'
  unfold EStateM.bind
  rw [h]

/-- Two computations in a row have a result only if both have. -/
theorem run_bind_eq_ok {x : EStateM ε σ α} {f : α → EStateM ε σ β} {st st'' : σ} {b : β}
    (h : (x >>= f) st = .ok b st'') : ∃ a st', x st = .ok a st' ∧ f a st' = .ok b st'' := by
  change EStateM.bind x f st = .ok b st'' at h
  unfold EStateM.bind at h
  cases hx : x st with
  | ok a st' =>
    rw [hx] at h
    exact ⟨a, st', rfl, h⟩
  | error e st' =>
    rw [hx] at h
    cases h

end ProductLine
