import ProductLine.Proofs.Calls.Walks
import ProductLine.Proofs.Solver.Implied
/-!
# Failures of a backend never act as conclusions

A backend may fail in any way whenever a session is opened or a check is made.  If it cannot be
used, the call fails at once.  Any other failure of a check leads to no conclusion: whatever a call
concludes, there is an answer of the backend that says so.

* `Call.RestsOn` says on which replies the result of a call rests;
* `Solver.call_hears` says that every result rests on replies;
* `Solver.call_rests_on_replies` says it of all replies to a call, and when a call fails.
-/
namespace ProductLine

variable {ω α : Type}

/-! ## Results and the replies on which they rest -/

/-- The summary of a walk rests on replies.  For each configuration that is handed over there is a
reply of its own with a model of it.  For each branch that is cut there is a reply of its own that
it has no model, unless its formula is refused or contradictory at once.  The monitor is asked once
for each branch, and no branch is cut for which there is any other reply. -/
def Walk.RestsOn (k : Walk ω) (stack : ConstraintStack) (replies : List Reply)
    (summary : Summary) : Prop :=
  ∃ keys cut : List (List Nat),
    replies.filterMap Reply.configuration? = configurations k.model keys ∧
    summary.emitted = keys.length ∧
    (keys.map (k.production? stack)).Sublist ((replies.filterMap Reply.modelled?).map some) ∧
    summary.pruned = cut.length ∧
    (cut.filterMap (k.feasibility? stack)).Sublist (replies.filterMap Reply.refuted?) ∧
    summary.pruned + replies.countP Reply.spares ≤ replies.countP Reply.isAsked

/-- The result of a call on a solver with the given stack rests on replies.

* A query is answered as the only check was, and not at all if that was not.
* A subset is found, or there is none, only if every check was answered.
* Candidates are found only if the base and the stack were shown to have a model.  For each one
  there is a reply of its own that the question by which it is tested has no model, unless an
  assumption is contradictory at once.
* A count is exact only if the last reply is that there are no more models, and then it is the
  number of models that were given.
* The summary of a walk rests on replies as `Walk.RestsOn` says. -/
def Call.RestsOn (s : Solver ω) (stack : ConstraintStack) (replies : List Reply) :
    Call ω α → α → Prop
  | .isSatisfiable, result => ∃ answer,
      replies = [.opened (.ok ()), .checked (s.question stack {}) answer] ∧
      (result = .unsat ↔ ∃ core, answer = .ok (.unsat core)) ∧
      (result = .sat ↔ ∃ model, answer = .ok (.sat model))
  | .solve, result => ∃ answer,
      replies = [.opened (.ok ()), .checked (s.question stack { models := true }) answer] ∧
      (result = .unsat ↔ ∃ core, answer = .ok (.unsat core)) ∧
      ∀ a, result = .sat a ↔
        ∃ model, answer = .ok (.sat (some model)) ∧ .ofModel model s.base.varCount = a
  | .findModel, result => ∃ answer,
      replies = [.opened (.ok ()), .checked (s.question stack { models := true }) answer] ∧
      ∀ a, result = some a ↔
        ∃ model, answer = .ok (.sat (some model)) ∧ .ofModel model s.base.varCount = a
  | .unsatSubset, result => ∃ answer later,
      replies = .opened (.ok ()) :: .checked (s.question stack { cores := true }) (.ok answer) ::
        later ∧
      (∀ r ∈ later, r.isInconclusive = false) ∧
      (result = none ↔ ∃ model, answer = .sat model)
  | .implied _ _ _, found =>
      (found ≠ [] → s.question stack { models := true } ∈ replies.filterMap Reply.modelled?) ∧
      (found.filterMap (s.testing? stack)).Sublist (replies.filterMap Reply.refuted?)
  | .count _ _ _, result => ∀ n, result = .exact n → ∃ earlier question core,
      replies = earlier ++ [.checked question (.ok (.unsat core))] ∧
      n = (earlier.filterMap Reply.modelled?).length
  | .enumerate model monitor target sink, summary =>
      Walk.RestsOn ⟨model, s, monitor, target, sink⟩ stack replies summary

/-- Whether the call fails if a check is not answered. -/
def Call.NeedsAnswers : Call ω α → Prop
  | .unsatSubset => True
  | _ => False

namespace Solver

variable {s : Solver ω}

theorem summarize_hears (k : Walk ω) (st : SolverState (ω × List Reply)) :
    Hears False st (fun summary replies => k.RestsOn st.stack replies summary)
      (k.recording.summarize st) := by
  have hfares : k.Fares { solver := st } (k.recording.enumerate st) := k.expand_fares [] [0] _
  unfold Walk.summarize
  cases hrun : k.recording.enumerate st with
  | error e st' =>
    rw [hrun] at hfares
    exact hfares
  | ok flow st' =>
    rw [hrun] at hfares
    obtain ⟨replies, keys, cut, h⟩ := hfares
    have hemitted : st'.summary.emitted = keys.length := h.emitted.trans (Nat.zero_add _)
    have hpruned : st'.summary.pruned = cut.length := h.pruned.trans (Nat.zero_add _)
    exact ⟨replies, h.heard, h.usable, keys, cut, h.handed, hemitted, h.products, hpruned,
      h.refuted, hpruned ▸ h.spared⟩

/-- Every result of a call rests on the replies that it heard. -/
theorem call_hears (s : Solver ω) (c : Call ω α) (st : SolverState (ω × List Reply)) :
    Hears c.NeedsAnswers st (fun result replies => c.RestsOn s st.stack replies result)
      (s.recording.call c.recording st) := by
  cases c with
  | isSatisfiable => exact isSatisfiable_hears
  | solve => exact solve_hears
  | findModel => exact findModel_hears
  | unsatSubset => exact unsatSubset_hears
  | implied buffer monitor ps => exact implied_hears buffer monitor ps
  | count vars limit monitor => exact count_hears vars limit monitor
  | enumerate model monitor target sink =>
    exact summarize_hears ⟨model, s, monitor, target, sink⟩ st

/-- A call leaves the stack alone, whether it has a result or fails. -/
theorem stack_call (s : Solver ω) (c : Call ω α) (st : SolverState ω) :
    (endState (s.call c st)).stack = st.stack := by
  have hhears := s.call_hears c (st.inWorld (·, []))
  rw [call_recording, endState_mapState, recorded]
  cases hrun : s.recording.call c.recording (st.inWorld (·, [])) with
  | ok result st' =>
    rw [hrun] at hhears
    obtain ⟨replies, hheard, -⟩ := hhears
    exact hheard.stack
  | error e st' =>
    rw [hrun] at hhears
    obtain ⟨replies, hheard, -⟩ := hhears
    exact hheard.stack

/-- All replies to a call were heard. -/
theorem recorded_ends (s : Solver ω) (c : Call ω α) (st : SolverState ω) :
    Ends (fun result _ => Usable (s.replies c st) ∧ c.RestsOn s st.stack (s.replies c st) result)
      (fun e _ => FailsAfter c.NeedsAnswers e (s.replies c st)) (s.recorded c st) := by
  have hhears := s.call_hears c (st.inWorld (·, []))
  unfold replies recorded
  cases hrun : s.recording.call c.recording (st.inWorld (·, [])) with
  | ok result st' =>
    rw [hrun] at hhears
    obtain ⟨replies, ⟨-, hlog⟩, husable, hrests⟩ := hhears
    obtain rfl : st'.world.2 = replies := hlog
    exact ⟨husable, hrests⟩
  | error e st' =>
    rw [hrun] at hhears
    obtain ⟨replies, ⟨-, hlog⟩, hfails⟩ := hhears
    obtain rfl : st'.world.2 = replies := hlog
    exact hfails

/-- **Failures of a backend never act as conclusions**, whatever the backend is and whenever it
fails.

Writing the replies down does not change a call.  It fails with the reason that the backend cannot
be used exactly if that is among the replies, and nothing is asked after it.  Apart from that only a
call that needs answers fails.  Every result rests on replies that say so. -/
theorem call_rests_on_replies (s : Solver ω) (c : Call ω α) (st : SolverState ω) :
    s.call c st = mapState (SolverState.inWorld Prod.fst) (s.recorded c st) ∧
    (∀ reason, (∃ st', s.call c st = .error (.unavailable reason) st') ↔
      ∃ r ∈ s.replies c st, r.unavailable? = some reason) ∧
    (∀ earlier r later, s.replies c st = earlier ++ r :: later → r.unavailable? ≠ none →
      later = []) ∧
    (∀ e st', s.call c st = .error e st' →
      (∃ reason, e = .unavailable reason) ∨ c.NeedsAnswers ∧ ∃ query, e = .inconclusive query) ∧
    ∀ result st', s.call c st = .ok result st' →
      c.RestsOn s st.stack (s.replies c st) result := by
  have hends := s.recorded_ends c st
  have hcall := s.call_recording c st
  generalize s.replies c st = replies at hends ⊢
  refine ⟨hcall, ?_⟩
  rw [hcall]
  cases hrun : s.recorded c st with
  | ok result st' =>
    rw [hrun] at hends
    obtain ⟨husable, hrests⟩ := hends
    refine ⟨fun reason => ⟨nofun, ?_⟩, ?_, nofun, ?_⟩
    · rintro ⟨r, hr, hreason⟩
      rw [husable r hr] at hreason
      cases hreason
    · rintro earlier r later rfl hr
      exact absurd (husable r (by simp)) hr
    · rintro _ _ ⟨⟩
      exact hrests
  | error e st' =>
    rw [hrun] at hends
    have hfails : FailsAfter c.NeedsAnswers e replies := hends
    refine ⟨fun reason => ⟨?_, ?_⟩, ?_, ?_, nofun⟩
    · rintro ⟨_, ⟨⟩⟩
      exact hfails.exists_mem
    · rintro ⟨r, hr, hreason⟩
      obtain ⟨earlier, later, rfl⟩ := List.append_of_mem hr
      exact ⟨_, congrArg (EStateM.Result.error · _) (hfails.eq_of_append hreason).1⟩
    · rintro earlier r later rfl hr
      obtain ⟨reason, hreason⟩ := Option.ne_none_iff_exists'.1 hr
      exact (hfails.eq_of_append hreason).2
    · rintro _ _ ⟨⟩
      cases hfails with
      | unavailable => exact .inl ⟨_, rfl⟩
      | inconclusive hneedy => exact .inr ⟨hneedy, _, rfl⟩

/-- The first check gives a model and the second one times out, so nothing is found. -/
example : Solver.call ⟨.tiring, chain.base⟩ (.implied 1 Monitor.never [⟨⟨0, true⟩, ⟨1, true⟩⟩])
    ⟨[], 1, 1⟩ = .ok [] ⟨[], 3, 0⟩ := by
  cbv

end Solver

end ProductLine
