import ProductLine.Proofs.Calls.Conclusions
import ProductLine.Proofs.Solver.History
/-!
# What is left at the end of a scope

A scope remembers how deep the stack was when it was entered, and nothing else.  So it takes off
what was pushed on top of what lay there.  What was taken off from below is lost, and if other
constraints were pushed in its place, those stay.

* `Operations` are what may be done in a scope, with further scopes inside, and `Solver.perform`
  does it;
* `Solver.lowest` is the depth down to which the stack was taken off on the way;
* `Solver.perform_keeps` says that all below that depth is as it was;
* `Solver.inScope_perform` is about the end of a scope.
-/
namespace ProductLine

variable {ω : Type}

/-! ## Operations -/

/-- What may be done with a solver. -/
inductive Operation (ω : Type) : Type 1 where
  | push (c : Constraint)
  | pushLit (l : Lit)
  | pop
  | ask {α : Type} (c : Call ω α)

/-- What may be done in a scope, one after the other. -/
inductive Operations (ω : Type) : Type 1 where
  | done
  | step (op : Operation ω) (rest : Operations ω)
  /-- A scope with operations of its own. -/
  | scope (inner rest : Operations ω)

namespace Solver

/-- The state after an operation, which may fail. -/
def after (s : Solver ω) (st : SolverState ω) : Operation ω → SolverState ω
  | .push c => endState (s.push c st)
  | .pushLit l => endState (s.pushLit l st)
  | .pop => endState (pop st)
  | .ask c => endState (s.call c st)

/-- The state after all operations.  When one fails, the next is tried all the same. -/
def perform (s : Solver ω) : Operations ω → SolverState ω → SolverState ω
  | .done, st => st
  | .step op rest, st => s.perform rest (s.after st op)
  | .scope inner rest, st =>
      s.perform rest (endState (inScope (modify (s.perform inner) : SolverM ω Unit) st))

/-- Performs the operations in a scope. -/
def performScope (s : Solver ω) (ops : Operations ω) : SolverM ω Unit :=
  inScope (modify (s.perform ops))

/-- The least depth of the stack on the way. -/
def lowest (s : Solver ω) : Operations ω → SolverState ω → Nat
  | .done, st => st.stack.length
  | .step op rest, st => min st.stack.length (s.lowest rest (s.after st op))
  | .scope inner rest, st =>
      min (s.lowest inner st) (s.lowest rest (endState (s.performScope inner st)))

/-- All that is pushed on the way. -/
def added (s : Solver ω) : Operations ω → SolverState ω → List StackEntry
  | .done, _ => []
  | .step op rest, st =>
      (s.after st op).stack.drop st.stack.length ++ s.added rest (s.after st op)
  | .scope inner rest, st => s.added inner st ++ s.added rest (endState (s.performScope inner st))

end Solver

/-! ## What is kept -/

namespace ConstraintStack

variable {stack stack' stack'' : ConstraintStack} {low low' : Nat} {new new' : List StackEntry}

/-- The second stack is the first one up to the depth `low`, with some of the entries `new` on
top. -/
def Keeps (low : Nat) (new : List StackEntry) (stack stack' : ConstraintStack) : Prop :=
  low ≤ stack.length ∧ ∃ more, stack' = stack.take low ++ more ∧ more ⊆ new

theorem keeps_refl (stack : ConstraintStack) : Keeps stack.length [] stack stack :=
  ⟨Nat.le_refl _, [], by simp, List.Subset.refl _⟩

/-- What lies below both depths is kept. -/
theorem Keeps.trans (h : Keeps low new stack stack') (h' : Keeps low' new' stack' stack'') :
    Keeps (min low low') (new ++ new') stack stack'' := by
  obtain ⟨hlow, more, rfl, hmore⟩ := h
  obtain ⟨-, more', rfl, hmore'⟩ := h'
  refine ⟨(Nat.min_le_left ..).trans hlow, more.take (low' - low) ++ more', ?_, ?_⟩
  · rw [List.take_append, List.take_take, List.length_take, Nat.min_eq_left hlow, Nat.min_comm low',
      List.append_assoc]
  · refine List.append_subset.2 ⟨fun e he => ?_, fun e he => ?_⟩
    · exact List.mem_append_left _ (hmore (List.mem_of_mem_take he))
    · exact List.mem_append_right _ (hmore' he)

/-- Cutting the stack back to where it was keeps what is kept. -/
theorem Keeps.take (h : Keeps low new stack stack') :
    Keeps low new stack (stack'.take stack.length) := by
  obtain ⟨hlow, more, rfl, hmore⟩ := h
  refine ⟨hlow, more.take (stack.length - low), ?_, fun e he => hmore (List.mem_of_mem_take he)⟩
  rw [List.take_append, List.length_take, Nat.min_eq_left hlow, List.take_take,
    Nat.min_eq_right hlow]

/-- What is kept down to the depth of a stack is the stack. -/
theorem Keeps.eq_of_length (h : Keeps stack.length new stack stack')
    (hlength : stack'.length = stack.length) : stack' = stack := by
  obtain ⟨-, more, rfl, -⟩ := h
  rw [List.take_length, List.length_append] at hlength
  obtain rfl := List.length_eq_zero_iff.1 (Nat.add_eq_left.1 hlength)
  rw [List.take_length, List.append_nil]

/-- One stack is the other one with more on top. -/
theorem keeps_of_prefix (h : stack <+: stack' ∨ stack' <+: stack) :
    Keeps (min stack.length stack'.length) (stack'.drop stack.length) stack stack' := by
  refine ⟨Nat.min_le_left .., stack'.drop stack.length, ?_, List.Subset.refl _⟩
  rcases h with ⟨more, rfl⟩ | ⟨more, rfl⟩
  · simp
  · simp

end ConstraintStack

namespace Solver

open ConstraintStack (Keeps)

variable {s : Solver ω}

/-! ## Operations keep what lies below -/

/-- A constraint lies on top afterwards, or nothing happened. -/
theorem prefix_push (c : Constraint) (st : SolverState ω) :
    st.stack <+: (endState (s.push c st)).stack := by
  unfold push
  split
  · exact List.prefix_rfl
  · rename_i outcome stack hpush
    obtain ⟨set, -, rfl⟩ := ConstraintStack.push_eq_ok hpush
    exact List.prefix_append ..

theorem prefix_pushLit (l : Lit) (st : SolverState ω) :
    st.stack <+: (endState (s.pushLit l st)).stack := by
  unfold pushLit
  split
  · exact List.prefix_rfl
  · exact s.prefix_push _ { st with nextLabel := st.nextLabel + 1 }

/-- A pop leaves what lies below. -/
theorem prefix_pop (st : SolverState ω) : (endState (pop st)).stack <+: st.stack := by
  unfold pop ConstraintStack.pop
  cases st.stack.getLast? with
  | none => exact List.prefix_rfl
  | some entry => exact List.dropLast_prefix st.stack

/-- An operation changes the stack at its top only. -/
theorem after_keeps (op : Operation ω) (st : SolverState ω) :
    Keeps (min st.stack.length (s.after st op).stack.length)
      ((s.after st op).stack.drop st.stack.length) st.stack (s.after st op).stack := by
  apply ConstraintStack.keeps_of_prefix
  cases op with
  | push c => exact .inl (prefix_push c st)
  | pushLit l => exact .inl (prefix_pushLit l st)
  | pop => exact .inr (prefix_pop st)
  | ask c => exact .inl ((s.stack_call c st).symm ▸ List.prefix_rfl)

/-- The stack is cut back at the end of a scope, unless there is too little of it. -/
theorem performScope_eq (ops : Operations ω) (st : SolverState ω) :
    s.performScope ops st =
      if (s.perform ops st).stack.length < st.stack.length then
        .error (.stack (.imbalance st.stack.length (s.perform ops st).stack.length))
          (s.perform ops st)
      else .ok () { s.perform ops st with
        stack := (s.perform ops st).stack.take st.stack.length } := by
  have hbody : (modify (s.perform ops) : SolverM ω Unit) st = .ok () (s.perform ops st) := rfl
  simp only [performScope, inScope, hbody, truncate, ConstraintStack.truncate]
  by_cases hshallow : (s.perform ops st).stack.length < st.stack.length
  · simp only [if_pos hshallow]
  · simp only [if_neg hshallow]

theorem performScope_keeps {ops : Operations ω} {st : SolverState ω} {low : Nat}
    {new : List StackEntry} (h : Keeps low new st.stack (s.perform ops st).stack) :
    Keeps low new st.stack (endState (s.performScope ops st)).stack := by
  rw [performScope_eq]
  split
  · exact h
  · exact h.take

/-- **All operations together keep what lies below the depth that they reach.** -/
theorem perform_keeps (s : Solver ω) (ops : Operations ω) (st : SolverState ω) :
    Keeps (s.lowest ops st) (s.added ops st) st.stack (s.perform ops st).stack := by
  induction ops generalizing st with
  | done => exact ConstraintStack.keeps_refl st.stack
  | step op rest ih =>
    have h := (after_keeps op st).trans (ih (s.after st op))
    -- The rest starts no deeper than the operation left the stack.
    rwa [Nat.min_assoc, Nat.min_eq_right (ih (s.after st op)).1] at h
  | scope inner rest ihInner ih =>
    exact (performScope_keeps (ihInner st)).trans (ih _)

/-! ## The end of a scope -/

/-- **What is left at the end of a scope.**  If the stack is less deep than at its start, that is
reported, and the stack is left as it is.  Otherwise it is as deep as at the start.  Up to the least
depth on the way it is what it was, and from there on it holds what was pushed in the scope.  So it
is entry for entry what it was if nothing was taken off from below the start. -/
theorem performScope_restores (s : Solver ω) (ops : Operations ω) (st : SolverState ω) :
    if (s.perform ops st).stack.length < st.stack.length then
      s.performScope ops st =
        .error (.stack (.imbalance st.stack.length (s.perform ops st).stack.length))
          (s.perform ops st)
    else ∃ stack : ConstraintStack,
      s.performScope ops st = .ok () { s.perform ops st with stack := stack } ∧
      stack.length = st.stack.length ∧
      (∃ more, stack = st.stack.take (s.lowest ops st) ++ more ∧ more ⊆ s.added ops st) ∧
      (s.lowest ops st = st.stack.length → stack = st.stack) := by
  rw [performScope_eq]
  split
  · rfl
  · rename_i hdeep
    have hkeeps := (s.perform_keeps ops st).take
    have hlength : ((s.perform ops st).stack.take st.stack.length).length = st.stack.length := by
      rw [List.length_take, Nat.min_eq_left (Nat.le_of_not_lt hdeep)]
    refine ⟨_, rfl, hlength, hkeeps.2, fun hlowest => ?_⟩
    rw [hlowest] at hkeeps
    exact hkeeps.eq_of_length hlength

/-- A solver for two variables about which nothing is known. -/
def unconstrained : Solver Unit where
  backend := .exhaustive
  base := {
    vars := ⟨["A", "B"]⟩
    constraints := []
    formulas := []
    clauseLimit := 100000
    propagated := ⟨#[none, none], false⟩ }

/-- What is on the stack where the first variable was stated to be true. -/
def entryA : StackEntry := ⟨⟨0, .var "A"⟩, ⟨2, [[⟨0, true⟩]]⟩⟩

/-- What is on the stack where the second one was, after the first. -/
def entryB : StackEntry := ⟨⟨1, .var "B"⟩, ⟨2, [[⟨1, true⟩]]⟩⟩

/-- If one constraint is taken off and another one is pushed in its place, nothing is reported at
the end of the scope, and the stack is not what it was. -/
theorem performScope_exchanges :
    unconstrained.performScope (.step .pop (.step (.pushLit ⟨1, true⟩) .done)) ⟨[entryA], 1, ()⟩ =
      .ok () ⟨[entryB], 2, ()⟩ ∧ [entryB] ≠ [entryA] :=
  ⟨by cbv, by decide⟩

end Solver

end ProductLine
