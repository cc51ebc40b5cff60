import Mathlib
import ProductLine.Solver.Counting
import ProductLine.Proofs.Solver.Query
/-!
# Counts are true

The models of the base and the stack are counted by their restrictions to some variables.  Every
model that is found has a restriction that was not counted yet, because all others are blocked, and
when no model is left all of them were counted.

* `Solver.Restrictions` is what is counted, and `Count.Tells` what a count says of its size;
* `Solver.Excludes` is the invariant of the session: it has the models whose restriction was not
  counted yet;
* `Solver.countFrom_yields` follows the count.
-/
namespace ProductLine

/-- What a count up to `limit` says when there are `n` items.  A smaller bound than the limit takes
a `fallible` party. -/
def Count.Tells (n limit : Nat) (fallible : Prop) : Count → Prop
  | .exact k => k = n ∧ n < limit
  | .atLeast k => k ≤ n ∧ k ≤ limit ∧ (k = limit ∨ fallible)

/-- Without failures there is only one true count. -/
theorem Count.Tells.eq {n limit : Nat} {c : Count} (h : c.Tells n limit False) :
    c = if n < limit then .exact n else .atLeast limit := by
  cases c with
  | exact k =>
    obtain ⟨rfl, hlt⟩ := h
    rw [if_pos hlt]
  | atLeast k =>
    obtain ⟨hle, -, rfl | hfalse⟩ := h
    · rw [if_neg (Nat.not_lt.2 hle)]
    · exact hfalse.elim

namespace Solver

variable {ω : Type} {s : Solver ω} {stack : ConstraintStack} {vars : List Nat}
  {found : List (List Bool)}

/-! ## Restrictions -/

/-- The values that some variables have in the models of the base and a stack. -/
def Restrictions (s : Solver ω) (stack : ConstraintStack) (vars : List Nat) : Set (List Bool) :=
  {values | ∃ v, s.Models stack v ∧ values = vars.map v}

/-- There are finitely many restrictions to some variables. -/
theorem finite_restrictions (s : Solver ω) (stack : ConstraintStack) (vars : List Nat) :
    (s.Restrictions stack vars).Finite := by
  refine (List.finite_length_eq Bool vars.length).subset ?_
  rintro _ ⟨v, -, rfl⟩
  exact List.length_map v

/-- There are at least as many restrictions as were found. -/
theorem length_le_ncard (hnodup : found.Nodup)
    (hfound : ∀ values ∈ found, values ∈ s.Restrictions stack vars) :
    found.length ≤ (s.Restrictions stack vars).ncard := by
  rw [← List.toFinset_card_of_nodup hnodup, ← Set.ncard_coe_finset]
  refine Set.ncard_le_ncard ?_ (s.finite_restrictions stack vars)
  intro values hvalues
  exact hfound values (by simpa using hvalues)

/-- If all were found there are exactly as many. -/
theorem ncard_eq_length (hnodup : found.Nodup)
    (hfound : ∀ values, values ∈ found ↔ values ∈ s.Restrictions stack vars) :
    (s.Restrictions stack vars).ncard = found.length := by
  have hset : s.Restrictions stack vars = ↑found.toFinset := by
    ext values
    simp [hfound]
  rw [hset, Set.ncard_coe_finset, List.toFinset_card_of_nodup hnodup]

/-! ## Blocking -/

/-- A blocking clause is true unless the variables have just the blocked values. -/
theorem eval_blocking (vars : List Nat) (a : Assignment) (v : Nat → Bool) :
    (blocking vars a).eval v = true ↔ vars.map v ≠ vars.map a.valuation := by
  rw [Clause.eval, List.any_eq_true, ne_eq, List.map_inj_left, blocking]
  simp [Lit.eval, Bool.eq_not]

/-- The clause that blocks a model has no further variables. -/
theorem inRange_blocking {n : Nat} (hvars : ∀ i ∈ vars, i < n) (a : Assignment) :
    (ClauseSet.ofClause (blocking vars a)).InRange n := by
  simpa [ClauseSet.ofClause, ClauseSet.InRange, Clause.InRange, blocking] using hvars

/-- The session has the models of the base and the stack in which the variables have none of the
values that were found. -/
structure Excludes (s : Solver ω) (stack : ConstraintStack) (vars : List Nat)
    (found : List (List Bool)) (session : Session) : Prop where
  varCount : session.varCount = s.base.varCount
  models : session.options.models = true
  keyed : s.backend.Keyed session
  eval_iff : ∀ v, (∀ set ∈ session.formulas, set.eval v = true) ↔
    s.Models stack v ∧ vars.map v ∉ found

namespace Excludes

variable {session : Session}

/-- Nothing is excluded by the base and the stack alone. -/
theorem start {origins : Origins} (hs : s.Ready stack)
    (h : s.Opens stack { models := true } session origins) (hkeyed : s.backend.Keyed session) :
    s.Excludes stack vars [] session where
  varCount := h.varCount
  models := by rw [h.options_eq]
  keyed := hkeyed
  eval_iff v := by
    rw [hs.models_iff v, h.formulas]
    simp

/-- A blocking clause excludes one more list of values. -/
theorem add (h : s.Excludes stack vars found session) {id : Nat} {a : Assignment}
    (hkeyed : s.backend.Keyed (session.add id (.ofClause (blocking vars a)))) :
    s.Excludes stack vars (vars.map a.valuation :: found)
      (session.add id (.ofClause (blocking vars a))) where
  varCount := h.varCount
  models := h.models
  keyed := hkeyed
  eval_iff v := by
    have hblock : (ClauseSet.ofClause (blocking vars a)).eval v = true ↔
        vars.map v ≠ vars.map a.valuation := by
      rw [← eval_blocking]
      simp [ClauseSet.eval, ClauseSet.ofClause]
    rw [Session.formulas_add, List.forall_mem_append, List.forall_mem_singleton, h.eval_iff, hblock,
      List.mem_cons, not_or, and_assoc, and_comm (a := vars.map v ∉ found)]

/-- If the session has no model, everything was found. -/
theorem mem_found (h : s.Excludes stack vars found session)
    (hunsat : ¬ ClauseSet.Satisfiable session.formulas) {values : List Bool}
    (hvalues : values ∈ s.Restrictions stack vars) : values ∈ found := by
  obtain ⟨v, hv, rfl⟩ := hvalues
  by_contra hnew
  exact hunsat ⟨v, (h.eval_iff v).2 ⟨hv, hnew⟩⟩

end Excludes

/-! ## Counting -/

section Run

variable {good : ω → Prop} {fallible : Prop}

/-- A count goes on from what was found already. -/
theorem countFrom_yields (hb : s.backend.Trusted good fallible) {monitor : Monitor ω}
    (hmonitor : monitor.Trusted good fallible) (hvars : ∀ i ∈ vars, i < s.base.varCount)
    {limit room : Nat} {session : Session} (hsession : s.Excludes stack vars found session)
    (hnodup : found.Nodup) (hfound : ∀ values ∈ found, values ∈ s.Restrictions stack vars)
    (hlimit : found.length + room = limit) {st : SolverState ω} (hw : good st.world) :
    Yields good fallible st (Count.Tells (s.Restrictions stack vars).ncard limit fallible)
      (s.countFrom vars monitor session found.length room st) := by
  -- On the room that is left: each model found takes one place of it.
  induction room generalizing found session st with
  | zero => exact .pure ⟨length_le_ncard hnodup hfound, by omega, .inl hlimit⟩ hw
  | succ room ih =>
    have hunfinished (h : fallible) :
        Count.Tells (s.Restrictions stack vars).ncard limit fallible (.atLeast found.length) :=
      ⟨length_le_ncard hnodup hfound, by omega, .inr h⟩
    rw [countFrom]
    refine (isCanceled_tells hmonitor hw).bind ?_
    intro canceled st₁ hcanceled h₁
    split
    · rename_i hstop
      exact .pure (hunfinished (hcanceled hstop)) h₁.world
    refine (check_yields hb hsession.keyed h₁.world).bind ?_
    intro verdict st₂ hverdict h₂
    rcases verdict with (_ | model) | core | _
    · exact .pure (hunfinished (hverdict.2.2 hsession.models rfl)) h₂.world
    · -- Whatever the model leaves open, its assignment is one of the models of the session.
      have hmodel : ∀ set ∈ session.formulas,
          set.eval (Assignment.ofModel model s.base.varCount).valuation = true := by
        intro set hset
        rw [← hsession.varCount]
        exact (hverdict.2.1 model rfl).eval_ofModel hset
      obtain ⟨hmodels, hnew⟩ := (hsession.eval_iff _).1 hmodel
      have hblock := inRange_blocking hvars (.ofModel model s.base.varCount)
      refine (addFormula_yields hb hsession.keyed (hsession.varCount ▸ hblock) h₂.world).bind ?_
      rintro _ st₃ ⟨⟨id, rfl⟩, hkeyed⟩ h₃
      refine ih (hsession.add hkeyed) (hnodup.cons hnew) ?_ ?_ h₃.world
      · exact List.forall_mem_cons.2 ⟨⟨_, hmodels, rfl⟩, hfound⟩
      · rw [List.length_cons]
        omega
    · have hall := ncard_eq_length hnodup
        (fun values => ⟨hfound values, hsession.mem_found hverdict.1⟩)
      exact .pure ⟨hall.symm, by omega⟩ h₂.world
    · exact .pure (hunfinished hverdict) h₂.world

/-- A count is told the base and the stack and starts with nothing found. -/
theorem count_yields (hb : s.backend.Trusted good fallible) {monitor : Monitor ω}
    (hmonitor : monitor.Trusted good fallible) (hvars : ∀ i ∈ vars, i < s.base.varCount)
    (limit : Nat) {st : SolverState ω} (hs : s.Ready st.stack) (hw : good st.world) :
    Yields good fallible st (Count.Tells (s.Restrictions st.stack vars).ncard limit fallible)
      (s.count vars limit monitor st) := by
  refine (openSession_yields hb { models := true } hs hw).bind ?_
  rintro ⟨session, origins⟩ st₁ ⟨hopens, hkeyed⟩ h₁
  exact countFrom_yields hb hmonitor hvars (.start hs hopens hkeyed) List.nodup_nil (by simp)
    (by simp) h₁.world

end Run

/-- **Counts are true.**  With a correct backend and a monitor that never cancels, a count comes to
an end.  It is exact if there are fewer restrictions than the limit, and otherwise says that there
are at least as many.

If the backend may fail to answer or to give a model, and the monitor may cancel, a count that has a
result is exact or a lower bound, which is never above the limit.  Either way the stack stays as it
is, also if the count fails. -/
theorem count_restrictions {good : ω → Prop} {monitor : Monitor ω} {st : SolverState ω}
    (hbase : s.base.Built) (hstack : st.stack.Translated s.base.vars s.base.clauseLimit)
    (hw : good st.world) (hvars : ∀ i ∈ vars, i < s.base.varCount) (limit : Nat) :
    (s.backend.Correct good → monitor.NeverCancels good →
      ∃ st', s.count vars limit monitor st =
        .ok (if (s.Restrictions st.stack vars).ncard < limit then
            .exact (s.Restrictions st.stack vars).ncard
          else .atLeast limit) st' ∧ st'.stack = st.stack) ∧
    (s.backend.Trusted good True → (∀ w, good w → good (monitor w).2) →
      Ends (fun c st' => st'.stack = st.stack ∧ (c = .exact (s.Restrictions st.stack vars).ncard ∨
          ∃ k, c = .atLeast k ∧ k ≤ (s.Restrictions st.stack vars).ncard ∧ k ≤ limit))
        (fun _ st' => st'.stack = st.stack) (s.count vars limit monitor st)) := by
  have hs : s.Ready st.stack := ⟨hbase, hstack⟩
  constructor
  · intro hb hmonitor
    obtain ⟨c, st', hrun, hc, hkept⟩ :=
      (count_yields hb hmonitor.trusted hvars limit hs hw).exists_ok
    exact ⟨st', hc.eq ▸ hrun, hkept.stack⟩
  · intro hb hmonitor
    have htrusted : monitor.Trusted good True := fun w hw => ⟨fun _ => trivial, hmonitor w hw⟩
    refine (count_yields hb htrusted hvars limit hs hw).mono ?_ (fun _ _ h => h.2.stack)
    rintro (k | k) st' ⟨hc, hkept⟩
    · exact ⟨hkept.stack, .inl (congrArg Count.exact hc.1)⟩
    · exact ⟨hkept.stack, .inr ⟨k, rfl, hc.1, hc.2.1⟩⟩

/-- Three variables of which the first implies the second. -/
def implying {ω : Type} (backend : Backend ω) : Solver ω where
  backend := backend
  base := {
    vars := ⟨["A", "B", "C"]⟩
    constraints := [⟨0, .implies (.var "A") (.var "B")⟩]
    formulas := [⟨3, [[⟨0, false⟩, ⟨1, true⟩]]⟩]
    clauseLimit := 1
    propagated := ⟨#[none, none, none], false⟩ }

/-- The third variable is false. -/
def implyingStack : ConstraintStack := [⟨⟨1, .not (.var "C")⟩, ⟨3, [[⟨2, false⟩]]⟩⟩]

/-- Below the limit a run finds all three restrictions to the first two variables, one of which is
asked for twice.  At the limit, or when the backend gives up at the third check, it finds a lower
bound. -/
theorem count_restrictions_implying :
    ((implying .exhaustive).count [0, 1, 0] 4 Monitor.never ⟨implyingStack, 2, ()⟩ =
        .ok (.exact 3) ⟨implyingStack, 2, ()⟩ ∧
      ((implying .exhaustive).Restrictions implyingStack [0, 1, 0]).ncard = 3) ∧
    (implying .exhaustive).count [0, 1, 0] 3 Monitor.never ⟨implyingStack, 2, ()⟩ =
      .ok (.atLeast 3) ⟨implyingStack, 2, ()⟩ ∧
    ((implying .tiring).count [0, 1, 0] 4 Monitor.never ⟨implyingStack, 2, 2⟩ =
        .ok (.atLeast 2) ⟨implyingStack, 2, 0⟩ ∧
      2 ≤ ((implying .tiring).Restrictions implyingStack [0, 1, 0]).ncard) := by
  have hstack : implyingStack.Translated ⟨["A", "B", "C"]⟩ 1 := List.forall_mem_singleton.2 rfl
  have hrun : (implying .exhaustive).count [0, 1, 0] 4 Monitor.never ⟨implyingStack, 2, ()⟩ =
      .ok (.exact 3) ⟨implyingStack, 2, ()⟩ := by
    cbv
  have hfailing : (implying .tiring).count [0, 1, 0] 4 Monitor.never ⟨implyingStack, 2, 2⟩ =
      .ok (.atLeast 2) ⟨implyingStack, 2, 0⟩ := by
    cbv
  refine ⟨⟨hrun, ?_⟩, by cbv, hfailing, ?_⟩
  · obtain ⟨st', heq, -⟩ := (@count_restrictions _ (implying .exhaustive) [0, 1, 0]
      (fun _ => True) Monitor.never ⟨implyingStack, 2, ()⟩ ⟨by decide, rfl⟩ hstack trivial
      (by decide) 4).1 Backend.exhaustive_correct (fun _ _ => ⟨rfl, trivial⟩)
    rw [hrun] at heq
    have hcount := (EStateM.Result.ok.inj heq).1
    split at hcount
    · exact (Count.exact.inj hcount).symm
    · cases hcount
  · have hends := (@count_restrictions _ (implying .tiring) [0, 1, 0]
      (fun _ => True) Monitor.never ⟨implyingStack, 2, 2⟩ ⟨by decide, rfl⟩ hstack trivial
      (by decide) 4).2 Backend.tiring_trusted (fun _ _ => trivial)
    rw [hfailing] at hends
    obtain ⟨-, hexact | ⟨k, hk, hle, -⟩⟩ := hends
    · cases hexact
    · cases hk
      exact hle

end Solver

end ProductLine
