import Mathlib
import ProductLine.Proofs.Calls.Replies
import ProductLine.Proofs.Solver.Query
/-!
# What queries conclude from replies

A query that has a result was never told that the backend cannot be used, and fails as soon as it
is.  Every other failure of a check leads to no conclusion.

* `FailsAfter` says after which replies a call fails;
* `Hears` says what is known of a result and the replies that led to it, and is followed through a
  computation step by step;
* `Solver.isSatisfiable_hears` and the others say what the results of queries rest on;
* `Solver.test_hears` is about the test of a candidate, which is told what `Solver.testing?` says.
-/
namespace ProductLine

variable {ω α β : Type}

/-! ## Failures -/

/-- No reply is that the backend cannot be used. -/
def Usable (replies : List Reply) : Prop := ∀ r ∈ replies, r.unavailable? = none

theorem Usable.append {earlier later : List Reply} (h : Usable earlier) (h' : Usable later) :
    Usable (earlier ++ later) :=
  List.forall_mem_append.2 ⟨h, h'⟩

/-- A call fails right after the reply that the backend cannot be used, or else, if it is a `needy`
one, because it needs an answer that it does not get. -/
inductive FailsAfter (needy : Prop) : AnalysisError → List Reply → Prop where
  | unavailable {earlier : List Reply} {last : Reply} {reason : String} : Usable earlier →
      last.unavailable? = some reason → FailsAfter needy (.unavailable reason) (earlier ++ [last])
  | inconclusive {query : String} {replies : List Reply} : needy → Usable replies →
      FailsAfter needy (.inconclusive query) replies

namespace FailsAfter

variable {needy : Prop} {e : AnalysisError} {earlier later : List Reply} {r : Reply}
  {reason : String}

/-- A call fails at the very reply that the backend cannot be used. -/
theorem at_once (h : r.unavailable? = some reason) :
    FailsAfter needy (.unavailable reason) [r] :=
  .unavailable (List.forall_mem_nil _) h

/-- What was heard before the backend could not be used does not change how the call fails. -/
theorem append (h : FailsAfter needy e later) (hearlier : Usable earlier) :
    FailsAfter needy e (earlier ++ later) := by
  cases h with
  | unavailable husable hlast =>
    rw [← List.append_assoc]
    exact .unavailable (hearlier.append husable) hlast
  | inconclusive hneedy husable => exact .inconclusive hneedy (hearlier.append husable)

/-- A call that fails because the backend cannot be used was told so. -/
theorem exists_mem {replies : List Reply} (h : FailsAfter needy (.unavailable reason) replies) :
    ∃ r ∈ replies, r.unavailable? = some reason := by
  cases h with
  | unavailable husable hlast => exact ⟨_, List.mem_append_right _ List.mem_cons_self, hlast⟩

/-- The reply that the backend cannot be used is the last one, and the call fails for its reason. -/
theorem eq_of_append (h : FailsAfter needy e (earlier ++ r :: later))
    (hr : r.unavailable? = some reason) : e = .unavailable reason ∧ later = [] := by
  generalize hreplies : earlier ++ r :: later = replies at h
  cases h with
  | @unavailable before last _ husable hlast =>
    rcases List.eq_nil_or_concat later with rfl | ⟨init, last', rfl⟩
    · obtain ⟨-, hlast'⟩ := List.append_inj' hreplies rfl
      obtain rfl := List.singleton_inj.1 hlast'
      exact ⟨by rw [Option.some.inj (hr.symm.trans hlast)], rfl⟩
    · -- Otherwise it would be one of the replies before the last.
      rw [List.concat_eq_append, ← List.cons_append, ← List.append_assoc] at hreplies
      obtain ⟨rfl, -⟩ := List.append_inj' hreplies rfl
      rw [husable r (by simp)] at hr
      cases hr
  | inconclusive hneedy husable =>
    subst hreplies
    rw [husable r (by simp)] at hr
    cases hr

end FailsAfter

/-! ## Computations that hear replies -/

/-- Between two states these replies were written down, and the stack was left alone. -/
structure Heard (st st' : SolverState (ω × List Reply)) (replies : List Reply) : Prop where
  stack : st'.stack = st.stack
  log : st'.world.2 = st.world.2 ++ replies

theorem Heard.trans {st st' st'' : SolverState (ω × List Reply)} {replies later : List Reply}
    (h : Heard st st' replies) (h' : Heard st' st'' later) : Heard st st'' (replies ++ later) :=
  ⟨h'.stack.trans h.stack, by rw [h'.log, h.log, List.append_assoc]⟩

/-- A computation from `st` ended with a result, after replies with which it has `post`, or failed
as calls do. -/
def Hears (needy : Prop) (st : SolverState (ω × List Reply)) (post : α → List Reply → Prop) :
    EStateM.Result AnalysisError (SolverState (ω × List Reply)) α → Prop :=
  Ends (fun a st' => ∃ replies, Heard st st' replies ∧ Usable replies ∧ post a replies)
    (fun e st' => ∃ replies, Heard st st' replies ∧ FailsAfter needy e replies)

namespace Hears

variable {needy : Prop} {st : SolverState (ω × List Reply)} {post post' : α → List Reply → Prop}
  {r : EStateM.Result AnalysisError (SolverState (ω × List Reply)) α}

theorem imp (h : Hears needy st post r) (hpost : ∀ a replies, post a replies → post' a replies) :
    Hears needy st post' r :=
  Ends.imp h fun a _ ⟨replies, hheard, husable, hreplies⟩ =>
    ⟨replies, hheard, husable, hpost a replies hreplies⟩

/-- Nothing is heard where nothing is asked. -/
theorem pure {a : α} (ha : post a []) : Hears needy st post (EStateM.pure a st) :=
  ⟨[], ⟨rfl, (List.append_nil _).symm⟩, by simp [Usable], ha⟩

theorem throw {query : String} (hneedy : needy) :
    Hears needy st post ((MonadExcept.throw (AnalysisError.inconclusive query) :
      SolverM (ω × List Reply) α) st) :=
  ⟨[], ⟨rfl, (List.append_nil _).symm⟩, .inconclusive hneedy (by simp [Usable])⟩

/-- A computation is followed by one that depends on its result, and the replies to both are heard.
-/
theorem bind {x : SolverM (ω × List Reply) α} {f : α → SolverM (ω × List Reply) β}
    {next : β → List Reply → Prop} (hx : Hears needy st post (x st))
    (hf : ∀ a replies st', post a replies → st'.stack = st.stack →
      Hears needy st' (fun b later => next b (replies ++ later)) (f a st')) :
    Hears needy st next ((x >>= f) st) := by
  apply Ends.bind hx
  rintro a st' ⟨replies, hheard, husable, ha⟩
  refine (hf a replies st' ha hheard.stack).mono ?_ ?_
  · rintro b st'' ⟨later, hlater, husable', hb⟩
    exact ⟨replies ++ later, hheard.trans hlater, husable.append husable', hb⟩
  · rintro e st'' ⟨later, hlater, hfails⟩
    exact ⟨replies ++ later, hheard.trans hlater, hfails.append husable⟩

end Hears

namespace Solver

variable {s : Solver ω} {needy : Prop} {st : SolverState (ω × List Reply)}

/-! ## Sessions and checks -/

/-- Nothing is written down while a session is told something. -/
theorem tellAll_recording (b : Backend ω) (stated : List (Constraint × ClauseSet))
    (session : Session) (origins : Origins) (w : ω × List Reply) :
    (tellAll b.recording stated session origins w).2.2 = w.2 := by
  induction stated generalizing session origins w with
  | nil => rfl
  | cons p stated ih => exact ih _ _ _

/-- A session that is opened is asked about the base and the stack. -/
theorem openSession_hears (options : SessionOptions) :
    Hears needy st (fun opened replies =>
        opened.1.question = s.question st.stack options ∧ replies = [.opened (.ok ())])
      (s.recording.openSession options st) := by
  unfold openSession
  rcases hopening : s.backend.opening s.base.varCount options st.world.1 with ⟨cause | _, w⟩
  · have hrecorded : s.recording.backend.opening s.recording.base.varCount options st.world =
        (.error cause, w, st.world.2 ++ [.opened (.error cause)]) := by
      simp only [recording, Backend.recording, hopening]
    rw [hrecorded]
    exact ⟨[.opened (.error cause)], ⟨rfl, rfl⟩, .at_once rfl⟩
  · have hrecorded : s.recording.backend.opening s.recording.base.varCount options st.world =
        (.ok (), w, st.world.2 ++ [.opened (.ok ())]) := by
      simp only [recording, Backend.recording, hopening]
    rw [hrecorded]
    exact ⟨[.opened (.ok ())], ⟨rfl, tellAll_recording ..⟩, by simp [Usable, Reply.unavailable?],
      (s.recording.opens_tellAll st.stack options _).question, rfl⟩

/-- The verdict is what the answer means, and every failure means nothing. -/
inductive Verdict.Reads : Verdict → Except BackendError Answer → Prop where
  | sat (model : Option (List Lit)) : Reads (.sat model) (.ok (.sat model))
  | unsat (core : Option (List Nat)) : Reads (.unsat core) (.ok (.unsat core))
  | unknown (cause : BackendError) : Reads .unknown (.error cause)

/-- A verdict comes with the answer of which it is the meaning. -/
theorem answered_hears {question : ω × List Reply → Except BackendError Answer × ω × List Reply}
    {reply : Except BackendError Answer → Reply}
    (hlog : ∀ w, (question w).2.2 = w.2 ++ [reply (question w).1])
    (hreply : ∀ answer, (reply answer).unavailable? = Reply.reason? answer) :
    Hears needy st (fun v replies => ∃ answer, v.Reads answer ∧ replies = [reply answer])
      (answered question st) := by
  rcases st with ⟨stack, nextLabel, w⟩
  have hheard : Heard ⟨stack, nextLabel, w⟩ ⟨stack, nextLabel, (question w).2⟩
      [reply (question w).1] := ⟨rfl, hlog w⟩
  have husable (h : Reply.reason? (question w).1 = none) : Usable [reply (question w).1] := by
    simpa [Usable, hreply] using h
  simp only [answered]
  cases hanswer : (question w).1 with
  | ok answer =>
    rw [hanswer] at hheard husable
    cases answer with
    | sat model => exact ⟨_, hheard, husable rfl, _, .sat model, rfl⟩
    | unsat core => exact ⟨_, hheard, husable rfl, _, .unsat core, rfl⟩
  | error cause =>
    rw [hanswer] at hheard husable
    cases cause with
    | unavailable reason => exact ⟨_, hheard, .at_once (hreply _)⟩
    | timeout => exact ⟨_, hheard, husable rfl, _, .unknown _, rfl⟩
    | interrupted => exact ⟨_, hheard, husable rfl, _, .unknown _, rfl⟩
    | failed reason => exact ⟨_, hheard, husable rfl, _, .unknown _, rfl⟩

/-- A check writes down one reply, and the verdict is the meaning of its answer. -/
theorem check_hears (session : Session) :
    Hears needy st
      (fun v replies => ∃ answer, v.Reads answer ∧ replies = [.checked session.question answer])
      (s.recording.check session st) :=
  answered_hears (fun _ => rfl) (fun _ => rfl)

/-- A check under selectors writes down one reply, which names the ids it was asked about. -/
theorem checkAmong_hears (session : Session) (ids : List Nat) :
    Hears needy st (fun v replies =>
        ∃ answer, v.Reads answer ∧ replies = [.checkedAmong session ids answer])
      (s.recording.checkAmong session ids st) :=
  answered_hears (fun _ => rfl) (fun _ => rfl)

theorem isCanceled_hears {monitor : Monitor ω} :
    Hears needy st (fun canceled replies => replies = [.asked canceled])
      (isCanceled monitor.recording st) :=
  ⟨[.asked (monitor st.world.1).1], ⟨rfl, rfl⟩, by simp [Usable, Reply.unavailable?], rfl⟩

theorem addFormula_hears (session : Session) (set : ClauseSet) :
    Hears needy st (fun _ replies => replies = []) (s.recording.addFormula session set st) :=
  ⟨[], ⟨rfl, (List.append_nil _).symm⟩, List.forall_mem_nil _, rfl⟩

/-! ## Queries -/

/-- A session is opened and checked, and the rest depends on the verdict. -/
theorem openCheck_hears {options : SessionOptions}
    {body : Session × Origins → SolverM (ω × List Reply) α}
    {next : Session → Origins → Verdict → SolverM (ω × List Reply) α} {post : α → List Reply → Prop}
    (hbody : ∀ session origins,
      body (session, origins) = s.recording.check session >>= next session origins)
    (hnext : ∀ session origins v answer st', v.Reads answer → Hears needy st'
      (fun a later =>
        post a (.opened (.ok ()) :: .checked (s.question st.stack options) answer :: later))
      (next session origins v st')) :
    Hears needy st post ((s.recording.openSession options >>= body) st) := by
  refine (openSession_hears options).bind ?_
  rintro ⟨session, origins⟩ _ st₁ ⟨hquestion, rfl⟩ -
  rw [hbody]
  refine (check_hears session).bind ?_
  rintro v _ st₂ ⟨answer, hanswer, rfl⟩ -
  rw [hquestion]
  exact hnext session origins v answer st₂ hanswer

/-- Satisfiability rests on one check of the base and the stack. -/
theorem isSatisfiable_hears :
    Hears needy st (fun result replies => ∃ answer,
        replies = [.opened (.ok ()), .checked (s.question st.stack {}) answer] ∧
        (result = .unsat ↔ ∃ core, answer = .ok (.unsat core)) ∧
        (result = .sat ↔ ∃ model, answer = .ok (.sat model)))
      (s.recording.isSatisfiable st) := by
  refine openCheck_hears (fun _ _ => rfl) ?_
  rintro _ _ _ _ st₁ (model | core | cause)
  · exact .pure ⟨_, rfl, by simp, by simp⟩
  · exact .pure ⟨_, rfl, by simp, by simp⟩
  · exact .pure ⟨_, rfl, by simp, by simp⟩

/-- A solution rests on one check of the base and the stack, and its assignment is the model of that
answer. -/
theorem solve_hears :
    Hears needy st (fun result replies => ∃ answer,
        replies = [.opened (.ok ()), .checked (s.question st.stack { models := true }) answer] ∧
        (result = .unsat ↔ ∃ core, answer = .ok (.unsat core)) ∧
        ∀ a, result = .sat a ↔
          ∃ model, answer = .ok (.sat (some model)) ∧ .ofModel model s.base.varCount = a)
      (s.recording.solve st) := by
  refine openCheck_hears (fun _ _ => rfl) ?_
  rintro _ _ _ _ st₁ ((_ | model) | core | cause)
  · exact .pure ⟨_, rfl, by simp, by simp⟩
  · exact .pure ⟨_, rfl, by simp, by simp [recording]⟩
  · exact .pure ⟨_, rfl, by simp, by simp⟩
  · exact .pure ⟨_, rfl, by simp, by simp⟩

/-- A model is found only if the answer to the one check has it. -/
theorem findModel_hears :
    Hears needy st (fun result replies => ∃ answer,
        replies = [.opened (.ok ()), .checked (s.question st.stack { models := true }) answer] ∧
        ∀ a, result = some a ↔
          ∃ model, answer = .ok (.sat (some model)) ∧ .ofModel model s.base.varCount = a)
      (s.recording.findModel st) := by
  refine solve_hears.bind ?_
  rintro solution _ st₁ ⟨answer, rfl, -, hsat⟩ -
  refine .pure ⟨answer, rfl, fun a => ?_⟩
  rw [← hsat]
  cases solution <;> simp [Solution.model?]

/-! ## Subsets -/

/-- A core is thinned out only while every check has an answer. -/
theorem thinOut_hears (session : Session) (kept ids : List Nat) :
    Hears True st (fun _ replies => ∀ r ∈ replies, r.isInconclusive = false)
      (s.recording.thinOut session kept ids st) := by
  induction ids generalizing kept st with
  | nil => exact .pure (List.forall_mem_nil _)
  | cons id ids ih =>
    refine (checkAmong_hears session _).bind ?_
    rintro _ _ st₁ ⟨_, model | core | cause, rfl⟩ -
    · exact (ih _).imp fun _ _ hrest => List.forall_mem_cons.2 ⟨rfl, hrest⟩
    · exact (ih _).imp fun _ _ hrest => List.forall_mem_cons.2 ⟨rfl, hrest⟩
    · exact .throw trivial

/-- A subset is found only if every check was answered, and the first answer says whether there is
one. -/
theorem unsatSubset_hears :
    Hears True st (fun result replies => ∃ answer later,
        replies = .opened (.ok ()) ::
          .checked (s.question st.stack { cores := true }) (.ok answer) :: later ∧
        (∀ r ∈ later, r.isInconclusive = false) ∧
        (result = none ↔ ∃ model, answer = .sat model))
      (s.recording.unsatSubset st) := by
  refine openCheck_hears (fun _ _ => rfl) ?_
  rintro session origins _ _ st₁ (model | (_ | core) | cause)
  · exact .pure ⟨_, [], rfl, List.forall_mem_nil _, by simp⟩
  · exact .throw trivial
  · refine (thinOut_hears session [] core).bind ?_
    intro ids later st₂ hlater _
    exact .pure ⟨.unsat (some core), later, by simp, hlater, by simp⟩
  · exact .throw trivial

/-! ## Counts -/

/-- A count is exact only after a check that says that there are no more models. -/
theorem countFrom_hears (vars : List Nat) (monitor : Monitor ω) (session : Session)
    (found room : Nat) :
    Hears needy st (fun count replies => ∀ n, count = .exact n → ∃ earlier question core,
        replies = earlier ++ [.checked question (.ok (.unsat core))] ∧
        n = found + (earlier.filterMap Reply.modelled?).length)
      (s.recording.countFrom vars monitor.recording session found room st) := by
  induction room generalizing session found st with
  | zero => exact .pure (by simp)
  | succ room ih =>
    refine isCanceled_hears.bind ?_
    rintro canceled _ st₁ rfl -
    cases canceled with
    | true => exact .pure (by simp)
    | false =>
      refine (check_hears session).bind ?_
      rintro _ _ st₂ ⟨_, (_ | model) | core | cause, rfl⟩ -
      · exact .pure (by simp)
      · refine (addFormula_hears session _).bind ?_
        rintro _ _ st₃ rfl -
        refine (ih _ (found + 1)).imp ?_
        intro count replies hexact n hn
        obtain ⟨earlier, question, core, rfl, rfl⟩ := hexact n hn
        refine ⟨.asked false :: .checked session.question (.ok (.sat (some model))) :: earlier,
          question, core, rfl, ?_⟩
        show _ = found + (session.question :: earlier.filterMap Reply.modelled?).length
        rw [List.length_cons, Nat.add_assoc, Nat.add_comm 1]
      · refine .pure ?_
        rintro n ⟨⟩
        exact ⟨[.asked false], session.question, core, rfl, rfl⟩
      · exact .pure (by simp)

/-- An exact count is the number of models that were reported before the check that found no more.
-/
theorem count_hears (vars : List Nat) (limit : Nat) (monitor : Monitor ω) :
    Hears needy st (fun count replies => ∀ n, count = .exact n → ∃ earlier question core,
        replies = earlier ++ [.checked question (.ok (.unsat core))] ∧
        n = (earlier.filterMap Reply.modelled?).length)
      (s.recording.count vars limit monitor.recording st) := by
  refine (openSession_hears { models := true }).bind ?_
  rintro ⟨session, _⟩ _ st₁ ⟨-, rfl⟩ -
  refine (countFrom_hears vars monitor session 0 limit).imp ?_
  intro count replies hexact n hn
  obtain ⟨earlier, question, core, rfl, rfl⟩ := hexact n hn
  refine ⟨.opened (.ok ()) :: earlier, question, core, rfl, ?_⟩
  rw [List.filterMap_cons_none rfl, Nat.zero_add]

/-! ## Pushing -/

/-- More lies on the stack, and nothing was asked. -/
structure Grown (st st' : SolverState ω) : Prop where
  stack : st.stack <+: st'.stack
  world : st'.world = st.world

theorem Grown.trans {st st' st'' : SolverState ω} (h : Grown st st') (h' : Grown st' st'') :
    Grown st st'' :=
  ⟨h.stack.trans h'.stack, h'.world.trans h.world⟩

/-- What is heard in a scope, after some constraints were pushed. -/
theorem inScope_hears {body : SolverM (ω × List Reply) α} {st₁ : SolverState (ω × List Reply)}
    {post : α → List Reply → Prop} (hgrown : Grown st st₁) (h : Hears needy st₁ post (body st)) :
    Hears needy st post (inScope body st) := by
  apply inScope_ends
  refine h.mono ?_ ?_
  · rintro a st' ⟨replies, hheard, husable, ha⟩
    refine ⟨hheard.stack ▸ hgrown.stack, replies, ⟨rfl, ?_⟩, husable, ha⟩
    rw [← hgrown.world]
    exact hheard.log
  · rintro e st' ⟨replies, hheard, hfails⟩
    refine ⟨hheard.stack ▸ hgrown.stack, replies, ⟨rfl, ?_⟩, hfails⟩
    rw [← hgrown.world]
    exact hheard.log

/-- The clause set that is pushed for a formula, unless the formula cannot be pushed or is
contradictory at once. -/
def applied? (s : Solver ω) (f : Formula) : Option ClauseSet :=
  match f.clauseForm s.base.vars s.base.clauseLimit with
  | .error _ => none
  | .ok set =>
      if set.triviallyUnsat || s.base.triviallyUnsat || s.base.refutes set then none else some set

/-- The clause set that is pushed for a literal. -/
def appliedLit? (s : Solver ω) (l : Lit) : Option ClauseSet :=
  match s.base.vars.literalFormula l with
  | .error _ => none
  | .ok f => s.applied? f

/-- The operation pushes the clause set, and says so if there is none. -/
def Pushes (set? : Option ClauseSet)
    (operation : EStateM StackError (SolverState ω) PushOutcome) : Prop :=
  ∀ st, ∃ outcome st', attempt operation st = .ok outcome st' ∧ Grown st st' ∧
    match set? with
    | some set => outcome = .ok .applied ∧ st'.stack.formulas = st.stack.formulas ++ [set]
    | none => outcome ≠ .ok .applied

/-- Pushing does not ask the backend anything. -/
theorem pushes_pushFormula (s : Solver ω) (f : Formula) :
    Pushes (s.applied? f) (s.pushFormula f) := by
  intro st
  cases hf : f.clauseForm s.base.vars s.base.clauseLimit with
  | error cause =>
    refine ⟨_, _, attempt_pushFormula_of_error hf st, ⟨List.prefix_rfl, rfl⟩, ?_⟩
    rw [applied?, hf]
    rintro ⟨⟩
  | ok set =>
    have hpush : s.pushFormula f st = .ok (if s.base.triviallyUnsat || s.base.refutes set then
        .contradictory else if set.triviallyUnsat then .contradictory else .applied)
        (pushed st f set) := by
      simp [pushFormula, push, ConstraintStack.push, hf, pushed]
    refine ⟨_, _, attempt_of_ok hpush, ⟨prefix_pushed st f set, rfl⟩, ?_⟩
    simp only [applied?, hf]
    cases set.triviallyUnsat <;> cases s.base.triviallyUnsat <;> cases s.base.refutes set <;>
      simp [pushed, ConstraintStack.formulas]

/-- Pushing a literal does not ask the backend anything either. -/
theorem pushes_pushLit (s : Solver ω) (l : Lit) : Pushes (s.appliedLit? l) (s.pushLit l) := by
  unfold appliedLit?
  cases hf : s.base.vars.literalFormula l with
  | error cause =>
    intro st
    refine ⟨.error (.clauseForm cause), st, ?_, ⟨List.prefix_rfl, rfl⟩, nofun⟩
    simp only [attempt, pushLit, hf]
  | ok f =>
    have hpush : s.pushLit l = s.pushFormula f := by
      unfold pushLit
      rw [hf]
    rw [hpush]
    exact s.pushes_pushFormula f

/-- A question about a further formula, which is asked only if the formula is pushed and not
contradictory at once. -/
theorem inScope_pushing_hears {set? : Option ClauseSet}
    {operation : EStateM StackError (SolverState (ω × List Reply)) PushOutcome}
    {body : Except StackError PushOutcome → SolverM (ω × List Reply) α}
    {post : α → List Reply → Prop} (hpushes : Pushes set? operation)
    (hother : set? = none → ∀ outcome st₁, outcome ≠ .ok .applied →
      Hears needy st₁ post (body outcome st₁))
    (happlied : ∀ set st₁, set? = some set → st₁.stack.formulas = st.stack.formulas ++ [set] →
      Hears needy st₁ post (body (.ok .applied) st₁)) :
    Hears needy st post (inScope (attempt operation >>= body) st) := by
  obtain ⟨outcome, st₁, hrun, hgrown, houtcome⟩ := hpushes st
  apply inScope_hears hgrown
  rw [run_bind_of_ok hrun]
  cases hset : set? with
  | none =>
    rw [hset] at houtcome
    exact hother hset outcome st₁ houtcome
  | some set =>
    rw [hset] at houtcome
    obtain ⟨rfl, hformulas⟩ := houtcome
    exact happlied set st₁ hset hformulas

/-- What is asked about the base, the stack and some more clause sets. -/
def questionUnder (s : Solver ω) (stack : ConstraintStack) (options : SessionOptions)
    (sets : List ClauseSet) : Question :=
  ⟨s.base.varCount, options, s.told stack ++ sets⟩

/-- What is pushed is asked about just like further clause sets. -/
theorem told_of_pushed {stack stack' : ConstraintStack} {set : ClauseSet}
    (h : stack'.formulas = stack.formulas ++ [set]) : s.told stack' = s.told stack ++ [set] := by
  rw [told_eq_append, s.told_eq_append stack, h, List.append_assoc]

/-- The question about a stack with one more clause set is the one with a further clause set. -/
theorem question_of_pushed {stack stack' : ConstraintStack} {set : ClauseSet}
    (h : stack'.formulas = stack.formulas ++ [set]) (options : SessionOptions) :
    s.question stack' options = s.questionUnder stack options [set] := by
  rw [question, questionUnder, told_of_pushed h]

/-! ## Candidates -/

/-- The question by which some assumptions are tested, if none of them is refused or contradictory
at once. -/
def testingUnder? (s : Solver ω) (stack : ConstraintStack) (ls : List Lit) : Option Question :=
  (ls.mapM s.appliedLit?).map (s.questionUnder stack { models := true })

/-- The question by which a candidate is tested. -/
def testing? (s : Solver ω) (stack : ConstraintStack) (p : Implication) : Option Question :=
  s.testingUnder? stack [p.forcing, p.forced.negate]

/-- A candidate is implied only if an assumption is contradictory at once, or the question with the
assumptions has no model. -/
def Finding.RestsOn (question? : Option Question) (finding : Finding) (replies : List Reply) :
    Prop :=
  finding = .implied → question?.toList.Sublist (replies.filterMap Reply.refuted?)

/-- Without assumptions the question is the one about the base and the stack. -/
theorem testingUnder?_nil (stack : ConstraintStack) :
    s.testingUnder? stack [] = some (s.question stack { models := true }) := by
  simp [testingUnder?, questionUnder, question]

/-- Nothing is asked once an assumption is refused or contradictory. -/
theorem testingUnder?_of_none {l : Lit} (h : s.appliedLit? l = none) (stack : ConstraintStack)
    (ls : List Lit) : s.testingUnder? stack (l :: ls) = none := by
  simp [testingUnder?, h]

/-- An assumption may just as well lie on the stack. -/
theorem testingUnder?_of_some {l : Lit} {set : ClauseSet} {stack stack' : ConstraintStack}
    (h : s.appliedLit? l = some set) (hstack : stack'.formulas = stack.formulas ++ [set])
    (ls : List Lit) : s.testingUnder? stack (l :: ls) = s.testingUnder? stack' ls := by
  unfold testingUnder?
  rw [List.mapM_cons, h]
  cases ls.mapM s.appliedLit? with
  | none => rfl
  | some sets => simp [questionUnder, told_of_pushed hstack]

/-- A candidate tested under assumptions rests on the question with all of them. -/
theorem testUnder_hears (ls : List Lit) (st : SolverState (ω × List Reply)) :
    ∃ st₁, Grown st st₁ ∧ Hears needy st₁ (Finding.RestsOn (s.testingUnder? st.stack ls))
      (s.recording.testUnder ls st) := by
  induction ls generalizing st with
  | nil =>
    refine ⟨st, ⟨List.prefix_rfl, rfl⟩, solve_hears.bind ?_⟩
    rintro solution _ st₁ ⟨answer, rfl, hunsat, -⟩ -
    rw [testingUnder?_nil]
    cases solution with
    | unsat =>
      obtain ⟨core, rfl⟩ := hunsat.1 rfl
      exact .pure fun _ => List.Sublist.refl _
    | sat a => exact .pure nofun
    | unknown => exact .pure nofun
  | cons l ls ih =>
    obtain ⟨outcome, st₁, hrun, hgrown, houtcome⟩ := s.recording.pushes_pushLit l st
    change match s.appliedLit? l with | some set => _ | none => _ at houtcome
    rw [testUnder, run_bind_of_ok hrun]
    cases hset : s.appliedLit? l with
    | none =>
      rw [hset] at houtcome
      rw [testingUnder?_of_none hset]
      rcases outcome with cause | (_ | _)
      · exact ⟨st₁, hgrown, .pure fun _ => List.nil_sublist _⟩
      · exact absurd rfl houtcome
      · exact ⟨st₁, hgrown, .pure fun _ => List.nil_sublist _⟩
    | some set =>
      rw [hset] at houtcome
      obtain ⟨rfl, hformulas⟩ := houtcome
      rw [testingUnder?_of_some hset hformulas]
      obtain ⟨st₂, hgrown', hrest⟩ := ih st₁
      exact ⟨st₂, hgrown.trans hgrown', hrest⟩

/-- The test of a candidate rests on the question with both of its literals. -/
theorem test_hears (p : Implication) :
    Hears needy st (Finding.RestsOn (s.testing? st.stack p)) (s.recording.test p st) := by
  obtain ⟨st₁, hgrown, h⟩ := testUnder_hears [p.forcing, p.forced.negate] st
  exact inScope_hears hgrown h

/-- Every reported candidate has a reply of its own that supports it, unless an assumption was
contradictory at once. -/
theorem impliedFrom_hears (monitor : Monitor ω) (cache : ModelCache) (ps : List Implication) :
    Hears needy st (fun found replies =>
        (found.filterMap (s.testing? st.stack)).Sublist (replies.filterMap Reply.refuted?))
      (s.recording.impliedFrom monitor.recording cache ps st) := by
  induction ps generalizing cache st with
  | nil => exact .pure (List.nil_sublist _)
  | cons p ps ih =>
    refine Hears.bind isCanceled_hears ?_
    rintro canceled _ st₁ rfl hstack
    rw [← hstack]
    cases canceled with
    | true => exact .pure (List.nil_sublist _)
    | false =>
      show Hears _ _ _ ((if cache.refutes p then _ else _ : SolverM _ _) st₁)
      split
      · exact ih cache
      · refine (test_hears p).bind ?_
        intro finding replies st₂ hfinding hstack'
        have hskip {cache : ModelCache} : Hears needy st₂ (fun found later =>
            (found.filterMap (s.testing? st₁.stack)).Sublist
              (([Reply.asked false] ++ (replies ++ later)).filterMap Reply.refuted?))
            (s.recording.impliedFrom monitor.recording cache ps st₂) := by
          rw [← hstack']
          refine (ih cache).imp fun found later hfound => ?_
          rw [← List.append_assoc, List.filterMap_append]
          exact hfound.trans (List.sublist_append_right _ _)
        cases finding with
        | implied =>
          refine Hears.bind (ih cache) ?_
          intro found later st₃ hfound _
          refine .pure ?_
          rw [hstack'] at hfound
          show ((p :: found).filterMap (s.testing? st₁.stack)).Sublist
            ((replies ++ (later ++ [])).filterMap Reply.refuted?)
          rw [List.append_nil, List.filterMap_append, List.filterMap_eq_flatMap_toList,
            List.flatMap_cons, ← List.filterMap_eq_flatMap_toList]
          exact (hfinding rfl).append hfound
        | refuted a => exact hskip
        | unknown => exact hskip

/-- What is found rests on a first model, and on a refuted question for each candidate that has one.
-/
theorem implied_hears (buffer : Nat) (monitor : Monitor ω) (ps : List Implication) :
    Hears needy st (fun found replies =>
        (found ≠ [] → s.question st.stack { models := true } ∈ replies.filterMap Reply.modelled?) ∧
        (found.filterMap (s.testing? st.stack)).Sublist (replies.filterMap Reply.refuted?))
      (s.recording.implied buffer monitor.recording ps st) := by
  unfold implied
  split
  · exact .pure ⟨by simp, List.nil_sublist _⟩
  · refine Hears.bind isCanceled_hears ?_
    rintro canceled _ st₁ rfl hstack
    rw [← hstack]
    cases canceled with
    | true => exact .pure ⟨by simp, List.nil_sublist _⟩
    | false =>
      refine findModel_hears.bind ?_
      rintro model _ st₂ ⟨answer, rfl, hmodel⟩ hstack'
      cases model with
      | none => exact .pure ⟨by simp, List.nil_sublist _⟩
      | some a =>
        obtain ⟨model, rfl, -⟩ := (hmodel a).1 rfl
        rw [← hstack']
        refine (impliedFrom_hears monitor _ ps).imp ?_
        intro found later hfound
        exact ⟨fun _ => List.mem_cons_self, hfound⟩

end Solver

end ProductLine
