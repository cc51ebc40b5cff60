import ProductLine.Proofs.Satisfiability.Trust
import ProductLine.Proofs.Solver.Stack
/-!
# What queries answer

With a backend that can be trusted, the answer of a query is true of the base and the stack, and
the stack stays as it is.

* `Solver.Yields` says what is known of a result, of a failure and of the state after a query;
* `Solver.inScope_pushFormula_yields` is about questions that push a formula first;
* `Solver.Opens` says what is opened for a query, and `Solver.openSession_yields` that the ids in it
  are all different;
* `Solver.isSatisfiable_yields`, `Solver.solve_yields` and `Solver.findModel_yields` are about the
  queries themselves, and `Solver.isSatisfiable_ends` and `Solver.findModel_ends` about queries to a
  backend of which only the models are true.
-/
namespace ProductLine

/-- What is known after a check of some formulas of a session. -/
def Session.Concludes (session : Session) (fallible : Prop) (sets : List ClauseSet) :
    Solver.Verdict → Prop
  | .sat model => session.Supports fallible sets (.ok (.sat model))
  | .unsat core => session.Supports fallible sets (.ok (.unsat core))
  | .unknown => fallible

/-- The monitor does not cancel in good worlds, and leads to good worlds. -/
def Monitor.NeverCancels {ω : Type} (monitor : Monitor ω) (good : ω → Prop) : Prop :=
  ∀ w, good w → (monitor w).1 = false ∧ good (monitor w).2

/-- The monitor leads from good worlds to good ones, and cancels only in the `fallible` case. -/
def Monitor.Trusted {ω : Type} (monitor : Monitor ω) (good : ω → Prop) (fallible : Prop) : Prop :=
  ∀ w, good w → ((monitor w).1 = true → fallible) ∧ good (monitor w).2

/-- A monitor that never cancels can be trusted. -/
theorem Monitor.NeverCancels.trusted {ω : Type} {monitor : Monitor ω} {good : ω → Prop}
    (h : monitor.NeverCancels good) : monitor.Trusted good False := by
  intro w hw
  obtain ⟨hrunning, hgood⟩ := h w hw
  exact ⟨by simp [hrunning], hgood⟩

/-- A monitor that never cancels whatever was logged never cancels. -/
theorem Monitor.NeverCancels.of_log {ω τ : Type} {monitor : Monitor ω} {good : ω → Prop}
    {log : ω → τ} (h : ∀ x, monitor.NeverCancels (fun w => good w ∧ log w = x)) :
    monitor.NeverCancels good := by
  intro w hw
  obtain ⟨hrunning, hgood, -⟩ := h (log w) w ⟨hw, rfl⟩
  exact ⟨hrunning, hgood⟩

namespace Solver

variable {ω α β : Type} {s : Solver ω} {good : ω → Prop} {fallible : Prop}

/-! ## Computations that leave the stack alone -/

/-- The stack is as it was, and the world is a good one. -/
structure Kept (good : ω → Prop) (st st' : SolverState ω) : Prop where
  stack : st'.stack = st.stack
  world : good st'.world

theorem Kept.trans {st st' st'' : SolverState ω} (h : Kept good st st') (h' : Kept good st' st'') :
    Kept good st st'' :=
  ⟨h'.stack.trans h.stack, h'.world⟩

/-- A computation from `st` ended with a result with `post`, or failed although that is possible
only in the `fallible` case.  Either way it left the stack alone. -/
def Yields (good : ω → Prop) (fallible : Prop) (st : SolverState ω) (post : α → Prop) :
    EStateM.Result AnalysisError (SolverState ω) α → Prop :=
  Ends (fun a st' => post a ∧ Kept good st st') (fun _ st' => fallible ∧ Kept good st st')

namespace Yields

variable {st : SolverState ω} {post : α → Prop}
  {r : EStateM.Result AnalysisError (SolverState ω) α}

theorem imp {post' : α → Prop} (h : Yields good fallible st post r)
    (hpost : ∀ a, post a → post' a) : Yields good fallible st post' r :=
  Ends.imp h (fun a _ ha => ⟨hpost a ha.1, ha.2⟩)

theorem pure {a : α} (ha : post a) (hgood : good st.world) :
    Yields good fallible st post (EStateM.pure a st) :=
  ⟨ha, rfl, hgood⟩

/-- A computation is followed by one that depends on its result, and neither touches the stack. -/
theorem bind {x : SolverM ω α} {f : α → SolverM ω β} {next : β → Prop}
    (hx : Yields good fallible st post (x st))
    (hf : ∀ a st', post a → Kept good st st' → Yields good fallible st' next (f a st')) :
    Yields good fallible st next ((x >>= f) st) := by
  apply Ends.bind hx
  -- What the rest keeps is what was kept before it.
  rintro a st' ⟨ha, hkept⟩
  exact (hf a st' ha hkept).mono (fun _ _ h => ⟨h.1, hkept.trans h.2⟩)
    (fun _ _ h => ⟨h.1, hkept.trans h.2⟩)

/-- Where nothing can fail there is a result. -/
theorem exists_ok (h : Yields good False st post r) :
    ∃ a st', r = .ok a st' ∧ post a ∧ Kept good st st' :=
  Ends.exists_ok (h.mono (fun _ _ ha => ha) (fun _ _ he => he.1))

end Yields

/-- Letting the world answer keeps the stack. -/
theorem ask_yields {question : ω → α × ω} {post : α → Prop} {st : SolverState ω}
    (hpost : post (question st.world).1) (hgood : good (question st.world).2) :
    Yields good fallible st post (ask question st) :=
  ⟨hpost, rfl, hgood⟩

/-- A monitor that can be trusted cancels only in the `canceling` case. -/
theorem isCanceled_tells {canceling : Prop} {monitor : Monitor ω}
    (hmonitor : monitor.Trusted good canceling) {st : SolverState ω} (hw : good st.world) :
    Yields good fallible st (fun canceled => canceled = true → canceling)
      (isCanceled monitor st) :=
  ask_yields (hmonitor st.world hw).1 (hmonitor st.world hw).2

/-! ## Questions about a further formula -/

/-- A question in a scope of its own, about the base, the stack and a further formula.  The formula
is pushed if it has a clause form, and the stack is restored in the end. -/
theorem inScope_pushFormula_yields {body : Except StackError PushOutcome → SolverM ω α}
    {f : Formula}
    {st : SolverState ω} {post : α → Prop} (hs : s.Ready st.stack) (hw : good st.world)
    (hrefused : ∀ cause, f.clauseForm s.base.vars s.base.clauseLimit = .error cause →
      ∀ st', Kept good st st' →
        Yields good fallible st' post (body (.error (.clauseForm cause)) st'))
    (hpushed : ∀ set outcome, f.clauseForm s.base.vars s.base.clauseLimit = .ok set →
      (outcome = .contradictory → ∀ v, ¬ s.Models (pushed st f set).stack v) →
        Yields good fallible (pushed st f set) post (body (.ok outcome) (pushed st f set))) :
    Yields good fallible st post (inScope (attempt (s.pushFormula f) >>= body) st) := by
  apply inScope_ends
  cases hf : f.clauseForm s.base.vars s.base.clauseLimit with
  | error cause =>
    rw [run_bind_of_ok (attempt_pushFormula_of_error hf st)]
    have hkept : Kept good st { st with nextLabel := st.nextLabel + 1 } := ⟨rfl, hw⟩
    refine (hrefused cause hf _ hkept).mono ?_ ?_
    all_goals exact fun _ _ h => ⟨h.2.stack ▸ List.prefix_rfl, h.1, rfl, h.2.world⟩
  | ok set =>
    obtain ⟨outcome, hpush, hcontra⟩ := pushFormula_of_clauseForm hs.base hf st
    rw [run_bind_of_ok (attempt_of_ok hpush)]
    refine (hpushed set outcome hf ?_).mono ?_ ?_
    · intro houtcome v hv
      obtain ⟨hstack, htrue⟩ := (hs.models_pushed_iff hf v).1 hv
      rw [hcontra houtcome v (hs.eval_base hstack)] at htrue
      cases htrue
    all_goals exact fun _ _ h => ⟨h.2.stack ▸ prefix_pushed st f set, h.1, rfl, h.2.world⟩

/-! ## Sessions -/

/-- What is asked about the base and a stack. -/
def question (s : Solver ω) (stack : ConstraintStack) (options : SessionOptions) : Question :=
  ⟨s.base.varCount, options, s.told stack⟩

/-- What is opened for the base and a stack: a session that is asked about them, and the constraints
by the ids that their clause forms were given. -/
structure Opens (s : Solver ω) (stack : ConstraintStack) (options : SessionOptions)
    (session : Session) (origins : Origins) : Prop where
  question : session.question = s.question stack options
  given : ∃ given : List (Nat × Constraint × ClauseSet), given.map Prod.snd = s.stated stack ∧
    session.told = given.map (fun g => (g.1, g.2.2)) ∧
    origins = (given.map (fun g => (g.1, g.2.1))).reverse

namespace Opens

variable {stack : ConstraintStack} {options : SessionOptions} {session : Session}
  {origins : Origins} (h : s.Opens stack options session origins)
include h

theorem varCount : session.varCount = s.base.varCount := congrArg Question.varCount h.question

theorem options_eq : session.options = options := congrArg Question.options h.question

theorem formulas : session.formulas = s.told stack := congrArg Question.formulas h.question

end Opens

/-- Whatever ids are given, every constraint is noted under the one of its clause form. -/
theorem exists_given (b : Backend ω) (stated : List (Constraint × ClauseSet)) (session : Session)
    (origins : Origins) (w : ω) :
    ∃ given : List (Nat × Constraint × ClauseSet), given.map Prod.snd = stated ∧
      (tellAll b stated session origins w).1 =
        ({ session with told := session.told ++ given.map (fun g => (g.1, g.2.2)) },
          (given.map (fun g => (g.1, g.2.1))).reverse ++ origins) := by
  induction stated generalizing session origins w with
  | nil => exact ⟨[], rfl, by simp [tellAll]⟩
  | cons p stated ih =>
    obtain ⟨c, set⟩ := p
    obtain ⟨given, hgiven, htold⟩ := ih (session.add (b.adding session set w).1 set)
      (((b.adding session set w).1, c) :: origins) (b.adding session set w).2
    refine ⟨((b.adding session set w).1, c, set) :: given, by rw [List.map_cons, hgiven], ?_⟩
    rw [tellAll, htold]
    simp [Session.add]

/-- A session that is told the base and the stack is asked about them. -/
theorem opens_tellAll (s : Solver ω) (stack : ConstraintStack) (options : SessionOptions) (w : ω) :
    let opened := (tellAll s.backend (s.stated stack) (.start s.base.varCount options) [] w).1
    s.Opens stack options opened.1 opened.2 := by
  obtain ⟨given, hgiven, htold⟩ := exists_given s.backend (s.stated stack)
    (.start s.base.varCount options) [] w
  rw [htold]
  refine ⟨?_, given, hgiven, rfl, List.append_nil _⟩
  simp [Session.question, question, Session.start, Session.formulas, told, ← hgiven]

/-- What every formula keeps true of a session is true after all of them. -/
theorem tellAll_keeps {b : Backend ω} {kept : Session → Prop}
    (hadding : ∀ session set w, kept session → set.InRange session.varCount → good w →
      kept (session.add (b.adding session set w).1 set) ∧ good (b.adding session set w).2)
    {stated : List (Constraint × ClauseSet)} {session : Session} (origins : Origins) {w : ω}
    (hstated : ∀ p ∈ stated, p.2.InRange session.varCount) (hsession : kept session) (hw : good w) :
    kept (tellAll b stated session origins w).1.1 ∧
      good (tellAll b stated session origins w).2 := by
  induction stated generalizing session origins w with
  | nil => exact ⟨hsession, hw⟩
  | cons p stated ih =>
    obtain ⟨hset, hstated⟩ := List.forall_mem_cons.1 hstated
    obtain ⟨hadded, hworld⟩ := hadding session p.2 w hsession hset hw
    exact ih _ hstated hadded hworld

/-- A session that is opened is told the base and the stack, with whatever every formula keeps true
of it. -/
theorem openSession_ends {kept : Session → Prop} {options : SessionOptions} {st : SolverState ω}
    (hadding : ∀ session set w, kept session → set.InRange session.varCount → good w →
      kept (session.add (s.backend.adding session set w).1 set) ∧
        good (s.backend.adding session set w).2)
    (hstart : kept (.start s.base.varCount options)) (hs : s.Ready st.stack)
    (hgood : good (s.backend.opening s.base.varCount options st.world).2)
    (hopened : (s.backend.opening s.base.varCount options st.world).1 = .ok () ∨ fallible) :
    Yields good fallible st
      (fun opened => s.Opens st.stack options opened.1 opened.2 ∧ kept opened.1)
      (s.openSession options st) := by
  unfold openSession
  rcases hopening : s.backend.opening s.base.varCount options st.world with ⟨_ | _, w⟩
  · rw [hopening] at hgood hopened
    have hfallible : fallible := by simpa using hopened
    exact ⟨hfallible, rfl, hgood⟩
  · rw [hopening] at hgood
    have hstated : ∀ p ∈ s.stated st.stack, p.2.InRange s.base.varCount :=
      fun p hp => hs.inRange p.2 (List.mem_map_of_mem hp)
    obtain ⟨hkept, hworld⟩ := tellAll_keeps hadding [] hstated hstart hgood
    exact ⟨⟨s.opens_tellAll st.stack options w, hkept⟩, rfl, hworld⟩

/-- With a backend that can be trusted the ids are told apart. -/
theorem openSession_yields (hb : s.backend.Trusted good fallible) (options : SessionOptions)
    {st : SolverState ω} (hs : s.Ready st.stack) (hw : good st.world) :
    Yields good fallible st
      (fun opened => s.Opens st.stack options opened.1 opened.2 ∧ s.backend.Keyed opened.1)
      (s.openSession options st) := by
  have h := hb.opening s.base.varCount options st.world hw
  refine openSession_ends ?_ (.start _ _) hs h.1 h.2
  intro session set w hsession hset hw
  obtain ⟨hnew, hgood⟩ := hb.adding session set w hsession hw
  exact ⟨hsession.add hset hnew, hgood⟩

/-- Telling a session one more formula. -/
theorem addFormula_yields (hb : s.backend.Trusted good fallible) {session : Session}
    {set : ClauseSet} (hsession : s.backend.Keyed session) (hset : set.InRange session.varCount)
    {st : SolverState ω} (hw : good st.world) :
    Yields good fallible st
      (fun session' => (∃ id, session' = session.add id set) ∧ s.backend.Keyed session')
      (s.addFormula session set st) := by
  obtain ⟨hnew, hgood⟩ := hb.adding session set st.world hsession hw
  exact ⟨⟨⟨_, rfl⟩, hsession.add hset hnew⟩, rfl, hgood⟩

/-- A verdict says what the answer said. -/
theorem answered_yields {question : ω → Except BackendError Answer × ω} {session : Session}
    {sets : List ClauseSet} {st : SolverState ω} (hgood : good (question st.world).2)
    (hanswer : session.Supports fallible sets (question st.world).1) :
    Yields good fallible st (session.Concludes fallible sets) (answered question st) := by
  rcases st with ⟨stack, nextLabel, w⟩
  simp only [answered]
  rcases hquestion : question w with ⟨answer, w'⟩
  rw [hquestion] at hgood hanswer
  -- One failure ends the computation, the others are verdicts that say nothing.
  rcases answer with (_ | _ | _ | _) | (_ | _)
  all_goals exact ⟨hanswer, rfl, hgood⟩

/-- A check concludes something about all that the session was told. -/
theorem check_yields (hb : s.backend.Trusted good fallible) {session : Session}
    (hsession : s.backend.Keyed session) {st : SolverState ω} (hw : good st.world) :
    Yields good fallible st (session.Concludes fallible session.formulas)
      (s.check session st) :=
  have h := hb.checking session st.world hsession hw
  answered_yields h.1 h.2

/-- A check under selectors concludes something about the clause sets among the ids. -/
theorem checkAmong_yields (hb : s.backend.Trusted good fallible) {session : Session}
    (hsession : s.backend.Keyed session) (hcores : session.options.cores = true) (ids : List Nat)
    {st : SolverState ω} (hw : good st.world) :
    Yields good fallible st (session.Concludes fallible (session.among ids))
      (s.checkAmong session ids st) :=
  have h := hb.checkingAmong session ids st.world hsession hcores hw
  answered_yields h.1 h.2

/-! ## Queries -/

/-- What an answer to the question for a model says, when there is one exactly if `sat`. -/
def Satisfiability.Tells (sat fallible : Prop) : Satisfiability → Prop
  | .sat => sat
  | .unsat => ¬ sat
  | .unknown => fallible

/-- What a solution says: it has a value for each variable of the base. -/
def Solution.Tells (s : Solver ω) (stack : ConstraintStack) (fallible : Prop) : Solution → Prop
  | .sat a => s.Models stack a.valuation ∧ a.size = s.base.varCount
  | .unsat => ∀ v, ¬ s.Models stack v
  | .unknown => fallible

/-- What is told is satisfiable exactly if the base and the stack have a model. -/
theorem Ready.satisfiable_iff {stack : ConstraintStack} (h : s.Ready stack) :
    ClauseSet.Satisfiable (s.told stack) ↔ ∃ v, s.Models stack v :=
  exists_congr (fun v => (h.models_iff v).symm)

section Opens

variable {stack : ConstraintStack} {options : SessionOptions} {session : Session}
  {origins : Origins} (h : s.Opens stack options session origins) (hs : s.Ready stack)
include h hs

/-- The formulas of a session that is opened hold together exactly if the base and the stack have a
model. -/
theorem Opens.satisfiable_iff :
    ClauseSet.Satisfiable session.formulas ↔ ∃ v, s.Models stack v := by
  rw [h.formulas, hs.satisfiable_iff]

/-- The assignment of a model of the session is a model of the base and the stack. -/
theorem Opens.models_ofModel {model : List Lit} (hmodel : session.IsModel session.formulas model) :
    s.Models stack (Assignment.ofModel model s.base.varCount).valuation := by
  rw [hs.models_iff, ← h.formulas, ← h.varCount]
  exact fun set hset => hmodel.eval_ofModel hset

end Opens

/-- A satisfiability query answers whether there is a model. -/
theorem isSatisfiable_yields (hb : s.backend.Trusted good fallible) {st : SolverState ω}
    (hs : s.Ready st.stack) (hw : good st.world) :
    Yields good fallible st (Satisfiability.Tells (∃ v, s.Models st.stack v) fallible)
      (s.isSatisfiable st) := by
  refine (openSession_yields hb {} hs hw).bind ?_
  rintro ⟨session, origins⟩ st₁ ⟨hopens, hsession⟩ h₁
  refine (check_yields hb hsession h₁.world).bind ?_
  intro verdict st₂ hverdict h₂
  cases verdict with
  | sat model => exact .pure ((hopens.satisfiable_iff hs).1 hverdict.1) h₂.world
  | unsat core => exact .pure (mt (hopens.satisfiable_iff hs).2 hverdict.1) h₂.world
  | unknown => exact .pure hverdict h₂.world

/-- A model that is found is one, and none is missed. -/
theorem solve_yields (hb : s.backend.Trusted good fallible) {st : SolverState ω}
    (hs : s.Ready st.stack) (hw : good st.world) :
    Yields good fallible st (Solution.Tells s st.stack fallible) (s.solve st) := by
  refine (openSession_yields hb { models := true } hs hw).bind ?_
  rintro ⟨session, origins⟩ st₁ ⟨hopens, hsession⟩ h₁
  refine (check_yields hb hsession h₁.world).bind ?_
  intro verdict st₂ hverdict h₂
  rcases verdict with (_ | model) | core | _
  -- Without the model that was asked for the answer is unknown, which takes a fallible backend.
  · have hmodels : session.options.models = true := by rw [hopens.options_eq]
    exact .pure (hverdict.2.2 hmodels rfl) h₂.world
  · have hmodel := hopens.models_ofModel hs (hverdict.2.1 model rfl)
    exact .pure ⟨hmodel, Assignment.size_ofModel model s.base.varCount⟩ h₂.world
  · refine .pure (fun v hv => hverdict.1 ?_) h₂.world
    exact (hopens.satisfiable_iff hs).2 ⟨v, hv⟩
  · exact .pure hverdict h₂.world

/-- The same for a query that does not tell apart why it has no model. -/
theorem findModel_yields (hb : s.backend.Trusted good fallible) {st : SolverState ω}
    (hs : s.Ready st.stack) (hw : good st.world) :
    Yields good fallible st
      (fun model => (∀ a, model = some a → Solution.Tells s st.stack fallible (.sat a)) ∧
        (model = none → (∀ v, ¬ s.Models st.stack v) ∨ fallible))
      (s.findModel st) := by
  refine (solve_yields hb hs hw).bind ?_
  intro solution st₁ hsolution h₁
  refine .pure ?_ h₁.world
  cases solution with
  | sat a =>
    refine ⟨?_, nofun⟩
    rintro _ ⟨⟩
    exact hsolution
  | unsat => exact ⟨nofun, fun _ => .inl hsolution⟩
  | unknown => exact ⟨nofun, fun _ => .inr hsolution⟩

/-! ## Queries to a backend that only finds true models -/

/-- A verdict has a model only if the answer had it. -/
theorem answered_ends {question : ω → Except BackendError Answer × ω} {st : SolverState ω}
    (hgood : good (question st.world).2) :
    Yields good True st (fun verdict => ∀ model, verdict = .sat (some model) →
      (question st.world).1 = .ok (.sat (some model))) (answered question st) := by
  rcases st with ⟨stack, nextLabel, w⟩
  simp only [answered]
  rcases hquestion : question w with ⟨answer, w'⟩
  rw [hquestion] at hgood
  rcases answer with (_ | _ | _ | _) | (_ | _)
  · exact ⟨trivial, rfl, hgood⟩
  · exact ⟨nofun, rfl, hgood⟩
  · exact ⟨nofun, rfl, hgood⟩
  · exact ⟨nofun, rfl, hgood⟩
  · exact ⟨fun model hmodel => by cases hmodel; rfl, rfl, hgood⟩
  · exact ⟨nofun, rfl, hgood⟩

section TrueModels

variable (hb : s.backend.TrueModels good) {st : SolverState ω} (hs : s.Ready st.stack)
  (hw : good st.world)
include hb hs hw

/-- A session that is opened is one of the backend, though its ids need not be told apart. -/
theorem openSession_opened (options : SessionOptions) : Yields good True st
    (fun opened => s.Opens st.stack options opened.1 opened.2 ∧ s.backend.Opened opened.1)
    (s.openSession options st) :=
  openSession_ends
    (fun session set w hsession hset hw =>
      ⟨.add w hsession hset, hb.adding session set w hsession hw⟩)
    (.start _ _) hs (hb.opening _ options _ hw) (.inr trivial)

/-- A query whether there is a model leaves the stack alone, whatever is answered. -/
theorem isSatisfiable_ends : Yields good True st (fun _ => True) (s.isSatisfiable st) := by
  refine (openSession_opened hb hs hw {}).bind ?_
  rintro ⟨session, origins⟩ st₁ ⟨-, hsession⟩ h₁
  refine (answered_ends (hb.checking _ _ hsession h₁.world).1).bind ?_
  intro verdict st₂ _ h₂
  cases verdict <;> exact .pure trivial h₂.world

/-- A model that is found is one. -/
theorem findModel_ends : Yields good True st
    (fun model => ∀ a, model = some a → s.Models st.stack a.valuation) (s.findModel st) := by
  suffices hsolve : Yields good True st
      (fun solution => ∀ a, solution.model? = some a → s.Models st.stack a.valuation)
      (s.solve st) from
    hsolve.bind fun solution st₁ hsolution h₁ => .pure hsolution h₁.world
  refine (openSession_opened hb hs hw { models := true }).bind ?_
  rintro ⟨session, origins⟩ st₁ ⟨hopens, hsession⟩ h₁
  have hchecked := hb.checking _ _ hsession h₁.world
  refine (answered_ends hchecked.1).bind ?_
  intro verdict st₂ hverdict h₂
  rcases verdict with (_ | model) | core | _
  · exact .pure nofun h₂.world
  · refine .pure ?_ h₂.world
    rintro _ ⟨⟩
    exact hopens.models_ofModel hs (hchecked.2 model (hverdict model rfl))
  · exact .pure nofun h₂.world
  · exact .pure nofun h₂.world

end TrueModels

end Solver

end ProductLine
