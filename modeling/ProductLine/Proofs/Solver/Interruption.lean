import Mathlib
import ProductLine.Proofs.Solver.Implied
/-!
# Interrupted searches find only implied literals

A backend may fail or give no model at any check, and a monitor may cancel whenever it is asked.
Then candidates are missed, but none is reported that is not implied, and the stack is as it was
before, also if the search fails.

* `Monitor.Follows` says how worlds tell how often the monitor was asked, and whether it canceled;
* `Solver.Found` says what is known of the candidates that are reported;
* `Solver.impliedFrom_finds` is about the tests of a list, and `Solver.implied_sound` about a whole
  search.
-/
namespace ProductLine

/-- In the worlds of `running n` the monitor was asked `n` times and never canceled.  When it is
asked in one of them it goes on, or cancels and leads to `stopped n`. -/
def Monitor.Follows {ω : Type} (monitor : Monitor ω) (running stopped : Nat → ω → Prop) : Prop :=
  ∀ n w, running n w →
    if (monitor w).1 then stopped n (monitor w).2 else running (n + 1) (monitor w).2

namespace Solver

variable {ω : Type} {s : Solver ω} {stack : ConstraintStack} {running stopped : Nat → ω → Prop}

/-- The reported candidates are implied, and are some of the first `most` ones, in order. -/
structure Found (s : Solver ω) (stack : ConstraintStack) (ps : List Implication) (most : Nat)
    (found : List Implication) : Prop where
  sublist : found.Sublist (ps.take most)
  entails : ∀ p ∈ found, s.Entails stack p

namespace Found

variable {ps found : List Implication} {p : Implication} {most : Nat}

theorem nil (s : Solver ω) (stack : ConstraintStack) (ps : List Implication) (most : Nat) :
    s.Found stack ps most [] :=
  ⟨List.nil_sublist _, by simp⟩

/-- A candidate that is passed over is not needed. -/
theorem skip (h : s.Found stack ps most found) : s.Found stack (p :: ps) (most + 1) found :=
  ⟨h.sublist.cons p, h.entails⟩

/-- A candidate that is entailed may be reported. -/
theorem keep (h : s.Found stack ps most found) (hp : s.Entails stack p) :
    s.Found stack (p :: ps) (most + 1) (p :: found) :=
  ⟨h.sublist.cons_cons p, List.forall_mem_cons.2 ⟨hp, h.entails⟩⟩

end Found

/-- The search may go on, or it was canceled when the monitor was asked for the last time. -/
def Reached (running stopped : Nat → ω → Prop) (n : Nat) (w : ω) : Prop := running n w ∨ stopped n w

/-- Asking the monitor leaves everything but the world alone. -/
theorem isCanceled_ends {monitor : Monitor ω} (hmonitor : monitor.Follows running stopped) {n : Nat}
    {st : SolverState ω} (hw : running n st.world) {fail : AnalysisError → SolverState ω → Prop} :
    Ends (fun canceled st' => st'.stack = st.stack ∧
        if canceled then stopped n st'.world else running (n + 1) st'.world)
      fail (isCanceled monitor st) :=
  ⟨rfl, hmonitor n st.world hw⟩

/-- From a state in which the monitor was asked `n` times, it is asked once for each candidate until
it cancels, and nothing is reported from there on. -/
theorem impliedFrom_finds (hb : ∀ n, s.backend.Trusted (running n) True) {monitor : Monitor ω}
    (hmonitor : monitor.Follows running stopped) (hs : s.Ready stack) {ps : List Implication}
    (hps : ∀ p ∈ ps, p.forcing.var < s.base.varCount ∧ p.forced.var < s.base.varCount)
    {cache : ModelCache} (hcache : s.Caches stack cache) {n : Nat} {st : SolverState ω}
    (hst : st.stack = stack) (hw : running n st.world) :
    Ends (fun found st' => st'.stack = stack ∧
        ∃ k, s.Found stack ps k found ∧ Reached running stopped (n + k) st'.world)
      (fun _ st' => st'.stack = stack) (s.impliedFrom monitor cache ps st) := by
  induction ps generalizing cache n st with
  | nil => exact ⟨hst, 0, .nil s stack [] 0, .inl hw⟩
  | cons p ps ih =>
    have hps := List.forall_mem_cons.1 hps
    -- Each candidate takes one answer of the monitor, so the rest is counted from one more.
    have hrest {cache : ModelCache} (hcache : s.Caches stack cache) {st : SolverState ω}
        (hst : st.stack = stack) (hw : running (n + 1) st.world) :
        Ends (fun found st' => st'.stack = stack ∧
            ∃ k, s.Found stack ps k found ∧ Reached running stopped (n + (k + 1)) st'.world)
          (fun _ st' => st'.stack = stack) (s.impliedFrom monitor cache ps st) := by
      refine (ih hps.2 hcache hst hw).imp ?_
      rintro found st' ⟨hst', k, hfound, hworld⟩
      exact ⟨hst', k, hfound, by rwa [Nat.add_comm k 1, ← Nat.add_assoc]⟩
    have hskip {cache : ModelCache} (hcache : s.Caches stack cache) {st : SolverState ω}
        (hst : st.stack = stack) (hw : running (n + 1) st.world) :
        Ends (fun found st' => st'.stack = stack ∧
            ∃ k, s.Found stack (p :: ps) k found ∧ Reached running stopped (n + k) st'.world)
          (fun _ st' => st'.stack = stack) (s.impliedFrom monitor cache ps st) :=
      (hrest hcache hst hw).imp (fun _ _ ⟨hst', k, hfound, hworld⟩ =>
        ⟨hst', k + 1, hfound.skip, hworld⟩)
    rw [impliedFrom]
    refine (isCanceled_ends hmonitor hw).bind ?_
    rintro canceled st₁ ⟨hst₁, hcanceled⟩
    replace hst₁ := hst₁.trans hst
    cases canceled with
    | true => exact ⟨hst₁, 0, .nil s stack _ 0, .inr hcanceled⟩
    | false =>
      rw [if_neg Bool.false_ne_true] at hcanceled ⊢
      split
      · exact hskip hcache hst₁ hcanceled
      · refine Ends.bind ((test_yields (hb (n + 1)) hps.1 (hst₁ ▸ hs) hcanceled).mono
          (fun _ _ h => h) (fun _ _ h => h.2.stack.trans hst₁)) ?_
        rintro finding st₂ ⟨hfinding, h₂⟩
        have hst₂ := h₂.stack.trans hst₁
        rw [hst₁] at hfinding
        cases finding with
        | implied =>
          refine Ends.bind (hrest hcache hst₂ h₂.world) ?_
          rintro found st₃ ⟨hst₃, k, hfound, hworld⟩
          exact ⟨hst₃, k + 1, hfound.keep (entails_of_implied hfinding), hworld⟩
        | refuted a => exact hskip (hcache.add hfinding.1) hst₂ h₂.world
        | unknown => exact hskip hcache hst₂ h₂.world

/-- A search that starts when the monitor was not asked yet.  The first answer of the monitor comes
before any candidate. -/
theorem implied_finds (hb : ∀ n, s.backend.Trusted (running n) True) {monitor : Monitor ω}
    (hmonitor : monitor.Follows running stopped) {st : SolverState ω} (hs : s.Ready st.stack)
    (hw : running 0 st.world) {ps : List Implication}
    (hps : ∀ p ∈ ps, p.forcing.var < s.base.varCount ∧ p.forced.var < s.base.varCount)
    (buffer : Nat) :
    Ends (fun found st' => st'.stack = st.stack ∧ (found ≠ [] → ∃ v, s.Models st.stack v) ∧
        ∃ n, s.Found st.stack ps (n - 1) found ∧ Reached running stopped n st'.world)
      (fun _ st' => st'.stack = st.stack) (s.implied buffer monitor ps st) := by
  cases ps with
  | nil => exact ⟨rfl, by simp, 0, .nil s st.stack [] 0, .inl hw⟩
  | cons p ps =>
    rw [implied, List.isEmpty_cons, if_neg Bool.false_ne_true]
    refine (isCanceled_ends hmonitor hw).bind ?_
    rintro canceled st₁ ⟨hst₁, hcanceled⟩
    cases canceled with
    | true => exact ⟨hst₁, by simp, 0, .nil s st.stack _ 0, .inr hcanceled⟩
    | false =>
      rw [if_neg Bool.false_ne_true] at hcanceled ⊢
      rw [← hst₁] at hs ⊢
      refine Ends.bind ((findModel_yields (hb 1) hs hcanceled).mono (fun _ _ h => h)
        (fun _ _ h => h.2.stack)) ?_
      rintro (_ | a) st₂ ⟨hmodel, h₂⟩
      · exact ⟨h₂.stack, by simp, 1, .nil s st₁.stack _ 0, .inl h₂.world⟩
      · have ha := (hmodel.1 a rfl).1
        refine (impliedFrom_finds hb hmonitor hs hps ((caches_forRequests _ _).add ha) h₂.stack
          h₂.world).imp ?_
        rintro found st' ⟨hst', k, hfound, hworld⟩
        refine ⟨hst', fun _ => ⟨_, ha⟩, 1 + k, ?_, hworld⟩
        rwa [Nat.add_sub_cancel_left]

/-! ## Answers of the monitor -/

/-- The number of answers before the first one that cancels. -/
def goneOn (answers : List Bool) : Nat := (answers.takeWhile (fun canceled => !canceled)).length

theorem goneOn_replicate_append (n : Nat) {answers : List Bool}
    (h : answers = [] ∨ answers = [true]) : goneOn (List.replicate n false ++ answers) = n := by
  unfold goneOn
  rw [List.takeWhile_append_of_pos (by simp)]
  rcases h with rfl | rfl <;> simp

/-- A log of the answers tells how often the monitor was asked, and whether it canceled. -/
theorem follows_of_log {good : ω → Prop} {monitor : Monitor ω} {log : ω → List Bool}
    (hmonitor : ∀ w, good w → good (monitor w).2)
    (hlog : ∀ w, good w → log (monitor w).2 = log w ++ [(monitor w).1]) (before : List Bool) :
    monitor.Follows (fun n w => good w ∧ log w = before ++ List.replicate n false)
      (fun n w => log w = before ++ (List.replicate n false ++ [true])) := by
  rintro n w ⟨hgood, hbefore⟩
  have hafter := hlog w hgood
  rw [hbefore, List.append_assoc] at hafter
  split
  · rename_i hcanceled
    rwa [hcanceled] at hafter
  · rename_i hrunning
    rw [Bool.not_eq_true] at hrunning
    rw [hrunning, ← List.replicate_succ'] at hafter
    exact ⟨hmonitor w hgood, hafter⟩

/-- What was logged at the end. -/
theorem exists_answers {good : ω → Prop} {log : ω → List Bool} {before : List Bool} {n : Nat}
    {w : ω} (h : Reached (fun n w => good w ∧ log w = before ++ List.replicate n false)
      (fun n w => log w = before ++ (List.replicate n false ++ [true])) n w) :
    ∃ answers, log w = before ++ answers ∧ goneOn answers = n := by
  rcases h with ⟨-, hlog⟩ | hlog
  · exact ⟨_, hlog, by simpa using goneOn_replicate_append n (.inl rfl)⟩
  · exact ⟨_, hlog, goneOn_replicate_append n (.inr rfl)⟩

/-- **Whatever is interrupted, only implied literals are found.**  If the backend tells the truth as
long as it answers, and the monitor may cancel whenever it is asked, then what is reported is some
of the candidates, in order, each implied by the base and the stack, which have a model if anything
is reported.  The monitor is asked once before the first candidate, and then before each of them;
nothing is reported that comes after the first answer with which it cancels.  Here `log` is a part
of the world that holds its answers.  The stack stays as it is, also if the search fails. -/
theorem implied_sound {good : ω → Prop} (hb : s.backend.Trusted good True) {monitor : Monitor ω}
    (hmonitor : ∀ w, good w → good (monitor w).2) (hbase : s.base.Built) {st : SolverState ω}
    (hstack : st.stack.Translated s.base.vars s.base.clauseLimit) (hw : good st.world)
    {ps : List Implication}
    (hps : ∀ p ∈ ps, p.forcing.var < s.base.varCount ∧ p.forced.var < s.base.varCount)
    (buffer : Nat) :
    (∀ found st', s.implied buffer monitor ps st = .ok found st' →
      st'.stack = st.stack ∧ found.Sublist ps ∧
      (∀ p ∈ found, ∀ v, s.Models st.stack v → p.forcing.eval v = true →
        p.forced.eval v = true) ∧
      (found ≠ [] → ∃ v, s.Models st.stack v) ∧
      ∀ log : ω → List Bool,
        (∀ answers, s.backend.Trusted (fun w => good w ∧ log w = answers) True) →
        (∀ w, good w → log (monitor w).2 = log w ++ [(monitor w).1]) →
        ∃ answers, log st'.world = log st.world ++ answers ∧
          found.Sublist (ps.take (goneOn answers - 1))) ∧
    ∀ e st', s.implied buffer monitor ps st = .error e st' → st'.stack = st.stack := by
  have hs : s.Ready st.stack := ⟨hbase, hstack⟩
  have hfollows : monitor.Follows (fun _ => good) (fun _ _ => True) := by
    intro n w hw
    split
    · trivial
    · exact hmonitor w hw
  have hplain := implied_finds (fun _ => hb) hfollows hs hw hps buffer
  constructor
  · intro found st' hrun
    rw [hrun] at hplain
    obtain ⟨hst', hmodels, n, hfound, -⟩ := hplain
    refine ⟨hst', hfound.sublist.trans (List.take_sublist _ _), hfound.entails, hmodels, ?_⟩
    -- With a log the same run tells how many candidates came before the cancellation.
    intro log hbackend hlog
    have hlogged := implied_finds (fun n => hbackend (log st.world ++ List.replicate n false))
      (follows_of_log hmonitor hlog (log st.world)) hs ⟨hw, by simp⟩ hps buffer
    rw [hrun] at hlogged
    obtain ⟨-, -, n, hfound, hworld⟩ := hlogged
    obtain ⟨answers, hanswers, rfl⟩ := exists_answers hworld
    exact ⟨answers, hanswers, hfound.sublist⟩
  · intro e st' hrun
    rw [hrun] at hplain
    exact hplain

/-- Three variables of which the first implies the second, with a backend that gives up after some
checks. -/
def weary : Solver (Nat × List Bool) where
  backend := Backend.tiring.besides (List Bool)
  base := {
    vars := ⟨["A", "B", "C"]⟩
    constraints := [⟨0, .implies (.var "A") (.var "B")⟩]
    formulas := [⟨3, [[⟨0, false⟩, ⟨1, true⟩]]⟩]
    clauseLimit := 1
    propagated := ⟨#[none, none, none], false⟩ }

/-- The second variable implies the third. -/
def wearyStack : ConstraintStack :=
  [⟨⟨1, .implies (.var "B") (.var "C")⟩, ⟨3, [[⟨1, false⟩, ⟨2, true⟩]]⟩⟩]

/-- Cancels from the fourth time on that it is asked, and logs its answers. -/
def impatient : Monitor (Nat × List Bool) := fun w =>
  (decide (3 ≤ w.2.length), w.1, w.2 ++ [decide (3 ≤ w.2.length)])

/-- The candidates: the second one is not implied, the others are. -/
def wearyCandidates : List Implication :=
  [⟨⟨0, true⟩, ⟨2, true⟩⟩, ⟨⟨2, true⟩, ⟨0, true⟩⟩, ⟨⟨0, true⟩, ⟨1, true⟩⟩]

/-- The first candidate is reported.  The test of the second one times out, and the search is
canceled before the third one.  So the first variable implies the third, and what is reported is
among the first two candidates. -/
theorem implied_sound_weary :
    weary.implied 5 impatient wearyCandidates ⟨wearyStack, 2, 2, []⟩ =
      .ok [⟨⟨0, true⟩, ⟨2, true⟩⟩] ⟨wearyStack, 6, 0, [false, false, false, true]⟩ ∧
    (∀ v, weary.Models wearyStack v → v 0 = true → v 2 = true) ∧
    [⟨⟨0, true⟩, ⟨2, true⟩⟩].Sublist (wearyCandidates.take 2) := by
  have hrun : weary.implied 5 impatient wearyCandidates ⟨wearyStack, 2, 2, []⟩ =
      .ok [⟨⟨0, true⟩, ⟨2, true⟩⟩] ⟨wearyStack, 6, 0, [false, false, false, true]⟩ := by
    cbv
  have hbackend (answers : List Bool) :
      weary.backend.Trusted (fun w => True ∧ w.2 = answers) True :=
    Backend.tiring_trusted.besides answers
  have hstack : wearyStack.Translated weary.base.vars weary.base.clauseLimit :=
    List.forall_mem_singleton.2 rfl
  obtain ⟨hfound, -⟩ := @implied_sound _ weary (fun _ => True) (Backend.Trusted.of_log hbackend)
    impatient (fun _ _ => trivial) ⟨by decide, rfl⟩ ⟨wearyStack, 2, 2, []⟩ hstack trivial
    wearyCandidates (by decide) 5
  obtain ⟨-, -, hentails, -, hlog⟩ := hfound _ _ hrun
  obtain ⟨answers, hanswers, hsub⟩ := hlog Prod.snd hbackend (fun _ _ => rfl)
  refine ⟨hrun, ?_, ?_⟩
  · intro v hv hfirst
    have hthird := hentails ⟨⟨0, true⟩, ⟨2, true⟩⟩ (by simp) v hv (by simp [Lit.eval, hfirst])
    simpa [Lit.eval] using hthird
  · obtain rfl : [false, false, false, true] = answers := hanswers
    exact hsub

end Solver

end ProductLine
