import Mathlib
import ProductLine.Solver.Implied
import ProductLine.Proofs.RingBuffer
import ProductLine.Proofs.Solver.Query
/-!
# Implied literals are found exactly

Whether a cached model, a contradiction that shows at once, or a query decides a candidate, the
decision is the same: it is kept exactly if it is implied.

* `Solver.test_yields` is about the test of a single candidate;
* `Solver.Decided` says that a candidate is reported exactly if it is to be, and `Solver.Reports`
  what is then found among some candidates, also if a monitor cancels;
* `Solver.impliedFrom_yields` is about the tests of a whole list, and `Solver.implied_reports` about
  a whole search.
-/
namespace ProductLine

/-! ## Cached models -/

namespace Solver

variable {ω : Type} {s : Solver ω} {good : ω → Prop} {fallible : Prop}

/-- Every model of the base and the stack that makes the first literal true makes the second
true. -/
def Entails (s : Solver ω) (stack : ConstraintStack) (p : Implication) : Prop :=
  ∀ v, s.Models stack v → p.forcing.eval v = true → p.forced.eval v = true

/-- One model in which the first literal is true and the second is not is enough to refute it. -/
theorem not_entails_of_models {stack : ConstraintStack} {p : Implication} {v : Nat → Bool}
    (hv : s.Models stack v) (hforcing : p.forcing.eval v = true)
    (hnegated : p.forced.negate.eval v = true) : ¬ s.Entails stack p := by
  intro hentails
  rw [Lit.eval_negate, hentails v hv hforcing] at hnegated
  cases hnegated

/-- All cached assignments are models of the base and the stack. -/
def Caches (s : Solver ω) (stack : ConstraintStack) (cache : ModelCache) : Prop :=
  ∀ a ∈ cache.toList, s.Models stack a.valuation

section Cache

variable {stack : ConstraintStack} {cache : ModelCache}

/-- An empty cache has only models of the stack. -/
theorem caches_forRequests (requests most : Nat) :
    s.Caches stack (ModelCache.forRequests requests most) := by
  intro a ha
  rw [ModelCache.forRequests, RingBuffer.mem_toList] at ha
  cases ha

/-- A model of the stack may be added to the cache. -/
theorem Caches.add (h : s.Caches stack cache) {a : Assignment} (ha : s.Models stack a.valuation) :
    s.Caches stack (cache.add a) := by
  intro b hb
  rcases RingBuffer.mem_push hb with rfl | hb
  · exact ha
  · exact h b hb

/-- What a cached model refutes is not implied. -/
theorem Caches.not_entails (h : s.Caches stack cache) {p : Implication}
    (hp : cache.refutes p = true) : ¬ s.Entails stack p := by
  obtain ⟨a, ha, hvalues⟩ := List.any_eq_true.1 hp
  rw [Bool.and_eq_true] at hvalues
  exact not_entails_of_models (h a ha) (Assignment.eval_of_contains hvalues.1)
    (Assignment.eval_of_contains hvalues.2)

end Cache

/-! ## Testing a candidate -/

/-- What a test under some assumptions says. -/
def Finding.Tells (s : Solver ω) (stack : ConstraintStack) (assumed : List Lit) (fallible : Prop) :
    Finding → Prop
  | .implied => ∀ v, s.Models stack v → ¬ ∀ l ∈ assumed, l.eval v = true
  | .refuted a => s.Models stack a.valuation ∧ ∀ l ∈ assumed, l.eval a.valuation = true
  | .unknown => fallible

/-- Where the first literal and the opposite of the second exclude all models, the first implies
the second. -/
theorem entails_of_implied {stack : ConstraintStack} {p : Implication}
    (h : Finding.Tells s stack [p.forcing, p.forced.negate] fallible .implied) :
    s.Entails stack p := by
  intro v hv hforcing
  by_contra hforced
  apply h v hv
  simpa [hforcing] using hforced

/-- A candidate that is refuted by a model is not entailed. -/
theorem not_entails_of_refuted {stack : ConstraintStack} {p : Implication} {a : Assignment}
    (h : Finding.Tells s stack [p.forcing, p.forced.negate] fallible (.refuted a)) :
    ¬ s.Entails stack p :=
  not_entails_of_models h.1 (h.2 _ (List.mem_cons_self ..))
    (h.2 _ (List.mem_cons_of_mem _ (List.mem_singleton_self _)))

/-- The assumptions lie on the stack at the end, above what was there before. -/
theorem testUnder_ends (hb : s.backend.Trusted good fallible) {ls : List Lit}
    (hls : ∀ l ∈ ls, l.var < s.base.varCount) {st : SolverState ω} (hs : s.Ready st.stack)
    (hw : good st.world) :
    Ends (fun finding st' => st.stack <+: st'.stack ∧ good st'.world ∧
        Finding.Tells s st.stack ls fallible finding)
      (fun _ st' => st.stack <+: st'.stack ∧ good st'.world ∧ fallible)
      (s.testUnder ls st) := by
  -- On the assumptions: each is pushed on what the induction then takes for the stack before.
  induction ls generalizing st with
  | nil =>
    refine Ends.bind ((solve_yields hb hs hw).mono (fun _ _ h => h) ?_) ?_
    · rintro _ st' ⟨hfallible, hkept⟩
      exact ⟨hkept.stack ▸ List.prefix_rfl, hkept.world, hfallible⟩
    · rintro solution st' ⟨hsolution, hkept⟩
      have hgrown : st.stack <+: st'.stack := hkept.stack ▸ List.prefix_rfl
      cases solution with
      | sat a => exact ⟨hgrown, hkept.world, hsolution.1, by simp⟩
      | unsat => exact ⟨hgrown, hkept.world, fun v hv _ => hsolution v hv⟩
      | unknown => exact ⟨hgrown, hkept.world, hsolution⟩
  | cons l ls ih =>
    have hls := List.forall_mem_cons.1 hls
    obtain ⟨f, outcome, hform, hpush, hcontra⟩ := pushLit_of_lt hs.base hls.1 st
    have htop (v : Nat → Bool) : s.Models (pushed st f ⟨s.base.vars.size, [[l]]⟩).stack v ↔
        s.Models st.stack v ∧ l.eval v = true := by
      rw [hs.models_pushed_iff hform v]
      simp [ClauseSet.eval]
    have hgrown := prefix_pushed st f ⟨s.base.vars.size, [[l]]⟩
    rw [testUnder, run_bind_of_ok (attempt_of_ok hpush)]
    cases outcome with
    | contradictory =>
      refine ⟨hgrown, hw, ?_⟩
      -- No query is needed: what propagation shows is so in all models of the base.
      intro v hv hall
      have hfalse := hcontra rfl v (hs.eval_base hv)
      rw [hall l (List.mem_cons_self ..)] at hfalse
      cases hfalse
    | applied =>
      refine (ih hls.2 (hs.pushFormula hform) hw).mono ?_ ?_
      · rintro finding st' ⟨hst', hgood, hfinding⟩
        refine ⟨hgrown.trans hst', hgood, ?_⟩
        cases finding with
        | implied =>
          intro v hv hall
          have hall := List.forall_mem_cons.1 hall
          exact hfinding v ((htop v).2 ⟨hv, hall.1⟩) hall.2
        | refuted a =>
          have hmodel := (htop a.valuation).1 hfinding.1
          exact ⟨hmodel.1, List.forall_mem_cons.2 ⟨hmodel.2, hfinding.2⟩⟩
        | unknown => exact hfinding
      · rintro _ st' ⟨hst', hgood, hfallible⟩
        exact ⟨hgrown.trans hst', hgood, hfallible⟩

/-- The test of a candidate, whose finding is about the stack before it. -/
theorem test_yields (hb : s.backend.Trusted good fallible) {p : Implication}
    (hp : p.forcing.var < s.base.varCount ∧ p.forced.var < s.base.varCount) {st : SolverState ω}
    (hs : s.Ready st.stack) (hw : good st.world) :
    Yields good fallible st
      (Finding.Tells s st.stack [p.forcing, p.forced.negate] fallible) (s.test p st) := by
  refine inScope_ends ((testUnder_ends hb ?_ hs hw).mono ?_ ?_)
  · simpa [Lit.negate] using hp
  · rintro finding st' ⟨hgrown, hgood, hfinding⟩
    exact ⟨hgrown, hfinding, rfl, hgood⟩
  · rintro _ st' ⟨hgrown, hgood, hfallible⟩
    exact ⟨hgrown, hfallible, rfl, hgood⟩

/-! ## Candidates that are decided -/

/-- What the finding of a test says about a candidate that is to be reported exactly if `kept`. -/
def Finding.Decides (s : Solver ω) (stack : ConstraintStack) (kept : Prop) : Finding → Prop
  | .implied => kept
  | .refuted a => ¬ kept ∧ s.Models stack a.valuation
  | .unknown => ¬ kept

/-- Neither a cached model nor a test is wrong about a candidate that is to be reported exactly if
`kept`. -/
structure Decided (s : Solver ω) (good : ω → Prop) (stack : ConstraintStack) (p : Implication)
    (kept : Prop) : Prop where
  cached : ∀ cache, s.Caches stack cache → cache.refutes p = true → ¬ kept
  test : ∀ st, st.stack = stack → good st.world →
    Yields good False st (Finding.Decides s stack kept) (s.test p st)

/-- Of variables of the base those candidates are to be reported that are implied. -/
theorem decided_of_lt (hb : s.backend.Correct good) {stack : ConstraintStack} (hs : s.Ready stack)
    {p : Implication} (hp : p.forcing.var < s.base.varCount ∧ p.forced.var < s.base.varCount) :
    s.Decided good stack p (s.Entails stack p) where
  cached _ hcache hrefuted := hcache.not_entails hrefuted
  test := by
    rintro st rfl hw
    refine (test_yields hb hp hs hw).imp ?_
    intro finding hfinding
    cases finding with
    | implied => exact entails_of_implied hfinding
    | refuted a => exact ⟨not_entails_of_refuted hfinding, hfinding.1⟩
    | unknown => exact hfinding.elim

/-! ## Testing all candidates -/

open Classical in
/-- Those are found that are to be reported, out of all candidates or out of the first ones if the
search may be canceled. -/
def Reports (canceling : Prop) (kept : Implication → Prop) (ps found : List Implication) : Prop :=
  ∃ n, (canceling ∨ ps.length ≤ n) ∧ found = (ps.take n).filter (fun p => decide (kept p))

namespace Reports

variable {canceling : Prop} {kept : Implication → Prop} {p : Implication}
  {ps found : List Implication}

theorem nil (canceling : Prop) (kept : Implication → Prop) : Reports canceling kept [] [] :=
  ⟨0, .inr (Nat.le_refl 0), rfl⟩

/-- Reports may end early where canceling is possible. -/
theorem canceled (h : canceling) (kept : Implication → Prop) (ps : List Implication) :
    Reports canceling kept ps [] :=
  ⟨0, .inl h, rfl⟩

theorem keep (h : Reports canceling kept ps found) (hp : kept p) :
    Reports canceling kept (p :: ps) (p :: found) := by
  obtain ⟨n, hn, rfl⟩ := h
  refine ⟨n + 1, hn.imp_right (fun hn => Nat.succ_le_succ hn), ?_⟩
  rw [List.take_succ_cons, List.filter_cons_of_pos (by simpa using hp)]

theorem skip (h : Reports canceling kept ps found) (hp : ¬ kept p) :
    Reports canceling kept (p :: ps) found := by
  obtain ⟨n, hn, rfl⟩ := h
  refine ⟨n + 1, hn.imp_right (fun hn => Nat.succ_le_succ hn), ?_⟩
  rw [List.take_succ_cons, List.filter_cons_of_neg (by simpa using hp)]

/-- Without models nothing is to be reported. -/
theorem none (canceling : Prop) (h : ∀ p ∈ ps, ¬ kept p) : Reports canceling kept ps [] := by
  refine ⟨ps.length, .inr (Nat.le_refl _), ?_⟩
  rw [List.take_length, eq_comm, List.filter_eq_nil_iff]
  simpa using h

/-- What is found is to be reported and was asked for. -/
theorem of_mem (h : Reports canceling kept ps found) (hp : p ∈ found) : p ∈ ps ∧ kept p := by
  obtain ⟨n, -, rfl⟩ := h
  obtain ⟨hmem, hkept⟩ := List.mem_filter.1 hp
  exact ⟨List.mem_of_mem_take hmem, by simpa using hkept⟩

open Classical in
/-- Where nothing is canceled the reports are exactly the candidates to keep, in order. -/
theorem eq_filter (h : Reports False kept ps found) :
    found = ps.filter (fun p => decide (kept p)) := by
  obtain ⟨n, hn, rfl⟩ := h
  rw [List.take_of_length_le (hn.resolve_left id)]

/-- Where nothing is canceled a candidate is reported exactly if it is one to keep. -/
theorem mem_iff (h : Reports False kept ps found) : p ∈ found ↔ p ∈ ps ∧ kept p := by
  rw [h.eq_filter]
  simp

/-- It does not matter what would be kept besides the candidates. -/
theorem congr {kept' : Implication → Prop} (h : Reports canceling kept ps found)
    (hkept : ∀ p ∈ ps, (kept p ↔ kept' p)) : Reports canceling kept' ps found := by
  obtain ⟨n, hn, rfl⟩ := h
  refine ⟨n, hn, List.filter_congr ?_⟩
  intro p hp
  simpa using hkept p (List.mem_of_mem_take hp)

end Reports

/-- With models of the base and the stack in the cache, testing a list finds what is to be
reported. -/
theorem impliedFrom_yields {canceling : Prop} {monitor : Monitor ω}
    (hmonitor : monitor.Trusted good canceling) {stack : ConstraintStack}
    {kept : Implication → Prop} {ps : List Implication}
    (hps : ∀ p ∈ ps, s.Decided good stack p (kept p)) {cache : ModelCache}
    (hcache : s.Caches stack cache) {st : SolverState ω} (hst : st.stack = stack)
    (hw : good st.world) :
    Yields good False st (Reports canceling kept ps) (s.impliedFrom monitor cache ps st) := by
  -- The cache grows on the way, but holds models only, so it never decides otherwise than a test.
  induction ps generalizing cache st with
  | nil => exact .pure (.nil canceling kept) hw
  | cons p ps ih =>
    have hps := List.forall_mem_cons.1 hps
    have hskip {cache : ModelCache} (hcache : s.Caches stack cache) {st : SolverState ω}
        (hst : st.stack = stack) (hw : good st.world) (hp : ¬ kept p) :
        Yields good False st (Reports canceling kept (p :: ps))
          (s.impliedFrom monitor cache ps st) :=
      (ih hps.2 hcache hst hw).imp (fun _ hfound => hfound.skip hp)
    rw [impliedFrom]
    refine (isCanceled_tells hmonitor hw).bind ?_
    rintro canceled st₁ hcanceled h₁
    have hst₁ := h₁.stack.trans hst
    cases canceled with
    | true => exact .pure (.canceled (hcanceled rfl) kept _) h₁.world
    | false =>
      rw [if_neg Bool.false_ne_true]
      split
      · rename_i hrefuted
        exact hskip hcache hst₁ h₁.world (hps.1.cached cache hcache hrefuted)
      · refine (hps.1.test st₁ hst₁ h₁.world).bind ?_
        intro finding st₂ hfinding h₂
        have hst₂ := h₂.stack.trans hst₁
        cases finding with
        | implied =>
          refine (ih hps.2 hcache hst₂ h₂.world).bind ?_
          intro found st₃ hfound h₃
          exact .pure (hfound.keep hfinding) h₃.world
        | refuted a => exact hskip (hcache.add hfinding.2) hst₂ h₂.world hfinding.1
        | unknown => exact hskip hcache hst₂ h₂.world hfinding

/-- A whole search finds what is to be reported, which is nothing unless there is a model. -/
theorem implied_reports (hb : s.backend.Correct good) {canceling : Prop} {monitor : Monitor ω}
    (hmonitor : monitor.Trusted good canceling) {st : SolverState ω} (hs : s.Ready st.stack)
    (hw : good st.world) {kept : Implication → Prop} {ps : List Implication}
    (hps : ∀ v, s.Models st.stack v → ∀ p ∈ ps, s.Decided good st.stack p (kept p))
    (buffer : Nat) :
    Yields good False st
      (Reports canceling (fun p => (∃ v, s.Models st.stack v) ∧ kept p) ps)
      (s.implied buffer monitor ps st) := by
  cases ps with
  | nil => exact .pure (.nil canceling _) hw
  | cons p ps =>
    rw [implied, List.isEmpty_cons, if_neg Bool.false_ne_true]
    refine (isCanceled_tells hmonitor hw).bind ?_
    intro canceled st₁ hcanceled h₁
    cases canceled with
    | true => exact .pure (.canceled (hcanceled rfl) _ _) h₁.world
    | false =>
      rw [if_neg Bool.false_ne_true]
      rw [← h₁.stack] at hs hps ⊢
      refine (findModel_yields hb hs h₁.world).bind ?_
      rintro (_ | a) st₂ hmodel h₂
      · refine .pure (.none canceling ?_) h₂.world
        rintro p - ⟨⟨v, hv⟩, -⟩
        exact (hmodel.2 rfl).elim (fun h => h v hv) id
      · have ha := (hmodel.1 a rfl).1
        refine (impliedFrom_yields hmonitor (hps _ ha) ((caches_forRequests _ _).add ha) h₂.stack
          h₂.world).imp ?_
        exact fun found hfound => hfound.congr (fun p _ => (and_iff_right ⟨_, ha⟩).symm)

open Classical in
/-- The candidates of a list that are implied, unless there is no model. -/
theorem implied_yields (hb : s.backend.Correct good) {monitor : Monitor ω}
    (hmonitor : monitor.NeverCancels good) {st : SolverState ω} (hs : s.Ready st.stack)
    (hw : good st.world) {ps : List Implication}
    (hps : ∀ p ∈ ps, p.forcing.var < s.base.varCount ∧ p.forced.var < s.base.varCount)
    (buffer : Nat) :
    Yields good False st (· = if ∃ v, s.Models st.stack v then
        ps.filter (fun p => decide (s.Entails st.stack p)) else [])
      (s.implied buffer monitor ps st) := by
  refine (implied_reports hb hmonitor.trusted hs hw
    (fun _ _ p hp => decided_of_lt hb hs (hps p hp)) buffer).imp ?_
  intro found hfound
  split
  · rename_i hmodels
    simpa [hmodels] using hfound.eq_filter
  · rename_i hnone
    simpa [hnone] using hfound.eq_filter

open Classical in
/-- **The candidates that are found are those that are implied.**  They are listed in order and as
often as they were asked for.  Neither the number of cached models nor the models that the backend
happens to find matter.  A base and stack without models imply nothing. -/
theorem implied_eq_filter (hb : s.backend.Correct good) {monitor : Monitor ω}
    (hmonitor : monitor.NeverCancels good) {st : SolverState ω} (hbase : s.base.Built)
    (hstack : st.stack.Translated s.base.vars s.base.clauseLimit) (hw : good st.world)
    {ps : List Implication}
    (hps : ∀ p ∈ ps, p.forcing.var < s.base.varCount ∧ p.forced.var < s.base.varCount)
    (buffer : Nat) :
    ∃ st', s.implied buffer monitor ps st =
        .ok (if ∃ v, s.Models st.stack v then
            ps.filter (fun p => decide (∀ v, s.Models st.stack v → p.forcing.eval v = true →
              p.forced.eval v = true))
          else []) st' ∧ st'.stack = st.stack := by
  obtain ⟨_, st', hrun, rfl, hkept⟩ :=
    (implied_yields hb hmonitor ⟨hbase, hstack⟩ hw hps buffer).exists_ok
  exact ⟨st', hrun, hkept.stack⟩

/-- Three variables of which the first implies the second. -/
def chain : Solver Unit where
  backend := .exhaustive
  base := {
    vars := ⟨["A", "B", "C"]⟩
    constraints := [⟨0, .implies (.var "A") (.var "B")⟩]
    formulas := [⟨3, [[⟨0, false⟩, ⟨1, true⟩]]⟩]
    clauseLimit := 1
    propagated := ⟨#[none, none, none], false⟩ }

/-- The second variable implies the third. -/
def chainStack : ConstraintStack :=
  [⟨⟨1, .implies (.var "B") (.var "C")⟩, ⟨3, [[⟨1, false⟩, ⟨2, true⟩]]⟩⟩]

open Classical in
/-- Without a cache, a run finds that the first variable implies the third, twice as it was asked
twice, and not the other way round.  So it is the case in all models. -/
theorem implied_eq_filter_chain :
    chain.implied 0 Monitor.never
        [⟨⟨0, true⟩, ⟨2, true⟩⟩, ⟨⟨2, true⟩, ⟨0, true⟩⟩, ⟨⟨0, true⟩, ⟨2, true⟩⟩]
        ⟨chainStack, 2, ()⟩ =
      .ok [⟨⟨0, true⟩, ⟨2, true⟩⟩, ⟨⟨0, true⟩, ⟨2, true⟩⟩] ⟨chainStack, 8, ()⟩ ∧
    ∀ v, chain.Models chainStack v → v 0 = true → v 2 = true := by
  have hrun : chain.implied 0 Monitor.never
        [⟨⟨0, true⟩, ⟨2, true⟩⟩, ⟨⟨2, true⟩, ⟨0, true⟩⟩, ⟨⟨0, true⟩, ⟨2, true⟩⟩]
        ⟨chainStack, 2, ()⟩ =
      .ok [⟨⟨0, true⟩, ⟨2, true⟩⟩, ⟨⟨0, true⟩, ⟨2, true⟩⟩] ⟨chainStack, 8, ()⟩ := by
    cbv
  refine ⟨hrun, ?_⟩
  intro v hv hfirst
  have hstack : chainStack.Translated chain.base.vars chain.base.clauseLimit :=
    List.forall_mem_singleton.2 rfl
  obtain ⟨st', heq, -⟩ := @implied_eq_filter _ chain (fun _ => True) Backend.exhaustive_correct
    Monitor.never (fun _ _ => ⟨rfl, trivial⟩) ⟨chainStack, 2, ()⟩ ⟨by decide, rfl⟩ hstack trivial
    [⟨⟨0, true⟩, ⟨2, true⟩⟩, ⟨⟨2, true⟩, ⟨0, true⟩⟩, ⟨⟨0, true⟩, ⟨2, true⟩⟩] (by decide) 0
  rw [hrun, if_pos ⟨v, hv⟩] at heq
  have hfound := (EStateM.Result.ok.inj heq).1
  have hmem := hfound ▸ List.mem_cons_self (a := (⟨⟨0, true⟩, ⟨2, true⟩⟩ : Implication))
  have hentails := (List.mem_filter.1 hmem).2
  rw [decide_eq_true_eq] at hentails
  simpa [Lit.eval] using hentails v hv (by simpa [Lit.eval] using hfirst)

end Solver

end ProductLine
