import Mathlib
import ProductLine.Solver.UnsatSubset
import ProductLine.Proofs.FirstOccurrences
import ProductLine.Proofs.Solver.Query
/-!
# Contradictions are explained by minimal subsets

Whichever core the backend names, thinning it out ends with constraints that contradict each other
and of which none can be left out.

* `Thinning` is the invariant of the loop: what is kept or still to be tried contradicts itself, and
  everything that is kept is needed for that;
* `Thinning.drop` and `Thinning.keep` are its two steps, and `Thinning.minimal` is what it says at
  the end;
* `Solver.Opens.rel_lookup` says that an id leads to a constraint and to its clause form;
* `Solver.thinOut_yields` says that the loop keeps the invariant, and `Solver.checks_of_thinOut`
  that it makes one check for each id;
* `Solver.unsatSubset_runs` follows a query for a minimal subset, and `Solver.unsatSubset_yields`
  says what it answers.
-/
namespace ProductLine

namespace Constraint

theorem Satisfiable.mono {cs ds : List Constraint} (h : Satisfiable ds) (hsub : cs ⊆ ds) :
    Satisfiable cs := by
  obtain ⟨w, hw⟩ := h
  exact ⟨w, fun c hc => hw c (hsub hc)⟩

/-- Constraints that contradict each other, each listed once and each needed. -/
structure MinimalUnsat (cs : List Constraint) : Prop where
  nodup : cs.Nodup
  unsat : ¬ Satisfiable cs
  needed : ∀ c ∈ cs, Satisfiable (cs.erase c)

/-! ## Constraints by id -/

variable {origin : Nat → Option Constraint}

/-- The constraints with the given ids; unknown ids name none. -/
def among (origin : Nat → Option Constraint) (ids : List Nat) : List Constraint :=
  ids.filterMap origin

/-- The constraints among ids are those noted under them. -/
theorem mem_among {ids : List Nat} {c : Constraint} :
    c ∈ among origin ids ↔ ∃ id ∈ ids, origin id = some c :=
  List.mem_filterMap

theorem among_subset {ids ids' : List Nat} (h : ids ⊆ ids') :
    among origin ids ⊆ among origin ids' := by
  intro c hc
  obtain ⟨id, hid, hget⟩ := mem_among.1 hc
  exact mem_among.2 ⟨id, h hid, hget⟩

/-- If every id is that of a constraint, none is lost. -/
theorem map_origin_eq {ids : List Nat} (h : ∀ id ∈ ids, ∃ c, origin id = some c) :
    ids.map origin = (among origin ids).map some := by
  induction ids with
  | nil => rfl
  | cons id ids ih =>
    have h := List.forall_mem_cons.1 h
    obtain ⟨c, hc⟩ := h.1
    rw [List.map_cons, ih h.2, hc]
    unfold among
    rw [List.filterMap_cons_some hc, List.map_cons]

/-- If every id leads to a constraint and to its clause form, the constraints with some ids are
translated to the clause forms with these ids. -/
theorem translates_among {vs : Variables} {limit : Nat} {formula? : Nat → Option ClauseSet}
    (h : ∀ id, Option.Rel (Translates vs limit) (origin id) (formula? id)) (ids : List Nat) :
    List.Forall₂ (Translates vs limit) (among origin ids) (ids.filterMap formula?) := by
  induction ids with
  | nil => exact .nil
  | cons id ids ih =>
    have hid := h id
    rw [among, List.filterMap_cons, List.filterMap_cons]
    generalize origin id = c, formula? id = set at hid
    cases hid with
    | none => exact ih
    | some hrel => exact .cons hrel ih

end Constraint

open Constraint (Satisfiable among MinimalUnsat)

/-! ## The invariant -/

/-- While a core is thinned out, its kept and remaining ids contradict each other, and the others no
longer do without a kept one. -/
structure Thinning (origin : Nat → Option Constraint) (kept ids : List Nat) : Prop where
  nodup : kept.Nodup
  unsat : ¬ Satisfiable (among origin (kept ++ ids))
  needed : ∀ id ∈ kept, Satisfiable (among origin ((kept ++ ids).filter (· ≠ id)))

namespace Thinning

variable {origin : Nat → Option Constraint} {kept ids : List Nat} {id : Nat}

/-- All ids of an unsatisfiable set are still to be looked at. -/
theorem start (h : ¬ Satisfiable (among origin ids)) : Thinning origin [] ids :=
  ⟨List.nodup_nil, h, by simp⟩

/-- An id without which the rest is still contradictory is dropped. -/
theorem drop (h : Thinning origin kept (id :: ids))
    (hunsat : ¬ Satisfiable (among origin (kept ++ ids))) : Thinning origin kept ids := by
  refine ⟨h.nodup, hunsat, ?_⟩
  -- A kept id is still needed: without it there are only fewer constraints than before.
  intro k hk
  apply (h.needed k hk).mono (Constraint.among_subset ?_)
  exact List.filter_subset _
    (List.append_subset.2 ⟨List.subset_append_left .., by simp⟩)

/-- An id without which the rest has a model is kept. -/
theorem keep (h : Thinning origin kept (id :: ids))
    (hsat : Satisfiable (among origin (kept ++ ids))) : Thinning origin (kept ++ [id]) ids := by
  have happend : kept ++ [id] ++ ids = kept ++ id :: ids := by simp
  refine ⟨?_, ?_, ?_⟩
  · have hnew : id ∉ kept := by
      -- Otherwise leaving it out once would leave out nothing.
      intro hid
      apply h.unsat (hsat.mono (Constraint.among_subset ?_))
      simp [hid]
    rw [List.nodup_append]
    exact ⟨h.nodup, by simp, by simpa using fun k hk => ne_of_mem_of_not_mem hk hnew⟩
  · rw [happend]
    exact h.unsat
  · rw [happend]
    intro k hk
    rcases List.mem_append.1 hk with hk | hk
    · exact h.needed k hk
    · rw [List.mem_singleton] at hk
      subst hk
      apply hsat.mono (Constraint.among_subset ?_)
      intro j hj
      simp only [List.mem_filter, List.mem_append, List.mem_cons, decide_eq_true_eq] at hj ⊢
      tauto

/-- What is kept in the end is unsatisfiable. -/
theorem unsat_among (h : Thinning origin kept []) : ¬ Satisfiable (among origin kept) := by
  simpa using h.unsat

/-- In the end no id can be left out. -/
theorem without (h : Thinning origin kept []) (hid : id ∈ kept) :
    Satisfiable (among origin (kept.filter (· ≠ id))) := by
  simpa using h.needed id hid

/-- Leaving out an id leaves out no constraint but its own. -/
theorem mem_without {c : Constraint} (hc : c ∈ among origin kept) (hne : origin id ≠ some c) :
    c ∈ among origin (kept.filter (· ≠ id)) := by
  obtain ⟨k, hk, hget⟩ := Constraint.mem_among.1 hc
  refine Constraint.mem_among.2 ⟨k, List.mem_filter.2 ⟨hk, ?_⟩, hget⟩
  rw [decide_eq_true_eq]
  rintro rfl
  exact hne hget

/-- The constraint of a needed id has no other of the ids. -/
theorem not_mem_among (h : Thinning origin kept []) (hid : id ∈ kept) {c : Constraint}
    (hc : origin id = some c) : c ∉ among origin (kept.filter (· ≠ id)) := by
  intro hmem
  -- If it had, leaving out the id would leave out no constraint.
  apply h.unsat_among ((h.without hid).mono ?_)
  intro d hd
  by_cases hdc : d = c
  · exact hdc ▸ hmem
  · apply mem_without hd
    rw [hc]
    exact fun heq => hdc (Option.some.inj heq).symm

/-- In the end every id is that of a constraint. -/
theorem exists_origin (h : Thinning origin kept []) (hid : id ∈ kept) :
    ∃ c, origin id = some c := by
  by_contra hnone
  apply h.unsat_among ((h.without hid).mono ?_)
  intro d hd
  exact mem_without hd (fun hget => hnone ⟨d, hget⟩)

/-- In the end no two ids are those of one constraint. -/
theorem nodup_among (h : Thinning origin kept []) : (among origin kept).Nodup := by
  have hmap : (kept.map origin).Nodup := by
    refine List.Nodup.map_on ?_ h.nodup
    intro k hk id hid heq
    by_contra hne
    obtain ⟨c, hc⟩ := h.exists_origin hid
    refine h.not_mem_among hid hc (Constraint.mem_among.2 ⟨k, ?_, heq.trans hc⟩)
    simpa [hk] using hne
  rw [Constraint.map_origin_eq (fun _ hid => h.exists_origin hid)] at hmap
  exact List.Nodup.of_map some hmap

/-- **What is left in the end is minimal.** -/
theorem minimal (h : Thinning origin kept []) : MinimalUnsat (among origin kept) := by
  refine ⟨h.nodup_among, h.unsat_among, ?_⟩
  intro c hc
  obtain ⟨id, hid, hget⟩ := Constraint.mem_among.1 hc
  apply (h.without hid).mono
  intro d hd
  obtain ⟨hdc, hd⟩ := (h.nodup_among.mem_erase_iff).1 hd
  apply mem_without hd
  rw [hget]
  exact fun heq => hdc (Option.some.inj heq).symm

end Thinning

/-! ## The loop -/

namespace Solver

variable {ω : Type} {s : Solver ω} {good : ω → Prop}

namespace Opens

variable {stack : ConstraintStack} {options : SessionOptions} {session : Session}
  {origins : Origins} (h : s.Opens stack options session origins)
include h

/-- Ids lead to constraints of the base and the stack. -/
theorem among_subset (hs : s.Ready stack) (ids : List Nat) :
    among (origins.lookup ·) ids ⊆ s.base.constraints ++ stack.sources := by
  intro c hc
  obtain ⟨id, -, hid⟩ := Constraint.mem_among.1 hc
  obtain ⟨given, hgiven, -, rfl⟩ := h.given
  obtain ⟨before, after, hsplit, -⟩ := List.lookup_eq_some_iff.1 hid
  have hmem : (id, c) ∈ (given.map (fun g => (g.1, g.2.1))).reverse := by simp [hsplit]
  obtain ⟨g, hg, heq⟩ := List.mem_map.1 (List.mem_reverse.1 hmem)
  rw [← hs.map_fst_stated, ← hgiven, List.map_map]
  exact List.mem_map.2 ⟨g, hg, congrArg Prod.snd heq⟩

/-- If the ids are told apart, each leads to a constraint and to its clause form, or to none. -/
theorem rel_lookup (hs : s.Ready stack) (hids : session.ids.Nodup) (id : Nat) :
    Option.Rel (Constraint.Translates s.base.vars s.base.clauseLimit) (origins.lookup id)
      (session.formula? id) := by
  obtain ⟨given, hgiven, htold, rfl⟩ := h.given
  have hkeys : (given.map Prod.fst).Nodup := by
    rwa [Session.ids, htold, List.map_map] at hids
  have hkeys' : ((given.map (fun g => (g.1, g.2.1))).reverse.map Prod.fst).Nodup := by
    rwa [List.map_reverse, List.map_map, List.nodup_reverse]
  by_cases hid : ∃ g ∈ given, g.1 = id
  · obtain ⟨g, hg, rfl⟩ := hid
    have hset : session.formula? g.1 = some g.2.2 :=
      (lookup_eq_some_iff hids).2 (htold ▸ List.mem_map.2 ⟨g, hg, rfl⟩)
    have hc : List.lookup g.1 (given.map (fun g => (g.1, g.2.1))).reverse = some g.2.1 :=
      (lookup_eq_some_iff hkeys').2 (List.mem_reverse.2 (List.mem_map.2 ⟨g, hg, rfl⟩))
    rw [hset, hc]
    exact .some (hs.translates_of_mem (hgiven ▸ List.mem_map_of_mem hg))
  · have hother : ∀ g ∈ given, (id != g.1) = true :=
      fun g hg => bne_iff_ne.2 fun heq => hid ⟨g, hg, heq.symm⟩
    have hset : session.formula? id = none := by
      rw [Session.formula?, htold, List.lookup_eq_none_iff, List.forall_mem_map]
      exact hother
    have hc : List.lookup id (given.map (fun g => (g.1, g.2.1))).reverse = none := by
      simp only [List.lookup_eq_none_iff, List.mem_reverse, List.forall_mem_map]
      exact hother
    rw [hset, hc]
    exact .none

/-- A check of some ids says whether their constraints have a model. -/
theorem satisfiable_among_iff (hs : s.Ready stack) (hids : session.ids.Nodup) (ids : List Nat) :
    ClauseSet.Satisfiable (session.among ids) ↔ Satisfiable (among (origins.lookup ·) ids) :=
  Constraint.satisfiable_iff (Constraint.translates_among (h.rel_lookup hs hids) ids)

/-- The session holds together exactly if the base and the stack can be true together. -/
theorem satisfiable_formulas_iff (hs : s.Ready stack) :
    ClauseSet.Satisfiable session.formulas ↔
      Satisfiable (s.base.constraints ++ stack.sources) := by
  rw [h.formulas]
  exact Constraint.satisfiable_iff hs.translates

end Opens

/-- The loop keeps its invariant until nothing is left to be tried. -/
theorem thinOut_yields (hb : s.backend.Correct good) {stack : ConstraintStack}
    (hs : s.Ready stack) {session : Session} {origins : Origins}
    (hopens : s.Opens stack { cores := true } session origins) (hkeyed : s.backend.Keyed session)
    {kept ids : List Nat} {st : SolverState ω} (hw : good st.world)
    (h : Thinning (origins.lookup ·) kept ids) :
    Yields good False st (fun result => Thinning (origins.lookup ·) result [])
      (s.thinOut session kept ids st) := by
  -- On what is still to be tried, for all that is kept: a verdict moves the first id or drops it.
  induction ids generalizing kept st with
  | nil => exact .pure h hw
  | cons id ids ih =>
    rw [thinOut]
    have hcores : session.options.cores = true := by rw [hopens.options_eq]
    refine (checkAmong_yields hb hkeyed hcores (kept ++ ids) hw).bind ?_
    intro verdict st₁ hverdict h₁
    cases verdict with
    | unsat core =>
      have hunsat := mt (hopens.satisfiable_among_iff hs hkeyed.nodup _).2 hverdict.1
      exact ih h₁.world (h.drop hunsat)
    | sat model =>
      have hsat := (hopens.satisfiable_among_iff hs hkeyed.nodup _).1 hverdict.1
      exact ih h₁.world (h.keep hsat)
    | unknown => exact hverdict.elim

/-- The world after checks of some lists of ids, one after the other. -/
def afterChecks (s : Solver ω) (session : Session) (asked : List (List Nat)) (w : ω) : ω :=
  asked.foldl (fun w ids => (s.backend.checkingAmong session ids w).2) w

/-- A check under selectors changes the world as the backend does. -/
theorem world_of_checkAmong {session : Session} {ids : List Nat} {st st' : SolverState ω}
    {verdict : Verdict} (h : s.checkAmong session ids st = .ok verdict st') :
    st'.world = (s.backend.checkingAmong session ids st.world).2 := by
  rcases st with ⟨stack, nextLabel, w⟩
  simp only [checkAmong, answered] at h
  split at h
  · cases h
    rfl
  · cases h

/-- The loop makes one check for each id that is to be tried. -/
theorem checks_of_thinOut {session : Session} {kept ids result : List Nat}
    {st st' : SolverState ω} (h : s.thinOut session kept ids st = .ok result st') :
    ∃ asked, asked.length = ids.length ∧ st'.world = s.afterChecks session asked st.world := by
  induction ids generalizing kept st with
  | nil =>
    cases h
    exact ⟨[], rfl, rfl⟩
  | cons id ids ih =>
    rw [thinOut] at h
    obtain ⟨verdict, st₁, hcheck, h⟩ := run_bind_eq_ok h
    have hworld := world_of_checkAmong hcheck
    have hrest : ∃ asked, asked.length = ids.length ∧
        st'.world = s.afterChecks session asked st₁.world := by
      cases verdict with
      | unsat core => exact ih h
      | sat model => exact ih h
      | unknown => cases h
    obtain ⟨asked, hlength, hasked⟩ := hrest
    refine ⟨(kept ++ ids) :: asked, by simp [hlength], ?_⟩
    rw [hasked, hworld]
    rfl

/-- What a run of a query for a minimal subset comes down to: the session has a model, or its core
is thinned out. -/
theorem unsatSubset_runs (hb : s.backend.Correct good) {st : SolverState ω}
    (hs : s.Ready st.stack) (hw : good st.world) :
    ∃ session origins st₁ st₂, s.openSession { cores := true } st = .ok (session, origins) st₁ ∧
      s.Opens st.stack { cores := true } session origins ∧
      ((Satisfiable (s.origins st) ∧ s.unsatSubset st = .ok none st₂ ∧ Kept good st st₂) ∨
        ∃ core ids st', s.check session st₁ = .ok (.unsat (some core)) st₂ ∧
          s.thinOut session [] core st₂ = .ok ids st' ∧ Thinning (origins.lookup ·) ids [] ∧
          s.unsatSubset st = .ok (some (among (origins.lookup ·) ids)) st' ∧
          ¬ Satisfiable (s.origins st) ∧ Kept good st st') := by
  obtain ⟨⟨session, origins⟩, st₁, hopen, ⟨hopens, hkeyed⟩, h₁⟩ :=
    (openSession_yields hb { cores := true } hs hw).exists_ok
  obtain ⟨verdict, st₂, hcheck, hverdict, h₂⟩ := (check_yields hb hkeyed h₁.world).exists_ok
  have htold : ClauseSet.Satisfiable session.formulas ↔ Satisfiable (s.origins st) :=
    hopens.satisfiable_formulas_iff hs
  have hcores : session.options.cores = true := by rw [hopens.options_eq]
  refine ⟨session, origins, st₁, st₂, hopen, hopens, ?_⟩
  rcases verdict with model | (_ | core) | _
  · refine .inl ⟨htold.1 hverdict.1, ?_, h₁.trans h₂⟩
    rw [unsatSubset, run_bind_of_ok hopen]
    exact run_bind_of_ok hcheck
  -- The session was opened for cores, so a correct backend names one.
  · exact (hverdict.2.2 hcores rfl).elim
  · have hcore := mt (hopens.satisfiable_among_iff hs hkeyed.nodup core).2
      (hverdict.2.1 core rfl)
    obtain ⟨ids, st', hthin, hthinning, h₃⟩ :=
      (thinOut_yields hb hs hopens hkeyed h₂.world (.start hcore)).exists_ok
    refine .inr ⟨core, ids, st', hcheck, hthin, hthinning, ?_, mt htold.2 hverdict.1,
      (h₁.trans h₂).trans h₃⟩
    rw [unsatSubset, run_bind_of_ok hopen]
    refine (run_bind_of_ok hcheck).trans ((run_bind_of_ok hthin).trans ?_)
    rw [← eraseDups_of_nodup hthinning.minimal.nodup]
    rfl
  · exact hverdict.elim

/-- A query for a minimal subset has none exactly if the base and the stack can be true together. -/
theorem unsatSubset_yields (hb : s.backend.Correct good) {st : SolverState ω}
    (hs : s.Ready st.stack) (hw : good st.world) :
    Yields good False st (fun result => (result = none ↔ Satisfiable (s.origins st)) ∧
        ∀ subset, result = some subset → subset ⊆ s.origins st ∧ MinimalUnsat subset)
      (s.unsatSubset st) := by
  obtain ⟨session, origins, st₁, st₂, -, hopens, ⟨hsat, hrun, hkept⟩ |
    ⟨core, ids, st', -, -, hthinning, hrun, hunsat, hkept⟩⟩ := unsatSubset_runs hb hs hw
  · rw [hrun]
    exact ⟨⟨iff_of_true rfl hsat, nofun⟩, hkept⟩
  · rw [hrun]
    refine ⟨⟨iff_of_false nofun hunsat, ?_⟩, hkept⟩
    rintro _ ⟨⟩
    exact ⟨hopens.among_subset hs ids, hthinning.minimal⟩

/-- **Contradictions are explained, and every explanation is minimal.**  There is none exactly if
the base and the stack can be true together.  Otherwise some of their constraints are listed, each
once, which cannot be true together, but can without any one of them.

They come from the ids of a core, which lead to the constraints whose clause forms were given these
ids when the session was opened.  The loop that thins the core out makes one check for each of its
ids, and ends with as many ids as there are constraints, no two of them with the same. -/
theorem unsatSubset_minimal (hb : s.backend.Correct good) {st : SolverState ω}
    (hbase : s.base.Built) (hstack : st.stack.Translated s.base.vars s.base.clauseLimit)
    (hw : good st.world) :
    ∃ result st', s.unsatSubset st = .ok result st' ∧ st'.stack = st.stack ∧
      (result = none ↔ Satisfiable (s.origins st)) ∧
      ∀ subset, result = some subset →
        subset ⊆ s.origins st ∧ subset.Nodup ∧ ¬ Satisfiable subset ∧
        (∀ c ∈ subset, Satisfiable (subset.erase c)) ∧
        ∃ session origins core ids st₁ st₂,
          s.openSession { cores := true } st = .ok (session, origins) st₁ ∧
          s.check session st₁ = .ok (.unsat (some core)) st₂ ∧
          s.thinOut session [] core st₂ = .ok ids st' ∧
          (∃ asked, asked.length = core.length ∧
            st'.world = s.afterChecks session asked st₂.world) ∧
          (ids.map (origins.lookup ·)).Nodup ∧
          ids.map (origins.lookup ·) = subset.map some ∧ subset.length = ids.length := by
  have hs : s.Ready st.stack := ⟨hbase, hstack⟩
  obtain ⟨session, origins, st₁, st₂, hopen, hopens, ⟨hsat, hrun, hkept⟩ |
    ⟨core, ids, st', hcheck, hthin, hthinning, hrun, hunsat, hkept⟩⟩ := unsatSubset_runs hb hs hw
  · exact ⟨none, st₂, hrun, hkept.stack, iff_of_true rfl hsat, nofun⟩
  · have hminimal := hthinning.minimal
    have hmap : ids.map (origins.lookup ·) = (among (origins.lookup ·) ids).map some :=
      Constraint.map_origin_eq (fun _ hid => hthinning.exists_origin hid)
    refine ⟨_, st', hrun, hkept.stack, iff_of_false nofun hunsat, ?_⟩
    rintro _ ⟨⟩
    refine ⟨hopens.among_subset hs ids, hminimal.nodup, hminimal.unsat, hminimal.needed, session,
      origins, core, ids, st₁, st₂, hopen, hcheck, hthin, checks_of_thinOut hthin, ?_, hmap, ?_⟩
    · rw [hmap]
      exact hminimal.nodup.map (fun _ _ h => Option.some.inj h)
    · simpa using (congrArg List.length hmap).symm

/-- A variable that is true, an implication and a tautology. -/
def clash : Solver Unit where
  backend := .exhaustive
  base := {
    vars := ⟨["A", "B"]⟩
    constraints := [⟨0, .var "A"⟩, ⟨1, .implies (.var "A") (.var "B")⟩,
      ⟨2, .implies (.var "A") (.var "A")⟩]
    formulas := [⟨2, [[⟨0, true⟩]]⟩, ⟨2, [[⟨0, false⟩, ⟨1, true⟩]]⟩, ⟨2, []⟩]
    clauseLimit := 1
    propagated := ⟨#[some true, some true], false⟩ }

/-- The conclusion is denied, and the implication is there once more. -/
def clashStack : ConstraintStack :=
  [⟨⟨3, .not (.var "B")⟩, ⟨2, [[⟨1, false⟩]]⟩⟩,
    ⟨⟨1, .implies (.var "A") (.var "B")⟩, ⟨2, [[⟨0, false⟩, ⟨1, true⟩]]⟩⟩]

/-- All five constraints are blamed at first.  Three are left, the repeated one once. -/
theorem unsatSubset_minimal_clash :
    clash.unsatSubset ⟨clashStack, 4, ()⟩ =
      .ok (some [⟨0, .var "A"⟩, ⟨3, .not (.var "B")⟩, ⟨1, .implies (.var "A") (.var "B")⟩])
        ⟨clashStack, 4, ()⟩ ∧
    Constraint.Satisfiable [⟨0, .var "A"⟩, ⟨1, .implies (.var "A") (.var "B")⟩] := by
  have hrun : clash.unsatSubset ⟨clashStack, 4, ()⟩ =
      .ok (some [⟨0, .var "A"⟩, ⟨3, .not (.var "B")⟩, ⟨1, .implies (.var "A") (.var "B")⟩])
        ⟨clashStack, 4, ()⟩ := by
    cbv
  refine ⟨hrun, ?_⟩
  have hstack : clashStack.Translated clash.base.vars clash.base.clauseLimit :=
    List.forall_mem_cons.2 ⟨rfl, List.forall_mem_singleton.2 rfl⟩
  obtain ⟨result, st', heq, -, -, hminimal⟩ := @unsatSubset_minimal _ clash (fun _ => True)
    Backend.exhaustive_correct ⟨clashStack, 4, ()⟩ ⟨by decide, rfl⟩ hstack trivial
  rw [hrun] at heq
  have hresult := (EStateM.Result.ok.inj heq).1
  have hneeded := (hminimal _ hresult.symm).2.2.2.1 ⟨3, .not (.var "B")⟩ (by decide)
  exact hneeded

end Solver

end ProductLine
