import Mathlib.Data.List.Induction
import Mathlib.Tactic.Common
import ProductLine.Proofs.Clause
import ProductLine.Proofs.Satisfiability.Trust
import ProductLine.Satisfiability.SelectorSession
/-!
# Selectors decide subsets of formulas

A session over an engine answers for every subset of its formulas, although the engine only knows
one growing list of clauses.  A formula with a selector says something only where its selector
holds, so assuming the selectors of some formulas asks about just these.

* `Engine.Correct` is what the engine is relied on for;
* `SelectorSession.Encodes` is the invariant: selectors are new variables, each of one formula, and
  every clause stands under the selector of its formula;
* `SelectorSession.Encodes.holds_clauses_iff` says what the clauses of a session mean, and
  `SelectorSession.Encodes.exists_holds_iff` that they can hold under the selectors of some formulas
  exactly if these formulas can;
* `SelectorSession.checks_of_reaches` says what the checks answer after any history, and
  `Backend.ofEngine_correct` that such sessions make a correct backend;
* `Engine.exhaustive` is an engine that tries all values, and `Engine.exhaustive_correct` says that
  it decides rightly.
-/
namespace ProductLine

/-! ## Engines -/

/-- All clauses and all literals are true when the variables have the values `v`. -/
def Holds (v : Nat → Bool) (clauses : List Clause) (ls : List Lit) : Prop :=
  (∀ c ∈ clauses, c.eval v = true) ∧ ∀ l ∈ ls, l.eval v = true

/-- A model does not contradict itself, and whatever it leaves open, the clauses and assumptions
hold in it.  Where there is none, some of the assumptions fail together with the clauses. -/
def Outcome.Tells (clauses : List Clause) (assumptions : List Lit) : Outcome → Prop
  | .sat model => (∀ l ∈ model, l.negate ∉ model) ∧
      ∀ v, (∀ l ∈ model, l.eval v = true) → Holds v clauses assumptions
  | .unsat failed => failed ⊆ assumptions ∧ ∀ v, ¬ Holds v clauses failed

/-- The engine decides clauses under assumptions rightly whenever its memory is a good one, and
keeps it so. -/
def Engine.Correct {μ : Type} (engine : Engine μ) (good : μ → Prop) : Prop :=
  ∀ m clauses assumptions, good m → good (engine.decide m clauses assumptions).2 ∧
    (engine.decide m clauses assumptions).1.Tells clauses assumptions

/-! ## An engine that tries everything -/

/-- The engine that tries all values of the variables, and blames all assumptions. -/
def Engine.exhaustive : Engine Unit where
  fresh := ()
  decide _ clauses assumptions :=
    let all := Clause.units assumptions ++ clauses
    match Backend.tryAll (Clause.varCountOf all) [⟨Clause.varCountOf all, all⟩] [0] with
    | .sat model => (.sat (model.getD []), ())
    | .unsat _ => (.unsat assumptions, ())

/-- It decides rightly, as the clauses and the assumptions together are one formula. -/
theorem Engine.exhaustive_correct : Engine.exhaustive.Correct (fun _ => True) := by
  intro m clauses assumptions _
  refine ⟨trivial, ?_⟩
  let all := Clause.units assumptions ++ clauses
  let formula : ClauseSet := ⟨Clause.varCountOf all, all⟩
  have hholds (v : Nat → Bool) : formula.eval v = true ↔ Holds v clauses assumptions := by
    simp [formula, all, ClauseSet.eval, Clause.units, Holds, Clause.eval, and_comm]
  have hsupports :
      Session.Supports ⟨formula.varCount, ⟨true, false⟩, [(0, formula)]⟩ False [formula]
      (.ok (Backend.tryAll formula.varCount [formula] [0])) :=
    Backend.supports_tryAll (List.forall_mem_singleton.2 fun _ => Clause.inRange_of_mem) rfl
  change (match Backend.tryAll formula.varCount [formula] [0] with
    | .sat model => ((Outcome.sat (model.getD []), ()) : Outcome × Unit)
    | .unsat _ => (.unsat assumptions, ())).1.Tells clauses assumptions
  generalize Backend.tryAll formula.varCount [formula] [0] = answer at hsupports ⊢
  rcases answer with model | core
  · cases model with
    | none => exact (hsupports.2.2 rfl rfl).elim
    | some model =>
      have hmodel := hsupports.2.1 model rfl
      refine ⟨hmodel.consistent, ?_⟩
      intro v hv
      exact (hholds v).1 (hmodel.satisfies v (fun l hl _ => hv l hl) formula
        (List.mem_singleton_self formula))
  · refine ⟨List.Subset.refl assumptions, ?_⟩
    intro v hv
    exact hsupports.1 ⟨v, List.forall_mem_singleton.2 ((hholds v).2 hv)⟩

namespace SelectorSession

variable {μ : Type} {engine : Engine μ} {good : μ → Prop} {session : Session}
  {s : SelectorSession μ}

/-! ## The encoding -/

/-- The selector of the formula with an id, if it has one. -/
def selectorOf (s : SelectorSession μ) (id : Nat) : Option Nat := (s.selectors[id]?).join

/-- A clause of a formula, as it is added. -/
def under : Option Nat → Clause → Clause
  | none, c => c
  | some selector, c => guard selector c

/-- A clause under a selector is required only if the selector is true. -/
theorem eval_under {v : Nat → Bool} {selector : Option Nat} {c : Clause} :
    (under selector c).eval v = true ↔
      ((∀ i, selector = some i → v i = true) → c.eval v = true) := by
  cases selector with
  | none => simp [under]
  | some i => cases hi : v i <;> simp [under, guard, Lit.eval, hi]

/-- The clauses of the session are those of the formulas in the record, each under the selector of
its formula, and the ids are the positions.  Selectors are no variables of the formulas, and no two
formulas have the same one.  With cores only formulas without clauses go without a selector, and
without cores all do. -/
structure Encodes (session : Session) (s : SelectorSession μ) : Prop where
  varCount : s.varCount = session.varCount
  options : s.options = session.options
  ids : session.ids = List.range s.selectors.size
  fresh : ∀ id i, s.selectorOf id = some i → s.varCount ≤ i ∧ i < s.varCount + s.selectorCount
  unique : ∀ id other i, s.selectorOf id = some i → s.selectorOf other = some i → id = other
  guarded : s.options.cores = true → ∀ id set, session.formula? id = some set →
    s.selectorOf id = none → set.clauses = []
  plain : s.options.cores = false → ∀ id, s.selectorOf id = none
  mem_clauses : ∀ c, c ∈ s.clauses.toList ↔ ∃ id set, session.formula? id = some set ∧
    ∃ d ∈ set.clauses, c = under (s.selectorOf id) d

theorem encodes_start (varCount : Nat) (options : SessionOptions) (memory : μ) :
    Encodes (.start varCount options) (start varCount options memory) := by
  constructor <;> simp [start, Session.start, Session.ids, Session.formula?, selectorOf]

/-- There are as many selectors as formulas, the missing ones included. -/
theorem Encodes.length_told (h : Encodes session s) : session.told.length = s.selectors.size := by
  simpa [Session.ids] using congrArg List.length h.ids

/-- The next position is a new id. -/
theorem Encodes.size_not_mem_ids (h : Encodes session s) : s.selectors.size ∉ session.ids := by
  rw [h.ids]
  exact List.not_mem_range_self

/-- So it is none of those under which a formula is found. -/
theorem Encodes.ne_size (h : Encodes session s) {id : Nat} {set : ClauseSet}
    (hset : session.formula? id = some set) : id ≠ s.selectors.size :=
  ne_of_mem_of_not_mem (Session.mem_ids_of_formula? hset) h.size_not_mem_ids

/-- A new formula gets the next place for its selector. -/
theorem selectorOf_push {s' : SelectorSession μ} {selector : Option Nat}
    (h : s'.selectors = s.selectors.push selector) (id : Nat) :
    s'.selectorOf id = if id = s.selectors.size then selector else s.selectorOf id := by
  unfold selectorOf
  rw [h, Array.getElem?_push]
  split <;> rfl

/-- The clauses of one more formula are those that belong to its id. -/
theorem Encodes.mem_clauses_append (h : Encodes session s) {selector : Option Nat}
    {formula : ClauseSet} {c : Clause} :
    c ∈ s.clauses.toList ++ formula.clauses.map (under selector) ↔
      ∃ id set, (session.add s.selectors.size formula).formula? id = some set ∧ ∃ d ∈ set.clauses,
        c = under (if id = s.selectors.size then selector else s.selectorOf id) d := by
  simp only [List.mem_append, List.mem_map, h.mem_clauses,
    Session.formula?_add_eq_some_iff h.size_not_mem_ids]
  constructor
  · rintro (⟨id, set, hset, d, hd, rfl⟩ | ⟨d, hd, rfl⟩)
    · exact ⟨id, set, .inl hset, d, hd, by rw [if_neg (h.ne_size hset)]⟩
    · exact ⟨s.selectors.size, formula, .inr ⟨rfl, rfl⟩, d, hd, by rw [if_pos rfl]⟩
  · rintro ⟨id, set, hset | ⟨rfl, rfl⟩, d, hd, rfl⟩
    · exact .inl ⟨id, set, hset, d, hd, by rw [if_neg (h.ne_size hset)]⟩
    · exact .inr ⟨d, hd, by rw [if_pos rfl]⟩

/-- One more formula is encoded by its clauses under a new selector, or under none. -/
theorem Encodes.push (h : Encodes session s) {s' : SelectorSession μ} {selector : Option Nat}
    {formula : ClauseSet} (hvarCount : s'.varCount = s.varCount) (hoptions : s'.options = s.options)
    (hselectors : s'.selectors = s.selectors.push selector)
    (hcount : s.selectorCount ≤ s'.selectorCount)
    (hnew : ∀ i, selector = some i →
      i = s.varCount + s.selectorCount ∧ s.selectorCount < s'.selectorCount)
    (hguarded : s.options.cores = true → selector = none → formula.clauses = [])
    (hplain : s.options.cores = false → selector = none)
    (hclauses : s'.clauses.toList = s.clauses.toList ++ formula.clauses.map (under selector)) :
    Encodes (session.add s.selectors.size formula) s' := by
  have hof (id : Nat) : s'.selectorOf id =
      if id = s.selectors.size then selector else s.selectorOf id :=
    selectorOf_push hselectors id
  -- The new selector is past all the others.
  have hpast {id i : Nat} (hid : s.selectorOf id = some i) : selector ≠ some i := by
    intro heq
    have := (h.fresh id i hid).2
    have := (hnew i heq).1
    omega
  exact {
    varCount := hvarCount.trans h.varCount
    options := hoptions.trans h.options
    ids := by rw [Session.ids_add, h.ids, hselectors, Array.size_push, List.range_succ]
    fresh := by
      intro id i hid
      rw [hof] at hid
      rw [hvarCount]
      split at hid
      · have := hnew i hid
        omega
      · have := h.fresh id i hid
        omega
    unique := by
      intro id other i hid hother
      rw [hof] at hid hother
      split at hid <;> split at hother
      · omega
      · exact absurd hid (hpast hother)
      · exact absurd hother (hpast hid)
      · exact h.unique id other i hid hother
    guarded := by
      intro hcores id set hset hid
      rw [hoptions] at hcores
      rw [hof] at hid
      rcases (Session.formula?_add_eq_some_iff h.size_not_mem_ids).1 hset with hset | ⟨heq, rfl⟩
      · rw [if_neg (h.ne_size hset)] at hid
        exact h.guarded hcores id set hset hid
      · rw [if_pos heq] at hid
        exact hguarded hcores hid
    plain := by
      intro hcores id
      rw [hoptions] at hcores
      rw [hof]
      split
      · exact hplain hcores
      · exact h.plain hcores id
    mem_clauses := by
      intro c
      simp only [hclauses, h.mem_clauses_append, hof] }

/-- The id of a formula that is added is the next position. -/
theorem fst_add (s : SelectorSession μ) (formula : ClauseSet) :
    (s.add formula).1 = s.selectors.size := by
  simp only [SelectorSession.add]
  split
  · rfl
  · split <;> rfl

/-- A formula that is added is encoded, under the id that it is given. -/
theorem Encodes.add (h : Encodes session s) (formula : ClauseSet) :
    Encodes (session.add (s.add formula).1 formula) (s.add formula).2 := by
  rw [fst_add]
  simp only [SelectorSession.add]
  split
  · rename_i hempty
    have hnone : formula.clauses = [] := List.isEmpty_iff.1 hempty
    exact h.push rfl rfl rfl (Nat.le_refl _) nofun (fun _ _ => hnone) (fun _ => rfl)
      (by simp [hnone])
  · split
    · rename_i hcores
      refine h.push rfl rfl rfl (Nat.le_succ _) ?_ nofun (by simp [hcores]) Array.toList_appendList
      rintro i ⟨⟩
      exact ⟨rfl, Nat.lt_succ_self _⟩
    · rename_i hcores
      refine h.push rfl rfl rfl (Nat.le_refl _) nofun (fun h => absurd h hcores) (fun _ => rfl) ?_
      rw [show formula.clauses.map (under none) = formula.clauses from List.map_id _]
      exact Array.toList_appendList

/-! ## What the clauses mean -/

/-- The clauses say of every formula that it holds if its selector does. -/
theorem Encodes.holds_clauses_iff (h : Encodes session s) (v : Nat → Bool) :
    (∀ c ∈ s.clauses.toList, c.eval v = true) ↔
      ∀ id set, session.formula? id = some set →
        (∀ i, s.selectorOf id = some i → v i = true) → set.eval v = true := by
  simp only [h.mem_clauses]
  constructor
  · intro hclauses id set hset hselector
    rw [ClauseSet.eval, List.all_eq_true]
    intro d hd
    exact eval_under.1 (hclauses _ ⟨id, set, hset, d, hd, rfl⟩) hselector
  · rintro hformulas _ ⟨id, set, hset, d, hd, rfl⟩
    rw [eval_under]
    intro hselector
    exact List.all_eq_true.1 (hformulas id set hset hselector) d hd

/-- What is assumed for a check of the formulas with some ids. -/
def assumptions (s : SelectorSession μ) (ids : List Nat) : List Lit :=
  (ids.filterMap s.selectorOf).map (⟨·, true⟩)

/-- The selectors of the formulas in question are assumed. -/
theorem mem_assumptions {ids : List Nat} {l : Lit} :
    l ∈ s.assumptions ids ↔ ∃ id ∈ ids, ∃ i, s.selectorOf id = some i ∧ l = ⟨i, true⟩ := by
  simp only [assumptions, List.mem_map, List.mem_filterMap]
  constructor
  · rintro ⟨i, ⟨id, hid, hi⟩, rfl⟩
    exact ⟨id, hid, i, hi, rfl⟩
  · rintro ⟨id, hid, i, hi, rfl⟩
    exact ⟨i, ⟨id, hid, hi⟩, rfl⟩

/-- Where the clauses hold under the selectors of some formulas, these formulas do. -/
theorem Encodes.eval_of_holds (h : Encodes session s) {ids : List Nat} {v : Nat → Bool}
    (hv : Holds v s.clauses.toList (s.assumptions ids)) :
    ∀ set ∈ session.among ids, set.eval v = true := by
  intro set hset
  obtain ⟨id, hid, hget⟩ := List.mem_filterMap.1 hset
  refine (h.holds_clauses_iff v).1 hv.1 id set hget ?_
  intro i hi
  simpa [Lit.eval] using hv.2 ⟨i, true⟩ (mem_assumptions.2 ⟨id, hid, i, hi, rfl⟩)

/-- The formulas that a check is about include all that say something without a selector. -/
def Covers (session : Session) (s : SelectorSession μ) (ids : List Nat) : Prop :=
  s.options.cores = true ∨ session.ids ⊆ ids

/-- Where some formulas hold, the clauses can be made to hold under just their selectors. -/
theorem Encodes.holds_of_eval (h : Encodes session s) (hrange : session.InRange) {ids : List Nat}
    (hcovers : Covers session s ids) {v : Nat → Bool}
    (hv : ∀ set ∈ session.among ids, set.eval v = true) :
    ∃ u : Nat → Bool, Holds u s.clauses.toList (s.assumptions ids) := by
  -- The formulas have their variables below the selectors, and selectors of others are false.
  let u : Nat → Bool := fun i =>
    if i < session.varCount then v i else Decidable.decide (⟨i, true⟩ ∈ s.assumptions ids)
  have hsame {set : ClauseSet} (hset : set ∈ session.formulas) : set.eval u = set.eval v :=
    (hrange set hset).eval_congr (fun i hi => if_pos hi)
  have hselector {id i : Nat} (hi : s.selectorOf id = some i) :
      u i = Decidable.decide (⟨i, true⟩ ∈ s.assumptions ids) := by
    have hpast := (h.fresh id i hi).1
    rw [h.varCount] at hpast
    exact if_neg (Nat.not_lt.2 hpast)
  refine ⟨u, (h.holds_clauses_iff u).2 ?_, ?_⟩
  · intro id set hset htrue
    rw [hsame (Session.mem_formulas_of_formula? hset)]
    cases hof : s.selectorOf id with
    | none =>
      rcases hcovers with hcores | hall
      · simp [ClauseSet.eval, h.guarded hcores id set hset hof]
      · exact hv set (List.mem_filterMap.2
          ⟨id, hall (Session.mem_ids_of_formula? hset), hset⟩)
    | some i =>
      -- A selector that is assumed is that of an active formula, and of no other.
      have hassumed := htrue i hof
      rw [hselector hof, decide_eq_true_eq] at hassumed
      obtain ⟨other, hother, j, hj, heq⟩ := mem_assumptions.1 hassumed
      cases heq
      obtain rfl := h.unique id other i hof hj
      exact hv set (List.mem_filterMap.2 ⟨id, hother, hset⟩)
  · intro l hl
    obtain ⟨id, -, i, hi, rfl⟩ := mem_assumptions.1 hl
    simp [Lit.eval, hselector hi, hl]

/-- **Selectors choose formulas.**  The clauses can hold under the selectors of some formulas
exactly if these formulas can hold together. -/
theorem Encodes.exists_holds_iff (h : Encodes session s) (hrange : session.InRange) {ids : List Nat}
    (hcovers : Covers session s ids) :
    (∃ v, Holds v s.clauses.toList (s.assumptions ids)) ↔
      ClauseSet.Satisfiable (session.among ids) := by
  constructor
  · rintro ⟨v, hv⟩
    exact ⟨v, h.eval_of_holds hv⟩
  · rintro ⟨v, hv⟩
    exact h.holds_of_eval hrange hcovers hv

/-! ## What a check answers -/

/-- What an answer about the formulas with some ids says, and what the session holds afterwards.
The model has only variables of the session, and the core names only formulas that were checked. -/
def Told (session : Session) (ids : List Nat) (s : SelectorSession μ) : Answer → Prop
  | .sat model => ClauseSet.Satisfiable (session.among ids) ∧ s.model = model ∧ s.core = none ∧
      ∃ m, model = some m ∧ session.IsModel (session.among ids) m ∧
        ∀ l ∈ m, l.var < session.varCount
  | .unsat core => ¬ ClauseSet.Satisfiable (session.among ids) ∧ s.model = none ∧ s.core = core ∧
      if session.options.cores then
        ∃ blamed, core = some blamed ∧ ¬ ClauseSet.Satisfiable (session.among blamed) ∧
          blamed ⊆ ids ∧ blamed ⊆ session.ids
      else core = none

/-- A decision by the engine becomes an answer about ids. -/
theorem decide_eq (engine : Engine μ) (s : SelectorSession μ) (selectors : List Nat) :
    s.decide engine selectors =
      match engine.decide s.memory s.clauses.toList (selectors.map (⟨·, true⟩)) with
      | (.sat model, memory) =>
          (.sat (some (model.filter (fun l => l.var < s.varCount))), { s with
            memory := memory
            model := some (model.filter (fun l => l.var < s.varCount))
            core := none })
      | (.unsat failed, memory) =>
          (.unsat (if s.options.cores then some (failed.filterMap s.idOf?) else none), { s with
            memory := memory
            model := none
            core := if s.options.cores then some (failed.filterMap s.idOf?) else none }) := by
  rcases engine with ⟨fresh, decides⟩
  rcases s with ⟨varCount, options, ids, selectorCount, clauses, memory, model, core⟩
  simp only [SelectorSession.decide]
  generalize decides memory clauses.toList (selectors.map (⟨·, true⟩)) = result
  rcases result with ⟨_ | _, memory⟩ <;> rfl

/-- A selector leads back to its formula. -/
theorem Encodes.idOf?_eq (h : Encodes session s) {id i : Nat} (hid : s.selectorOf id = some i)
    (positive : Bool) : s.idOf? ⟨i, positive⟩ = some id := by
  have hget {id : Nat} : s.selectorOf id = some i ↔ s.selectors.toList[id]? = some (some i) := by
    rw [selectorOf, Array.getElem?_toList, Option.join_eq_some_iff]
  obtain ⟨hlt, heq⟩ := List.getElem?_eq_some_iff.1 (hget.1 hid)
  rw [idOf?, ← @Array.toArray_toList _ s.selectors, List.idxOf?_toArray,
    List.idxOf?_eq_some_iff]
  refine ⟨hlt, heq, ?_⟩
  intro other hother hsame
  have hother' : s.selectorOf other = some i :=
    hget.2 (List.getElem?_eq_some_iff.2 ⟨Nat.lt_trans hother hlt, hsame⟩)
  exact Nat.ne_of_lt hother (h.unique other id i hother' hid)

/-- A model of the clauses under the selectors of some formulas is one of these formulas, without
the selectors. -/
theorem Encodes.isModel_restrict (h : Encodes session s) (hrange : session.InRange)
    {ids : List Nat} {model : List Lit}
    (hmodel : (Outcome.sat model).Tells s.clauses.toList (s.assumptions ids)) :
    session.IsModel (session.among ids) (model.filter (fun l => l.var < s.varCount)) := by
  obtain ⟨hconsistent, hholds⟩ := hmodel
  refine ⟨?_, ?_⟩
  · intro l hl hnegate
    exact hconsistent l (List.mem_filter.1 hl).1 (List.mem_filter.1 hnegate).1
  · intro v hv set hset
    -- Past the variables of the session the values are those that the whole model says.
    let u : Nat → Bool := fun i =>
      if i < session.varCount then v i else Decidable.decide (⟨i, true⟩ ∈ model)
    have hu : ∀ l ∈ model, l.eval u = true := by
      rintro ⟨i, positive⟩ hl
      by_cases hi : i < session.varCount
      · have hvalue := hv ⟨i, positive⟩ (by simpa [h.varCount, hi] using hl) hi
        simpa [Lit.eval, u, hi] using hvalue
      · cases positive with
        | true => simp [Lit.eval, u, hi, hl]
        | false =>
          have hnot : ⟨i, true⟩ ∉ model := hconsistent _ hl
          simp [Lit.eval, u, hi, hnot]
    have hset' := hrange set (Session.mem_formulas_of_mem_among hset)
    rw [hset'.eval_congr (w := u) (fun i hi => (if_pos hi).symm)]
    exact h.eval_of_holds (hholds u hu) set hset

/-- If the selectors of some formulas fail together with the clauses, the formulas that they lead
back to contradict each other. -/
theorem Encodes.blamed (h : Encodes session s) (hrange : session.InRange)
    (hcores : s.options.cores = true) {ids : List Nat} {failed : List Lit}
    (hfailed : (Outcome.unsat failed).Tells s.clauses.toList (s.assumptions ids)) :
    ¬ ClauseSet.Satisfiable (session.among (failed.filterMap s.idOf?)) ∧
      failed.filterMap s.idOf? ⊆ ids ∧
        failed.filterMap s.idOf? ⊆ session.ids := by
  obtain ⟨hsub, hunsat⟩ := hfailed
  have horigin : ∀ l ∈ failed, ∃ id ∈ ids, s.idOf? l = some id ∧
      ∃ i, s.selectorOf id = some i ∧ l = ⟨i, true⟩ := by
    intro l hl
    obtain ⟨id, hid, i, hi, rfl⟩ := mem_assumptions.1 (hsub hl)
    exact ⟨id, hid, h.idOf?_eq hi true, i, hi, rfl⟩
  refine ⟨?_, ?_, ?_⟩
  · rintro ⟨v, hv⟩
    obtain ⟨u, hu⟩ := h.holds_of_eval hrange (.inl hcores) hv
    refine hunsat u ⟨hu.1, fun l hl => hu.2 l ?_⟩
    obtain ⟨id, -, hid, i, hi, rfl⟩ := horigin l hl
    exact mem_assumptions.2 ⟨id, List.mem_filterMap.2 ⟨_, hl, hid⟩, i, hi, rfl⟩
  · intro id hid
    obtain ⟨l, hl, hl'⟩ := List.mem_filterMap.1 hid
    obtain ⟨other, hother, hsame, -⟩ := horigin l hl
    rw [hl'] at hsame
    cases hsame
    exact hother
  · intro id hid
    obtain ⟨l, hl, hl'⟩ := List.mem_filterMap.1 hid
    obtain ⟨other, -, hsame, i, hi, -⟩ := horigin l hl
    rw [hl'] at hsame
    cases hsame
    rw [h.ids, List.mem_range]
    by_contra hlt
    rw [selectorOf, Array.getElem?_eq_none (Nat.le_of_not_lt hlt)] at hi
    cases hi

/-- The encoding is only about formulas, not about what was found out last. -/
theorem Encodes.remember (h : Encodes session s) (memory : μ) (model : Option (List Lit))
    (core : Option (List Nat)) :
    Encodes session { s with memory := memory, model := model, core := core } :=
  ⟨h.varCount, h.options, h.ids, h.fresh, h.unique, h.guarded, h.plain, h.mem_clauses⟩

/-- What the engine decides under the selectors of some formulas is told about these formulas. -/
theorem Encodes.decide_told (hengine : engine.Correct good) (h : Encodes session s)
    (hrange : session.InRange) (hmemory : good s.memory) {ids : List Nat}
    (hcovers : Covers session s ids) :
    ∃ answer s', s.decide engine (ids.filterMap s.selectorOf) = (answer, s') ∧
      s'.Told session ids answer ∧ Encodes session s' ∧ good s'.memory := by
  obtain ⟨hgood, htells⟩ := hengine s.memory s.clauses.toList (s.assumptions ids) hmemory
  have heq := decide_eq engine s (ids.filterMap s.selectorOf)
  change _ = match engine.decide s.memory s.clauses.toList (s.assumptions ids) with
    | (.sat _, _) => _
    | (.unsat _, _) => _ at heq
  rcases hdecide : engine.decide s.memory s.clauses.toList (s.assumptions ids) with
    ⟨model | failed, memory⟩
  · rw [hdecide] at heq hgood htells
    have hmodel := h.isModel_restrict hrange htells
    refine ⟨_, _, heq,
      ⟨⟨_, fun set hset => hmodel.eval_ofModel hset⟩, rfl, rfl, _, rfl, hmodel, ?_⟩,
      h.remember _ _ _, hgood⟩
    intro l hl
    simpa [h.varCount] using (List.mem_filter.1 hl).2
  · rw [hdecide] at heq hgood htells
    refine ⟨_, _, heq, ⟨?_, rfl, rfl, ?_⟩, h.remember _ _ _, hgood⟩
    · rintro ⟨v, hv⟩
      obtain ⟨u, hu⟩ := h.holds_of_eval hrange hcovers hv
      exact htells.2 u ⟨hu.1, fun l hl => hu.2 l (htells.1 hl)⟩
    · rw [h.options]
      split
      · rename_i hcores
        exact ⟨_, rfl, h.blamed hrange (h.options ▸ hcores) htells⟩
      · rfl

/-! ## Checks -/

/-- The positions of a list name all its items. -/
theorem filterMap_getElem?_range {α : Type} (xs : List α) :
    (List.range xs.length).filterMap (xs[·]?) = xs := by
  induction xs with
  | nil => rfl
  | cons x xs ih =>
      rw [List.length_cons, List.range_succ_eq_map, List.filterMap_cons, List.getElem?_cons_zero,
        List.filterMap_map]
      exact congrArg (x :: ·) ih

/-- To assume all selectors is to assume those of all ids. -/
theorem Encodes.filterMap_selectors (h : Encodes session s) :
    s.selectors.toList.filterMap id = session.ids.filterMap s.selectorOf := by
  have hof : s.selectorOf = fun i => (s.selectors.toList[i]?).bind id := by
    funext i
    rw [selectorOf, Array.getElem?_toList]
    rfl
  rw [hof, h.ids, ← Array.length_toList, ← List.filterMap_filterMap, filterMap_getElem?_range]

/-- The ids are told apart, so all of them name all formulas. -/
theorem Encodes.among_ids (h : Encodes session s) :
    session.among session.ids = session.formulas :=
  Session.among_ids (h.ids ▸ List.nodup_range)

/-- A check of all formulas. -/
theorem Encodes.check_told (hengine : engine.Correct good) (h : Encodes session s)
    (hrange : session.InRange) (hmemory : good s.memory) :
    ∃ answer s', s.check engine = (answer, s') ∧ s'.Told session session.ids answer ∧
      Encodes session s' ∧ good s'.memory := by
  rw [check, h.filterMap_selectors]
  exact h.decide_told hengine hrange hmemory (.inr (List.Subset.refl _))

/-- With cores the engine decides under the selectors of the ids. -/
theorem checkAmong_of_cores (hcores : s.options.cores = true) (ids : List Nat) :
    s.checkAmong engine ids = (.ok (s.decide engine (ids.filterMap s.selectorOf)).1,
      (s.decide engine (ids.filterMap s.selectorOf)).2) := by
  rw [checkAmong, if_pos hcores]
  rfl

/-- A check of some formulas, in a session with cores. -/
theorem Encodes.checkAmong_told (hengine : engine.Correct good) (h : Encodes session s)
    (hrange : session.InRange) (hmemory : good s.memory) (hcores : session.options.cores = true)
    (ids : List Nat) :
    ∃ answer s', s.checkAmong engine ids = (.ok answer, s') ∧ s'.Told session ids answer ∧
      Encodes session s' ∧ good s'.memory := by
  have hcores' : s.options.cores = true := h.options ▸ hcores
  have hcovers : Covers session s ids := .inl hcores'
  obtain ⟨answer, s', hdecide, htold⟩ := h.decide_told hengine hrange hmemory hcovers
  refine ⟨answer, s', ?_, htold⟩
  rw [checkAmong_of_cores hcores', hdecide]

/-! ## Histories -/

/-- What formulas a session was told, and what it is, after any adding and checking. -/
inductive Reaches (engine : Engine μ) (good : μ → Prop) : Session → SelectorSession μ → Prop where
  | start (varCount : Nat) (options : SessionOptions) {memory : μ} : good memory →
      Reaches engine good (.start varCount options) (start varCount options memory)
  | add {session : Session} {s : SelectorSession μ} {formula : ClauseSet} :
      Reaches engine good session s → formula.InRange session.varCount →
      Reaches engine good (session.add (s.add formula).1 formula) (s.add formula).2
  | check {session : Session} {s : SelectorSession μ} : Reaches engine good session s →
      Reaches engine good session (s.check engine).2
  | checkAmong {session : Session} {s : SelectorSession μ} (ids : List Nat) :
      Reaches engine good session s → Reaches engine good session (s.checkAmong engine ids).2

theorem memory_add (s : SelectorSession μ) (formula : ClauseSet) :
    (s.add formula).2.memory = s.memory := by
  simp only [SelectorSession.add]
  split
  · rfl
  · split <;> rfl

/-- The record stays encoded, its formulas are over the variables of the session, and the memory of
the engine stays a good one. -/
theorem Reaches.sound (hengine : engine.Correct good) (h : Reaches engine good session s) :
    Encodes session s ∧ session.InRange ∧ good s.memory := by
  induction h with
  | start varCount options hmemory => exact ⟨encodes_start _ _ _, nofun, hmemory⟩
  | @add session s formula _ hformula ih =>
    obtain ⟨hs, hrange, hmemory⟩ := ih
    exact ⟨hs.add formula, hrange.add _ hformula, (memory_add s formula).symm ▸ hmemory⟩
  | check _ ih =>
    obtain ⟨hs, hrange, hmemory⟩ := ih
    obtain ⟨answer, s', hcheck, -, hs', hmemory'⟩ := hs.check_told hengine hrange hmemory
    rw [hcheck]
    exact ⟨hs', hrange, hmemory'⟩
  | @checkAmong session s ids _ ih =>
    obtain ⟨hs, hrange, hmemory⟩ := ih
    cases hcores : session.options.cores with
    | true =>
      obtain ⟨answer, s', hcheck, -, hs', hmemory'⟩ :=
        hs.checkAmong_told hengine hrange hmemory hcores ids
      rw [hcheck]
      exact ⟨hs', hrange, hmemory'⟩
    | false =>
      have hrefused : s.checkAmong engine ids = (.error coreless, s) := by
        rw [SelectorSession.checkAmong, hs.options, hcores, if_neg Bool.false_ne_true]
      rw [hrefused]
      exact ⟨hs, hrange, hmemory⟩

/-- The ids that are given are the positions. -/
theorem Reaches.number (hengine : engine.Correct good) (h : Reaches engine good session s)
    {formula : ClauseSet} (hformula : formula.InRange session.varCount) :
    Reaches engine good (session.add session.told.length formula) (s.add formula).2 := by
  have hadded := h.add hformula
  rwa [fst_add, ← (h.sound hengine).1.length_told] at hadded

end SelectorSession

/-- Whether the answer is that the formulas contradict each other. -/
def Answer.isUnsat : Answer → Bool
  | .sat _ => false
  | .unsat _ => true

namespace SelectorSession

variable {μ : Type} {engine : Engine μ} {good : μ → Prop} {session : Session}
  {s : SelectorSession μ}

/-- A session says unsatisfiable exactly if what it was asked about is. -/
theorem Told.isUnsat_iff {ids : List Nat} {answer : Answer} (h : s.Told session ids answer) :
    answer.isUnsat = true ↔ ¬ ClauseSet.Satisfiable (session.among ids) := by
  cases answer with
  | sat => simpa [Answer.isUnsat] using h.1
  | unsat => simpa [Answer.isUnsat] using h.1

/-- A check of all formulas finds out whether they contradict each other. -/
theorem Reaches.isUnsat_check_iff (hengine : engine.Correct good)
    (h : Reaches engine good session s) :
    (s.check engine).1.isUnsat = true ↔ ¬ ClauseSet.Satisfiable session.formulas := by
  obtain ⟨hs, hrange, hmemory⟩ := h.sound hengine
  obtain ⟨answer, s', hcheck, htold, -⟩ := hs.check_told hengine hrange hmemory
  rw [hcheck, htold.isUnsat_iff, hs.among_ids]

/-- **Checks tell the truth after any history.**  Take a session with cores over an engine that
decides rightly, in which formulas were added and checks were made in any order.  A check of some
formulas always has an answer.  It is that they contradict each other exactly if the formulas with
these ids do, where ids may be repeated and unknown ones name none.  If they do not, the session
holds a model of them over its own variables, and no core; if they do, it holds a core, which names
some of the checked formulas that contradict each other.  To check all formulas is the same as to
check those with all the ids that were given, and a session without cores in which the same formulas
were added, over any such engine, gives the same answer. -/
theorem checks_of_reaches (hengine : engine.Correct good) (h : Reaches engine good session s)
    (hcores : session.options.cores = true) :
    (∀ ids, ∃ answer s', s.checkAmong engine ids = (.ok answer, s') ∧
      (answer.isUnsat = true ↔ ¬ ClauseSet.Satisfiable (session.among ids)) ∧
      s'.Told session ids answer) ∧
    s.checkAmong engine session.ids = (.ok (s.check engine).1, (s.check engine).2) ∧
    ((s.check engine).1.isUnsat = true ↔ ¬ ClauseSet.Satisfiable session.formulas) ∧
    ∀ {μ' : Type} {engine' : Engine μ'} {good' : μ' → Prop} {session' : Session}
      {s' : SelectorSession μ'}, engine'.Correct good' → Reaches engine' good' session' s' →
        session'.formulas = session.formulas → session'.options.cores = false →
        (s'.check engine').1.isUnsat = (s.check engine).1.isUnsat := by
  obtain ⟨hs, hrange, hmemory⟩ := h.sound hengine
  refine ⟨?_, ?_, h.isUnsat_check_iff hengine, ?_⟩
  · intro ids
    obtain ⟨answer, s', hcheck, htold, -⟩ := hs.checkAmong_told hengine hrange hmemory hcores ids
    exact ⟨answer, s', hcheck, htold.isUnsat_iff, htold⟩
  · rw [checkAmong_of_cores (hs.options ▸ hcores), check, hs.filterMap_selectors]
  · intro μ' engine' good' session' s' hengine' h' hformulas _
    rw [Bool.eq_iff_iff, h'.isUnsat_check_iff hengine', h.isUnsat_check_iff hengine, hformulas]

/-- A chain of two implications with a formula that says nothing, where a check comes before the
last formula.  Without that one the others hold together, and with it they contradict each other,
whatever else is named and however often. -/
theorem checks_of_reaches_chain :
    let formulas : List ClauseSet :=
      [⟨2, [[⟨0, true⟩]]⟩, ⟨2, []⟩, ⟨2, [[⟨0, false⟩, ⟨1, true⟩]]⟩, ⟨2, [[⟨1, false⟩]]⟩]
    let session (options : SessionOptions) : Session := ⟨2, options, (List.range 4).zip formulas⟩
    let told (options : SessionOptions) : SelectorSession Unit :=
      ((((formulas.take 3).foldl (fun s formula => (s.add formula).2) (start 2 options ())).check
        .exhaustive).2.add ⟨2, [[⟨1, false⟩]]⟩).2
    Engine.exhaustive.Correct (fun _ => True) ∧
    Reaches .exhaustive (fun _ => True) (session ⟨true, true⟩) (told ⟨true, true⟩) ∧
    ((told ⟨true, true⟩).checkAmong .exhaustive [2, 9, 0, 1, 2]).1 =
      .ok (.sat (some [⟨0, true⟩, ⟨1, true⟩])) ∧
    ((told ⟨true, true⟩).checkAmong .exhaustive [3, 0, 9, 2, 0]).1 =
      .ok (.unsat (some [3, 0, 2, 0])) ∧
    ¬ ClauseSet.Satisfiable formulas ∧
    ((told ⟨true, false⟩).check .exhaustive).1.isUnsat = true := by
  intro formulas session told
  have hrange : ∀ set ∈ formulas, set.InRange 2 := by
    simp [formulas, ClauseSet.InRange, Clause.InRange]
  have hreaches (options : SessionOptions) :
      Reaches .exhaustive (fun _ => True) (session options) (told options) := by
    have hengine := Engine.exhaustive_correct
    have hstart : Reaches .exhaustive (fun _ => True) (.start 2 options) (start 2 options ()) :=
      .start 2 options trivial
    have hfirst := hstart.number hengine (hrange ⟨2, [[⟨0, true⟩]]⟩ (by decide))
    have hsecond := hfirst.number hengine (hrange ⟨2, []⟩ (by decide))
    have hthird := hsecond.number hengine (hrange ⟨2, [[⟨0, false⟩, ⟨1, true⟩]]⟩ (by decide))
    exact hthird.check.number hengine (hrange ⟨2, [[⟨1, false⟩]]⟩ (by decide))
  obtain ⟨-, -, hunsat, hsame⟩ :=
    checks_of_reaches Engine.exhaustive_correct (hreaches ⟨true, true⟩) rfl
  have hcheck : ((told ⟨true, true⟩).check .exhaustive).1.isUnsat = true := by decide +kernel
  refine ⟨Engine.exhaustive_correct, hreaches _, by decide +kernel, by decide +kernel,
    hunsat.1 hcheck, ?_⟩
  rw [hsame Engine.exhaustive_correct (hreaches ⟨true, false⟩) rfl rfl, hcheck]

end SelectorSession

/-! ## Backends -/

/-- The session that has been told what a record says comes of adding its formulas, and numbers them
as the backend does. -/
theorem SelectorSession.reaches_ofSession {μ : Type} {engine : Engine μ} {good : μ → Prop}
    (hengine : engine.Correct good) {session : Session}
    (h : (Backend.ofEngine engine).Opened session) {memory : μ} (hmemory : good memory) :
    Reaches engine good session (ofSession session memory) := by
  induction h with
  | start varCount options => exact .start varCount options hmemory
  | @add session formula w _ hformula ih =>
    have hadd : ofSession (session.add session.told.length formula) memory =
        ((ofSession session memory).add formula).2 := by
      rw [ofSession, Session.formulas_add, List.foldl_concat]
      rfl
    have hadded := ih.number hengine hformula
    rwa [← hadd] at hadded

/-- What is told of some formulas is true of them. -/
theorem SelectorSession.Told.supports {μ : Type} {s : SelectorSession μ} {session : Session}
    {ids : List Nat} {answer : Answer} (h : s.Told session ids answer) :
    session.Supports False (session.among ids) (.ok answer) := by
  cases answer with
  | sat model =>
    obtain ⟨hsat, -, -, m, rfl, hmodel, -⟩ := h
    refine ⟨hsat, ?_, nofun⟩
    rintro _ ⟨⟩
    exact hmodel
  | unsat core =>
    obtain ⟨hunsat, -, -, hcore⟩ := h
    refine ⟨hunsat, ?_, ?_⟩
    · rintro blamed rfl
      split at hcore
      · obtain ⟨_, ⟨⟩, hblamed, -⟩ := hcore
        exact hblamed
      · cases hcore
    · rintro hcores rfl
      rw [if_pos hcores] at hcore
      obtain ⟨_, ⟨⟩, -⟩ := hcore

/-- **Sessions with selectors make a correct backend**, over every engine that decides rightly. -/
theorem Backend.ofEngine_correct {μ : Type} {engine : Engine μ} {good : μ → Prop}
    (hengine : engine.Correct good) : (Backend.ofEngine engine).Correct good where
  opening _ _ _ hw := ⟨hw, .inl rfl⟩
  adding _ _ _ hs hw := ⟨hs.opened.length_not_mem_ids (fun _ _ _ => rfl), hw⟩
  checking session w hs hw := by
    obtain ⟨hencodes, hrange, hmemory⟩ :=
      (SelectorSession.reaches_ofSession hengine hs.opened hw).sound hengine
    obtain ⟨answer, s', hcheck, htold, -, hgood⟩ := hencodes.check_told hengine hrange hmemory
    simp only [ofEngine, hcheck]
    exact ⟨hgood, hencodes.among_ids ▸ htold.supports⟩
  checkingAmong session ids w hs hcores hw := by
    obtain ⟨hencodes, hrange, hmemory⟩ :=
      (SelectorSession.reaches_ofSession hengine hs.opened hw).sound hengine
    obtain ⟨answer, s', hcheck, htold, -, hgood⟩ :=
      hencodes.checkAmong_told hengine hrange hmemory hcores ids
    simp only [ofEngine, hcheck]
    exact ⟨hgood, htold.supports⟩

end ProductLine
