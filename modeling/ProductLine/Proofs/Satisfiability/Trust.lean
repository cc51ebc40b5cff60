import Mathlib.Algebra.Group.Nat.Defs
import Mathlib.Data.List.Basic
import Mathlib.Data.Nat.Init
import Mathlib.Tactic.Common
import ProductLine.Satisfiability.Backend
import ProductLine.Proofs.Assignment
import ProductLine.Proofs.Formula.ClauseForm
/-!
# What may be expected of a backend

Statements about the analyses are statements about every backend that tells the truth.

* `ClauseSet.Satisfiable` says that some clause sets hold together;
* `Session.IsModel` says that a list of literals is a model, whatever the variables are that it
  leaves open;
* `Backend.Opened` are the sessions of a backend, in which the ids are those that it gave, and
  `Backend.Keyed` those in which they are all different;
* `Backend.Trusted` says that a backend never gives an id twice, that all its answers are true, and
  whether it may fail to answer;
* `Backend.TrueModels` says only that the models it gives are models;
* `Backend.exhaustive` is a backend that tries all assignments, and `Backend.exhaustive_correct`
  says that it can be trusted.
-/
namespace ProductLine

/-! ## Satisfiability -/

/-- Some valuation of the variables makes all clause sets true. -/
def ClauseSet.Satisfiable (sets : List ClauseSet) : Prop :=
  ∃ v : Nat → Bool, ∀ set ∈ sets, set.eval v = true

/-- A clause depends only on the variables that it has. -/
theorem Clause.InRange.eval_congr {n : Nat} {c : Clause} {v w : Nat → Bool} (hc : c.InRange n)
    (hvw : ∀ i, i < n → v i = w i) : c.eval v = c.eval w := by
  induction c with
  | nil => rfl
  | cons l c ih =>
      rw [eval_cons, eval_cons, ih (fun k hk => hc k (List.mem_cons_of_mem l hk)), Lit.eval,
        Lit.eval, hvw l.var (hc l (List.mem_cons_self ..))]

/-- A clause set depends only on the variables that it has. -/
theorem ClauseSet.InRange.eval_congr {n : Nat} {set : ClauseSet} {v w : Nat → Bool}
    (hset : set.InRange n) (hvw : ∀ i, i < n → v i = w i) : set.eval v = set.eval w := by
  rw [Bool.eq_iff_iff, ClauseSet.eval, ClauseSet.eval, List.all_eq_true, List.all_eq_true]
  constructor
  · intro h c hc
    rw [← (hset c hc).eval_congr hvw]
    exact h c hc
  · intro h c hc
    rw [(hset c hc).eval_congr hvw]
    exact h c hc

/-! ## Sessions -/

/-- In a list of values by keys that are all different, a look-up finds just what is listed. -/
theorem lookup_eq_some_iff {α : Type} {pairs : List (Nat × α)} (h : (pairs.map Prod.fst).Nodup)
    {id : Nat} {x : α} : pairs.lookup id = some x ↔ (id, x) ∈ pairs := by
  induction pairs with
  | nil => simp
  | cons p pairs ih =>
    obtain ⟨key, y⟩ := p
    obtain ⟨hnew, hrest⟩ := List.nodup_cons.1 h
    rw [List.mem_cons, Prod.mk.injEq]
    by_cases hid : id = key
    · subst hid
      have hnot : (id, x) ∉ pairs := fun hmem => hnew (List.mem_map.2 ⟨_, hmem, rfl⟩)
      simp [hnot, eq_comm]
    · simp [List.lookup_cons, beq_eq_false_iff_ne.2 hid, hid, ih hrest]

namespace Session

@[simp] theorem ids_start (varCount : Nat) (options : SessionOptions) :
    (start varCount options).ids = [] := rfl

@[simp] theorem formulas_start (varCount : Nat) (options : SessionOptions) :
    (start varCount options).formulas = [] := rfl

@[simp] theorem ids_add (s : Session) (id : Nat) (formula : ClauseSet) :
    (s.add id formula).ids = s.ids ++ [id] := by
  simp [ids, add]

@[simp] theorem formulas_add (s : Session) (id : Nat) (formula : ClauseSet) :
    (s.add id formula).formulas = s.formulas ++ [formula] := by
  simp [formulas, add]

/-- All formulas of a session are over its variables. -/
def InRange (s : Session) : Prop := ∀ set ∈ s.formulas, set.InRange s.varCount

variable {s : Session} {id : Nat} {set : ClauseSet}

theorem InRange.add (h : s.InRange) (id : Nat) (hset : set.InRange s.varCount) :
    (s.add id set).InRange := by
  rw [InRange, formulas_add]
  exact List.forall_mem_append.2 ⟨h, List.forall_mem_singleton.2 hset⟩

/-- A formula that is looked up is one that was added with the id. -/
theorem mem_told_of_formula? (h : s.formula? id = some set) : (id, set) ∈ s.told := by
  obtain ⟨before, after, htold, -⟩ := List.lookup_eq_some_iff.1 h
  simp [htold]

/-- A clause set is found only under an id that was given. -/
theorem mem_ids_of_formula? (h : s.formula? id = some set) : id ∈ s.ids :=
  List.mem_map_of_mem (mem_told_of_formula? h)

/-- A clause set that is found is one that was told. -/
theorem mem_formulas_of_formula? (h : s.formula? id = some set) : set ∈ s.formulas :=
  List.mem_map_of_mem (mem_told_of_formula? h)

/-- Whatever the ids are, they name formulas of the session. -/
theorem mem_formulas_of_mem_among {ids : List Nat} (h : set ∈ s.among ids) : set ∈ s.formulas := by
  obtain ⟨id, -, hid⟩ := List.mem_filterMap.1 h
  exact mem_formulas_of_formula? hid

/-- Under a new id there is just the formula that is added. -/
theorem formula?_add_eq_some_iff {new : Nat} {formula : ClauseSet} (hnew : new ∉ s.ids) :
    (s.add new formula).formula? id = some set ↔
      s.formula? id = some set ∨ id = new ∧ set = formula := by
  have hlookup : (s.add new formula).formula? id =
      (s.formula? id).or (List.lookup id [(new, formula)]) := List.lookup_append
  rw [hlookup]
  by_cases hid : id = new
  · subst hid
    have hnone : s.formula? id = none :=
      Option.eq_none_iff_forall_ne_some.2 fun _ h => hnew (mem_ids_of_formula? h)
    simp [hnone, eq_comm]
  · simp [List.lookup_cons, beq_eq_false_iff_ne.2 hid, hid]

/-- Ids that are told apart name all formulas. -/
theorem among_ids (h : s.ids.Nodup) : s.among s.ids = s.formulas := by
  have hfound : ∀ p ∈ s.told, s.formula? p.1 = some p.2 :=
    fun p hp => (lookup_eq_some_iff h).2 hp
  rw [among, ids, formulas, List.filterMap_map]
  exact List.filterMap_eq_map_iff_forall_eq_some.2 hfound

end Session

/-- What is asked when all formulas of a session are checked.  The ids of the formulas are no part
of it. -/
structure Question where
  varCount : Nat
  options : SessionOptions
  formulas : List ClauseSet
deriving DecidableEq, Repr

/-- The question whether all formulas of a session hold together. -/
def Session.question (s : Session) : Question := ⟨s.varCount, s.options, s.formulas⟩

/-- What the sessions of a backend are: formulas over the variables were added, each with the id
that the backend gave it in some world. -/
inductive Backend.Opened {ω : Type} (b : Backend ω) : Session → Prop where
  | start (varCount : Nat) (options : SessionOptions) : b.Opened (.start varCount options)
  | add {s : Session} {formula : ClauseSet} (w : ω) : b.Opened s → formula.InRange s.varCount →
      b.Opened (s.add (b.adding s formula w).1 formula)

namespace Backend.Opened

variable {ω : Type} {b : Backend ω} {s : Session}

/-- What a backend is told is in range from the start on. -/
theorem inRange (h : b.Opened s) : s.InRange := by
  induction h with
  | start => exact List.forall_mem_nil _
  | add w _ hformula ih => exact ih.add _ hformula

/-- Only the ids that are given matter. -/
theorem of_adding {ω' : Type} {b' : Backend ω'} (h : b.Opened s)
    (hadding : ∀ s set w, ∃ w', (b'.adding s set w').1 = (b.adding s set w).1) : b'.Opened s := by
  induction h with
  | start varCount options => exact .start varCount options
  | @add s formula w _ hformula ih =>
    obtain ⟨w', hw'⟩ := hadding s formula w
    rw [← hw']
    exact .add w' ih hformula

/-- A backend that gives every formula its position as id numbers the formulas. -/
theorem ids_eq_range (h : b.Opened s)
    (hadding : ∀ s set w, (b.adding s set w).1 = s.told.length) :
    s.ids = List.range s.told.length := by
  induction h with
  | start => rfl
  | add w _ _ ih =>
    rw [Session.ids_add, ih, hadding, ← List.range_succ]
    simp [Session.add]

/-- The ids that such a backend gives are new ones. -/
theorem length_not_mem_ids (h : b.Opened s)
    (hadding : ∀ s set w, (b.adding s set w).1 = s.told.length) : s.told.length ∉ s.ids := by
  rw [h.ids_eq_range hadding]
  exact List.not_mem_range_self

end Backend.Opened

/-- A session of the backend in which no two formulas have the same id. -/
structure Backend.Keyed {ω : Type} (b : Backend ω) (s : Session) : Prop where
  opened : b.Opened s
  nodup : s.ids.Nodup

namespace Backend.Keyed

variable {ω : Type} {b : Backend ω} {s : Session}

theorem start (varCount : Nat) (options : SessionOptions) : b.Keyed (.start varCount options) :=
  ⟨.start varCount options, List.nodup_nil⟩

/-- A new id keeps the formulas apart. -/
theorem add {formula : ClauseSet} {w : ω} (h : b.Keyed s) (hformula : formula.InRange s.varCount)
    (hnew : (b.adding s formula w).1 ∉ s.ids) :
    b.Keyed (s.add (b.adding s formula w).1 formula) := by
  refine ⟨.add w h.opened hformula, ?_⟩
  rw [Session.ids_add, List.nodup_append]
  exact ⟨h.nodup, by simp, by simpa using fun id hid => ne_of_mem_of_not_mem hid hnew⟩

end Backend.Keyed

/-! ## Models -/

namespace Session

/-- The literals do not contradict each other, and every valuation of the variables that makes them
true makes the formulas true. -/
structure IsModel (s : Session) (sets : List ClauseSet) (model : List Lit) : Prop where
  consistent : ∀ l ∈ model, l.negate ∉ model
  satisfies : ∀ v : Nat → Bool, (∀ l ∈ model, l.var < s.varCount → l.eval v = true) →
    ∀ set ∈ sets, set.eval v = true

end Session

/-- The assignment of a model satisfies the formulas: what the model leaves open does not matter. -/
theorem Session.IsModel.eval_ofModel {s : Session} {sets : List ClauseSet} {model : List Lit}
    (h : s.IsModel sets model) {set : ClauseSet} (hset : set ∈ sets) :
    set.eval (Assignment.ofModel model s.varCount).valuation = true := by
  refine h.satisfies _ ?_ set hset
  -- The assignment is one of the valuations that make the model true.
  intro l hl hvar
  rw [Lit.eval, Assignment.valuation_ofModel h.consistent hl hvar, beq_self_eq_true]

/-! ## Answers -/

/-- What a backend may answer when it checks some formulas of a session: satisfiable formulas are
so, in the model if there is one, and unsatisfiable ones are not, nor are those that the core names.
Only a `fallible` backend may fail, or leave out a model or core for which the session was
opened. -/
def Session.Supports (s : Session) (fallible : Prop) (sets : List ClauseSet) :
    Except BackendError Answer → Prop
  | .ok (.sat model) =>
      ClauseSet.Satisfiable sets ∧ (∀ m, model = some m → s.IsModel sets m) ∧
        (s.options.models = true → model = none → fallible)
  | .ok (.unsat core) =>
      ¬ ClauseSet.Satisfiable sets ∧
        (∀ ids, core = some ids → ¬ ClauseSet.Satisfiable (s.among ids)) ∧
        (s.options.cores = true → core = none → fallible)
  | .error _ => fallible

/-- What may be answered stays so if failures become possible. -/
theorem Session.Supports.mono {s : Session} {fallible fallible' : Prop} {sets : List ClauseSet}
    {answer : Except BackendError Answer} (h : s.Supports fallible sets answer)
    (hfallible : fallible → fallible') : s.Supports fallible' sets answer := by
  rcases answer with _ | _ | _
  · exact hfallible h
  · exact ⟨h.1, h.2.1, fun hmodels hnone => hfallible (h.2.2 hmodels hnone)⟩
  · exact ⟨h.1, h.2.1, fun hcores hnone => hfallible (h.2.2 hcores hnone)⟩

/-- A backend that tells the truth in all good worlds, and leads from good worlds to good ones.  It
never gives an id twice in a session.  Only a `fallible` one may refuse to open a session or to
answer. -/
structure Backend.Trusted {ω : Type} (b : Backend ω) (good : ω → Prop) (fallible : Prop) :
    Prop where
  opening : ∀ varCount options w, good w → good (b.opening varCount options w).2 ∧
    ((b.opening varCount options w).1 = .ok () ∨ fallible)
  adding : ∀ s set w, b.Keyed s → good w →
    (b.adding s set w).1 ∉ s.ids ∧ good (b.adding s set w).2
  checking : ∀ s w, b.Keyed s → good w → good (b.checking s w).2 ∧
    s.Supports fallible s.formulas (b.checking s w).1
  checkingAmong : ∀ s ids w, b.Keyed s → s.options.cores = true → good w →
    good (b.checkingAmong s ids w).2 ∧
      s.Supports fallible (s.among ids) (b.checkingAmong s ids w).1

/-- A backend that tells the truth and never fails to answer. -/
abbrev Backend.Correct {ω : Type} (b : Backend ω) (good : ω → Prop) : Prop := b.Trusted good False

/-- A backend that can be trusted whatever was logged can be trusted. -/
theorem Backend.Trusted.of_log {ω τ : Type} {b : Backend ω} {good : ω → Prop} {fallible : Prop}
    {log : ω → τ} (h : ∀ x, b.Trusted (fun w => good w ∧ log w = x) fallible) :
    b.Trusted good fallible where
  opening varCount options w hw :=
    have hopened := (h (log w)).opening varCount options w ⟨hw, rfl⟩
    ⟨hopened.1.1, hopened.2⟩
  adding s set w hs hw :=
    have hadded := (h (log w)).adding s set w hs ⟨hw, rfl⟩
    ⟨hadded.1, hadded.2.1⟩
  checking s w hs hw :=
    have hanswer := (h (log w)).checking s w hs ⟨hw, rfl⟩
    ⟨hanswer.1.1, hanswer.2⟩
  checkingAmong s ids w hs hcores hw :=
    have hanswer := (h (log w)).checkingAmong s ids w hs hcores ⟨hw, rfl⟩
    ⟨hanswer.1.1, hanswer.2⟩

/-- A backend whose models are models in all good worlds, and that leads from good worlds to good
ones.  It may refuse and fail as it likes, and whatever else it says need not be true. -/
structure Backend.TrueModels {ω : Type} (b : Backend ω) (good : ω → Prop) : Prop where
  opening : ∀ varCount options w, good w → good (b.opening varCount options w).2
  adding : ∀ s set w, b.Opened s → good w → good (b.adding s set w).2
  checking : ∀ s w, b.Opened s → good w → good (b.checking s w).2 ∧
    ∀ model, (b.checking s w).1 = .ok (.sat (some model)) → s.IsModel s.formulas model

/-- The sessions of a backend that acts on the first half of a world are those of the backend. -/
theorem Backend.Opened.of_besides {ω τ : Type} {b : Backend ω} {s : Session}
    (h : (b.besides τ).Opened s) : b.Opened s :=
  h.of_adding fun _ _ w => ⟨w.1, rfl⟩

/-- A backend beside something else gives the same ids. -/
theorem Backend.Keyed.of_besides {ω τ : Type} {b : Backend ω} {s : Session}
    (h : (b.besides τ).Keyed s) : b.Keyed s :=
  ⟨h.opened.of_besides, h.nodup⟩

/-- A backend that acts on the first half of a world finds the same models, and keeps whatever is
true of the second half. -/
theorem Backend.TrueModels.besides_keeping {ω τ : Type} {b : Backend ω} {good : ω → Prop}
    (h : b.TrueModels good) (kept : τ → Prop) :
    (b.besides τ).TrueModels (fun w => good w.1 ∧ kept w.2) where
  opening varCount options w hw := ⟨h.opening varCount options w.1 hw.1, hw.2⟩
  adding s set w hs hw := ⟨h.adding s set w.1 hs.of_besides hw.1, hw.2⟩
  checking s w hs hw :=
    have hanswer := h.checking s w.1 hs.of_besides hw.1
    ⟨⟨hanswer.1, hw.2⟩, hanswer.2⟩

/-- A backend that acts on the first half of a world can be trusted like itself, and keeps whatever
is true of the second half. -/
theorem Backend.Trusted.besides_keeping {ω τ : Type} {b : Backend ω} {good : ω → Prop}
    {fallible : Prop} (h : b.Trusted good fallible) (kept : τ → Prop) :
    (b.besides τ).Trusted (fun w => good w.1 ∧ kept w.2) fallible where
  opening varCount options w hw :=
    have hopened := h.opening varCount options w.1 hw.1
    ⟨⟨hopened.1, hw.2⟩, hopened.2⟩
  adding s set w hs hw :=
    have hadded := h.adding s set w.1 hs.of_besides hw.1
    ⟨hadded.1, hadded.2, hw.2⟩
  checking s w hs hw :=
    have hanswer := h.checking s w.1 hs.of_besides hw.1
    ⟨⟨hanswer.1, hw.2⟩, hanswer.2⟩
  checkingAmong s ids w hs hcores hw :=
    have hanswer := h.checkingAmong s ids w.1 hs.of_besides hcores hw.1
    ⟨⟨hanswer.1, hw.2⟩, hanswer.2⟩

/-- In particular it leaves the second half as it is. -/
theorem Backend.Trusted.besides {ω τ : Type} {b : Backend ω} {good : ω → Prop} {fallible : Prop}
    (h : b.Trusted good fallible) (x : τ) :
    (b.besides τ).Trusted (fun w => good w.1 ∧ w.2 = x) fallible :=
  h.besides_keeping (· = x)

/-! ## A backend that tries everything -/

namespace Backend

/-- The literals that are true when the bits of a number are the values of the variables. -/
def literalsOf (varCount bits : Nat) : List Lit :=
  (List.range varCount).map (fun i => ⟨i, bits.testBit i⟩)

/-- Tries all values of the variables; if none fit, all of the ids are blamed. -/
def tryAll (varCount : Nat) (sets : List ClauseSet) (ids : List Nat) : Answer :=
  match (List.range (2 ^ varCount)).find? (fun bits => sets.all (ClauseSet.eval bits.testBit)) with
  | some bits => .sat (some (literalsOf varCount bits))
  | none => .unsat (some ids)

/-- The backend that tries all values of the variables, and numbers the formulas. -/
def exhaustive : Backend Unit where
  opening _ _ w := (.ok (), w)
  adding s _ w := (s.told.length, w)
  checking s w := (.ok (tryAll s.varCount s.formulas s.ids), w)
  checkingAmong s ids w := (.ok (tryAll s.varCount (s.among ids) ids), w)

/-- Each variable has the literal that its bit asks for. -/
theorem mem_literalsOf {varCount bits : Nat} {l : Lit} :
    l ∈ literalsOf varCount bits ↔ l.var < varCount ∧ l.positive = bits.testBit l.var := by
  rw [literalsOf, List.mem_map]
  constructor
  · rintro ⟨i, hi, rfl⟩
    exact ⟨List.mem_range.1 hi, rfl⟩
  · rintro ⟨hvar, hsign⟩
    refine ⟨l.var, List.mem_range.2 hvar, ?_⟩
    rw [← hsign]

/-- Bits that make the clause sets true are a model of them. -/
theorem isModel_literalsOf {s : Session} {sets : List ClauseSet} {bits : Nat}
    (hsets : ∀ set ∈ sets, set.InRange s.varCount)
    (hbits : ∀ set ∈ sets, set.eval bits.testBit = true) :
    s.IsModel sets (literalsOf s.varCount bits) := by
  constructor
  · intro l hl hnegate
    have hsign := (mem_literalsOf.1 hl).2
    have hopposite := (mem_literalsOf.1 hnegate).2
    simp [Lit.negate, hsign] at hopposite
  · intro v hv set hset
    -- Nothing is left open: the valuation is that of the bits on all variables of the session.
    rw [← hbits set hset]
    apply (hsets set hset).eval_congr
    intro i hi
    have hlit := hv ⟨i, bits.testBit i⟩ (mem_literalsOf.2 ⟨hi, rfl⟩) hi
    exact beq_iff_eq.1 hlit

/-- The values of the first variables are the bits of one of the numbers that are tried. -/
theorem exists_bits (varCount : Nat) (v : Nat → Bool) :
    ∃ bits ∈ List.range (2 ^ varCount), ∀ i, i < varCount → bits.testBit i = v i := by
  refine ⟨Nat.ofBits (fun i : Fin varCount => v i), ?_, ?_⟩
  · exact List.mem_range.2 (Nat.ofBits_lt_two_pow _)
  · intro i hi
    exact Nat.testBit_ofBits_lt _ i hi

/-- A model that is found by trying is one. -/
theorem isModel_of_tryAll {s : Session} {sets : List ClauseSet} {ids : List Nat} {model : List Lit}
    (hsets : ∀ set ∈ sets, set.InRange s.varCount)
    (h : tryAll s.varCount sets ids = .sat (some model)) : s.IsModel sets model := by
  unfold tryAll at h
  split at h
  · rename_i bits hfound
    cases h
    exact isModel_literalsOf hsets (List.all_eq_true.1 (by simpa using List.find?_some hfound))
  · cases h

/-- Trying all values finds out the truth. -/
theorem supports_tryAll {s : Session} {sets : List ClauseSet} {ids : List Nat}
    (hsets : ∀ set ∈ sets, set.InRange s.varCount) (hids : s.among ids = sets) :
    s.Supports False sets (.ok (tryAll s.varCount sets ids)) := by
  rw [tryAll]
  split
  · rename_i bits hfound
    have hbits : ∀ set ∈ sets, set.eval bits.testBit = true :=
      List.all_eq_true.1 (by simpa using List.find?_some hfound)
    refine ⟨⟨bits.testBit, hbits⟩, ?_, by simp⟩
    rintro m hm
    cases hm
    exact isModel_literalsOf hsets hbits
  · rename_i hnone
    have hunsat : ¬ ClauseSet.Satisfiable sets := by
      rintro ⟨v, hv⟩
      obtain ⟨bits, htried, hbits⟩ := exists_bits s.varCount v
      apply List.find?_eq_none.1 hnone bits htried
      rw [List.all_eq_true]
      intro set hset
      rw [(hsets set hset).eval_congr hbits]
      exact hv set hset
    refine ⟨hunsat, ?_, by simp⟩
    rintro ids' hids'
    cases hids'
    rwa [hids]

/-- **Trying all values is a correct way to answer.** -/
theorem exhaustive_correct : exhaustive.Correct (fun _ => True) where
  opening _ _ _ _ := ⟨trivial, .inl rfl⟩
  adding _ _ _ hs _ := ⟨hs.opened.length_not_mem_ids (fun _ _ _ => rfl), trivial⟩
  checking _ _ hs _ := ⟨trivial, supports_tryAll hs.opened.inRange (Session.among_ids hs.nodup)⟩
  checkingAmong s ids _ hs _ _ := by
    have hrange : ∀ set ∈ s.among ids, set.InRange s.varCount :=
      fun set hset => hs.opened.inRange set (Session.mem_formulas_of_mem_among hset)
    exact ⟨trivial, supports_tryAll hrange rfl⟩

/-- The backend that tries all values as many times as its world says, and then times out. -/
def tiring : Backend Nat where
  opening varCount options w := ((exhaustive.opening varCount options ()).1, w)
  adding s set w := ((exhaustive.adding s set ()).1, w)
  checking s w := (if w = 0 then .error .timeout else (exhaustive.checking s ()).1, w - 1)
  checkingAmong s ids w :=
    (if w = 0 then .error .timeout else (exhaustive.checkingAmong s ids ()).1, w - 1)

/-- Its sessions are those of the backend that never tires. -/
theorem Keyed.of_tiring {s : Session} (h : tiring.Keyed s) : exhaustive.Keyed s :=
  ⟨h.opened.of_adding fun _ _ _ => ⟨(), rfl⟩, h.nodup⟩

/-- Its models are models, whatever the ids are. -/
theorem isModel_of_tiring {s : Session} (hs : s.InRange) {w : Nat} {model : List Lit}
    (h : (tiring.checking s w).1 = .ok (.sat (some model))) : s.IsModel s.formulas model := by
  simp only [tiring, exhaustive] at h
  split at h
  · cases h
  · exact isModel_of_tryAll hs (Except.ok.inj h)

/-- It tells the truth as long as it answers. -/
theorem tiring_trusted : tiring.Trusted (fun _ => True) True where
  opening _ _ _ _ := ⟨trivial, .inl rfl⟩
  adding s set _ hs _ := ⟨(exhaustive_correct.adding s set () hs.of_tiring trivial).1, trivial⟩
  checking s w hs _ := by
    refine ⟨trivial, ?_⟩
    simp only [tiring]
    split
    · exact trivial
    · exact (exhaustive_correct.checking s () hs.of_tiring trivial).2.mono False.elim
  checkingAmong s ids w hs hcores _ := by
    refine ⟨trivial, ?_⟩
    simp only [tiring]
    split
    · exact trivial
    · have hanswer := exhaustive_correct.checkingAmong s ids () hs.of_tiring hcores trivial
      exact hanswer.2.mono False.elim

end Backend

end ProductLine
